import EscapeAnalysis.Proofs.Types.Spelling
import EscapeAnalysis.TypeStore.Pointers
import Mathlib.Logic.Relation

/-!
# Stores that grow

Interning more types into a store changes nothing that can be asked about the types that are there, and a type that
was interned is found again.

* `TypeStore.Grows s t` : types were interned;
* `Grows.compound?`, `Grows.intern` : what is there stays, and is found;
* `Grows.hasPointers`, `Grows.text` : the questions whose answers take a search.
-/

namespace EscapeAnalysis.TypeStore

open Relation (ReflTransGen)

/-- Types were interned. -/
def Grows : TypeStore → TypeStore → Prop := ReflTransGen fun s t => ∃ c, t = (s.intern c).2

theorem Grows.refl (s : TypeStore) : s.Grows s := ReflTransGen.refl

theorem Grows.trans {s t u : TypeStore} (h₁ : s.Grows t) (h₂ : t.Grows u) : s.Grows u := ReflTransGen.trans h₁ h₂

theorem grows_intern (s : TypeStore) (c : Compound) : s.Grows (s.intern c).2 := ReflTransGen.single ⟨c, rfl⟩

section Growth

variable {s t : TypeStore} (h : s.Grows t)
include h

theorem Grows.size_le : s.compounds.size ≤ t.compounds.size := by
  induction h with
  | refl => exact Nat.le_refl _
  | tail _ hc ih =>
    obtain ⟨c, rfl⟩ := hc
    exact Nat.le_trans ih (size_le_intern _ c)

theorem Grows.has {ty : Ty} (hty : s.Has ty) : t.Has ty := Ty.Below.mono hty h.size_le

theorem Grows.getElem? {i : Nat} (hi : i < s.compounds.size) : t.compounds[i]? = s.compounds[i]? := by
  induction h with
  | refl => rfl
  | tail hst hc ih =>
    obtain ⟨c, rfl⟩ := hc
    rw [← ih]
    unfold intern
    split
    · rfl
    · rw [getElem?_append, if_neg (Nat.ne_of_lt (Nat.lt_of_lt_of_le hi (Grows.size_le hst)))]

theorem Grows.compound? {ty : Ty} (hty : s.Has ty) : t.compound? ty = s.compound? ty := by
  cases ty with
  | compound id => exact h.getElem? (has_compound.1 hty)
  | _ => rfl

theorem Grows.find? {c : Compound} {id : CompoundId} (hc : s.find? c = some id) : t.find? c = some id := by
  induction h with
  | refl => exact hc
  | tail _ hd ih =>
    obtain ⟨d, rfl⟩ := hd
    unfold intern
    split
    · exact ih
    · rename_i hnone
      have hne : (c == d) = false := by
        refine beq_false_of_ne fun he => ?_
        rw [← he, ih] at hnone
        cases hnone
      change List.lookup c ((d, _) :: _) = _
      rw [List.lookup_cons, hne]
      exact ih

theorem Grows.isArray {ty : Ty} (hty : s.Has ty) : t.isArray ty = s.isArray ty := by
  unfold TypeStore.isArray arrayDef?
  rw [h.compound? hty]

theorem Grows.isSlice {ty : Ty} (hty : s.Has ty) : t.isSlice ty = s.isSlice ty := by
  unfold TypeStore.isSlice
  rw [h.compound? hty]

theorem Grows.deref? {ty : Ty} (hty : s.Has ty) : t.deref? ty = s.deref? ty := by
  unfold TypeStore.deref?
  rw [h.compound? hty]

theorem Grows.elem? {ty : Ty} (hty : s.Has ty) : t.elem? ty = s.elem? ty := by
  unfold TypeStore.elem?
  rw [h.compound? hty]

theorem Grows.funcDef? {ty : Ty} (hty : s.Has ty) : t.funcDef? ty = s.funcDef? ty := by
  unfold TypeStore.funcDef?
  rw [h.compound? hty]

end Growth

theorem find?_intern (s : TypeStore) (c : Compound) :
    ∃ id, (s.intern c).1 = .compound id ∧ (s.intern c).2.find? c = some id := by
  unfold intern
  split
  · rename_i id hid
    exact ⟨id, rfl, hid⟩
  · refine ⟨⟨s.compounds.size⟩, rfl, ?_⟩
    change List.lookup c ((c, _) :: _) = _
    rw [List.lookup_cons, beq_self_eq_true]

/-- The index of a store that grew from a sound one tells what is there. -/
theorem Grows.compound?_of_find? {s t : TypeStore} (h : s.Grows t) (hs : s.Sound) {c : Compound} {id : CompoundId}
    (hc : t.find? c = some id) : t.compound? (.compound id) = some c := by
  induction h with
  | refl => exact TypeStore.compound?_of_find? hs hc
  | @tail u _ hu hd ih =>
    obtain ⟨d, rfl⟩ := hd
    have hold (hc : u.find? c = some id) : (u.intern d).2.compound? (.compound id) = some c := by
      have hget := ih hc
      rw [(u.grows_intern d).compound? (has_compound.2 (lt_of_getElem? hget)), hget]
    by_cases hd : u.find? c = some id
    · exact hold hd
    · unfold TypeStore.intern at hc ⊢
      split at hc
      · exact absurd hc hd
      · change List.lookup c ((d, _) :: _) = _ at hc
        rw [List.lookup_cons] at hc
        split at hc
        · rename_i hcd
          cases hc
          rw [beq_iff_eq.1 hcd]
          exact (u.getElem?_append d _).trans (if_pos rfl)
        · exact absurd hc hd

theorem Grows.compound?_intern {s t : TypeStore} (h : s.Grows t) (hs : s.Sound) (c : Compound) :
    (t.intern c).2.compound? (t.intern c).1 = some c := by
  obtain ⟨id, hid, hfind⟩ := t.find?_intern c
  rw [hid]
  exact (h.trans (t.grows_intern c)).compound?_of_find? hs hfind

/-! ## Pointers -/

theorem foldl_eq_of_invariant {α β : Type} {f g : β → α → β} {P : β → Prop} {xs : List α}
    (hf : ∀ b, P b → ∀ x ∈ xs, P (f b x)) (h : ∀ b, P b → ∀ x ∈ xs, g b x = f b x) {b : β} (hb : P b) :
    xs.foldl g b = xs.foldl f b := by
  induction xs generalizing b with
  | nil => rfl
  | cons x xs ih =>
    rw [List.foldl_cons, List.foldl_cons, h b hb x List.mem_cons_self]
    refine ih (fun b hb y hy => hf b hb y (List.mem_cons_of_mem _ hy))
      (fun b hb y hy => h b hb y (List.mem_cons_of_mem _ hy)) (hf b hb x List.mem_cons_self)

theorem foldl_invariant {α β : Type} {f : β → α → β} {P : β → Prop} {xs : List α}
    (hf : ∀ b, P b → ∀ x ∈ xs, P (f b x)) {b : β} (hb : P b) : P (xs.foldl f b) := by
  induction xs generalizing b with
  | nil => exact hb
  | cons x xs ih =>
    exact ih (fun b hb y hy => hf b hb y (List.mem_cons_of_mem _ hy)) (hf b hb x List.mem_cons_self)

/-- A search leaves nothing it entered. -/
theorem subset_pointerSearch (s : TypeStore) (fuel : Nat) (ty : Ty) (entered : List CompoundId) :
    entered ⊆ (s.pointerSearch fuel ty entered).2 := by
  induction fuel generalizing ty entered with
  | zero => cases ty <;> exact List.Subset.refl _
  | succ fuel ih =>
    cases ty with
    | compound id =>
      unfold pointerSearch
      have hcons := List.subset_cons_self id entered
      split
      · exact List.Subset.refl _
      · split
        · exact hcons
        · split
          · exact hcons
          · exact List.Subset.trans hcons (ih _ _)
        · refine foldl_invariant (P := fun b : Bool × List CompoundId => entered ⊆ b.2) ?_ hcons
          intro b hb field _
          dsimp only
          split
          · exact hb
          · exact List.Subset.trans hb (ih _ _)
        · exact hcons
    | _ => exact List.Subset.refl _

/-- How many compounds were not entered. -/
def room (s : TypeStore) (entered : List CompoundId) : Nat :=
  (List.range s.compounds.size).countP fun i => ⟨i⟩ ∉ entered

theorem room_mono (s : TypeStore) {entered entered' : List CompoundId} (h : entered ⊆ entered') :
    s.room entered' ≤ s.room entered := by
  refine List.countP_mono_left fun i _ hi => ?_
  simp only [decide_eq_true_eq] at hi ⊢
  exact fun hmem => hi (h hmem)

theorem room_cons_lt (s : TypeStore) {id : CompoundId} (hid : id.index < s.compounds.size) {entered : List CompoundId}
    (h : id ∉ entered) : s.room (id :: entered) < s.room entered := by
  unfold room
  have hsplit (p : Nat → Bool) : (List.range s.compounds.size).countP p =
      ((List.range s.compounds.size).erase id.index).countP p + if p id.index then 1 else 0 := by
    rw [(List.perm_cons_erase (List.mem_range.2 hid)).countP_eq, List.countP_cons]
  have hle : ((List.range s.compounds.size).erase id.index).countP (fun i => decide (⟨i⟩ ∉ id :: entered)) ≤
      ((List.range s.compounds.size).erase id.index).countP fun i => decide (⟨i⟩ ∉ entered) := by
    refine List.countP_mono_left fun i _ hi => ?_
    simp only [decide_eq_true_eq] at hi ⊢
    exact fun hmem => hi (List.mem_cons_of_mem _ hmem)
  rw [hsplit, hsplit fun i => decide (⟨i⟩ ∉ entered), if_neg (by simp), if_pos (decide_eq_true h)]
  exact Nat.lt_succ_of_le hle

/-- Fuel for all compounds that were not entered is enough. -/
theorem pointerSearch_succ {s : TypeStore} (hs : s.Sound) {fuel : Nat} {ty : Ty} (hty : s.Has ty)
    {entered : List CompoundId} (h : s.room entered < fuel) :
    s.pointerSearch (fuel + 1) ty entered = s.pointerSearch fuel ty entered := by
  induction fuel generalizing ty entered with
  | zero => exact absurd h (Nat.not_lt_zero _)
  | succ fuel ih =>
    cases ty with
    | compound id =>
      unfold pointerSearch
      split
      · rfl
      · rename_i hid
        have hroom : s.room (id :: entered) < fuel :=
          Nat.lt_of_lt_of_le (s.room_cons_lt (has_compound.1 hty) hid) (Nat.le_of_lt_succ h)
        split
        · rfl
        · rename_i elem len hc
          rw [ih (hs.parts _ _ hc elem (by simp [Compound.parts])) hroom]
        · rename_i name fields hc
          refine foldl_eq_of_invariant (P := fun b : Bool × List CompoundId => id :: entered ⊆ b.2) ?_ ?_
            (List.Subset.refl _)
          · intro b hb field _
            dsimp only
            split
            · exact hb
            · exact List.Subset.trans hb (s.subset_pointerSearch _ _ _)
          · intro b hb field hfield
            have hhas := hs.parts _ _ hc field.ty (List.mem_map_of_mem hfield)
            dsimp only
            rw [ih hhas (Nat.lt_of_le_of_lt (s.room_mono hb) hroom)]
        · rfl
    | _ => rfl

theorem pointerSearch_add {s : TypeStore} (hs : s.Sound) {fuel : Nat} (extra : Nat) {ty : Ty} (hty : s.Has ty)
    {entered : List CompoundId} (h : s.room entered < fuel) :
    s.pointerSearch (fuel + extra) ty entered = s.pointerSearch fuel ty entered := by
  induction extra with
  | zero => rfl
  | succ extra ih => rw [← ih, ← Nat.add_assoc, pointerSearch_succ hs hty (Nat.lt_add_right extra h)]

/-- A search that stays among the types of the smaller store does the same in both. -/
theorem Grows.pointerSearch {s t : TypeStore} (h : s.Grows t) (hs : s.Sound) (fuel : Nat) {ty : Ty} (hty : s.Has ty)
    (entered : List CompoundId) : t.pointerSearch fuel ty entered = s.pointerSearch fuel ty entered := by
  induction fuel generalizing ty entered with
  | zero => cases ty <;> rfl
  | succ fuel ih =>
    cases ty with
    | compound id =>
      unfold TypeStore.pointerSearch
      rw [h.getElem? (has_compound.1 hty)]
      split
      · rfl
      · split
        · rfl
        · rename_i elem len hc
          rw [ih (hs.parts _ _ hc elem (by simp [Compound.parts]))]
        · rename_i name fields hc
          refine foldl_eq_of_invariant (P := fun _ => True) (fun _ _ _ _ => trivial) (fun b _ field hfield => ?_) trivial
          dsimp only
          rw [ih (hs.parts _ _ hc field.ty (List.mem_map_of_mem hfield))]
        · rfl
    | _ => rfl

theorem room_nil_lt (s : TypeStore) : s.room [] < s.compounds.size + 1 := by
  have hle := List.countP_le_length (p := fun i => decide ((⟨i⟩ : CompoundId) ∉ [])) (l := List.range s.compounds.size)
  rw [List.length_range] at hle
  exact Nat.lt_succ_of_le hle

theorem Grows.hasPointers {s t : TypeStore} (h : s.Grows t) (hs : s.Sound) {ty : Ty} (hty : s.Has ty) :
    t.hasPointers ty = s.hasPointers ty := by
  unfold TypeStore.hasPointers
  obtain ⟨extra, hextra⟩ := Nat.exists_eq_add_of_le h.size_le
  rw [h.pointerSearch hs _ hty, hextra, Nat.add_right_comm, pointerSearch_add hs extra hty s.room_nil_lt]

/-! ## Text -/

/-- The parts of a compound that is no struct are older than the compound, so the text of a type nests no deeper than
its number. -/
theorem Grows.textAt {s t : TypeStore} (h : s.Grows t) (hs : s.Sound) {fuel fuel' : Nat} {ty : Ty} (hty : s.Has ty)
    (hfuel : ty.Below fuel) (hfuel' : ty.Below fuel') : t.textAt fuel' ty = s.textAt fuel ty := by
  induction fuel generalizing fuel' ty with
  | zero =>
    cases ty with
    | compound id => exact absurd (hfuel id rfl) (Nat.not_lt_zero _)
    | _ => cases fuel' <;> rfl
  | succ fuel ih =>
    cases ty with
    | compound id =>
      cases fuel' with
      | zero => exact absurd (hfuel' id rfl) (Nat.not_lt_zero _)
      | succ fuel' =>
        have hle := Nat.le_of_lt_succ (hfuel id rfl)
        have hle' := Nat.le_of_lt_succ (hfuel' id rfl)
        have hlt := has_compound.1 hty
        obtain ⟨c, hc⟩ : ∃ c, s.compounds[id.index]? = some c := ⟨_, Array.getElem?_eq_getElem hlt⟩
        have hc' : t.compounds[id.index]? = some c := by rw [h.getElem? hlt, hc]
        have hspell := (spell_asked_of_elem? fun part hpart => h.elem? (hs.parts _ _ hc part hpart)).2
        rw [textAt_succ hc, textAt_succ hc', hspell]
        apply spell_congr
        intro part hpart
        have hold := Ordered.below_asked hs.older hc part hpart
        exact ih (hold.mono (Nat.le_of_lt hlt)) (hold.mono hle) (hold.mono hle')
    | _ => cases fuel' <;> rfl

theorem Grows.text {s t : TypeStore} (h : s.Grows t) (hs : s.Sound) {ty : Ty} (hty : s.Has ty) :
    t.text ty = s.text ty :=
  h.textAt hs hty (Ty.Below.mono hty (Nat.le_succ _)) ((h.has hty).mono (Nat.le_succ _))

end EscapeAnalysis.TypeStore

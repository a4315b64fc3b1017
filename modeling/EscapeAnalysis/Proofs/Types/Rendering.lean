import EscapeAnalysis.Proofs.Types.PointerChains

/-!
# Texts of types come to an end

A struct may contain itself, so following the parts of types need not come to an end. The text of a type does not follow
the fields of structs, and all other parts are older than what is made of them.

* `TypeStore.Rendered` : the text of a type as the tree of the texts that it asks for, without a bound;
* `Rendered.det`, `Ordered.rendered_textAt` : there is one text, and the text with fuel is it;
* `ordered_updateStruct`, `rendered_updateStruct` : other fields of a struct change neither the order nor a text;
* `rendering_comes_to_end` : all of this for the stores that requests reach.
-/

namespace EscapeAnalysis.TypeStore

/-- The text of a type as the tree of the texts that it asks for. -/
inductive Rendered (s : TypeStore) : Ty → String → Prop where
  | primitive {name : String} {t : Ty} (h : (name, t) ∈ Ty.primitives) : Rendered s t name
  | compound {id : CompoundId} {c : Compound} {text : Ty → String} (hc : s.compounds[id.index]? = some c)
    (inside : ∀ t ∈ s.asked c, Rendered s t (text t)) : Rendered s (.compound id) (s.spell text c)

variable {s : TypeStore} {t : Ty}

theorem primitives_inj {name name' : String} (h : (name, t) ∈ Ty.primitives) (h' : (name', t) ∈ Ty.primitives) :
    name = name' := by
  cases t <;> simp_all [Ty.primitives]

theorem compound_not_primitive {name : String} {id : CompoundId} : (name, Ty.compound id) ∉ Ty.primitives := by
  simp [Ty.primitives]

theorem Rendered.det {text text' : String} (h : s.Rendered t text) (h' : s.Rendered t text') : text = text' := by
  induction h generalizing text' with
  | primitive h =>
    cases h' with
    | primitive h' => exact primitives_inj h h'
    | compound => exact absurd h compound_not_primitive
  | compound hc _ ih =>
    cases h' with
    | primitive h' => exact absurd h' compound_not_primitive
    | compound hc' inside =>
      cases hc.symm.trans hc'
      apply spell_congr
      intro part hpart
      exact ih part hpart (inside part hpart)

theorem textAt_mem_primitives (s : TypeStore) (fuel : Nat) (h : t.isCompound = false) :
    (s.textAt fuel t, t) ∈ Ty.primitives := by
  cases t with
  | compound => cases h
  | _ => cases fuel <;> simp [textAt, Ty.primitives]

/-- Fuel beyond the number of a type is enough for its text. -/
theorem Ordered.rendered_textAt (hs : s.Ordered) {fuel : Nat} (ht : s.Has t) (hfuel : t.Below fuel) :
    s.Rendered t (s.textAt fuel t) := by
  induction fuel generalizing t with
  | zero =>
    cases t with
    | compound id => exact absurd (hfuel id rfl) (Nat.not_lt_zero _)
    | _ => exact .primitive (s.textAt_mem_primitives 0 rfl)
  | succ fuel ih =>
    cases t with
    | compound id =>
      have hlt := has_compound.1 ht
      obtain ⟨c, hc⟩ : ∃ c, s.compounds[id.index]? = some c := ⟨_, Array.getElem?_eq_getElem hlt⟩
      rw [textAt_succ hc]
      apply Rendered.compound hc
      intro part hpart
      have hbelow := hs.below_asked hc part hpart
      exact ih (hbelow.mono (Nat.le_of_lt hlt)) (hbelow.mono (Nat.le_of_lt_succ (hfuel id rfl)))
    | _ => exact .primitive (s.textAt_mem_primitives (fuel + 1) rfl)

theorem Ordered.rendered_text (hs : s.Ordered) (ht : s.Has t) : s.Rendered t (s.text t) :=
  hs.rendered_textAt ht (ht.mono (Nat.le_succ _))

/-! ## Other fields -/

section Update

variable {s' : TypeStore} {name : String} {fields : List Field} (hs : s.Interned)
  (h : s.updateStruct name fields = .ok s')
include hs h

theorem getElem?_updateStruct (i : Nat) :
    s'.compounds[i]? = s.compounds[i]?.map (Request.updateStruct name fields).rewrite := by
  have hperform : s.perform (.updateStruct name fields) = .ok (none, s') := by
    rw [perform, h]
    rfl
  cases hc : s.compounds[i]? with
  | some c => exact hs.compound?_perform hperform (u := .compound ⟨i⟩) hc
  | none =>
    obtain ⟨id, old, _, rfl⟩ := hs.updateStruct_eq_ok h
    rw [Array.getElem?_eq_none_iff] at hc
    simpa using hc

theorem ordered_updateStruct (ho : s.Ordered) : s'.Ordered := by
  intro i c hc hstruct
  rw [getElem?_updateStruct hs h] at hc
  obtain ⟨old, hold, rfl⟩ := Option.map_eq_some_iff.1 hc
  cases old with
  | struct => cases hstruct
  | _ => exact ho i _ hold rfl

theorem elem?_updateStruct (part : Ty) : s'.elem? part = s.elem? part := by
  cases part with
  | compound id =>
    have hc : s'.compound? (.compound id) = (s.compound? (.compound id)).map (Request.updateStruct name fields).rewrite :=
      getElem?_updateStruct hs h id.index
    unfold elem?
    rw [hc]
    cases s.compound? (.compound id) with
    | none => rfl
    | some c => cases c <;> rfl
  | _ => rfl

/-- The text of a struct is its name, which it keeps. -/
theorem rendered_updateStruct {text : String} (ht : s.Rendered t text) : s'.Rendered t text := by
  induction ht with
  | primitive ht => exact .primitive ht
  | @compound id c text hc inside ih =>
    have hc' := getElem?_updateStruct hs h id.index
    rw [hc, Option.map_some] at hc'
    cases c with
    | struct other old => exact @Rendered.compound s' id _ text hc' (List.forall_mem_nil _)
    | _ =>
      obtain ⟨hasked, hspell⟩ := spell_asked_of_elem? fun part _ => elem?_updateStruct hs h part
      rw [← hspell]
      apply Rendered.compound hc'
      intro part hpart
      exact ih part (hasked ▸ hpart)

end Update

theorem Reached.interned {s : TypeStore} (h : Reached s) : s.Interned := by
  induction h with
  | empty => exact interned_empty
  | perform _ _ _ hmet ih => exact ih.perform hmet

/-- In every store that requests reach, the parts of a compound that is no struct are older than the compound, and so
are the types whose texts it asks for. Every type of the store has one text, by a tree of calls that comes to an end.
None of this changes by an update, whatever the fields. -/
theorem rendering_comes_to_end {s : TypeStore} (h : Reached s) :
    (∀ (id : CompoundId) (c : Compound), s.compound? (.compound id) = some c →
      (c.isStruct = false → ∀ part, .compound part ∈ c.parts → part.index < id.index) ∧
      ∀ part, .compound part ∈ s.asked c → part.index < id.index) ∧
    (∀ t, s.Has t → ∀ text, s.Rendered t text ↔ text = s.text t) ∧
    ∀ name fields s', s.updateStruct name fields = .ok s' →
      (∀ (id : CompoundId) (c : Compound), s'.compound? (.compound id) = some c → c.isStruct = false →
        ∀ part, .compound part ∈ c.parts → part.index < id.index) ∧
      ∀ t, s.Has t → ∀ text, s'.Rendered t text ↔ text = s.text t := by
  have hordered : s.Ordered := h.sound.older
  refine ⟨?_, ?_, ?_⟩
  · intro id c hc
    constructor
    · intro hstruct part hpart
      exact hordered id.index c hc hstruct _ hpart part rfl
    · intro part hpart
      exact hordered.below_asked hc _ hpart part rfl
  · intro t ht text
    constructor
    · intro hrendered
      exact hrendered.det (hordered.rendered_text ht)
    · rintro rfl
      exact hordered.rendered_text ht
  · intro name fields s' hupdate
    constructor
    · intro id c hc hstruct part hpart
      exact ordered_updateStruct h.interned hupdate hordered id.index c hc hstruct _ hpart part rfl
    · intro t ht text
      have hafter := rendered_updateStruct h.interned hupdate (hordered.rendered_text ht)
      constructor
      · intro hrendered
        exact hrendered.det hafter
      · rintro rfl
        exact hafter

/-- `type List struct { next *List }`, and functions that take any number of pointers to lists. -/
def chainStore : TypeStore where
  compounds := #[.struct "List" [⟨"next", .compound ⟨1⟩⟩], .ptr (.compound ⟨0⟩), .slice (.compound ⟨1⟩),
    .func [.compound ⟨2⟩] [.compound ⟨1⟩] true]
  index := [(.func [.compound ⟨2⟩] [.compound ⟨1⟩] true, ⟨3⟩), (.slice (.compound ⟨1⟩), ⟨2⟩),
    (.struct "List" [⟨"next", .compound ⟨1⟩⟩], ⟨0⟩), (.ptr (.compound ⟨0⟩), ⟨1⟩)]
  structs := [("List", ⟨0⟩)]

theorem reached_chainStore : Reached chainStore := by
  have hhas {s : TypeStore} {id : CompoundId} (h : id.index < s.compounds.size) : s.Has (.compound id) := has_compound.2 h
  have hlist := Reached.empty.perform (.struct "List" []) (List.forall_mem_nil _) rfl
  have hptr := hlist.perform (.ptr (.compound ⟨0⟩)) (List.forall_mem_singleton.2 (hhas (by decide))) rfl
  have hchain := hptr.perform (.updateStruct "List" [⟨"next", .compound ⟨1⟩⟩])
    (List.forall_mem_singleton.2 (hhas (by decide))) rfl
  have hslice := hchain.perform (.slice (.compound ⟨1⟩)) (List.forall_mem_singleton.2 (hhas (by decide))) rfl
  exact hslice.perform (.func [.compound ⟨2⟩] [.compound ⟨1⟩] true)
    (List.forall_mem_cons.2 ⟨hhas (by decide), List.forall_mem_singleton.2 (hhas (by decide))⟩) rfl

/-- The text of the function type goes through the variadic argument to the list and stops there, also if the list
gets a function of that type for a field. -/
theorem rendering_chainStore :
    chainStore.Rendered (.compound ⟨3⟩) "func(...*List) *List" ∧
    ∃ s, chainStore.updateStruct "List" [⟨"visit", .compound ⟨3⟩⟩] = .ok s ∧
      s.Rendered (.compound ⟨3⟩) "func(...*List) *List" := by
  have htext : chainStore.text (.compound ⟨3⟩) = "func(...*List) *List" := by decide +kernel
  have hhas : chainStore.Has (.compound ⟨3⟩) := has_compound.2 (by decide)
  obtain ⟨_, hends, hupdate⟩ := rendering_comes_to_end reached_chainStore
  refine ⟨(hends _ hhas _).2 htext.symm, ?_⟩
  obtain ⟨s, hs⟩ : ∃ s, chainStore.updateStruct "List" [⟨"visit", .compound ⟨3⟩⟩] = .ok s := ⟨_, rfl⟩
  exact ⟨s, hs, ((hupdate _ _ s hs).2 _ hhas _).2 htext.symm⟩

end EscapeAnalysis.TypeStore

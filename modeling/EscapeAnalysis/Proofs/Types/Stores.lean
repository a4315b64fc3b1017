import EscapeAnalysis.Program

/-!
# Sound type stores

In a store that was only written by its own operations the index tells where the compounds are, the parts of a
compound are there, and only a struct has parts that were made after it.

* `TypeStore.Has s t` : the type is primitive or stored;
* `TypeStore.Sound` : what holds of every store;
* `sound_intern`, `sound_struct`, `sound_updateStruct` : the operations that write keep it;
* `Program.Typed` : the store is sound and has the types of all nodes and functions.
-/

namespace EscapeAnalysis

/-- The types that a compound is made of. -/
def Compound.parts : Compound → List Ty
  | .ptr elem | .slice elem | .array elem _ | .chan elem => [elem]
  | .map key value => [key, value]
  | .struct _ fields => fields.map (·.ty)
  | .func args rets _ => args ++ rets
  | .interface _ => []

def Compound.isStruct : Compound → Bool
  | .struct _ _ => true
  | _ => false

/-- The type is primitive, or a compound before the `i`-th. -/
def Ty.Below (t : Ty) (i : Nat) : Prop := ∀ id, t = .compound id → id.index < i

theorem Ty.Below.mono {t : Ty} {i j : Nat} (h : t.Below i) (hij : i ≤ j) : t.Below j :=
  fun id hid => Nat.lt_of_lt_of_le (h id hid) hij

namespace TypeStore

def Has (s : TypeStore) (t : Ty) : Prop := t.Below s.compounds.size

structure Sound (s : TypeStore) : Prop where
  index : ∀ c id, (c, id) ∈ s.index → s.compounds[id.index]? = some c
  structs : ∀ name id, (name, id) ∈ s.structs → ∃ fields, s.compounds[id.index]? = some (.struct name fields)
  parts : ∀ (i : Nat) (c : Compound), s.compounds[i]? = some c → ∀ t ∈ c.parts, s.Has t
  older : ∀ (i : Nat) (c : Compound), s.compounds[i]? = some c → c.isStruct = false → ∀ t ∈ c.parts, t.Below i

/-- Only a struct has parts that were made after it. -/
def Ordered (s : TypeStore) : Prop :=
  ∀ (i : Nat) (c : Compound), s.compounds[i]? = some c → c.isStruct = false → ∀ t ∈ c.parts, t.Below i

theorem has_compound {s : TypeStore} {id : CompoundId} : s.Has (.compound id) ↔ id.index < s.compounds.size := by
  constructor
  · exact fun h => h id rfl
  · rintro h _ ⟨⟩
    exact h

theorem has_primitive (s : TypeStore) {t : Ty} (h : t.isCompound = false) : s.Has t := by
  rintro id rfl
  cases h

theorem sound_empty : ({} : TypeStore).Sound := by
  refine ⟨?_, ?_, ?_, ?_⟩ <;> simp

/-! ## Writing -/

theorem mem_of_lookup {α β : Type} [BEq α] [LawfulBEq α] {entries : List (α × β)} {a : α} {b : β}
    (h : entries.lookup a = some b) : (a, b) ∈ entries := by
  obtain ⟨before, after, rfl, _⟩ := List.lookup_eq_some_iff.1 h
  exact List.mem_append_right _ List.mem_cons_self

theorem size_append (s : TypeStore) (c : Compound) : (s.append c).2.compounds.size = s.compounds.size + 1 :=
  Array.size_push c

theorem getElem?_append (s : TypeStore) (c : Compound) (i : Nat) :
    (s.append c).2.compounds[i]? = if i = s.compounds.size then some c else s.compounds[i]? :=
  Array.getElem?_push

theorem has_append (s : TypeStore) (c : Compound) : (s.append c).2.Has (s.append c).1 := by
  rintro _ ⟨⟩
  rw [size_append]
  exact Nat.lt_succ_self _

theorem Has.append {s : TypeStore} {t : Ty} (h : s.Has t) (c : Compound) : (s.append c).2.Has t :=
  h.mono (by rw [size_append]; exact Nat.le_succ _)

theorem lt_of_getElem? {s : TypeStore} {i : Nat} {c : Compound} (h : s.compounds[i]? = some c) :
    i < s.compounds.size :=
  (Array.getElem?_eq_some_iff.1 h).1

theorem getElem?_append_of_some {s : TypeStore} {i : Nat} {c : Compound} (h : s.compounds[i]? = some c)
    (d : Compound) : (s.append d).2.compounds[i]? = some c := by
  rw [getElem?_append, if_neg (Nat.ne_of_lt (lt_of_getElem? h)), h]

theorem sound_append {s : TypeStore} (hs : s.Sound) {c : Compound} (hc : ∀ t ∈ c.parts, s.Has t) :
    (s.append c).2.Sound := by
  have hself : (s.append c).2.compounds[s.compounds.size]? = some c := by rw [getElem?_append, if_pos rfl]
  refine ⟨?_, ?_, ?_, ?_⟩
  · intro d id hd
    rcases List.mem_cons.1 hd with hd | hd
    · cases hd
      exact hself
    · exact getElem?_append_of_some (hs.index d id hd) c
  · intro name id hname
    have hcases : (∃ fields, c = .struct name fields ∧ id.index = s.compounds.size) ∨ (name, id) ∈ s.structs := by
      unfold append at hname
      dsimp only at hname
      split at hname
      · rcases List.mem_cons.1 hname with hname | hname
        · cases hname
          exact Or.inl ⟨_, rfl, rfl⟩
        · exact Or.inr hname
      · exact Or.inr hname
    rcases hcases with ⟨fields, rfl, hid⟩ | hname
    · exact ⟨fields, by rw [hid]; exact hself⟩
    · obtain ⟨fields, hfields⟩ := hs.structs name id hname
      exact ⟨fields, getElem?_append_of_some hfields c⟩
  · intro i d hd t ht
    rw [getElem?_append] at hd
    split at hd
    · cases hd
      exact (hc t ht).append c
    · exact (hs.parts i d hd t ht).append c
  · intro i d hd hstruct t ht
    rw [getElem?_append] at hd
    split at hd
    · rename_i hi
      cases hd
      rw [hi]
      exact hc t ht
    · exact hs.older i d hd hstruct t ht

theorem sound_intern {s : TypeStore} (hs : s.Sound) {c : Compound} (hc : ∀ t ∈ c.parts, s.Has t) :
    (s.intern c).2.Sound := by
  unfold intern
  split
  · exact hs
  · exact sound_append hs hc

theorem compound?_of_find? {s : TypeStore} (hs : s.Sound) {c : Compound} {id : CompoundId} (h : s.find? c = some id) :
    s.compound? (.compound id) = some c :=
  hs.index c id (mem_of_lookup h)

theorem has_intern {s : TypeStore} (hs : s.Sound) (c : Compound) : (s.intern c).2.Has (s.intern c).1 := by
  unfold intern
  split
  · rename_i id hid
    rintro _ ⟨⟩
    exact lt_of_getElem? (compound?_of_find? hs hid)
  · exact s.has_append c

theorem compound?_intern {s : TypeStore} (hs : s.Sound) (c : Compound) :
    (s.intern c).2.compound? (s.intern c).1 = some c := by
  unfold intern
  split
  · rename_i id hid
    exact compound?_of_find? hs hid
  · exact (s.getElem?_append c _).trans (if_pos rfl)

theorem size_le_intern (s : TypeStore) (c : Compound) : s.compounds.size ≤ (s.intern c).2.compounds.size := by
  unfold intern
  split
  · exact Nat.le_refl _
  · rw [size_append]
    exact Nat.le_succ _

/-- A new struct, or the one that is there. -/
theorem sound_struct {s : TypeStore} (hs : s.Sound) {name : String} {fields : List Field}
    (hfields : ∀ field ∈ fields, s.Has field.ty) {made : Ty × TypeStore} (h : s.struct name fields = .ok made) :
    made.2.Sound ∧ s.compounds.size ≤ made.2.compounds.size ∧ made.2.Has made.1 := by
  have hparts : ∀ t ∈ (Compound.struct name fields).parts, s.Has t := by
    intro t ht
    obtain ⟨field, hfield, rfl⟩ := List.mem_map.1 ht
    exact hfields field hfield
  unfold struct at h
  split at h
  · rename_i id hid
    cases h
    refine ⟨hs, Nat.le_refl _, ?_⟩
    rintro _ ⟨⟩
    exact lt_of_getElem? (compound?_of_find? hs hid)
  · split at h
    · cases h
    · cases h
      exact ⟨sound_append hs hparts, by rw [size_append]; exact Nat.le_succ _, s.has_append _⟩

/-- Only the compound that is replaced may change its place in the index. -/
theorem sound_updateStruct {s t : TypeStore} (hs : s.Sound) {name : String} {fields : List Field}
    (hfields : ∀ field ∈ fields, s.Has field.ty) (h : s.updateStruct name fields = .ok t) :
    t.Sound ∧ s.compounds.size ≤ t.compounds.size := by
  unfold updateStruct at h
  split at h
  · cases h
  · rename_i id hid
    obtain ⟨fields', hold⟩ := hs.structs name id (mem_of_lookup hid)
    rw [hold] at h
    cases h
    have hlt := lt_of_getElem? hold
    have hget (i : Nat) : (s.compounds.setIfInBounds id.index (.struct name fields))[i]? =
        if id.index = i then some (.struct name fields) else s.compounds[i]? := by
      rw [Array.getElem?_setIfInBounds]
      split <;> rfl
    have hhas {ty : Ty} (hty : s.Has ty) : ty.Below (s.compounds.setIfInBounds id.index (.struct name fields)).size := by
      rw [Array.size_setIfInBounds]
      exact hty
    refine ⟨⟨?_, ?_, ?_, ?_⟩, Nat.le_of_eq (Array.size_setIfInBounds ..).symm⟩
    · intro c id' hc
      rw [hget]
      rcases List.mem_cons.1 hc with hc | hc
      · cases hc
        exact if_pos rfl
      · obtain ⟨hmem, hne⟩ := List.mem_filter.1 hc
        have hc' := hs.index c id' hmem
        rw [if_neg, hc']
        intro he
        rw [← he, hold] at hc'
        cases hc'
        simp at hne
    · intro name' id' hname'
      rw [hget]
      obtain ⟨fields'', hfields''⟩ := hs.structs name' id' hname'
      split
      · rename_i he
        rw [← he, hold] at hfields''
        cases hfields''
        exact ⟨fields, rfl⟩
      · exact ⟨fields'', hfields''⟩
    · intro i c hc ty hty
      rw [hget] at hc
      split at hc
      · cases hc
        obtain ⟨field, hfield, rfl⟩ := List.mem_map.1 hty
        exact hhas (hfields field hfield)
      · exact hhas (hs.parts i c hc ty hty)
    · intro i c hc hstruct ty hty
      rw [hget] at hc
      split at hc
      · cases hc
        cases hstruct
      · exact hs.older i c hc hstruct ty hty

/-! ## Parts -/

section Parts

variable {s : TypeStore} (hs : s.Sound) {ty part : Ty}
include hs

theorem Sound.has_of_mem_parts {c : Compound} (hc : s.compound? ty = some c) (hpart : part ∈ c.parts) : s.Has part := by
  cases ty with
  | compound id => exact hs.parts id.index c hc part hpart
  | _ => cases hc

theorem Sound.has_deref? (h : s.deref? ty = some part) : s.Has part := by
  unfold TypeStore.deref? at h
  split at h
  · rename_i hc
    cases h
    exact hs.has_of_mem_parts hc (by simp [Compound.parts])
  · cases h

omit hs in
/-- What is held is a byte of a string, or a part of a compound that is no struct. -/
theorem elem?_eq_some (h : s.elem? ty = some part) :
    part = .int8 ∨ ∃ c, s.compound? ty = some c ∧ c.isStruct = false ∧ part ∈ c.parts := by
  unfold TypeStore.elem? at h
  split at h <;> cases h
  · exact Or.inl rfl
  all_goals
    rename_i hc
    exact Or.inr ⟨_, hc, rfl, by simp [Compound.parts]⟩

theorem Sound.has_elem? (h : s.elem? ty = some part) : s.Has part := by
  rcases elem?_eq_some h with rfl | ⟨c, hc, _, hpart⟩
  · exact s.has_primitive rfl
  · exact hs.has_of_mem_parts hc hpart

omit hs in
/-- What is held is no younger than what holds it. -/
theorem Ordered.below_elem? (hs : s.Ordered) {i : Nat} (h : s.elem? ty = some part) (hty : ty.Below i) :
    part.Below i := by
  rcases elem?_eq_some h with rfl | ⟨c, hc, hstruct, hpart⟩
  · rintro _ ⟨⟩
  · cases ty with
    | compound id => exact (hs id.index c hc hstruct part hpart).mono (Nat.le_of_lt (hty id rfl))
    | _ => cases hc

theorem Sound.has_fieldType? {field : String} (h : s.fieldType? ty field = some part) : s.Has part := by
  unfold TypeStore.fieldType? at h
  obtain ⟨⟨name, fields⟩, hdef, h⟩ := Option.bind_eq_some_iff.1 h
  obtain ⟨found, hfound, h⟩ := Option.bind_eq_some_iff.1 h
  cases h
  unfold structDef? at hdef
  split at hdef
  · rename_i hc
    cases hdef
    exact hs.has_of_mem_parts hc (List.mem_map_of_mem (List.mem_of_find?_eq_some hfound))
  · cases hdef

theorem Sound.has_arrayDef? {len : Nat} (h : s.arrayDef? ty = some (part, len)) : s.Has part := by
  unfold TypeStore.arrayDef? at h
  split at h
  · rename_i hc
    cases h
    exact hs.has_of_mem_parts hc (by simp [Compound.parts])
  · cases h

theorem Sound.has_funcDef? {args rets : List Ty} {variadic : Bool} (h : s.funcDef? ty = some (args, rets, variadic)) :
    (∀ t ∈ args, s.Has t) ∧ ∀ t ∈ rets, s.Has t := by
  unfold TypeStore.funcDef? at h
  split at h
  · rename_i hc
    cases h
    exact ⟨fun t ht => hs.has_of_mem_parts hc (List.mem_append_left _ ht),
      fun t ht => hs.has_of_mem_parts hc (List.mem_append_right _ ht)⟩
  · cases h

end Parts

end TypeStore

/-! ## Programs -/

namespace Program

/-- The type is not known, or there. -/
def HasType (p : Program) (ty : Option Ty) : Prop := ∀ t, ty = some t → p.types.Has t

structure Typed (p : Program) : Prop where
  store : p.types.Sound
  node : ∀ n, p.HasType (p.node n).ty
  func : ∀ f, p.HasType (p.func f).ty
  params : ∀ f, ∀ param ∈ (p.func f).inputs ++ (p.func f).results, p.HasType param.ty

theorem hasType_none (p : Program) : p.HasType none := fun _ h => by cases h

theorem hasType_some {p : Program} {t : Ty} (h : p.types.Has t) : p.HasType (some t) := by
  rintro _ ⟨⟩
  exact h

section Parts

variable {p : Program} (h : p.Typed) (ty : Option Ty)
include h

theorem Typed.hasType_deref? : p.HasType (ty.bind p.types.deref?) := by
  intro part hpart
  obtain ⟨t, _, hpart⟩ := Option.bind_eq_some_iff.1 hpart
  exact h.store.has_deref? hpart

theorem Typed.hasType_elem? : p.HasType (ty.bind p.types.elem?) := by
  intro part hpart
  obtain ⟨t, _, hpart⟩ := Option.bind_eq_some_iff.1 hpart
  exact h.store.has_elem? hpart

theorem Typed.hasType_fieldType? (field : String) : p.HasType (ty.bind (p.types.fieldType? · field)) := by
  intro part hpart
  obtain ⟨t, _, hpart⟩ := Option.bind_eq_some_iff.1 hpart
  exact h.store.has_fieldType? hpart

end Parts

end Program

end EscapeAnalysis

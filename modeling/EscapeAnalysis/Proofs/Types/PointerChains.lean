import EscapeAnalysis.Proofs.Types.Interning
import EscapeAnalysis.Proofs.Types.Pointers

/-!
# Chains to pointers

A value holds a pointer if its type is a pointer, or if one is among the elements of an array that is not empty or the
fields of a struct, and so on. Structs may contain each other, so such a chain may come to a type again, and the search
for pointers gives up where it does. It comes to an end nevertheless, and finds a pointer exactly if some chain does.

* `TypeStore.Reached` : the stores that come about by requests that name types of the store;
* `Compound.held`, `TypeStore.Contains`, `TypeStore.IsPointer` : the steps and the ends of chains;
* `TypeStore.Search` : the search as the tree of its calls, without a bound;
* `Search.det`, `search_pointerSearch` : it has one answer, and the search with fuel gives it;
* `holds_iff_chain` : what a chain shows;
* `hasPointers_iff_chain` : all of this for `TypeStore.hasPointers`.
-/

namespace EscapeAnalysis

namespace TypeStore

/-! ## Stores that requests reach -/

/-- The types that a request names. -/
def Request.types : Request → List Ty
  | ptr elem | slice elem | array elem _ | chan elem => [elem]
  | map key value => [key, value]
  | interface _ => []
  | func args rets _ => args ++ rets
  | struct _ fields | updateStruct _ fields => fields.map (·.ty)

theorem Request.types_eq_parts {request : Request} {c : Compound} (h : request.compound? = some c) :
    request.types = c.parts := by
  cases request with
  | updateStruct => cases h
  | _ =>
    cases h
    rfl

/-- The store comes from the empty one by requests, each of which names types that the store has at the time. -/
inductive Reached : TypeStore → Prop where
  | empty : Reached {}
  | perform {s t : TypeStore} {ty : Option Ty} (h : Reached s) (request : Request)
    (htypes : ∀ u ∈ request.types, s.Has u) (hmet : s.perform request = .ok (ty, t)) : Reached t

theorem Reached.sound {s : TypeStore} (h : Reached s) : s.Sound := by
  induction h with
  | empty => exact sound_empty
  | perform _ _ htypes hmet ih =>
    rcases perform_eq_ok hmet with ⟨c, hc, _, _, rfl⟩ | ⟨name, fields, rfl, _, hupdate⟩
    · rw [Request.types_eq_parts hc] at htypes
      exact sound_intern ih htypes
    · exact (sound_updateStruct ih (fun field hfield => htypes _ (List.mem_map_of_mem hfield)) hupdate).1

end TypeStore

/-! ## Chains -/

/-- A value of the type is a pointer, or holds one in what it stands for. -/
def Compound.isPointer : Compound → Bool
  | .ptr _ | .slice _ | .map _ _ | .chan _ | .func _ _ _ | .interface _ => true
  | .array _ _ | .struct _ _ => false

/-- The types of the values that a value holds in itself: its elements, if it is an array with elements, or its
fields. -/
def Compound.held : Compound → List Ty
  | .array elem len => if 0 < len then [elem] else []
  | .struct _ fields => fields.map (·.ty)
  | _ => []

namespace TypeStore

/-- One step of a chain: values of type `t` hold values of type `u`. -/
def Contains (s : TypeStore) (t u : Ty) : Prop := ∃ c, s.compound? t = some c ∧ u ∈ c.held

/-- The end of a chain. -/
def IsPointer (s : TypeStore) (t : Ty) : Prop :=
  t = .string ∨ t = .rawPointer ∨ ∃ c, s.compound? t = some c ∧ c.isPointer = true

variable {s : TypeStore}

open Relation (ReflTransGen)

theorem holds_of_isPointer {t : Ty} (h : s.IsPointer t) : s.Holds t := by
  rcases h with rfl | rfl | ⟨c, hc, hpointer⟩
  · exact .string
  · exact .rawPointer
  · obtain ⟨id, rfl, hget⟩ := compound?_eq_some_iff.1 hc
    refine .pointer hget ?_ ?_
    · rintro elem len rfl
      cases hpointer
    · rintro name fields rfl
      cases hpointer

theorem Contains.holds {t u : Ty} (h : s.Contains t u) (hu : s.Holds u) : s.Holds t := by
  obtain ⟨c, hc, hheld⟩ := h
  obtain ⟨id, rfl, hget⟩ := compound?_eq_some_iff.1 hc
  cases c with
  | array elem len =>
    change u ∈ if 0 < len then [elem] else [] at hheld
    split at hheld
    · rename_i hlen
      rw [List.mem_singleton.1 hheld] at hu
      exact .element hget (Nat.ne_of_gt hlen) hu
    · cases hheld
  | struct name fields =>
    obtain ⟨field, hfield, rfl⟩ := List.mem_map.1 hheld
    exact .field hget hfield hu
  | _ => cases hheld

theorem holds_iff_chain {t : Ty} : s.Holds t ↔ ∃ u, ReflTransGen s.Contains t u ∧ s.IsPointer u := by
  constructor
  · intro h
    induction h with
    | string => exact ⟨.string, .refl, Or.inl rfl⟩
    | rawPointer => exact ⟨.rawPointer, .refl, Or.inr (Or.inl rfl)⟩
    | @element id elem len hc hlen _ ih =>
      obtain ⟨u, hchain, hu⟩ := ih
      have hheld : elem ∈ (Compound.array elem len).held := by simp [Compound.held, Nat.pos_of_ne_zero hlen]
      exact ⟨u, .head ⟨_, hc, hheld⟩ hchain, hu⟩
    | @field id name fields field hc hfield _ ih =>
      obtain ⟨u, hchain, hu⟩ := ih
      have hheld : field.ty ∈ (Compound.struct name fields).held := List.mem_map_of_mem hfield
      exact ⟨u, .head ⟨_, hc, hheld⟩ hchain, hu⟩
    | @pointer id c hc harray hstruct =>
      refine ⟨.compound id, .refl, Or.inr (Or.inr ⟨c, hc, ?_⟩)⟩
      cases c with
      | array elem len => exact absurd rfl (harray elem len)
      | struct name fields => exact absurd rfl (hstruct name fields)
      | _ => rfl
  · rintro ⟨u, hchain, hu⟩
    induction hchain using ReflTransGen.head_induction_on with
    | refl => exact holds_of_isPointer hu
    | head hstep _ ih => exact hstep.holds ih

/-! ## The search as a tree of calls -/

/-- The search through some types, one after the other, until it finds a pointer. It starts with the compounds `entered`
and ends with those in the last argument. A compound is entered once, and searched through what it holds before the
types that come after it. -/
inductive Search (s : TypeStore) : List Ty → List CompoundId → Bool → List CompoundId → Prop where
  | done {entered : List CompoundId} : Search s [] entered false entered
  | pointer {t : Ty} {ts : List Ty} {entered : List CompoundId} (ht : t = .string ∨ t = .rawPointer) :
    Search s (t :: ts) entered true entered
  | plain {t : Ty} {ts : List Ty} {entered entered' : List CompoundId} {found : Bool} (ht : t.isCompound = false)
    (hne : ¬ (t = .string ∨ t = .rawPointer)) (rest : Search s ts entered found entered') :
    Search s (t :: ts) entered found entered'
  | again {id : CompoundId} {ts : List Ty} {entered entered' : List CompoundId} {found : Bool} (hid : id ∈ entered)
    (rest : Search s ts entered found entered') : Search s (.compound id :: ts) entered found entered'
  | reference {id : CompoundId} {c : Compound} {ts : List Ty} {entered : List CompoundId} (hid : id ∉ entered)
    (hc : s.compounds[id.index]? = some c) (hpointer : c.isPointer = true) :
    Search s (.compound id :: ts) entered true (id :: entered)
  | within {id : CompoundId} {c : Compound} {ts : List Ty} {entered entered' : List CompoundId} (hid : id ∉ entered)
    (hc : s.compounds[id.index]? = some c) (hpointer : c.isPointer = false)
    (inside : Search s c.held (id :: entered) true entered') : Search s (.compound id :: ts) entered true entered'
  | past {id : CompoundId} {c : Compound} {ts : List Ty} {entered entered' entered'' : List CompoundId} {found : Bool}
    (hid : id ∉ entered) (hc : s.compounds[id.index]? = some c) (hpointer : c.isPointer = false)
    (inside : Search s c.held (id :: entered) false entered') (rest : Search s ts entered' found entered'') :
    Search s (.compound id :: ts) entered found entered''

variable {ts : List Ty} {t : Ty} {entered entered' entered'' : List CompoundId} {found : Bool}

/-- What the search does at a compound that it has not entered. -/
theorem Search.compound_cases {id : CompoundId} {c : Compound} (h : s.Search (.compound id :: ts) entered found entered'')
    (hid : id ∉ entered) (hc : s.compounds[id.index]? = some c) :
    c.isPointer = true ∧ found = true ∧ entered'' = id :: entered ∨
    c.isPointer = false ∧ (found = true ∧ s.Search c.held (id :: entered) true entered'' ∨
      ∃ entered', s.Search c.held (id :: entered) false entered' ∧ s.Search ts entered' found entered'') := by
  cases h with
  | pointer ht => simp at ht
  | plain ht => cases ht
  | again hid' => exact absurd hid' hid
  | reference _ hc' hpointer =>
    cases hc.symm.trans hc'
    exact Or.inl ⟨hpointer, rfl, rfl⟩
  | within _ hc' hpointer inside =>
    cases hc.symm.trans hc'
    exact Or.inr ⟨hpointer, Or.inl ⟨rfl, inside⟩⟩
  | past _ hc' hpointer inside rest =>
    cases hc.symm.trans hc'
    exact Or.inr ⟨hpointer, Or.inr ⟨_, inside, rest⟩⟩

theorem Search.det {found' : Bool} (h : s.Search ts entered found entered') (h' : s.Search ts entered found' entered'') :
    found = found' ∧ entered' = entered'' := by
  -- Over the calls of the first search: the head of the types and the compounds entered decide the call of the second.
  induction h generalizing found' entered'' with
  | done =>
    cases h'
    exact ⟨rfl, rfl⟩
  | pointer ht =>
    cases h' with
    | pointer => exact ⟨rfl, rfl⟩
    | plain _ hne _ => exact absurd ht hne
    | _ => simp at ht
  | plain ht hne _ ih =>
    cases h' with
    | pointer ht' => exact absurd ht' hne
    | plain _ _ rest => exact ih rest
    | _ => cases ht
  | again hid _ ih =>
    cases h' with
    | pointer ht => simp at ht
    | plain ht => cases ht
    | again _ rest => exact ih rest
    | reference hid' | within hid' | past hid' => exact absurd hid hid'
  | reference hid hc hpointer =>
    rcases h'.compound_cases hid hc with ⟨_, rfl, rfl⟩ | ⟨hnot, _⟩
    · exact ⟨rfl, rfl⟩
    · simp [hpointer] at hnot
  | within hid hc hpointer _ ih =>
    rcases h'.compound_cases hid hc with ⟨hnot, _⟩ | ⟨_, ⟨rfl, inside⟩ | ⟨_, inside, _⟩⟩
    · simp [hpointer] at hnot
    · exact ih inside
    · cases (ih inside).1
  | past hid hc hpointer _ _ ih ihrest =>
    rcases h'.compound_cases hid hc with ⟨hnot, _⟩ | ⟨_, ⟨_, inside⟩ | ⟨_, inside, rest⟩⟩
    · simp [hpointer] at hnot
    · cases (ih inside).1
    · cases (ih inside).2
      exact ihrest rest

/-- The types after one where a pointer was found are not looked at. -/
theorem Search.cons_true (h : s.Search [t] entered true entered') (ts : List Ty) :
    s.Search (t :: ts) entered true entered' := by
  cases h with
  | pointer ht => exact .pointer ht
  | plain _ _ rest | again _ rest | past _ _ _ _ rest => cases rest
  | reference hid hc hpointer => exact .reference hid hc hpointer
  | within hid hc hpointer inside => exact .within hid hc hpointer inside

theorem Search.cons_false (h : s.Search [t] entered false entered') (rest : s.Search ts entered' found entered'') :
    s.Search (t :: ts) entered found entered'' := by
  cases h with
  | plain ht hne done =>
    cases done
    exact .plain ht hne rest
  | again hid done =>
    cases done
    exact .again hid rest
  | past hid hc hpointer inside done =>
    cases done
    exact .past hid hc hpointer inside rest

theorem Search.enter {id : CompoundId} {c : Compound} (hid : id ∉ entered) (hc : s.compounds[id.index]? = some c)
    (hpointer : c.isPointer = false) (inside : s.Search c.held (id :: entered) found entered') :
    s.Search [.compound id] entered found entered' := by
  cases found with
  | true => exact .within hid hc hpointer inside
  | false => exact .past hid hc hpointer inside .done

/-! ## The search with fuel -/

/-- The fields are searched one after the other. -/
theorem search_foldl_searchField {fuel : Nat}
    (ih : ∀ {t : Ty} {entered : List CompoundId}, s.Has t → s.room entered < fuel →
      s.Search [t] entered (s.pointerSearch fuel t entered).1 (s.pointerSearch fuel t entered).2)
    {fields : List Field} (hfields : ∀ field ∈ fields, s.Has field.ty) (hroom : s.room entered < fuel) :
    s.Search (fields.map (·.ty)) entered (fields.foldl (s.searchField fuel) (false, entered)).1
      (fields.foldl (s.searchField fuel) (false, entered)).2 := by
  induction fields generalizing entered with
  | nil => exact .done
  | cons field fields ihf =>
    obtain ⟨hfield, hfields⟩ := List.forall_mem_cons.1 hfields
    have hhead := ih hfield hroom
    have hstep : s.searchField fuel (false, entered) field = s.pointerSearch fuel field.ty entered := rfl
    have hsubset := s.subset_pointerSearch fuel field.ty entered
    rw [List.map_cons, List.foldl_cons, hstep]
    generalize s.pointerSearch fuel field.ty entered = outcome at hhead hsubset
    obtain ⟨found, entered'⟩ := outcome
    cases found with
    | true =>
      rw [foldl_searchField_true]
      exact hhead.cons_true _
    | false =>
      -- The next fields are searched with more compounds entered, so the fuel is enough for them too.
      exact hhead.cons_false (ihf hfields (Nat.lt_of_le_of_lt (s.room_mono hsubset) hroom))

/-- With fuel for all compounds that were not entered, the search comes to its end. -/
theorem search_pointerSearch (hs : s.Sound) {fuel : Nat} (ht : s.Has t) (hroom : s.room entered < fuel) :
    s.Search [t] entered (s.pointerSearch fuel t entered).1 (s.pointerSearch fuel t entered).2 := by
  induction fuel generalizing t entered with
  | zero => exact absurd hroom (Nat.not_lt_zero _)
  | succ fuel ih =>
    cases t with
    | string => exact .pointer (Or.inl rfl)
    | rawPointer => exact .pointer (Or.inr rfl)
    | compound id =>
      by_cases hid : id ∈ entered
      · rw [pointerSearch, if_pos hid]
        exact .again hid .done
      · have hlt := has_compound.1 ht
        have hin : s.room (id :: entered) < fuel := by
          have := s.room_cons_lt hlt hid
          omega
        -- No reference of the store is missing, so there is always a compound to look into.
        obtain ⟨c, hc⟩ : ∃ c, s.compounds[id.index]? = some c := ⟨_, Array.getElem?_eq_getElem hlt⟩
        have hparts := hs.parts _ _ hc
        rw [pointerSearch, if_neg hid, hc]
        cases c with
        | array elem len =>
          dsimp only
          split
          · rename_i hlen
            refine .enter hid hc rfl ?_
            rw [Compound.held, if_neg (by omega)]
            exact .done
          · rename_i hlen
            refine .enter hid hc rfl ?_
            rw [Compound.held, if_pos (Nat.pos_of_ne_zero hlen)]
            exact ih (hparts elem (by simp [Compound.parts])) hin
        | struct name fields =>
          exact .enter hid hc rfl
            (search_foldl_searchField ih (fun field hfield => hparts _ (List.mem_map_of_mem hfield)) hin)
        | _ => exact .reference hid hc rfl
    | _ => exact .plain rfl (by simp) .done

/-- In every store that requests reach, the search for pointers comes to an end from every type of the store, with one
answer. The answer is yes exactly if a chain of elements and fields leads to a pointer. -/
theorem hasPointers_iff_chain {s : TypeStore} (h : Reached s) {t : Ty} (ht : s.Has t) :
    (∀ found, (∃ entered, s.Search [t] [] found entered) ↔ found = s.hasPointers t) ∧
    (s.hasPointers t = true ↔ ∃ u, ReflTransGen s.Contains t u ∧ s.IsPointer u) := by
  have hsearch := search_pointerSearch h.sound ht s.room_nil_lt
  constructor
  · intro found
    constructor
    · rintro ⟨entered, hfound⟩
      exact (hfound.det hsearch).1
    · rintro rfl
      exact ⟨_, hsearch⟩
  · exact hasPointers_iff.trans holds_iff_chain

/-- `type A struct { b [2]B }` and `type B struct { a A; s string }`, which contain each other, and `[0]*int64`. -/
def ringStore : TypeStore where
  compounds := #[.struct "A" [⟨"b", .compound ⟨2⟩⟩], .struct "B" [⟨"a", .compound ⟨0⟩⟩, ⟨"s", .string⟩],
    .array (.compound ⟨1⟩) 2, .ptr .int64, .array (.compound ⟨3⟩) 0]
  index := [(.array (.compound ⟨3⟩) 0, ⟨4⟩), (.ptr .int64, ⟨3⟩), (.struct "A" [⟨"b", .compound ⟨2⟩⟩], ⟨0⟩),
    (.array (.compound ⟨1⟩) 2, ⟨2⟩), (.struct "B" [⟨"a", .compound ⟨0⟩⟩, ⟨"s", .string⟩], ⟨1⟩)]
  structs := [("B", ⟨1⟩), ("A", ⟨0⟩)]

theorem reached_ringStore : Reached ringStore := by
  have hone {s : TypeStore} {id : CompoundId} (h : id.index < s.compounds.size) : ∀ u ∈ [Ty.compound id], s.Has u :=
    List.forall_mem_singleton.2 (has_compound.2 h)
  have ha := Reached.empty.perform (.struct "A" []) (List.forall_mem_nil _) rfl
  have hb := ha.perform (.struct "B" [⟨"a", .compound ⟨0⟩⟩, ⟨"s", .string⟩])
    (List.forall_mem_cons.2 ⟨has_compound.2 (by decide), List.forall_mem_singleton.2 (has_primitive _ rfl)⟩) rfl
  have harray := hb.perform (.array (.compound ⟨1⟩) 2) (hone (by decide)) rfl
  have hring := harray.perform (.updateStruct "A" [⟨"b", .compound ⟨2⟩⟩]) (hone (by decide)) rfl
  have hptr := hring.perform (.ptr .int64) (List.forall_mem_singleton.2 (has_primitive _ rfl)) rfl
  exact hptr.perform (.array (.compound ⟨3⟩) 0) (hone (by decide)) rfl

/-- The search from `A` comes back to `A` in `B` and goes on to the string. An array without elements holds no
pointer. -/
theorem hasPointers_ringStore :
    (∃ u, ReflTransGen ringStore.Contains (.compound ⟨0⟩) u ∧ ringStore.IsPointer u) ∧
    (∃ entered, ringStore.Search [.compound ⟨0⟩] [] true entered) ∧
    ¬ ∃ u, ReflTransGen ringStore.Contains (.compound ⟨4⟩) u ∧ ringStore.IsPointer u := by
  have hhas {id : CompoundId} (h : id.index < 5) : ringStore.Has (.compound id) := has_compound.2 h
  obtain ⟨hends, hchain⟩ := hasPointers_iff_chain reached_ringStore (hhas (by decide : 0 < 5))
  obtain ⟨_, hnone⟩ := hasPointers_iff_chain reached_ringStore (hhas (by decide : 4 < 5))
  have hyes : ringStore.hasPointers (.compound ⟨0⟩) = true := by decide
  refine ⟨hchain.1 hyes, (hends true).2 hyes.symm, ?_⟩
  rw [← hnone]
  decide

end TypeStore

end EscapeAnalysis

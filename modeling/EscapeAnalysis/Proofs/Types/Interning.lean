import EscapeAnalysis.Proofs.Types.Stores
import Mathlib.Data.List.Nodup

/-!
# Interning

Whatever a type store is asked for, its index is the inverse of its compounds, and a struct is found by its name. So
references can be compared in place of what they stand for. A reference stands for the same compound as long as the
store is used, except that an update replaces the fields of the struct of its name.

* `TypeStore.Request`, `TypeStore.performAll` : what a store can be asked for, one thing after the other;
* `TypeStore.Interned` : the index and the names of structs tell what is stored, and nothing else;
* `Interned.append`, `Interned.replace` : the two ways to write keep it;
* `Interned.perform`, `interned_performAll` : so does every request, and every run of requests;
* `compound?_performAll` : what a reference stands for after a run;
* `Interned.struct_eq_error_iff` : when a struct is refused.
-/

namespace EscapeAnalysis.TypeStore

/-! ## Requests -/

/-- What a store can be asked to do. -/
inductive Request where
  | ptr (elem : Ty)
  | slice (elem : Ty)
  | array (elem : Ty) (len : Nat)
  | map (key value : Ty)
  | chan (elem : Ty)
  | interface (name : String)
  | func (args rets : List Ty) (variadic : Bool)
  | struct (name : String) (fields : List Field)
  | updateStruct (name : String) (fields : List Field)
deriving DecidableEq

/-- The compound that is asked for; an update asks for none. -/
def Request.compound? : Request → Option Compound
  | ptr elem => some (.ptr elem)
  | slice elem => some (.slice elem)
  | array elem len => some (.array elem len)
  | map key value => some (.map key value)
  | chan elem => some (.chan elem)
  | interface name => some (.interface name)
  | func args rets variadic => some (.func args rets variadic)
  | struct name fields => some (.struct name fields)
  | updateStruct _ _ => none

/-- What becomes of a stored compound: an update gives other fields to the struct of its name. -/
def Request.rewrite : Request → Compound → Compound
  | updateStruct name new, .struct other old => .struct other (if other = name then new else old)
  | _, c => c

theorem Request.rewrite_of_compound? {request : Request} {c : Compound} (h : request.compound? = some c) (d : Compound) :
    request.rewrite d = d := by
  cases request with
  | updateStruct => cases h
  | _ => rfl

theorem Request.rewrite_of_ne {name : String} {c : Compound} (h : ∀ fields, c ≠ .struct name fields) (new : List Field) :
    (updateStruct name new).rewrite c = c := by
  cases c with
  | struct other old =>
    have hne : other ≠ name := by
      rintro rfl
      exact h old rfl
    simp [rewrite, hne]
  | _ => rfl

/-- The reference that is returned, if there is one, and the store after the request. -/
def perform (s : TypeStore) : Request → Except TypeError (Option Ty × TypeStore)
  | .ptr elem => .ok ((s.ptr elem).map some id)
  | .slice elem => .ok ((s.slice elem).map some id)
  | .array elem len => .ok ((s.array elem len).map some id)
  | .map key value => .ok ((s.map key value).map some id)
  | .chan elem => .ok ((s.chan elem).map some id)
  | .interface name => .ok ((s.interface name).map some id)
  | .func args rets variadic => .ok ((s.func args rets variadic).map some id)
  | .struct name fields => (s.struct name fields).map (Prod.map some id)
  | .updateStruct name fields => (s.updateStruct name fields).map fun t => (none, t)

/-- The store after all requests, unless one is refused. -/
def performAll (s : TypeStore) : List Request → Except TypeError TypeStore
  | [] => .ok s
  | request :: requests =>
    match s.perform request with
    | .ok (_, t) => t.performAll requests
    | .error e => .error e

theorem performAll_cons {s t : TypeStore} {request : Request} {requests : List Request}
    (h : s.performAll (request :: requests) = .ok t) :
    ∃ ty mid, s.perform request = .ok (ty, mid) ∧ mid.performAll requests = .ok t := by
  unfold performAll at h
  split at h
  · exact ⟨_, _, by assumption, h⟩
  · cases h

theorem compound?_eq_some_iff {s : TypeStore} {t : Ty} {c : Compound} :
    s.compound? t = some c ↔ ∃ id, t = .compound id ∧ s.compounds[id.index]? = some c := by
  cases t <;> simp [compound?]

theorem struct_eq_ok {s t : TypeStore} {name : String} {fields : List Field} {u : Ty}
    (h : s.struct name fields = .ok (u, t)) :
    (u, t) = s.intern (.struct name fields) ∧
      (s.find? (.struct name fields) = none → s.structs.lookup name = none) := by
  unfold struct at h
  unfold intern
  split at h
  · rename_i hfound
    rw [hfound]
    cases h
    refine ⟨rfl, fun hnone => ?_⟩
    cases hnone
  · rename_i hnew
    rw [hnew]
    split at h
    · cases h
    · rename_i hname
      cases h
      exact ⟨rfl, fun _ => Option.not_isSome_iff_eq_none.1 hname⟩

/-- A request that is met interns a compound or updates a struct. -/
theorem perform_eq_ok {s t : TypeStore} {request : Request} {ty : Option Ty} (h : s.perform request = .ok (ty, t)) :
    (∃ c, request.compound? = some c ∧
      (∀ name fields, c = .struct name fields → s.find? c = none → s.structs.lookup name = none) ∧
      ty = some (s.intern c).1 ∧ t = (s.intern c).2) ∨
    ∃ name fields, request = .updateStruct name fields ∧ ty = none ∧ s.updateStruct name fields = .ok t := by
  cases request with
  | struct name fields =>
    change (s.struct name fields).map _ = _ at h
    cases hmade : s.struct name fields with
    | error e =>
      rw [hmade] at h
      cases h
    | ok made =>
      obtain ⟨hintern, hname⟩ := struct_eq_ok hmade
      rw [hmade] at h
      cases h
      refine Or.inl ⟨_, rfl, ?_, by rw [← hintern], by rw [← hintern]; rfl⟩
      rintro _ _ ⟨⟩
      exact hname
  | updateStruct name fields =>
    change (s.updateStruct name fields).map _ = _ at h
    cases hmade : s.updateStruct name fields with
    | error e =>
      rw [hmade] at h
      cases h
    | ok made =>
      rw [hmade] at h
      cases h
      exact Or.inr ⟨name, fields, rfl, rfl, hmade⟩
  | _ =>
    cases h
    refine Or.inl ⟨_, rfl, fun name fields he => ?_, rfl, rfl⟩
    cases he

/-! ## What the index tells -/

theorem lookup_eq_some_iff_mem {α β : Type} [BEq α] [LawfulBEq α] {entries : List (α × β)}
    (hkeys : (entries.map Prod.fst).Nodup) {a : α} {b : β} : entries.lookup a = some b ↔ (a, b) ∈ entries := by
  constructor
  · exact mem_of_lookup
  · intro h
    induction entries with
    | nil => cases h
    | cons entry entries ih =>
      obtain ⟨a', b'⟩ := entry
      rw [List.map_cons, List.nodup_cons] at hkeys
      rcases List.mem_cons.1 h with he | h
      · cases he
        simp
      · have hne : a ≠ a' := fun he => hkeys.1 (List.mem_map.2 ⟨(a, b), h, he⟩)
        rw [List.lookup_cons, beq_false_of_ne hne]
        exact ih hkeys.2 h

theorem not_mem_keys_of_lookup {α β : Type} [BEq α] [LawfulBEq α] {entries : List (α × β)} {a : α}
    (h : entries.lookup a = none) : a ∉ entries.map Prod.fst := by
  intro ha
  obtain ⟨⟨a', b⟩, hb, rfl⟩ := List.mem_map.1 ha
  simpa using List.lookup_eq_none_iff.1 h _ hb

/-- The index has each stored compound, once and with its reference, and nothing else. The same holds of the names of
structs. -/
structure Interned (s : TypeStore) : Prop where
  index : ∀ c id, (c, id) ∈ s.index ↔ s.compounds[id.index]? = some c
  keys : (s.index.map Prod.fst).Nodup
  structs : ∀ name id, (name, id) ∈ s.structs ↔ ∃ fields, s.compounds[id.index]? = some (.struct name fields)
  names : (s.structs.map Prod.fst).Nodup

theorem interned_empty : ({} : TypeStore).Interned := by
  constructor <;> simp

namespace Interned

variable {s : TypeStore} (hs : s.Interned)
include hs

theorem find?_eq_some_iff {c : Compound} {id : CompoundId} : s.find? c = some id ↔ s.compounds[id.index]? = some c := by
  rw [find?, lookup_eq_some_iff_mem hs.keys, hs.index]

theorem lookup_eq_some_iff {name : String} {id : CompoundId} :
    s.structs.lookup name = some id ↔ ∃ fields, s.compounds[id.index]? = some (.struct name fields) := by
  rw [lookup_eq_some_iff_mem hs.names, hs.structs]

/-- Two references never stand for the same compound. -/
theorem id_inj {c : Compound} {i j : CompoundId} (hi : s.compounds[i.index]? = some c)
    (hj : s.compounds[j.index]? = some c) : i = j := by
  rw [← hs.find?_eq_some_iff] at hi hj
  exact Option.some.inj (hi.symm.trans hj)

/-- A name has one struct. -/
theorem struct_inj {name : String} {fields fields' : List Field} {i j : CompoundId}
    (hi : s.compounds[i.index]? = some (.struct name fields))
    (hj : s.compounds[j.index]? = some (.struct name fields')) : i = j := by
  have hi := hs.lookup_eq_some_iff.2 ⟨fields, hi⟩
  have hj := hs.lookup_eq_some_iff.2 ⟨fields', hj⟩
  exact Option.some.inj (hi.symm.trans hj)

theorem eq_iff_compound?_eq {t u : Ty} {c d : Compound} (ht : s.compound? t = some c) (hu : s.compound? u = some d) :
    t = u ↔ c = d := by
  constructor
  · rintro rfl
    exact Option.some.inj (ht.symm.trans hu)
  · rintro rfl
    cases t with
    | compound i =>
      cases u with
      | compound j => rw [hs.id_inj ht hu]
      | _ => cases hu
    | _ => cases ht

/-! ## Writing -/

theorem append {c : Compound} (hnew : s.find? c = none)
    (hname : ∀ name fields, c = .struct name fields → s.structs.lookup name = none) : (s.append c).2.Interned := by
  constructor
  · rintro d ⟨i⟩
    have hmem : (d, ⟨i⟩) ∈ (s.append c).2.index ↔ d = c ∧ i = s.compounds.size ∨ s.compounds[i]? = some d := by
      rw [← hs.index d ⟨i⟩]
      simp [TypeStore.append]
    rw [getElem?_append, hmem]
    by_cases hi : i = s.compounds.size
    · simp [hi, eq_comm]
    · simp [hi]
  · exact List.nodup_cons.2 ⟨not_mem_keys_of_lookup hnew, hs.keys⟩
  · rintro name ⟨i⟩
    have hmem : (name, ⟨i⟩) ∈ (s.append c).2.structs ↔
        (∃ fields, c = .struct name fields) ∧ i = s.compounds.size ∨
          ∃ fields, s.compounds[i]? = some (.struct name fields) := by
      rw [← hs.structs name ⟨i⟩]
      cases c <;> simp [TypeStore.append, eq_comm]
    rw [getElem?_append, hmem]
    by_cases hi : i = s.compounds.size
    · simp [hi]
    · simp [hi]
  · unfold TypeStore.append
    dsimp only
    split
    · rename_i name fields
      exact List.nodup_cons.2 ⟨not_mem_keys_of_lookup (hname name fields rfl), hs.names⟩
    · exact hs.names

/-- An entry of the index is replaced by another one for the same struct. -/
theorem replace {name : String} {id : CompoundId} {old : List Field}
    (hold : s.compounds[id.index]? = some (.struct name old)) (fields : List Field) :
    Interned { s with
      compounds := s.compounds.setIfInBounds id.index (.struct name fields)
      index := (.struct name fields, id) :: s.index.filter (·.1 ≠ .struct name old) } := by
  have hget (i : Nat) : (s.compounds.setIfInBounds id.index (.struct name fields))[i]? =
      if id.index = i then some (.struct name fields) else s.compounds[i]? := by
    rw [Array.getElem?_setIfInBounds]
    simp [lt_of_getElem? hold]
  have hmem (c : Compound) (i : Nat) : (c, (⟨i⟩ : CompoundId)) ∈ s.index.filter (·.1 ≠ .struct name old) ↔
      s.compounds[i]? = some c ∧ id.index ≠ i := by
    rw [List.mem_filter, hs.index c ⟨i⟩]
    refine and_congr_right fun hc => ?_
    -- The old fields are the ones of this struct only.
    rw [decide_eq_true_iff, not_iff_not]
    constructor
    · rintro rfl
      rw [hs.id_inj hold hc]
    · rintro rfl
      exact Option.some.inj (hc.symm.trans hold)
  constructor
  · rintro c ⟨i⟩
    rw [List.mem_cons, hmem, hget]
    obtain ⟨j⟩ := id
    by_cases hi : j = i
    · simp [hi, eq_comm]
    · simp [hi, Ne.symm hi]
  · refine List.nodup_cons.2 ⟨fun h => ?_, (List.filter_sublist.map _).nodup hs.keys⟩
    obtain ⟨⟨_, ⟨i⟩⟩, hi, rfl⟩ := List.mem_map.1 h
    obtain ⟨hi, hne⟩ := (hmem _ i).1 hi
    exact hne (congrArg CompoundId.index (hs.struct_inj hold hi))
  · intro other i
    rw [hget, hs.structs]
    split
    · rename_i hi
      rw [← hi, hold]
      simp
    · rfl
  · exact hs.names

/-- A struct is refused exactly if its name has a struct with other fields. -/
theorem struct_eq_error_iff {name : String} {fields : List Field} {e : TypeError} :
    s.struct name fields = .error e ↔
      e = .structDefined name ∧ ∃ t old, s.compound? t = some (.struct name old) ∧ old ≠ fields := by
  unfold TypeStore.struct
  split
  · rename_i id hid
    rw [hs.find?_eq_some_iff] at hid
    constructor
    · intro h
      cases h
    · rintro ⟨_, t, old, hold, hne⟩
      obtain ⟨j, rfl, hj⟩ := compound?_eq_some_iff.1 hold
      rw [hs.struct_inj hj hid, hid] at hj
      cases hj
      exact absurd rfl hne
  · rename_i hnew
    split
    · rename_i hname
      obtain ⟨id, hid⟩ := Option.isSome_iff_exists.1 hname
      obtain ⟨old, hold⟩ := hs.lookup_eq_some_iff.1 hid
      constructor
      · rintro ⟨⟩
        refine ⟨rfl, .compound id, old, hold, ?_⟩
        rintro rfl
        rw [hs.find?_eq_some_iff.2 hold] at hnew
        cases hnew
      · rintro ⟨rfl, _⟩
        rfl
    · rename_i hname
      constructor
      · intro h
        cases h
      · rintro ⟨_, t, old, hold, _⟩
        obtain ⟨j, rfl, hj⟩ := compound?_eq_some_iff.1 hold
        rw [hs.lookup_eq_some_iff.2 ⟨old, hj⟩] at hname
        exact absurd rfl hname

theorem updateStruct_eq_ok {name : String} {fields : List Field} {t : TypeStore}
    (h : s.updateStruct name fields = .ok t) :
    ∃ id old, s.compounds[id.index]? = some (.struct name old) ∧
      t = { s with
        compounds := s.compounds.setIfInBounds id.index (.struct name fields)
        index := (.struct name fields, id) :: s.index.filter (·.1 ≠ .struct name old) } := by
  unfold TypeStore.updateStruct at h
  split at h
  · cases h
  · rename_i id hid
    obtain ⟨old, hold⟩ := hs.lookup_eq_some_iff.1 hid
    rw [hold] at h
    cases h
    exact ⟨id, old, hold, rfl⟩

/-! ## One request -/

theorem compound?_intern (c : Compound) : (s.intern c).2.compound? (s.intern c).1 = some c := by
  unfold TypeStore.intern
  split
  · rename_i hfound
    exact hs.find?_eq_some_iff.1 hfound
  · simp [TypeStore.compound?, TypeStore.append]

/-- Every request that is met keeps the index exact. -/
theorem perform {request : Request} {ty : Option Ty} {t : TypeStore} (h : s.perform request = .ok (ty, t)) :
    t.Interned := by
  rcases perform_eq_ok h with ⟨c, _, hname, _, rfl⟩ | ⟨name, fields, _, _, h⟩
  · unfold TypeStore.intern
    split
    · exact hs
    · rename_i hnew
      exact hs.append hnew fun name fields hc => hname name fields hc hnew
  · obtain ⟨id, old, hold, rfl⟩ := hs.updateStruct_eq_ok h
    exact hs.replace hold fields

/-- The reference that a request returns stands for what was asked for. -/
theorem compound?_returned {request : Request} {u : Ty} {t : TypeStore} (h : s.perform request = .ok (some u, t)) :
    t.compound? u = request.compound? := by
  rcases perform_eq_ok h with ⟨c, hc, _, hu, rfl⟩ | ⟨name, fields, _, hu, _⟩
  · cases hu
    rw [hc]
    exact hs.compound?_intern c
  · cases hu

/-- A request changes no compound but the struct that it updates. -/
theorem compound?_perform {request : Request} {ty : Option Ty} {t : TypeStore} (h : s.perform request = .ok (ty, t))
    {u : Ty} {c : Compound} (hc : s.compound? u = some c) : t.compound? u = some (request.rewrite c) := by
  obtain ⟨i, rfl, hi⟩ := compound?_eq_some_iff.1 hc
  rcases perform_eq_ok h with ⟨d, hd, _, _, rfl⟩ | ⟨name, fields, rfl, _, h⟩
  · rw [request.rewrite_of_compound? hd]
    unfold TypeStore.intern
    split
    · exact hc
    · exact getElem?_append_of_some hi d
  · obtain ⟨id, old, hold, rfl⟩ := hs.updateStruct_eq_ok h
    show (s.compounds.setIfInBounds id.index (.struct name fields))[i.index]? = _
    rw [Array.getElem?_setIfInBounds]
    by_cases he : id.index = i.index
    · rw [← he, hold] at hi
      cases hi
      rw [if_pos he, if_pos (lt_of_getElem? hold)]
      simp [Request.rewrite]
    · rw [if_neg he, hi, Request.rewrite_of_ne]
      rintro old' rfl
      exact he (congrArg CompoundId.index (hs.struct_inj hold hi))

end Interned

/-! ## Runs of requests -/

section Runs

variable {s t : TypeStore} {requests : List Request} (hs : s.Interned) (h : s.performAll requests = .ok t)
include hs h

theorem interned_performAll : t.Interned := by
  induction requests generalizing s with
  | nil =>
    cases h
    exact hs
  | cons request requests ih =>
    obtain ⟨_, mid, hmid, h⟩ := performAll_cons h
    exact ih (hs.perform hmid) h

theorem compound?_performAll {u : Ty} {c : Compound} (hc : s.compound? u = some c) :
    t.compound? u = some (requests.foldl (fun c request => request.rewrite c) c) := by
  induction requests generalizing s c with
  | nil =>
    cases h
    exact hc
  | cons request requests ih =>
    obtain ⟨_, mid, hmid, h⟩ := performAll_cons h
    exact ih (hs.perform hmid) h (hs.compound?_perform hmid hc)

end Runs

/-- The fields that the struct `name` has after the requests, if it had `fields` before them. -/
def fieldsAfter (name : String) (fields : List Field) : List Request → List Field
  | [] => fields
  | .updateStruct other new :: requests => fieldsAfter name (if name = other then new else fields) requests
  | _ :: requests => fieldsAfter name fields requests

theorem foldl_rewrite_of_not_struct {c : Compound} (hc : c.isStruct = false) (requests : List Request) :
    requests.foldl (fun c request => request.rewrite c) c = c := by
  induction requests with
  | nil => rfl
  | cons request requests ih =>
    have hsame : request.rewrite c = c := by
      cases c with
      | struct => cases hc
      | _ => cases request <;> rfl
    rw [List.foldl_cons, hsame, ih]

theorem foldl_rewrite_struct (name : String) (fields : List Field) (requests : List Request) :
    requests.foldl (fun c request => request.rewrite c) (.struct name fields) =
      .struct name (fieldsAfter name fields requests) := by
  induction requests generalizing fields with
  | nil => rfl
  | cons request requests ih =>
    cases request <;> exact ih _

/-- A store that was written only by its own operations has one reference per compound and one struct per name, so
references are compared in place of compounds. What a reference stands for stays, and of structs the fields change with
the updates of their names only. A struct is refused exactly if its name has one with other fields. -/
theorem references_stand_for_compounds {requests : List Request} {s : TypeStore}
    (h : performAll {} requests = .ok s) :
    ((∀ c id, (c, id) ∈ s.index ↔ s.compound? (.compound id) = some c) ∧ (s.index.map Prod.fst).Nodup) ∧
    ((∀ name id, (name, id) ∈ s.structs ↔ ∃ fields, s.compound? (.compound id) = some (.struct name fields)) ∧
      (s.structs.map Prod.fst).Nodup) ∧
    (∀ t u c d, s.compound? t = some c → s.compound? u = some d → (t = u ↔ c = d)) ∧
    (∀ request t s', s.perform request = .ok (some t, s') → s'.compound? t = request.compound?) ∧
    (∀ later s', s.performAll later = .ok s' → ∀ t c, s.compound? t = some c →
      (c.isStruct = false → s'.compound? t = some c) ∧
      ∀ name fields, c = .struct name fields → s'.compound? t = some (.struct name (fieldsAfter name fields later))) ∧
    ∀ name fields e, s.struct name fields = .error e ↔
      e = .structDefined name ∧ ∃ t old, s.compound? t = some (.struct name old) ∧ old ≠ fields := by
  have hs := interned_performAll interned_empty h
  refine ⟨⟨hs.index, hs.keys⟩, ⟨hs.structs, hs.names⟩, fun t u c d => hs.eq_iff_compound?_eq,
    fun request t s' => hs.compound?_returned, ?_, fun name fields e => hs.struct_eq_error_iff⟩
  intro later s' hlater t c hc
  have hlast := compound?_performAll hs hlater hc
  constructor
  · intro hstruct
    rw [hlast, foldl_rewrite_of_not_struct hstruct]
  · rintro name fields rfl
    rw [hlast, foldl_rewrite_struct]

/-- `type List struct {}` and the type `*List`, before the struct gets its field. -/
def listStore : TypeStore := ((({} : TypeStore).append (.struct "List" [])).2.append (.ptr (.compound ⟨0⟩))).2

/-- With its field the struct has the reference that it had, and so has the pointer to it. Before the update, another
struct of its name is refused. -/
theorem references_listStore : performAll {} [.struct "List" [], .ptr (.compound ⟨0⟩)] = .ok listStore ∧
    listStore.struct "List" [⟨"next", .compound ⟨1⟩⟩] = .error (.structDefined "List") ∧
    ∃ s, listStore.performAll [.updateStruct "List" [⟨"next", .compound ⟨1⟩⟩]] = .ok s ∧
      s.compound? (.compound ⟨0⟩) = some (.struct "List" [⟨"next", .compound ⟨1⟩⟩]) ∧
      s.compound? (.compound ⟨1⟩) = some (.ptr (.compound ⟨0⟩)) := by
  have hrun : performAll {} [.struct "List" [], .ptr (.compound ⟨0⟩)] = .ok listStore := by decide
  obtain ⟨_, _, _, _, hlater, hrefused⟩ := references_stand_for_compounds hrun
  refine ⟨hrun, (hrefused _ _ _).2 ⟨rfl, .compound ⟨0⟩, [], by decide, by decide⟩, ?_⟩
  obtain ⟨s, hs⟩ : ∃ s, listStore.performAll [.updateStruct "List" [⟨"next", .compound ⟨1⟩⟩]] = .ok s := ⟨_, rfl⟩
  exact ⟨s, hs, (hlater _ s hs _ _ (by decide)).2 "List" [] rfl, (hlater _ s hs _ _ (by decide)).1 rfl⟩

end EscapeAnalysis.TypeStore

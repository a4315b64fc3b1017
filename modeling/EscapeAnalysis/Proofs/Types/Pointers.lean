import EscapeAnalysis.Proofs.Types.Growth

/-!
# What the search for pointers finds

`TypeStore.hasPointers` enters each compound once. It finds a pointer exactly if one can be reached through elements
and fields, in any store, and so a type that holds pointers goes on holding them when the store grows.

* `TypeStore.Holds s t` : a value of the type holds a pointer, itself or in its elements and fields;
* `TypeStore.Cleared` : what a search that found nothing has seen;
* `TypeStore.hasPointers_iff` : the search finds what is there;
* `Grows.hasPointers_of_true` : pointers stay in a store that grows.
-/

namespace EscapeAnalysis.TypeStore

/-- A value of the type holds a pointer. -/
inductive Holds (s : TypeStore) : Ty → Prop where
  | string : Holds s .string
  | rawPointer : Holds s .rawPointer
  | element {id : CompoundId} {elem : Ty} {len : Nat} (hc : s.compounds[id.index]? = some (.array elem len))
    (hlen : len ≠ 0) (h : Holds s elem) : Holds s (.compound id)
  | field {id : CompoundId} {name : String} {fields : List Field} {field : Field}
    (hc : s.compounds[id.index]? = some (.struct name fields)) (hfield : field ∈ fields) (h : Holds s field.ty) :
    Holds s (.compound id)
  | pointer {id : CompoundId} {c : Compound} (hc : s.compounds[id.index]? = some c)
    (harray : ∀ elem len, c ≠ .array elem len) (hstruct : ∀ name fields, c ≠ .struct name fields) :
    Holds s (.compound id)

/-- One step of the search through the fields of a struct. -/
def searchField (s : TypeStore) (fuel : Nat) (b : Bool × List CompoundId) (field : Field) : Bool × List CompoundId :=
  if b.1 then b else s.pointerSearch fuel field.ty b.2

variable {s : TypeStore}

/-! ## Nothing is found that is not there -/

theorem exists_of_foldl_searchField {fuel : Nat} {fields : List Field} {b : Bool × List CompoundId}
    (h : (fields.foldl (s.searchField fuel) b).1 = true) :
    b.1 = true ∨ ∃ field ∈ fields, ∃ entered, (s.pointerSearch fuel field.ty entered).1 = true := by
  induction fields generalizing b with
  | nil => exact Or.inl h
  | cons field fields ih =>
    rw [List.foldl_cons] at h
    rcases ih h with hb | ⟨other, hother, hfound⟩
    · unfold searchField at hb
      split at hb
      · rename_i hfound
        exact Or.inl hfound
      · exact Or.inr ⟨field, List.mem_cons_self, b.2, hb⟩
    · exact Or.inr ⟨other, List.mem_cons_of_mem _ hother, hfound⟩

theorem holds_of_pointerSearch {fuel : Nat} {ty : Ty} {entered : List CompoundId}
    (h : (s.pointerSearch fuel ty entered).1 = true) : s.Holds ty := by
  induction fuel generalizing ty entered with
  | zero =>
    cases ty with
    | string => exact .string
    | rawPointer => exact .rawPointer
    | _ => cases h
  | succ fuel ih =>
    cases ty with
    | string => exact .string
    | rawPointer => exact .rawPointer
    | compound id =>
      unfold pointerSearch at h
      split at h
      · cases h
      · split at h
        · cases h
        · rename_i elem len hc
          split at h
          · cases h
          · rename_i hlen
            exact .element hc hlen (ih h)
        · rename_i name fields hc
          change (fields.foldl (s.searchField fuel) (false, id :: entered)).1 = true at h
          rcases exists_of_foldl_searchField h with hfalse | ⟨field, hfield, _, hfound⟩
          · cases hfalse
          · exact .field hc hfield (ih hfound)
        · rename_i c harray hstruct hc
          exact .pointer hc (fun elem len he => harray elem len (by rw [he])) fun name fields he =>
            hstruct name fields (by rw [he])
    | _ => cases h

/-! ## Nothing that is there is missed -/

/-- The type is no pointer, and if it is a compound, it was entered. -/
def Seen (entered : List CompoundId) (ty : Ty) : Prop :=
  ty ≠ .string ∧ ty ≠ .rawPointer ∧ ∀ id, ty = .compound id → id ∈ entered

/-- The compound is no pointer, and its elements and fields were seen. -/
def Clear (entered : List CompoundId) : Compound → Prop
  | .array elem len => len ≠ 0 → Seen entered elem
  | .struct _ fields => ∀ field ∈ fields, Seen entered field.ty
  | _ => False

def Cleared (s : TypeStore) (entered : List CompoundId) (id : CompoundId) : Prop :=
  ∀ c, s.compounds[id.index]? = some c → Clear entered c

variable {entered entered' : List CompoundId}

theorem Seen.mono (h : entered ⊆ entered') {ty : Ty} (hty : Seen entered ty) : Seen entered' ty :=
  ⟨hty.1, hty.2.1, fun id hid => h (hty.2.2 id hid)⟩

theorem Clear.mono (h : entered ⊆ entered') {c : Compound} (hc : Clear entered c) : Clear entered' c := by
  cases c with
  | array elem len => exact fun hlen => (hc hlen).mono h
  | struct name fields => exact fun field hfield => (hc field hfield).mono h
  | _ => exact hc

theorem Cleared.mono (h : entered ⊆ entered') {id : CompoundId} (hid : s.Cleared entered id) : s.Cleared entered' id :=
  fun c hc => (hid c hc).mono h

theorem cleared_of_some {id : CompoundId} {c : Compound} (hc : s.compounds[id.index]? = some c) (h : Clear entered c) :
    s.Cleared entered id := by
  intro d hd
  rw [hc] at hd
  cases hd
  exact h

/-- What a search from the compounds `entered` to `entered'` that found nothing has done. -/
structure Swept (s : TypeStore) (entered entered' : List CompoundId) : Prop where
  subset : entered ⊆ entered'
  new : ∀ id ∈ entered', id ∈ entered ∨ s.Cleared entered' id

theorem Swept.refl (s : TypeStore) (entered : List CompoundId) : s.Swept entered entered :=
  ⟨List.Subset.refl _, fun _ h => Or.inl h⟩

theorem Swept.trans {e₁ e₂ e₃ : List CompoundId} (h₁ : s.Swept e₁ e₂) (h₂ : s.Swept e₂ e₃) : s.Swept e₁ e₃ := by
  refine ⟨List.Subset.trans h₁.subset h₂.subset, fun id hid => ?_⟩
  rcases h₂.new id hid with hid | hid
  · exact (h₁.new id hid).imp_right (Cleared.mono h₂.subset)
  · exact Or.inr hid

/-- A compound that is entered and whose parts turn out to hold nothing. -/
theorem Swept.enter {id : CompoundId} (h : s.Swept (id :: entered) entered') (hid : s.Cleared entered' id) :
    s.Swept entered entered' := by
  refine ⟨List.Subset.trans (List.subset_cons_self id entered) h.subset, fun other hother => ?_⟩
  rcases h.new other hother with hmem | hcleared
  · rcases List.mem_cons.1 hmem with rfl | hmem
    · exact Or.inr hid
    · exact Or.inl hmem
  · exact Or.inr hcleared

/-- A pointer that was found stays found. -/
theorem foldl_searchField_true (fuel : Nat) (fields : List Field) (entered : List CompoundId) :
    fields.foldl (s.searchField fuel) (true, entered) = (true, entered) := by
  induction fields with
  | nil => rfl
  | cons field fields ih =>
    rw [List.foldl_cons]
    exact ih

theorem swept_foldl_searchField {fuel : Nat}
    (ih : ∀ {ty : Ty} {e e' : List CompoundId}, s.room e < fuel → s.pointerSearch fuel ty e = (false, e') →
      Seen e' ty ∧ s.Swept e e') {entered entered' : List CompoundId} {fields : List Field} (hroom : s.room entered < fuel)
    (h : fields.foldl (s.searchField fuel) (false, entered) = (false, entered')) :
    (∀ field ∈ fields, Seen entered' field.ty) ∧ s.Swept entered entered' := by
  induction fields generalizing entered with
  | nil =>
    cases h
    exact ⟨fun _ hfield => absurd hfield List.not_mem_nil, .refl s _⟩
  | cons field fields ihf =>
    rw [List.foldl_cons] at h
    obtain ⟨found, e, he⟩ : ∃ found e, s.searchField fuel (false, entered) field = (found, e) := ⟨_, _, rfl⟩
    rw [he] at h
    cases found with
    | true =>
      rw [foldl_searchField_true] at h
      cases h
    | false =>
      obtain ⟨hseen, hswept⟩ := ih hroom he
      obtain ⟨hfields, hrest⟩ := ihf (Nat.lt_of_le_of_lt (s.room_mono hswept.subset) hroom) h
      exact ⟨List.forall_mem_cons.2 ⟨hseen.mono hrest.subset, hfields⟩, hswept.trans hrest⟩

/-- A search that finds nothing clears what it enters. -/
theorem swept_pointerSearch {fuel : Nat} {ty : Ty} (hroom : s.room entered < fuel)
    (h : s.pointerSearch fuel ty entered = (false, entered')) : Seen entered' ty ∧ s.Swept entered entered' := by
  induction fuel generalizing ty entered entered' with
  | zero => exact absurd hroom (Nat.not_lt_zero _)
  | succ fuel ih =>
    cases ty with
    | string => cases h
    | rawPointer => cases h
    | compound id =>
      have hself (hmem : id ∈ entered') : Seen entered' (.compound id) := by
        refine ⟨by simp, by simp, ?_⟩
        rintro _ ⟨⟩
        exact hmem
      unfold pointerSearch at h
      split at h
      · rename_i hid
        cases h
        exact ⟨hself hid, .refl s entered⟩
      · rename_i hid
        have hin {c : Compound} (hc : s.compounds[id.index]? = some c) : s.room (id :: entered) < fuel := by
          have hlt := s.room_cons_lt (lt_of_getElem? hc) hid
          omega
        split at h
        · rename_i hc
          cases h
          refine ⟨hself List.mem_cons_self, Swept.enter (.refl s _) fun c hsome => ?_⟩
          rw [hc] at hsome
          cases hsome
        · rename_i elem len hc
          split at h
          · rename_i hlen
            cases h
            exact ⟨hself List.mem_cons_self, Swept.enter (.refl s _) (cleared_of_some hc fun hne => absurd hlen hne)⟩
          · obtain ⟨hseen, hswept⟩ := ih (hin hc) h
            exact ⟨hself (hswept.subset List.mem_cons_self), hswept.enter (cleared_of_some hc fun _ => hseen)⟩
        · rename_i name fields hc
          change fields.foldl (s.searchField fuel) (false, id :: entered) = _ at h
          obtain ⟨hseen, hswept⟩ := swept_foldl_searchField ih (hin hc) h
          exact ⟨hself (hswept.subset List.mem_cons_self), hswept.enter (cleared_of_some hc hseen)⟩
        · cases h
    | _ =>
      cases h
      exact ⟨⟨by simp, by simp, by simp⟩, .refl s entered⟩

/-- Among compounds that are cleared there is no way to a pointer. -/
theorem not_holds_of_seen (h : ∀ id ∈ entered, s.Cleared entered id) {ty : Ty} (hty : Seen entered ty) :
    ¬ s.Holds ty := by
  intro hholds
  induction hholds with
  | string => exact hty.1 rfl
  | rawPointer => exact hty.2.1 rfl
  | @element id elem len hc hlen _ ih => exact ih (h id (hty.2.2 id rfl) _ hc hlen)
  | @field id name fields field hc hfield _ ih => exact ih (h id (hty.2.2 id rfl) _ hc field hfield)
  | @pointer id c hc harray hstruct =>
    have hclear := h id (hty.2.2 id rfl) c hc
    cases c with
    | array elem len => exact harray elem len rfl
    | struct name fields => exact hstruct name fields rfl
    | _ => exact hclear

theorem hasPointers_iff {ty : Ty} : s.hasPointers ty = true ↔ s.Holds ty := by
  refine ⟨holds_of_pointerSearch, fun hholds => ?_⟩
  unfold hasPointers
  cases hfound : (s.pointerSearch (s.compounds.size + 1) ty []).1 with
  | true => rfl
  | false =>
    have hsearch : s.pointerSearch (s.compounds.size + 1) ty [] =
        (false, (s.pointerSearch (s.compounds.size + 1) ty []).2) := Prod.ext hfound rfl
    obtain ⟨hseen, hswept⟩ := swept_pointerSearch s.room_nil_lt hsearch
    exact absurd hholds (not_holds_of_seen (fun id hid => (hswept.new id hid).resolve_left List.not_mem_nil) hseen)

/-! ## Stores that grow -/

theorem Grows.holds {t : TypeStore} (h : s.Grows t) {ty : Ty} (hty : s.Holds ty) : t.Holds ty := by
  have hget {i : Nat} {c : Compound} (hc : s.compounds[i]? = some c) : t.compounds[i]? = some c := by
    rw [h.getElem? (lt_of_getElem? hc), hc]
  induction hty with
  | string => exact .string
  | rawPointer => exact .rawPointer
  | element hc hlen _ ih => exact .element (hget hc) hlen ih
  | field hc hfield _ ih => exact .field (hget hc) hfield ih
  | pointer hc harray hstruct => exact .pointer (hget hc) harray hstruct

theorem Grows.hasPointers_of_true {t : TypeStore} (h : s.Grows t) {ty : Ty} (hty : s.hasPointers ty = true) :
    t.hasPointers ty = true :=
  hasPointers_iff.2 (h.holds (hasPointers_iff.1 hty))

end EscapeAnalysis.TypeStore

import EscapeAnalysis.Proofs.Types.Growth

/-!
# Types that are alike

Two stores that grew from one number the types they got since in their own order. A type of the one and a type of the
other are alike if they are one type of the common store, or pointers and arrays made of alike types. What a type is
asked for does not tell them apart.

* `TypeStore.Alike base s t a b` : the type `a` of `s` and the type `b` of `t` are alike;
* `Grows.alike_ptr`, `Grows.alike_array` : interning keeps types alike;
* `Alike.hasPointers`, `Alike.text` : the questions whose answers take a search.
-/

namespace EscapeAnalysis.TypeStore

inductive Alike (base s t : TypeStore) : Ty → Ty → Prop where
  | old {a : Ty} (h : base.Has a) : Alike base s t a a
  | ptr {a b c d : Ty} (ha : s.compound? a = some (.ptr c)) (hb : t.compound? b = some (.ptr d))
    (h : Alike base s t c d) : Alike base s t a b
  | array {a b elem : Ty} {len : Nat} (ha : s.compound? a = some (.array elem len))
    (hb : t.compound? b = some (.array elem len)) (helem : base.Has elem) (hnew : ¬ base.Has a)
    (hnew' : ¬ base.Has b) : Alike base s t a b

theorem has_of_compound? {s : TypeStore} {a : Ty} {c : Compound} (h : s.compound? a = some c) : s.Has a := by
  cases a with
  | compound id => exact has_compound.2 (lt_of_getElem? h)
  | _ => exact s.has_primitive rfl

section Questions

variable {base s t : TypeStore} (hs : base.Grows s) (ht : base.Grows t) {a b : Ty} (h : Alike base s t a b)

include hs in
theorem Grows.has_left (h : Alike base s t a b) : s.Has a := by
  cases h with
  | old h => exact hs.has h
  | ptr ha _ _ => exact has_of_compound? ha
  | array ha _ _ _ _ => exact has_of_compound? ha

include ht in
theorem Grows.has_right (h : Alike base s t a b) : t.Has b := by
  cases h with
  | old h => exact ht.has h
  | ptr _ hb _ => exact has_of_compound? hb
  | array _ hb _ _ _ => exact has_of_compound? hb

include h in
theorem Alike.mono {s' t' : TypeStore} (hs : s.Grows s') (ht : t.Grows t') : Alike base s' t' a b := by
  induction h with
  | old h => exact .old h
  | ptr ha hb _ ih =>
    exact .ptr (by rw [hs.compound? (has_of_compound? ha), ha]) (by rw [ht.compound? (has_of_compound? hb), hb]) ih
  | array ha hb helem hnew hnew' =>
    exact .array (by rw [hs.compound? (has_of_compound? ha), ha]) (by rw [ht.compound? (has_of_compound? hb), hb]) helem
      hnew hnew'

include hs ht h

theorem Alike.isArray : t.isArray b = s.isArray a := by
  cases h with
  | old h => rw [hs.isArray h, ht.isArray h]
  | ptr ha hb _ => simp [TypeStore.isArray, arrayDef?, ha, hb]
  | array ha hb _ _ _ => simp [TypeStore.isArray, arrayDef?, ha, hb]

theorem Alike.isSlice : t.isSlice b = s.isSlice a := by
  cases h with
  | old h => rw [hs.isSlice h, ht.isSlice h]
  | ptr ha hb _ => simp [TypeStore.isSlice, ha, hb]
  | array ha hb _ _ _ => simp [TypeStore.isSlice, ha, hb]

theorem Alike.funcDef? : t.funcDef? b = s.funcDef? a := by
  cases h with
  | old h => rw [hs.funcDef? h, ht.funcDef? h]
  | ptr ha hb _ => simp [TypeStore.funcDef?, ha, hb]
  | array ha hb _ _ _ => simp [TypeStore.funcDef?, ha, hb]

theorem Alike.deref? (hbase : base.Sound) : Option.Rel (Alike base s t) (s.deref? a) (t.deref? b) := by
  cases h with
  | old h =>
    rw [hs.deref? h, ht.deref? h]
    cases hc : base.deref? a with
    | none => exact .none
    | some c => exact .some (.old (hbase.has_deref? hc))
  | ptr ha hb h =>
    simp only [TypeStore.deref?, ha, hb]
    exact .some h
  | array ha hb _ _ _ =>
    simp only [TypeStore.deref?, ha, hb]
    exact .none

end Questions

/-! ## Pointers -/

theorem hasPointers_ptr {s : TypeStore} {a c : Ty} (h : s.compound? a = some (.ptr c)) : s.hasPointers a = true := by
  cases a with
  | compound id =>
    have hget : s.compounds[id.index]? = some (.ptr c) := h
    simp [hasPointers, pointerSearch, hget]
  | _ => cases h

/-- A search does not come to what is not there. -/
theorem pointerSearch_concat {s : TypeStore} (hs : s.Sound) {id : CompoundId} (hid : s.compounds.size ≤ id.index)
    (fuel : Nat) {ty : Ty} (hty : s.Has ty) (entered : List CompoundId) :
    s.pointerSearch fuel ty (entered ++ [id]) =
      ((s.pointerSearch fuel ty entered).1, (s.pointerSearch fuel ty entered).2 ++ [id]) := by
  induction fuel generalizing ty entered with
  | zero => cases ty <;> rfl
  | succ fuel ih =>
    cases ty with
    | compound k =>
      have hk : k ∈ entered ++ [id] ↔ k ∈ entered := by
        have hne : k ≠ id := fun he => absurd (has_compound.1 hty) (he ▸ Nat.not_lt_of_le hid)
        simp [hne]
      unfold pointerSearch
      simp only [hk]
      split
      · rfl
      · cases hc : s.compounds[k.index]? with
        | none => rfl
        | some c =>
          cases c with
          | array elem len =>
            dsimp only
            split
            · rfl
            · exact ih (hs.parts _ _ hc elem (by simp [Compound.parts])) (k :: entered)
          | struct name fields =>
            have hhas : ∀ field ∈ fields, s.Has field.ty :=
              fun field hfield => hs.parts _ _ hc field.ty (List.mem_map_of_mem hfield)
            dsimp only
            rw [← List.cons_append]
            generalize k :: entered = entered, false = found
            clear hc hk
            induction fields generalizing entered found with
            | nil => rfl
            | cons field fields ihf =>
              rw [List.forall_mem_cons] at hhas
              rw [List.foldl_cons, List.foldl_cons]
              dsimp only
              cases found with
              | true => exact ihf hhas.2 _ _
              | false =>
                simp only [Bool.false_eq_true, if_false, ih hhas.1]
                exact ihf hhas.2 _ _
          | _ => rfl
    | _ => rfl

/-- An array that the common store does not have holds pointers if its elements do there. -/
theorem Grows.hasPointers_array {base s : TypeStore} (h : base.Grows s) (hbase : base.Sound) {a elem : Ty} {len : Nat}
    (ha : s.compound? a = some (.array elem len)) (helem : base.Has elem) (hnew : ¬ base.Has a) :
    s.hasPointers a = (decide (len ≠ 0) && base.hasPointers elem) := by
  cases a with
  | compound id =>
    have hget : s.compounds[id.index]? = some (.array elem len) := ha
    have hid : base.compounds.size ≤ id.index := Nat.le_of_not_lt fun hlt => hnew (has_compound.2 hlt)
    have hsize : base.compounds.size + 1 ≤ s.compounds.size := Nat.lt_of_le_of_lt hid (lt_of_getElem? hget)
    obtain ⟨extra, hextra⟩ := Nat.exists_eq_add_of_le hsize
    have hsearch : (s.pointerSearch s.compounds.size elem [id]).1 = base.hasPointers elem := by
      rw [h.pointerSearch hbase _ helem, show [id] = [] ++ [id] from rfl, pointerSearch_concat hbase hid _ helem, hextra,
        pointerSearch_add hbase extra helem base.room_nil_lt]
      rfl
    by_cases hlen : len = 0
    · simp [TypeStore.hasPointers, TypeStore.pointerSearch, hget, hlen]
    · rw [← hsearch]
      simp [TypeStore.hasPointers, TypeStore.pointerSearch, hget, hlen]
  | _ => cases ha

theorem Alike.hasPointers {base s t : TypeStore} {a b : Ty} (h : Alike base s t a b) (hbase : base.Sound)
    (hs : base.Grows s) (ht : base.Grows t) : t.hasPointers b = s.hasPointers a := by
  cases h with
  | old h => rw [hs.hasPointers hbase h, ht.hasPointers hbase h]
  | ptr ha hb _ => rw [hasPointers_ptr ha, hasPointers_ptr hb]
  | array ha hb helem hnew hnew' =>
    rw [hs.hasPointers_array hbase ha helem hnew, ht.hasPointers_array hbase hb helem hnew']

/-! ## Text -/

theorem text_of_part {s : TypeStore} (hs : s.Sound) {id : CompoundId} {c : Compound}
    (hc : s.compounds[id.index]? = some c) (hstruct : c.isStruct = false) (part : Ty) (hpart : part ∈ c.parts) :
    s.textAt s.compounds.size part = s.text part := by
  have hbelow := (hs.older _ _ hc hstruct part hpart).mono (Nat.le_of_lt (lt_of_getElem? hc))
  exact (Grows.refl s).textAt hs (hs.parts _ _ hc part hpart) (hbelow.mono (Nat.le_succ _)) hbelow

theorem text_ptr {s : TypeStore} (hs : s.Sound) {a c : Ty} (h : s.compound? a = some (.ptr c)) :
    s.text a = "*" ++ s.text c := by
  cases a with
  | compound id =>
    have hget : s.compounds[id.index]? = some (.ptr c) := h
    rw [← text_of_part hs hget rfl c (by simp [Compound.parts])]
    simp [text, textAt, hget]
  | _ => cases h

theorem text_array {s : TypeStore} (hs : s.Sound) {a elem : Ty} {len : Nat}
    (h : s.compound? a = some (.array elem len)) : s.text a = "[" ++ toString len ++ "]" ++ s.text elem := by
  cases a with
  | compound id =>
    have hget : s.compounds[id.index]? = some (.array elem len) := h
    rw [← text_of_part hs hget rfl elem (by simp [Compound.parts])]
    simp [text, textAt, hget]
  | _ => cases h

theorem Alike.text {base s t : TypeStore} {a b : Ty} (h : Alike base s t a b) (hbase : base.Sound) (hs : s.Sound)
    (ht : t.Sound) (hgs : base.Grows s) (hgt : base.Grows t) : t.text b = s.text a := by
  induction h with
  | old h => rw [hgs.text hbase h, hgt.text hbase h]
  | ptr ha hb _ ih => rw [text_ptr hs ha, text_ptr ht hb, ih]
  | array ha hb helem _ _ =>
    rw [text_array hs ha, text_array ht hb, hgs.text hbase helem, hgt.text hbase helem]

/-! ## Interning -/

/-- What a store found since it grew is new, unless it was there before. -/
theorem Grows.find?_cases {s t : TypeStore} (h : s.Grows t) {c : Compound} {id : CompoundId}
    (hc : t.find? c = some id) : s.find? c = some id ∨ s.compounds.size ≤ id.index := by
  induction h with
  | refl => exact Or.inl hc
  | @tail u _ hu hd ih =>
    obtain ⟨d, rfl⟩ := hd
    have hle := Grows.size_le hu
    unfold TypeStore.intern at hc
    split at hc
    · exact ih hc
    · change List.lookup c ((d, _) :: _) = _ at hc
      rw [List.lookup_cons] at hc
      split at hc
      · cases hc
        exact Or.inr hle
      · exact ih hc

section Interning

variable {base s t : TypeStore} (hbase : base.Sound) (hgs : base.Grows s) (hgt : base.Grows t) (hs : s.Sound)
  (ht : t.Sound)

include hs ht in
theorem alike_ptr {a b : Ty} (h : Alike base s t a b) :
    Alike base (s.ptr a).2 (t.ptr b).2 (s.ptr a).1 (t.ptr b).1 :=
  .ptr (compound?_intern hs _) (compound?_intern ht _) (h.mono (s.grows_intern _) (t.grows_intern _))

include hbase hgs hgt hs ht in
theorem alike_array {elem : Ty} (helem : base.Has elem) (len : Nat) :
    Alike base (s.array elem len).2 (t.array elem len).2 (s.array elem len).1 (t.array elem len).1 := by
  cases hfind : base.find? (.array elem len) with
  | some id =>
    have hhas : base.Has (.compound id) := has_of_compound? (compound?_of_find? hbase hfind)
    simp only [array, intern, hgs.find? hfind, hgt.find? hfind]
    exact .old hhas
  | none =>
    have hnew {u : TypeStore} (hu : base.Grows u) : ¬ base.Has (u.array elem len).1 := by
      obtain ⟨id, hid, hfound⟩ := u.find?_intern (.array elem len)
      rcases (hu.trans (u.grows_intern (.array elem len))).find?_cases hfound with h | h
      · rw [hfind] at h
        cases h
      · rw [array, hid, has_compound]
        exact Nat.not_lt_of_le h
    exact .array (compound?_intern hs _) (compound?_intern ht _) helem (hnew hgs) (hnew hgt)

end Interning

end EscapeAnalysis.TypeStore

import Mathlib.Data.Nat.Bitwise
import EscapeAnalysis.Proofs.Flood.Words
import EscapeAnalysis.Proofs.Words.Fields

/-!
# Words as numbers of sixteen bits

`Word.toNat` packs the parts of a word into the bits of a number. What is done to words is done to these numbers by
shifts and masks.

* `Packed.raise`, `Packed.flowTo`, `Packed.fields` : the operations on numbers;
* `Packed.insert_eq` : some bits are replaced and the others stay;
* `Word.toNat_raise`, `Word.toNat_flowTo`, `Word.map_val_fields` : they agree with those on words.
-/

namespace EscapeAnalysis

namespace Packed

/-! ## Shifts and masks -/

/-- The bits of the class, and those of a field. -/
def mask : Nat := (1 <<< 3) - 1

def contentBit : Nat := 1 <<< 3

/-- All bits but those of `bits`. -/
def without (e bits : Nat) : Nat := e &&& ((2 ^ 16 - 1) ^^^ bits)

def raise (e : Nat) (c : EscapeClass) : Nat :=
  if c.bits.val < e &&& mask then e
  else match c with
    | .none | .result => without e mask ||| c.bits.val
    | _ => c.bits.val

/-- Where the field of the `ordinal`-th output begins. -/
def shift? (ordinal : Nat) : Option Nat := if ordinal = 0 ∨ 4 < ordinal then none else some (3 * (ordinal - 1) + 4)

def flowTo (e ordinal : Nat) (level : Level) : Nat :=
  if level.value ≤ 0 ∧ 0 < level.suffix then raise (e ||| contentBit) .none
  else if level.value < 0 then EscapeClass.heap.bits.val
  else match shift? ordinal with
    | none => EscapeClass.heap.bits.val
    | some shift =>
      let new := min level.value.toNat Word.maxLevel + 1
      let old := (e >>> shift) &&& mask
      without e (mask <<< shift) ||| ((if old = 0 ∨ new < old then new else old) <<< shift)

/-- The fields from the lowest one up, as long as a bit is left. -/
def fieldsFrom (rest : Nat) : List Nat :=
  if rest = 0 then [] else (rest &&& mask) :: fieldsFrom (rest >>> 3)
termination_by rest
decreasing_by
  rename_i hrest
  rw [Nat.shiftRight_eq_div_pow]
  exact Nat.div_lt_self (Nat.pos_of_ne_zero hrest) (by decide)

def fields (e : Nat) : List Nat := fieldsFrom (e >>> 4)

variable {e v k s : Nat}

theorem and_mask (e : Nat) : e &&& mask = e % 8 := Nat.and_two_pow_sub_one_eq_mod e 3

theorem testBit_without (he : e < 2 ^ 16) (bits i : Nat) :
    (without e bits).testBit i = (e.testBit i && !bits.testBit i) := by
  rw [without, Nat.testBit_and, Nat.testBit_xor, Nat.testBit_two_pow_sub_one]
  by_cases hi : i < 16
  · simp [hi]
  · have hbit : e.testBit i = false :=
      Nat.testBit_eq_false_of_lt (Nat.lt_of_lt_of_le he (Nat.pow_le_pow_right (by decide) (Nat.le_of_not_lt hi)))
    simp [hbit]

/-- The `k` bits from `s` on become those of `v`. -/
theorem insert_eq (he : e < 2 ^ 16) (hv : v < 2 ^ k) (s : Nat) :
    without e ((2 ^ k - 1) <<< s) ||| v <<< s = 2 ^ (s + k) * (e / 2 ^ (s + k)) + (2 ^ s * v + e % 2 ^ s) := by
  have hlow : e % 2 ^ s < 2 ^ s := Nat.mod_lt _ (Nat.two_pow_pos s)
  have hmid : 2 ^ s * v + e % 2 ^ s < 2 ^ (s + k) := by
    rw [Nat.pow_add]
    exact Nat.lt_of_lt_of_le (Nat.add_lt_add_left hlow _) (Nat.mul_le_mul_left (2 ^ s) hv)
  refine Nat.eq_of_testBit_eq fun i => ?_
  rw [Nat.testBit_or, testBit_without he, Nat.testBit_shiftLeft, Nat.testBit_shiftLeft, Nat.testBit_two_pow_sub_one,
    Nat.testBit_two_pow_mul_add _ hmid, Nat.testBit_two_pow_mul_add _ hlow, Nat.testBit_mod_two_pow,
    Nat.testBit_div_two_pow]
  by_cases hs : i < s
  · simp [hs, Nat.lt_of_lt_of_le hs (Nat.le_add_right s k), Nat.not_le.2 hs]
  · by_cases hk : i < s + k
    · have hlt : i - s < k := by omega
      simp [hs, hk, hlt, Nat.le_of_not_lt hs]
    · have hbit : v.testBit (i - s) = false :=
        Nat.testBit_eq_false_of_lt (Nat.lt_of_lt_of_le hv (Nat.pow_le_pow_right (by decide) (by omega)))
      have hge : ¬ i - s < k := by omega
      have hback : i - (s + k) + (s + k) = i := by omega
      simp [hk, hge, hbit, hback]

theorem or_eq_insert (he : e < 2 ^ 16) (bits : Nat) : e ||| bits = without e bits ||| bits := by
  refine Nat.eq_of_testBit_eq fun i => ?_
  rw [Nat.testBit_or, Nat.testBit_or, testBit_without he]
  cases e.testBit i <;> cases bits.testBit i <;> rfl

end Packed

namespace Word

/-! ## Parts of the number -/

variable (w : Word)

theorem toNat_mod_eight : w.toNat % 8 = w.bits.val := by
  have := w.bits.isLt
  unfold toNat
  omega

theorem toNat_with_bits (b : Fin 8) : { w with bits := b }.toNat = Packed.without w.toNat Packed.mask ||| b.val := by
  have hinsert : Packed.without w.toNat Packed.mask ||| b.val = _ := Packed.insert_eq (k := 3) w.toNat_lt b.isLt 0
  have := w.bits.isLt
  rw [hinsert]
  simp only [toNat]
  omega

theorem toNat_with_content : { w with content := true }.toNat = w.toNat ||| Packed.contentBit := by
  have hinsert : Packed.without w.toNat Packed.contentBit ||| Packed.contentBit = _ :=
    Packed.insert_eq (k := 1) (v := 1) w.toNat_lt (by decide) 3
  have := w.bits.isLt
  rw [Packed.or_eq_insert w.toNat_lt, hinsert]
  cases hcontent : w.content <;> simp only [toNat, hcontent, Bool.toNat_true, Bool.toNat_false] <;> omega

theorem exists_outputs : ∃ a b c d, w.outputs = #v[a, b, c, d] := by
  obtain ⟨_, _, ⟨⟨outputs⟩, hsize⟩⟩ := w
  match outputs, hsize with
  | [a, b, c, d], _ => exact ⟨a, b, c, d, rfl⟩

/-- A field is read by a shift and a mask. -/
theorem field_toNat (i : Fin 4) : (w.toNat >>> (3 * i.val + 4)) &&& Packed.mask = (w.outputs.get i).val := by
  obtain ⟨a, b, c, d, houtputs⟩ := w.exists_outputs
  have := w.bits.isLt
  have : w.content.toNat ≤ 1 := by cases w.content <;> decide
  rw [Packed.and_mask, Nat.shiftRight_eq_div_pow, toNat, houtputs]
  rcases i with ⟨_ | _ | _ | _ | i, hi⟩
  · change _ / 2 ^ 4 % 8 = a.val
    simp
    omega
  · change _ / 2 ^ 7 % 8 = b.val
    simp
    omega
  · change _ / 2 ^ 10 % 8 = c.val
    simp
    omega
  · change _ / 2 ^ 13 % 8 = d.val
    simp
    omega
  · omega

/-- A field is set by a mask and a shift. -/
theorem toNat_with_output (i : Fin 4) (field : Fin 8) : { w with outputs := w.outputs.set i field i.isLt }.toNat =
    Packed.without w.toNat (Packed.mask <<< (3 * i.val + 4)) ||| field.val <<< (3 * i.val + 4) := by
  have hinsert : _ = _ := Packed.insert_eq (k := 3) w.toNat_lt field.isLt (3 * i.val + 4)
  obtain ⟨a, b, c, d, houtputs⟩ := w.exists_outputs
  have := w.bits.isLt
  have : w.content.toNat ≤ 1 := by cases w.content <;> decide
  refine Eq.trans ?_ hinsert.symm
  simp only [toNat, houtputs]
  rcases i with ⟨_ | _ | _ | _ | i, hi⟩
  · simp
    omega
  · simp
    omega
  · simp
    omega
  · simp
    omega
  · omega

/-- A field is lowered, or set if it was not. -/
theorem toNat_lower (i : Fin 4) (new : Fin 8) {c : Prop} [Decidable c]
    (hc : c ↔ (w.outputs.get i).val = 0 ∨ new.val < (w.outputs.get i).val) :
    (if c then { w with outputs := w.outputs.set i new i.isLt } else w).toNat =
      Packed.without w.toNat (Packed.mask <<< (3 * i.val + 4)) |||
        (if (w.outputs.get i).val = 0 ∨ new.val < (w.outputs.get i).val then new.val else (w.outputs.get i).val) <<<
          (3 * i.val + 4) := by
  by_cases hset : c
  · rw [if_pos hset, if_pos (hc.1 hset)]
    exact w.toNat_with_output i new
  · have hself := w.toNat_with_output i (w.outputs.get i)
    rw [if_neg hset, if_neg (mt hc.2 hset), ← hself]
    exact congrArg (fun outputs => toNat { w with outputs }) (Vector.set_getElem_self i.isLt).symm

/-! ## Operations -/

theorem toNat_raise (c : EscapeClass) : (w.raise c).toNat = Packed.raise w.toNat c := by
  have hplain (c : EscapeClass) : (plain c).toNat = c.bits.val := by cases c <;> rfl
  unfold raise Packed.raise
  rw [Packed.and_mask, toNat_mod_eight]
  by_cases hlower : c.bits < w.bits
  · rw [if_pos hlower, if_pos (Fin.lt_def.1 hlower)]
  · rw [if_neg hlower, if_neg (mt Fin.lt_def.2 hlower)]
    cases c with
    | none | result => exact w.toNat_with_bits _
    | unknown | scope | heap | never => exact hplain _

theorem toNat_flowTo (ordinal : Nat) (level : Level) :
    (w.flowTo ordinal level).toNat = Packed.flowTo w.toNat ordinal level := by
  unfold flowTo Packed.flowTo
  by_cases hcontent : level.value ≤ 0 ∧ 0 < level.suffix
  · rw [if_pos (by simpa using hcontent), if_pos hcontent, raiseContent, toNat_raise, toNat_with_content]
  rw [if_neg (by simpa using hcontent), if_neg hcontent]
  by_cases hvalue : level.value < 0
  · rw [if_pos hvalue, if_pos hvalue]
    rfl
  rw [if_neg hvalue, if_neg hvalue]
  by_cases hordinal : 1 ≤ ordinal ∧ ordinal ≤ 4
  · have hslot : slot? ordinal = some ⟨ordinal - 1, by omega⟩ := dif_pos hordinal
    have hshift : Packed.shift? ordinal = some (3 * (ordinal - 1) + 4) := if_neg (by omega)
    have hfield := w.field_toNat ⟨ordinal - 1, by omega⟩
    have hnew : (Fin.ofNat 8 (min level.value.toNat maxLevel + 1)).val = min level.value.toNat maxLevel + 1 :=
      val_field _
    rw [hslot, hshift]
    refine (w.toNat_lower ⟨ordinal - 1, by omega⟩ _ (or_congr Fin.ext_iff Fin.lt_def)).trans ?_
    rw [hnew, ← hfield]
  · have hslot : slot? ordinal = none := dif_neg hordinal
    have hshift : Packed.shift? ordinal = none := if_pos (by omega)
    rw [hslot, hshift]
    rfl

/-- The number that some fields make up. -/
def fieldsNat (outputs : List (Fin 8)) : Nat := outputs.foldr (fun field rest => field.val + 8 * rest) 0

theorem toNat_shiftRight_four : w.toNat >>> 4 = fieldsNat w.outputs.toList := by
  obtain ⟨a, b, c, d, houtputs⟩ := w.exists_outputs
  have := w.bits.isLt
  have : w.content.toNat ≤ 1 := by cases w.content <;> decide
  rw [Nat.shiftRight_eq_div_pow, toNat, houtputs]
  simp [fieldsNat]
  omega

theorem fieldsNat_eq_zero_iff {outputs : List (Fin 8)} : fieldsNat outputs = 0 ↔ ∀ field ∈ outputs, field = 0 := by
  induction outputs with
  | nil => simp [fieldsNat]
  | cons field outputs ih =>
    have hcons : fieldsNat (field :: outputs) = field.val + 8 * fieldsNat outputs := rfl
    rw [List.forall_mem_cons, ← ih, hcons, Fin.ext_iff]
    simp

theorem rdropWhile_cons {field : Fin 8} {outputs : List (Fin 8)} (h : ¬ ∀ x ∈ field :: outputs, x = 0) :
    (field :: outputs).rdropWhile (· = 0) = field :: outputs.rdropWhile (· = 0) := by
  unfold List.rdropWhile
  rw [List.reverse_cons, List.dropWhile_append]
  split
  · rename_i hempty
    have hzero : ∀ x ∈ outputs, x = 0 := by simpa using hempty
    have hfield : field ≠ 0 := fun hfield => h (List.forall_mem_cons.2 ⟨hfield, hzero⟩)
    simp [List.isEmpty_iff.1 hempty, hfield]
  · simp

theorem fieldsFrom_fieldsNat (outputs : List (Fin 8)) :
    Packed.fieldsFrom (fieldsNat outputs) = (outputs.rdropWhile (· = 0)).map Fin.val := by
  induction outputs with
  | nil => simp [fieldsNat, Packed.fieldsFrom]
  | cons field outputs ih =>
    have hcons : fieldsNat (field :: outputs) = field.val + 8 * fieldsNat outputs := rfl
    rw [Packed.fieldsFrom]
    split
    · rename_i hzero
      rw [List.rdropWhile_eq_nil_iff.2 (by simpa using fieldsNat_eq_zero_iff.1 hzero)]
      rfl
    · rename_i hrest
      have hlow : fieldsNat (field :: outputs) &&& Packed.mask = field.val := by
        rw [Packed.and_mask, hcons]
        omega
      have hhigh : fieldsNat (field :: outputs) >>> 3 = fieldsNat outputs := by
        rw [Nat.shiftRight_eq_div_pow, hcons]
        omega
      rw [hlow, hhigh, ih, rdropWhile_cons (mt fieldsNat_eq_zero_iff.2 hrest), List.map_cons]

/-- The fields of a word are those of its number. -/
theorem map_val_fields : w.fields.map Fin.val = Packed.fields w.toNat := by
  rw [Packed.fields, toNat_shiftRight_four, fieldsFrom_fieldsNat]
  rfl

end Word

end EscapeAnalysis

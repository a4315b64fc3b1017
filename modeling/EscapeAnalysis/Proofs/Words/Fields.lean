import EscapeAnalysis.Word
import Mathlib.Data.List.DropRight

/-!
# The output fields of words

The output fields of a word go up to the last one that is set. Those that are left out are zero.

* `Word.TellsFirst w k` : the word tells of the first `k` outputs only;
* `Word.length_fields_le_iff` : how many fields such a word has;
* `Word.exists_toList_outputs` : the fields that are left out;
* `Word.getD_fields` : what the fields say of each output.
-/

namespace EscapeAnalysis.Word

/-- The word has no field for an output after the first `k`. -/
def TellsFirst (w : Word) (k : Nat) : Prop := ∀ i, (w.outputs.get i).val ≠ 0 → i.val < k

instance (w : Word) (k : Nat) : Decidable (w.TellsFirst k) :=
  inferInstanceAs (Decidable (∀ i : Fin 4, (w.outputs.get i).val ≠ 0 → i.val < k))

theorem length_rdropWhile_le {k : Nat} (l : List (Fin 8)) (h : ∀ i (hi : i < l.length), l[i] ≠ 0 → i < k) :
    (l.rdropWhile (· = 0)).length ≤ k := by
  induction l using List.reverseRecOn with
  | nil => exact Nat.zero_le k
  | append_singleton l a ih =>
    by_cases ha : a = 0
    · rw [List.rdropWhile_concat_pos _ _ _ (by simp [ha])]
      refine ih fun i hi hne => h i (by simp; omega) ?_
      rwa [List.getElem_append_left hi]
    · rw [List.rdropWhile_concat_neg _ _ _ (by simp [ha]), List.length_append, List.length_singleton]
      have := h l.length (by simp) (by simpa using ha)
      omega

theorem length_fields_le {w : Word} {k : Nat} (h : w.TellsFirst k) : w.fields.length ≤ k := by
  refine length_rdropWhile_le w.outputs.toList fun i hi hne => ?_
  rw [Vector.getElem_toList] at hne
  exact h ⟨i, by simpa using hi⟩ (Fin.val_ne_zero_iff.2 hne)

theorem exists_toList_outputs (w : Word) : ∃ k, w.outputs.toList = w.fields ++ List.replicate k 0 := by
  have hsplit : w.outputs.toList = w.fields ++ w.outputs.toList.rtakeWhile (· = 0) := by
    unfold fields List.rtakeWhile
    rw [← List.reverse_append, List.takeWhile_append_dropWhile, List.reverse_reverse]
  refine ⟨(w.outputs.toList.rtakeWhile (· = 0)).length, ?_⟩
  have hzero : w.outputs.toList.rtakeWhile (· = 0) =
      List.replicate (w.outputs.toList.rtakeWhile (· = 0)).length 0 := by
    refine List.eq_replicate_of_mem fun field hfield => ?_
    simpa using List.mem_rtakeWhile_imp hfield
  rw [← hzero]
  exact hsplit

/-- Reading the fields gives every output back. -/
theorem getD_fields (w : Word) (i : Fin 4) : (w.fields[i.val]?).getD 0 = w.outputs.get i := by
  obtain ⟨k, hk⟩ := w.exists_toList_outputs
  have hget : w.outputs.toList[i.val]? = some (w.outputs.get i) := by
    rw [Vector.getElem?_toList, Vector.getElem?_eq_getElem i.isLt]
    rfl
  rw [hk] at hget
  by_cases hi : i.val < w.fields.length
  · rw [List.getElem?_append_left hi] at hget
    rw [hget, Option.getD_some]
  · rw [List.getElem?_append_right (Nat.le_of_not_lt hi)] at hget
    rw [List.getElem?_eq_none (Nat.le_of_not_lt hi), Option.getD_none]
    exact (List.mem_replicate.1 (List.mem_of_getElem? hget)).2.symm

theorem length_fields_le_iff {w : Word} {k : Nat} : w.fields.length ≤ k ↔ w.TellsFirst k := by
  refine ⟨fun h i hi => ?_, length_fields_le⟩
  apply Nat.lt_of_lt_of_le _ h
  by_contra hlt
  refine hi ?_
  rw [← w.getD_fields i, List.getElem?_eq_none (Nat.le_of_not_lt hlt)]
  rfl

end EscapeAnalysis.Word

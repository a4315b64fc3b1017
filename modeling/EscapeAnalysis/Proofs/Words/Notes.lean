import EscapeAnalysis.Word.Note

/-!
# Reading notes back

The note of a word is its number in hexadecimal, and reading it gives the word again.

* `readDigits_toDigits` : the digits of a number are read as the number;
* `Word.ofNat_toNat` : a word is known by its number;
* `Word.ofNote_note?` : a word that has a note is the word of its note.
-/

namespace EscapeAnalysis

/-! ## Digits -/

theorem readDigits_append (base acc : Nat) (xs ys : List Char) :
    readDigits base acc (xs ++ ys) = (readDigits base acc xs).bind fun n => readDigits base n ys := by
  induction xs generalizing acc with
  | nil => rfl
  | cons c xs ih =>
    rw [List.cons_append, readDigits, readDigits]
    cases digit? base c with
    | none => rfl
    | some v => exact ih _

theorem digit?_digitChar : ∀ d < 16, digit? 16 (Nat.digitChar d) = some d := by decide

theorem readDigits_toDigits (n : Nat) : readDigits 16 0 (Nat.toDigits 16 n) = some n := by
  induction n using Nat.strongRecOn with
  | ind n ih =>
    by_cases hn : n < 16
    · rw [Nat.toDigits_of_lt_base hn, readDigits, digit?_digitChar n hn]
      simp [readDigits]
    · have hd : n % 16 < 16 := Nat.mod_lt n (by decide)
      have hsplit := Nat.toDigits_append_toDigits (b := 16) (n := n / 16) (d := n % 16) (by decide) (by omega) hd
      rw [Nat.div_add_mod] at hsplit
      rw [← hsplit, readDigits_append, ih (n / 16) (by omega), Nat.toDigits_of_lt_base hd]
      rw [Option.bind_some, readDigits, digit?_digitChar _ hd]
      simp only [readDigits, Option.some.injEq]
      omega

theorem readNumber_of_readDigits {base n : Nat} {cs : List Char} (hne : cs ≠ []) (hplus : digit? base '+' = none)
    (h : readDigits base 0 cs = some n) : readNumber base cs = some n := by
  cases cs with
  | nil => exact absurd rfl hne
  | cons c cs =>
    have hc : c ≠ '+' := by
      rintro rfl
      rw [readDigits, hplus] at h
      cases h
    unfold readNumber
    split
    · rename_i heq
      cases heq
    · rename_i heq
      cases heq
      exact absurd rfl hc
    · rename_i heq
      cases heq
      exact absurd rfl hc
    · exact h

namespace Word

/-! ## Words -/

theorem ofNat_toNat (w : Word) : ofNat w.toNat = w := by
  obtain ⟨bits, content, outputs⟩ := w
  have hb := bits.isLt
  have h0 := outputs[0].isLt
  have h1 := outputs[1].isLt
  have h2 := outputs[2].isLt
  have h3 := outputs[3].isLt
  have hc : content.toNat ≤ 1 := by cases content <;> decide
  simp only [ofNat, toNat, mk.injEq]
  refine ⟨?_, ?_, ?_⟩
  · refine Fin.ext ?_
    simp only [Fin.ofNat]
    omega
  · have hcontent : decide ((bits.val + 8 * content.toNat + 16 * outputs[0].val + 128 * outputs[1].val
        + 1024 * outputs[2].val + 8192 * outputs[3].val) / 8 % 2 = 1) = decide (content.toNat = 1) :=
      decide_eq_decide.2 (by omega)
    exact hcontent.trans (by cases content <;> rfl)
  · refine Vector.ext fun i hi => Fin.ext ?_
    have hcases : i = 0 ∨ i = 1 ∨ i = 2 ∨ i = 3 := by omega
    rcases hcases with rfl | rfl | rfl | rfl <;>
      simp only [Fin.ofNat, Vector.getElem_mk, List.getElem_toArray, List.getElem_cons_succ, List.getElem_cons_zero] <;>
      omega

theorem toNat_ne_zero {w : Word} (h : w.cls ≠ .unknown) : w.toNat ≠ 0 := by
  intro e
  refine h ?_
  rw [← ofNat_toNat w, e]
  rfl

/-- A word that has a note is the word of its note. -/
theorem ofNote_note? {w : Word} {note : String} (h : w.note? = some note) : ofNote (some note) = w := by
  have hcls : w.cls ≠ .unknown := by
    intro e
    rw [note?, e] at h
    cases h
  have hnote : note = "esc:0x" ++ String.ofList (Nat.toDigits 16 w.toNat) := by
    unfold note? at h
    split at h
    · exact (Option.some.inj h).symm
    · exact (Option.some.inj h).symm
    · cases h
  have hdigits : (String.ofList (Nat.toDigits 16 w.toNat)).toList = Nat.toDigits 16 w.toNat := String.toList_ofList
  have hnumber : noteNumber note.toList = some w.toNat := by
    rw [hnote, String.toList_append, hdigits]
    exact readNumber_of_readDigits Nat.toDigits_ne_nil (by decide) (readDigits_toDigits w.toNat)
  rw [ofNote, hnumber]
  dsimp only
  rw [if_neg (toNat_ne_zero hcls), if_pos w.toNat_lt, ofNat_toNat]

theorem note?_eq_none {w : Word} (h : ¬ w.cls < .scope) : w.note? = none := by
  unfold note?
  split
  · rename_i hcls
    exact absurd (by rw [hcls]; decide) h
  · rename_i hcls
    exact absurd (by rw [hcls]; decide) h
  · rfl

end Word

end EscapeAnalysis

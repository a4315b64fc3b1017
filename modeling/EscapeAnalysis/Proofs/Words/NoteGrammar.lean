import EscapeAnalysis.Proofs.Words.Notes
import Mathlib

/-!
# Which texts are notes

A note is `esc:` and a number, in hexadecimal after `0x` and in decimal otherwise. The number has one or more digits
after at most one `+`. Reading a note accepts these texts and no others, and takes a number of more than sixteen bits
for no note at all.

* `Numeral base cs n` : the characters are digits of the base and stand for the number;
* `Spells note n` : the note spells the number;
* `digit?_eq_some_iff`, `readDigits_eq_some_iff`, `readNumber_eq_some_iff`, `noteNumber_eq_some_iff` : what each part of
  the reader accepts;
* `Word.notes_spell_words` : the words of all texts, and the notes of all words.
-/

namespace EscapeAnalysis

/-! ## Numerals -/

def lowerDigits : List Char := ['0', '1', '2', '3', '4', '5', '6', '7', '8', '9', 'a', 'b', 'c', 'd', 'e', 'f']

def upperDigits : List Char := ['0', '1', '2', '3', '4', '5', '6', '7', '8', '9', 'A', 'B', 'C', 'D', 'E', 'F']

/-- The character is the digit `d` of the base, in lower or in upper case. -/
def IsDigit (base : Nat) (c : Char) (d : Nat) : Prop :=
  d < base ∧ (lowerDigits[d]? = some c ∨ upperDigits[d]? = some c)

/-- The characters are one or more digits of the base, the most significant first, and stand for `n`. -/
def Numeral (base : Nat) (cs : List Char) (n : Nat) : Prop :=
  ∃ digits, digits ≠ [] ∧ List.Forall₂ (IsDigit base) cs digits ∧ Nat.ofDigits base digits.reverse = n

/-- The digits stand alone or after a `+`. -/
def Signed (cs digits : List Char) : Prop := cs = digits ∨ cs = '+' :: digits

/-- The note spells the number. -/
inductive Spells : String → Nat → Prop where
  | hexadecimal {rest digits : List Char} {n : Nat} (hsign : Signed rest digits) (hn : Numeral 16 digits n) :
    Spells ("esc:0x" ++ String.ofList rest) n
  | decimal {rest digits : List Char} {n : Nat} (hx : ¬ ['0', 'x'] <+: rest) (hsign : Signed rest digits)
    (hn : Numeral 10 digits n) : Spells ("esc:" ++ String.ofList rest) n

/-! ## Digits -/

theorem map_lowerDigits : lowerDigits.map (digit? 16) = (List.range 16).map some := by decide

theorem map_upperDigits : upperDigits.map (digit? 16) = (List.range 16).map some := by decide

theorem digit?_of_getElem? {digits : List Char} (hdigits : digits.map (digit? 16) = (List.range 16).map some) {d : Nat}
    {c : Char} (hd : d < 16) (hc : digits[d]? = some c) : digit? 16 c = some d := by
  have hget := congrArg (fun values => values[d]?) hdigits
  simpa [hc, hd] using hget

theorem lowerDigits_decimal : ∀ n < 58, 48 ≤ n → lowerDigits[n - 48]? = some (Char.ofNat n) := by decide

theorem lowerDigits_letter : ∀ n < 103, 97 ≤ n → lowerDigits[n - 97 + 10]? = some (Char.ofNat n) := by decide

theorem upperDigits_letter : ∀ n < 71, 65 ≤ n → upperDigits[n - 65 + 10]? = some (Char.ofNat n) := by decide

/-- A digit is a decimal one, or a letter of one of the two cases. -/
theorem digit?_eq_some {base d : Nat} {c : Char} (h : digit? base c = some d) :
    d < base ∧ (48 ≤ c.toNat ∧ c.toNat ≤ 57 ∧ c.toNat - 48 = d ∨
      97 ≤ c.toNat ∧ c.toNat ≤ 102 ∧ c.toNat - 97 + 10 = d ∨ 65 ≤ c.toNat ∧ c.toNat ≤ 70 ∧ c.toNat - 65 + 10 = d) := by
  unfold digit? at h
  dsimp only at h
  obtain ⟨hlt, hvalue⟩ := Option.ite_none_right_eq_some.1 h
  have hd := Option.some.inj hvalue
  rw [hd] at hlt
  refine ⟨hlt, ?_⟩
  split at hd
  · rename_i hrange
    exact Or.inl ⟨hrange.1, hrange.2, hd⟩
  · split at hd
    · rename_i hrange
      exact Or.inr (Or.inl ⟨hrange.1, hrange.2, hd⟩)
    · split at hd
      · rename_i hrange
        exact Or.inr (Or.inr ⟨hrange.1, hrange.2, hd⟩)
      · omega

/-- The bases differ in which digits they have, not in what a digit stands for. -/
theorem digit?_of_lt {base d : Nat} {c : Char} (hd : d < base) (h : digit? 16 c = some d) : digit? base c = some d := by
  grind [digit?]

theorem digit?_eq_some_iff {base d : Nat} {c : Char} (hbase : base ≤ 16) :
    digit? base c = some d ↔ IsDigit base c d := by
  constructor
  · intro h
    obtain ⟨hd, ⟨hle, hge, hvalue⟩ | ⟨hle, hge, hvalue⟩ | ⟨hle, hge, hvalue⟩⟩ := digit?_eq_some h
    · have hget := lowerDigits_decimal c.toNat (Nat.lt_succ_of_le hge) hle
      rw [hvalue, Char.ofNat_toNat] at hget
      exact ⟨hd, Or.inl hget⟩
    · have hget := lowerDigits_letter c.toNat (Nat.lt_succ_of_le hge) hle
      rw [hvalue, Char.ofNat_toNat] at hget
      exact ⟨hd, Or.inl hget⟩
    · have hget := upperDigits_letter c.toNat (Nat.lt_succ_of_le hge) hle
      rw [hvalue, Char.ofNat_toNat] at hget
      exact ⟨hd, Or.inr hget⟩
  · rintro ⟨hd, hc | hc⟩
    · exact digit?_of_lt hd (digit?_of_getElem? map_lowerDigits (Nat.lt_of_lt_of_le hd hbase) hc)
    · exact digit?_of_lt hd (digit?_of_getElem? map_upperDigits (Nat.lt_of_lt_of_le hd hbase) hc)

/-! ## Numbers -/

section Numbers

variable {base : Nat} (hbase : base ≤ 16)
include hbase

/-- The digits go on from those that were read: these count as many powers of the base more. -/
theorem readDigits_eq_some_iff {cs : List Char} {acc n : Nat} :
    readDigits base acc cs = some n ↔ ∃ digits, List.Forall₂ (IsDigit base) cs digits ∧
      acc * base ^ digits.length + Nat.ofDigits base digits.reverse = n := by
  induction cs generalizing acc with
  | nil => simp [readDigits]
  | cons c cs ih =>
    -- The reader multiplies what it has by the base, the numeral weighs the digit by the digits that follow.
    have hvalue (d : Nat) (digits : List Nat) : (acc * base + d) * base ^ digits.length +
        Nat.ofDigits base digits.reverse =
        acc * base ^ (d :: digits).length + Nat.ofDigits base (d :: digits).reverse := by
      rw [Nat.ofDigits_reverse_cons, List.length_cons]
      ring
    rw [readDigits]
    constructor
    · intro h
      cases hd : digit? base c with
      | none =>
        rw [hd] at h
        cases h
      | some d =>
        rw [hd] at h
        obtain ⟨digits, hdigits, hn⟩ := ih.1 h
        exact ⟨d :: digits, .cons ((digit?_eq_some_iff hbase).1 hd) hdigits, (hvalue d digits).symm.trans hn⟩
    · rintro ⟨_, hall, hn⟩
      obtain ⟨d, digits, hd, hdigits, rfl⟩ := List.forall₂_cons_left_iff.1 hall
      rw [(digit?_eq_some_iff hbase).2 hd]
      exact ih.2 ⟨digits, hdigits, (hvalue d digits).trans hn⟩

theorem readDigits_zero_eq_some_iff {cs : List Char} (hcs : cs ≠ []) {n : Nat} :
    readDigits base 0 cs = some n ↔ Numeral base cs n := by
  rw [readDigits_eq_some_iff hbase]
  unfold Numeral
  refine exists_congr fun digits => ?_
  rw [Nat.zero_mul, Nat.zero_add]
  constructor
  · rintro ⟨hdigits, hn⟩
    refine ⟨?_, hdigits, hn⟩
    rintro rfl
    exact hcs (List.forall₂_nil_right_iff.1 hdigits)
  · rintro ⟨_, hdigits, hn⟩
    exact ⟨hdigits, hn⟩

end Numbers

theorem Numeral.ne_nil {base n : Nat} {cs : List Char} (h : Numeral base cs n) : cs ≠ [] := by
  rintro rfl
  obtain ⟨digits, hne, hdigits, _⟩ := h
  exact hne (List.forall₂_nil_left_iff.1 hdigits)

/-- A sign is no digit. -/
theorem not_numeral_plus {base n : Nat} (hbase : base ≤ 16) (cs : List Char) : ¬ Numeral base ('+' :: cs) n := by
  rintro ⟨_, _, hall, _⟩
  obtain ⟨d, _, hd, _⟩ := List.forall₂_cons_left_iff.1 hall
  have hrange := (digit?_eq_some ((digit?_eq_some_iff hbase).2 hd)).2
  have hplus : '+'.toNat = 43 := rfl
  omega

theorem readNumber_plus {base : Nat} {cs : List Char} (hcs : cs ≠ []) :
    readNumber base ('+' :: cs) = readDigits base 0 cs := by
  cases cs with
  | nil => exact absurd rfl hcs
  | cons c cs => rfl

theorem readNumber_of_ne {base : Nat} {c : Char} (hc : c ≠ '+') (cs : List Char) :
    readNumber base (c :: cs) = readDigits base 0 (c :: cs) := by
  unfold readNumber
  split
  · rename_i heq
    cases heq
  · rename_i heq
    cases heq
    exact absurd rfl hc
  · rename_i heq
    cases heq
    exact absurd rfl hc
  · rfl

theorem readNumber_eq_some_iff {base n : Nat} (hbase : base ≤ 16) {cs : List Char} :
    readNumber base cs = some n ↔ ∃ digits, Signed cs digits ∧ Numeral base digits n := by
  cases cs with
  | nil =>
    constructor
    · intro h
      cases h
    · rintro ⟨digits, rfl | hsign, hn⟩
      · exact absurd rfl hn.ne_nil
      · cases hsign
  | cons c cs =>
    by_cases hc : c = '+'
    · subst hc
      by_cases hcs : cs = []
      · subst hcs
        constructor
        · intro h
          cases h
        · rintro ⟨digits, rfl | hsign, hn⟩
          · exact absurd hn (not_numeral_plus hbase [])
          · cases hsign
            exact absurd rfl hn.ne_nil
      · rw [readNumber_plus hcs, readDigits_zero_eq_some_iff hbase hcs]
        constructor
        · exact fun hn => ⟨cs, Or.inr rfl, hn⟩
        · rintro ⟨digits, rfl | hsign, hn⟩
          · exact absurd hn (not_numeral_plus hbase cs)
          · cases hsign
            exact hn
    · rw [readNumber_of_ne hc, readDigits_zero_eq_some_iff hbase (List.cons_ne_nil c cs)]
      constructor
      · exact fun hn => ⟨c :: cs, Or.inl rfl, hn⟩
      · rintro ⟨digits, rfl | hsign, hn⟩
        · exact hn
        · cases hsign
          exact absurd rfl hc

/-! ## Notes -/

namespace Word

theorem noteNumber_decimal {rest : List Char} (hx : ¬ ['0', 'x'] <+: rest) :
    noteNumber ('e' :: 's' :: 'c' :: ':' :: rest) = readNumber 10 rest := by
  unfold noteNumber
  split
  · rename_i heq
    cases heq
    exact absurd (List.prefix_append ['0', 'x'] _) hx
  · rename_i heq
    cases heq
    rfl
  · rename_i hne
    exact absurd rfl (hne rest)

theorem toList_hexadecimal (rest : List Char) :
    ("esc:0x" ++ String.ofList rest).toList = 'e' :: 's' :: 'c' :: ':' :: '0' :: 'x' :: rest := by
  simp

theorem toList_decimal (rest : List Char) : ("esc:" ++ String.ofList rest).toList = 'e' :: 's' :: 'c' :: ':' :: rest := by
  simp

theorem noteNumber_eq_some_iff {note : String} {n : Nat} : noteNumber note.toList = some n ↔ Spells note n := by
  constructor
  · intro h
    unfold noteNumber at h
    split at h
    · rename_i rest heq
      obtain ⟨digits, hsign, hn⟩ := (readNumber_eq_some_iff (by decide)).1 h
      rw [← String.toList_inj.1 ((toList_hexadecimal rest).trans heq.symm)]
      exact .hexadecimal hsign hn
    · rename_i rest hx heq
      obtain ⟨digits, hsign, hn⟩ := (readNumber_eq_some_iff (by decide)).1 h
      rw [← String.toList_inj.1 ((toList_decimal rest).trans heq.symm)]
      refine .decimal ?_ hsign hn
      rintro ⟨later, rfl⟩
      exact hx later rfl
    · cases h
  · intro h
    cases h with
    | hexadecimal hsign hn =>
      rw [toList_hexadecimal]
      exact (readNumber_eq_some_iff (by decide)).2 ⟨_, hsign, hn⟩
    | decimal hx hsign hn =>
      rw [toList_decimal, noteNumber_decimal hx]
      exact (readNumber_eq_some_iff (by decide)).2 ⟨_, hsign, hn⟩

/-! ## Words -/

theorem toNat_plain_unknown : (plain .unknown).toNat = 0 := by decide

theorem toNat_plain_none : (plain .none).toNat = 1 := by decide

/-- The word of a note that spells a number of sixteen bits. -/
theorem toNat_ofNote {note : String} {n : Nat} (hn : n ≤ 65535) (h : Spells note n) :
    (ofNote (some note)).toNat = if n = 0 then 1 else n := by
  rw [ofNote, noteNumber_eq_some_iff.2 h]
  dsimp only
  split
  · exact toNat_plain_none
  · rw [if_pos (Nat.lt_succ_of_le hn), toNat_ofNat n (Nat.lt_succ_of_le hn)]

/-- The word of any other text. -/
theorem ofNote_of_not_spells {note : String} (h : ∀ n ≤ 65535, ¬ Spells note n) : ofNote (some note) = plain .unknown := by
  unfold ofNote
  dsimp only
  split
  · rfl
  · rename_i n hnumber
    have hlarge : 65535 < n := Nat.lt_of_not_le fun hn => h n hn (noteNumber_eq_some_iff.1 hnumber)
    rw [if_neg (Nat.ne_of_gt (Nat.zero_lt_of_lt hlarge)), if_neg (Nat.not_lt.2 hlarge)]

theorem isSome_note? {w : Word} : w.note?.isSome = true ↔ w.cls = .none ∨ w.cls = .result := by
  unfold note?
  split <;> simp_all

/-- A text has a word other than zero exactly if it spells a number of sixteen bits; that number is the word, except
that zero is read as the class `none`. A word has a note exactly in the classes `none` and `result`, and its note is
read as the word. -/
theorem notes_spell_words :
    (∀ note, (ofNote (some note)).toNat ≠ 0 ↔ ∃ n ≤ 65535, Spells note n) ∧
    (∀ note, ∀ n ≤ 65535, Spells note n → (ofNote (some note)).toNat = if n = 0 then 1 else n) ∧
    (ofNote none).toNat = 0 ∧
    ∀ w : Word, (w.note?.isSome = true ↔ w.cls = .none ∨ w.cls = .result) ∧
      (w.note?.isSome = true → ofNote w.note? = w) := by
  refine ⟨?_, ?_, toNat_plain_unknown, ?_⟩
  · intro note
    constructor
    · intro hne
      by_contra hnot
      apply hne
      rw [ofNote_of_not_spells fun n hn hspells => hnot ⟨n, hn, hspells⟩]
      exact toNat_plain_unknown
    · rintro ⟨n, hn, hspells⟩
      rw [toNat_ofNote hn hspells]
      split
      · exact Nat.one_ne_zero
      · assumption
  · intro note n hn hspells
    exact toNat_ofNote hn hspells
  · intro w
    refine ⟨isSome_note?, ?_⟩
    intro hsome
    obtain ⟨note, hnote⟩ := Option.isSome_iff_exists.1 hsome
    rw [hnote]
    exact ofNote_note? hnote

/-- A sign, leading zeros and both cases, a number that is one too large, and the word `0x2002` of a flow to the fourth
output. -/
theorem notes_spell_words_edges :
    (Spells "esc:0x+00fF" 255 ∧ (ofNote (some "esc:0x+00fF")).toNat = 255) ∧
    (¬ ∃ n ≤ 65535, Spells "esc:65536" n) ∧
    (ofNat 0x2002).cls = .result ∧ ofNote (ofNat 0x2002).note? = ofNat 0x2002 := by
  obtain ⟨hread, hvalue, _, hwords⟩ := notes_spell_words
  have hspells : Spells "esc:0x+00fF" 255 := noteNumber_eq_some_iff.1 (by decide)
  have hcls : (ofNat 0x2002).cls = .result := by decide
  refine ⟨⟨hspells, hvalue _ 255 (by decide) hspells⟩, ?_, hcls, (hwords _).2 ((hwords _).1.2 (Or.inr hcls))⟩
  rw [← hread]
  decide

end Word

end EscapeAnalysis

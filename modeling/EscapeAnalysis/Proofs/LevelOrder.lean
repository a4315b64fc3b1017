import EscapeAnalysis.Level

/-!
# The order of levels

A walk that comes to a node twice goes on at the componentwise minimum of the two levels. The minimum
loses nothing and invents nothing, although the floor forgets the suffix:

* `Level.Band` : the levels that walks can have, kept by every operation (`Band.inc`, `Band.dec`,
  `Band.copy`, `Band.min`);
* `Level.Covers l m` : `l` is at the floor or below `m` in both components. It is kept by every
  operation, and what leaks at `m` leaks at `l` (`Covers.leaks`);
* `Level.Alike l m` : the levels are equal, or both at the floor. It is kept by every operation too,
  and within the band a minimum is like one of its arguments (`min_alike`).
-/

namespace EscapeAnalysis.Level

/-! ## The band -/

/-- The levels that walks can have. Above the floor the suffix is the value or one more. -/
structure Band (l : Level) : Prop where
  floor_le : floor ≤ l.value
  le_suffix : l.value ≤ l.suffix
  suffix_le : l.suffix ≤ Max.max (l.value + 1) 0
  le_top : l.suffix ≤ top

theorem band_zero : Band zero := ⟨by decide, by decide, by decide, by decide⟩

theorem Band.inc {l : Level} (h : Band l) : Band l.inc := by
  obtain ⟨h1, h2, h3, h4⟩ := h
  unfold Level.inc
  split
  · exact ⟨by decide, by decide, by decide, by decide⟩
  · simp only [floor, top] at *
    constructor <;> simp only [floor, top] <;> omega

theorem Band.dec {l : Level} (h : Band l) : Band l.dec := by
  obtain ⟨h1, h2, h3, h4⟩ := h
  unfold Level.dec
  split
  · exact ⟨by decide, by decide, by decide, by decide⟩
  · simp only [floor, top, bottom] at *
    constructor <;> simp only [floor, top] <;> omega

theorem Band.copy {l : Level} (h : Band l) : Band l.copy := by
  obtain ⟨h1, h2, h3, h4⟩ := h
  simp only [floor, top] at *
  constructor <;> simp only [Level.copy, floor, top] <;> omega

theorem Band.min {l m : Level} (hl : Band l) (hm : Band m) : Band (l.min m) := by
  obtain ⟨h1, h2, h3, h4⟩ := hl
  obtain ⟨k1, k2, k3, k4⟩ := hm
  simp only [floor, top] at *
  constructor <;> simp only [Level.min, floor, top] <;> omega

/-- At the floor nothing is left of the suffix that could keep memory from leaking. -/
theorem Band.suffix_nonpos {l : Level} (h : Band l) (hl : l.value ≤ floor) : l.suffix ≤ 0 := by
  have := h.suffix_le
  simp only [floor] at hl
  omega

/-! ## Covering -/

/-- `l` is at the floor, or below `m` in both components. -/
def Covers (l m : Level) : Prop := l.value ≤ floor ∨ l.value ≤ m.value ∧ l.suffix ≤ m.suffix

theorem Covers.refl (l : Level) : Covers l l := Or.inr ⟨Int.le_refl _, Int.le_refl _⟩

theorem Covers.trans {l m k : Level} (h₁ : Covers l m) (h₂ : Covers m k) : Covers l k := by
  rcases h₁ with h | ⟨h, h'⟩
  · exact Or.inl h
  · rcases h₂ with k | ⟨k, k'⟩
    · exact Or.inl (by omega)
    · exact Or.inr ⟨by omega, by omega⟩

theorem inc_value_of_le {l : Level} (h : l.value ≤ floor) : l.inc.value = floor := by
  simp [inc, h]

theorem dec_value_of_le {l : Level} (h : l.value ≤ floor) : l.dec.value = floor := by
  simp [dec, h]

theorem Covers.inc {l m : Level} (h : Covers l m) : Covers l.inc m.inc := by
  by_cases hl : l.value ≤ floor
  · exact Or.inl (Int.le_of_eq (inc_value_of_le hl))
  · rcases h with h | ⟨h, h'⟩
    · exact absurd h hl
    · have hm : ¬ m.value ≤ floor := by omega
      refine Or.inr ?_
      simp only [Level.inc, if_neg hl, if_neg hm]
      omega

theorem Covers.dec {l m : Level} (h : Covers l m) : Covers l.dec m.dec := by
  by_cases hl : l.value ≤ floor
  · exact Or.inl (Int.le_of_eq (dec_value_of_le hl))
  · rcases h with h | ⟨h, h'⟩
    · exact absurd h hl
    · have hm : ¬ m.value ≤ floor := by omega
      refine Or.inr ?_
      simp only [Level.dec, if_neg hl, if_neg hm]
      omega

theorem Covers.copy {l m : Level} (h : Covers l m) : Covers l.copy m.copy := by
  rcases h with h | ⟨h, h'⟩
  · exact Or.inl h
  · refine Or.inr ?_
    simp only [Level.copy]
    omega

theorem min_covers_left (l m : Level) : Covers (l.min m) l := by
  refine Or.inr ?_
  simp only [min]
  omega

theorem min_covers_right (l m : Level) : Covers (l.min m) m := by
  refine Or.inr ?_
  simp only [min]
  omega

/-- A level that covers one whose components are not positive has no positive component either. -/
theorem Covers.nonpos {l m : Level} (h : Covers l m) (hl : Band l) (hvalue : m.value ≤ 0) (hsuffix : m.suffix ≤ 0) :
    l.value ≤ 0 ∧ l.suffix ≤ 0 := by
  rcases h with hfloor | ⟨_, _⟩
  · have hs := hl.suffix_nonpos hfloor
    simp only [floor] at hfloor
    omega
  · omega

/-- What leaks at a level leaks at every level that covers it. -/
theorem Covers.leaks {l m : Level} (h : Covers l m) (hl : Band l) {dst src : Int}
    (hm : m.leaks dst src = true) : l.leaks dst src = true := by
  simp only [Level.leaks, Bool.and_eq_true, decide_eq_true_eq] at hm ⊢
  exact ⟨h.nonpos hl hm.1.1 hm.1.2, hm.2⟩

/-! ## Levels that are alike -/

/-- The levels are equal, or both at the floor. -/
def Alike (l m : Level) : Prop := l = m ∨ l.value ≤ floor ∧ m.value ≤ floor

theorem Alike.refl (l : Level) : Alike l l := Or.inl rfl

theorem Alike.trans {l m k : Level} (h₁ : Alike l m) (h₂ : Alike m k) : Alike l k := by
  rcases h₁ with rfl | ⟨h, h'⟩
  · exact h₂
  · rcases h₂ with rfl | ⟨_, k'⟩
    · exact Or.inr ⟨h, h'⟩
    · exact Or.inr ⟨h, k'⟩

theorem Alike.covers {l m : Level} (h : Alike l m) : Covers l m := by
  rcases h with rfl | ⟨h, _⟩
  · exact Covers.refl l
  · exact Or.inl h

theorem Alike.symm {l m : Level} (h : Alike l m) : Alike m l := by
  rcases h with rfl | ⟨h, h'⟩
  · exact Alike.refl l
  · exact Or.inr ⟨h', h⟩

theorem Alike.inc {l m : Level} (h : Alike l m) : Alike l.inc m.inc := by
  rcases h with rfl | ⟨h, h'⟩
  · exact Alike.refl _
  · exact Or.inr ⟨Int.le_of_eq (inc_value_of_le h), Int.le_of_eq (inc_value_of_le h')⟩

theorem Alike.dec {l m : Level} (h : Alike l m) : Alike l.dec m.dec := by
  rcases h with rfl | ⟨h, h'⟩
  · exact Alike.refl _
  · exact Or.inr ⟨Int.le_of_eq (dec_value_of_le h), Int.le_of_eq (dec_value_of_le h')⟩

theorem Alike.copy {l m : Level} (h : Alike l m) : Alike l.copy m.copy := by
  rcases h with rfl | h
  · exact Alike.refl _
  · exact Or.inr h

/-- Within the band the minimum of two levels is like one of them: above the floor any two levels
compare, and a minimum at the floor has an argument there. -/
theorem min_alike {l m : Level} (hl : Band l) (hm : Band m) : Alike (l.min m) l ∨ Alike (l.min m) m := by
  obtain ⟨h1, h2, h3, _⟩ := hl
  obtain ⟨k1, k2, k3, _⟩ := hm
  obtain ⟨v, s⟩ := l
  obtain ⟨w, t⟩ := m
  simp only [Alike, min, floor, mk.injEq] at *
  omega

/-- Levels that are alike leak the same memory. -/
theorem Alike.leaks {l m : Level} (h : Alike l m) (hl : Band l) (hm : Band m) (dst src : Int) :
    l.leaks dst src = m.leaks dst src :=
  Bool.eq_iff_iff.2 ⟨h.symm.covers.leaks hm, h.covers.leaks hl⟩

end EscapeAnalysis.Level

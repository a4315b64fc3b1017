import EscapeAnalysis.Proofs.LevelOrder
import Mathlib.Data.List.Induction
import Mathlib.Data.List.Infix

/-!
# Levels without bounds

The components of a level stop at the top, and a walk that came to the floor stays there. Without these bounds a walk
has two plain sums. The bounds err on one side only: a level is at the floor or below the sums, so memory that leaks by
the sums leaks by the level.

* `Level.Step` : what a walk passes, with bounds (`Step.run`) and without (`Step.exact`);
* `Level.along`, `Level.exactAlong` : the level and the sums after some steps;
* `Covers.exact` : one step keeps the level at the floor or below the sums;
* `run_eq_exact` : a step that starts within the bounds is exact;
* `along_conservative` : both, for whole walks.
-/

namespace EscapeAnalysis.Level

/-! ## Steps -/

inductive Step where
  | inc
  | dec
  | copy
deriving DecidableEq

def Step.run : Step → Level → Level
  | inc, l => l.inc
  | dec, l => l.dec
  | copy, l => l.copy

/-- The step on sums that have no bounds. -/
def Step.exact : Step → Level → Level
  | inc, l => ⟨l.value + 1, l.suffix + 1⟩
  | dec, l => ⟨l.value - 1, l.suffix - 1⟩
  | copy, l => ⟨l.value, Max.max l.suffix 0⟩

theorem Band.run {l : Level} (h : Band l) (step : Step) : Band (step.run l) := by
  cases step with
  | inc => exact h.inc
  | dec => exact h.dec
  | copy => exact h.copy

/-- A level at the floor stays there, and above it the bounds only lower a component. -/
theorem Covers.exact {l m : Level} (hl : Band l) (h : Covers l m) (step : Step) : Covers (step.run l) (step.exact m) := by
  cases step with
  | copy => exact h.copy
  | inc =>
    by_cases hfloor : l.value ≤ floor
    · exact Or.inl (Int.le_of_eq (inc_value_of_le hfloor))
    · obtain ⟨hvalue, hsuffix⟩ := h.resolve_left hfloor
      refine Or.inr ?_
      simp only [Step.run, Step.exact, Level.inc, if_neg hfloor]
      omega
  | dec =>
    by_cases hfloor : l.value ≤ floor
    · exact Or.inl (Int.le_of_eq (dec_value_of_le hfloor))
    · obtain ⟨hvalue, hsuffix⟩ := h.resolve_left hfloor
      -- The suffix is no less than the value, so neither of them gets down to the bottom.
      have hband := hl.le_suffix
      refine Or.inr ?_
      simp only [Step.run, Step.exact, Level.dec, if_neg hfloor]
      simp only [floor] at hfloor
      simp only [bottom]
      omega

theorem run_eq_exact {l : Level} (hl : Band l) (hfloor : floor < l.value) (hvalue : l.value < top)
    (hsuffix : l.suffix < top) (step : Step) : step.run l = step.exact l := by
  have hband := hl.le_suffix
  have hnot : ¬ l.value ≤ floor := Int.not_le.2 hfloor
  simp only [floor] at hfloor
  cases step with
  | copy => rfl
  | inc =>
    simp only [Step.run, Step.exact, Level.inc, if_neg hnot, mk.injEq]
    omega
  | dec =>
    simp only [Step.run, Step.exact, Level.dec, if_neg hnot, mk.injEq, bottom]
    omega

/-! ## Walks -/

/-- The level of a walk that passes the steps. -/
def along (steps : List Step) : Level := steps.foldl (fun l step => step.run l) zero

/-- The sums of a walk that passes the steps. -/
def exactAlong (steps : List Step) : Level := steps.foldl (fun l step => step.exact l) zero

theorem along_concat (steps : List Step) (step : Step) : along (steps ++ [step]) = step.run (along steps) :=
  List.foldl_concat ..

theorem exactAlong_concat (steps : List Step) (step : Step) :
    exactAlong (steps ++ [step]) = step.exact (exactAlong steps) :=
  List.foldl_concat ..

theorem band_along (steps : List Step) : Band (along steps) := by
  induction steps using List.reverseRecOn with
  | nil => exact band_zero
  | append_singleton steps step ih =>
    rw [along_concat]
    exact ih.run step

theorem covers_exactAlong (steps : List Step) : Covers (along steps) (exactAlong steps) := by
  induction steps using List.reverseRecOn with
  | nil => exact Covers.refl zero
  | append_singleton steps step ih =>
    rw [along_concat, exactAlong_concat]
    exact ih.exact (band_along steps) step

/-- No step is bounded if the sums before it are within the bounds. -/
theorem along_eq_exactAlong {steps : List Step}
    (h : ∀ seen, seen <+: steps → floor < (exactAlong seen).value ∧ (exactAlong seen).value < top ∧
      (exactAlong seen).suffix < top) : along steps = exactAlong steps := by
  induction steps using List.reverseRecOn with
  | nil => rfl
  | append_singleton steps step ih =>
    have hsteps : steps <+: steps ++ [step] := List.prefix_append steps [step]
    have hsame := ih fun seen hseen => h seen (hseen.trans hsteps)
    obtain ⟨hfloor, hvalue, hsuffix⟩ := h steps hsteps
    rw [← hsame] at hfloor hvalue hsuffix
    rw [along_concat, exactAlong_concat, ← hsame]
    exact run_eq_exact (band_along steps) hfloor hvalue hsuffix step

/-- Whatever a walk passes, memory that leaks by the sums leaks by the level, and as long as the sums stay above the
floor and below the top, the level is the pair of the sums. -/
theorem along_conservative (steps : List Step) :
    ((exactAlong steps).value ≤ 0 → (exactAlong steps).suffix ≤ 0 →
      (along steps).value ≤ 0 ∧ (along steps).suffix ≤ 0) ∧
    (∀ dst src, (exactAlong steps).leaks dst src = true → (along steps).leaks dst src = true) ∧
    ((∀ seen, seen <+: steps → -2 < (exactAlong seen).value ∧ (exactAlong seen).value ≤ 126 ∧
      (exactAlong seen).suffix ≤ 126) → along steps = exactAlong steps) := by
  have hcovers := covers_exactAlong steps
  have hband := band_along steps
  refine ⟨hcovers.nonpos hband, ?_, ?_⟩
  · intro dst src hleaks
    exact hcovers.leaks hband hleaks
  · intro hbounds
    apply along_eq_exactAlong
    intro seen hseen
    obtain ⟨hfloor, hvalue, hsuffix⟩ := hbounds seen hseen
    simp only [floor, top]
    omega

/-- A walk over more dereferences than a level counts, and back. -/
def longWalk : List Step := List.replicate 130 .inc ++ List.replicate 130 .dec

/-- The sums of the long walk cancel, and what they let leak leaks at its level, which is at the floor. The shorter walk
to `p` in `sink = &T{f: *p}` stays within the bounds. -/
theorem along_conservative_longWalk :
    exactAlong longWalk = zero ∧ along longWalk = ⟨floor, 0⟩ ∧ (along longWalk).suffix ≤ 0 ∧
      (along longWalk).leaks (-1) 1 = true ∧ along [.dec, .copy, .inc] = exactAlong [.dec, .copy, .inc] := by
  have hsums : exactAlong longWalk = zero := by decide +kernel
  obtain ⟨hcomponents, hleaks, _⟩ := along_conservative longWalk
  refine ⟨hsums, by decide +kernel, (hcomponents (by rw [hsums]; decide) (by rw [hsums]; decide)).2,
    hleaks _ _ (by rw [hsums]; decide), (along_conservative _).2.2 fun seen hseen => ?_⟩
  rw [← List.mem_inits] at hseen
  revert seen
  decide

end EscapeAnalysis.Level

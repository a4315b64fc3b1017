import EscapeAnalysis.Proofs.ExactLevels
import EscapeAnalysis.Proofs.Flood.Visits

/-!
# Levels as terms

A walk starts at level zero and comes to other levels by counting up and down, by copies, and by minima where it comes to
a node again. The levels that can be written in this way lie in a narrow band, where the componentwise minimum is one of
its arguments: the level recorded for a node is never a mixture of two walks, unless memory leaks by it anyway.

* `Level.Term`, `Term.level` : terms over the operations of levels, and what they stand for;
* `Term.band` : every term stands for a level of the band;
* `Band.total`, `Band.min_eq_or_eq` : above the floor, levels of the band compare and a minimum is one of its arguments;
* `value_foldl_run` : a level at the floor stays there;
* `Flow.written_of_mem_visits` : the levels of a flood are written by terms.
-/

namespace EscapeAnalysis

namespace Level

/-! ## Terms -/

inductive Term where
  | zero
  | step (step : Step) (t : Term)
  | min (t u : Term)

/-- The level that a term stands for. -/
def Term.level : Term → Level
  | zero => .zero
  | step s t => s.run t.level
  | min t u => t.level.min u.level

theorem Term.band (t : Term) : Band t.level := by
  induction t with
  | zero => exact band_zero
  | step s t ih => exact ih.run s
  | min t u iht ihu => exact iht.min ihu

/-! ## Within the band -/

section Band

variable {l m : Level} (hl : Band l)
include hl

/-- Above the floor a suffix is at most one more than its value, so of two values the lower one has the lower suffix. -/
theorem Band.total (hm : Band m) (hlfloor : floor < l.value) (hmfloor : floor < m.value) :
    (l.value ≤ m.value ∧ l.suffix ≤ m.suffix) ∨ (m.value ≤ l.value ∧ m.suffix ≤ l.suffix) := by
  obtain ⟨-, hl, hl', -⟩ := hl
  obtain ⟨-, hm, hm', -⟩ := hm
  simp only [floor] at hlfloor hmfloor
  omega

theorem Band.min_eq_or_eq (hm : Band m) (hlfloor : floor < l.value) (hmfloor : floor < m.value) :
    l.min m = l ∨ l.min m = m := by
  rcases hl.total hm hlfloor hmfloor with ⟨hvalue, hsuffix⟩ | ⟨hvalue, hsuffix⟩
  · left
    rw [Level.min, Int.min_eq_left hvalue, Int.min_eq_left hsuffix]
  · right
    rw [Level.min, Int.min_eq_right hvalue, Int.min_eq_right hsuffix]

/-- At the floor only the depths decide what leaks. -/
theorem Band.leaks_of_floor (hfloor : l.value = floor) {dst src : Int} (hdepth : dst < src) :
    l.leaks dst src = true := by
  have hsuffix := hl.suffix_nonpos (Int.le_of_eq hfloor)
  simp only [leaks, hfloor, floor, Bool.and_eq_true, decide_eq_true_eq]
  omega

end Band

theorem value_run {l : Level} (h : l.value = floor) (step : Step) : (step.run l).value = floor := by
  cases step with
  | inc => exact inc_value_of_le (Int.le_of_eq h)
  | dec => exact dec_value_of_le (Int.le_of_eq h)
  | copy => exact h

theorem value_foldl_run {l : Level} (h : l.value = floor) (steps : List Step) :
    (steps.foldl (fun l step => step.run l) l).value = floor := by
  induction steps generalizing l with
  | nil => exact h
  | cons step steps ih =>
    apply ih
    exact value_run h step

end Level

/-! ## Levels of a flood -/

namespace Flow

open Level (Term)

/-- The level is written by a term. -/
def Written (l : Level) : Prop := ∃ t : Term, l = t.level

theorem kept_written : Kept fun l _ => Written l where
  inc := by
    rintro _ _ ⟨t, rfl⟩
    exact ⟨.step .inc t, rfl⟩
  dec := by
    rintro _ _ ⟨t, rfl⟩
    exact ⟨.step .dec t, rfl⟩
  copy := by
    rintro _ _ ⟨t, rfl⟩
    exact ⟨.step .copy t, rfl⟩

theorem written_of_next {s : Flow} {a b : Level × NodeId} (h : Written a.1) (hb : s.Next a b) : Written b.1 :=
  (next_of_kept kept_written (k := a.1) h hb).choose_spec.2

theorem written_of_mem_visits {s : Flow} {v : Visit} (h : v ∈ s.visits) : Written v.level := by
  obtain ⟨_, src, _, hv⟩ := mem_visits.1 h
  apply forall_mem_trailFrom (P := fun b => Written b.1) ⟨.zero, rfl⟩ written_of_next ?_ _ hv
  rintro _ _ _ ⟨t, rfl⟩ ⟨u, rfl⟩
  exact ⟨.min t u, rfl⟩

end Flow

namespace Level

/-- The levels that a flood comes to are written by terms, and the levels of terms form a band of values no lower than
`-2` and suffixes between the value and one more, or zero. Of two levels above `-2` one is below the other and is their
minimum. At `-2` memory leaks whenever it is stored at a lower depth, and the value stays whatever the walk passes. -/
theorem terms_form_band :
    (∀ (s : Flow), ∀ v ∈ s.visits, ∃ t : Term, v.level = t.level) ∧
    (∀ t : Term, -2 ≤ t.level.value ∧ t.level.value ≤ t.level.suffix ∧
      t.level.suffix ≤ Max.max (t.level.value + 1) 0) ∧
    (∀ t u : Term, -2 < t.level.value → -2 < u.level.value →
      ((t.level.value ≤ u.level.value ∧ t.level.suffix ≤ u.level.suffix) ∨
        (u.level.value ≤ t.level.value ∧ u.level.suffix ≤ t.level.suffix)) ∧
      (t.level.min u.level = t.level ∨ t.level.min u.level = u.level)) ∧
    (∀ t : Term, t.level.value = -2 →
      (∀ dst src : Int, dst < src → t.level.leaks dst src = true) ∧
      ∀ steps : List Step, (steps.foldl (fun l step => step.run l) t.level).value = -2) := by
  refine ⟨?_, ?_, ?_, ?_⟩
  · intro s v hv
    exact Flow.written_of_mem_visits hv
  · intro t
    obtain ⟨hfloor, hsuffix, hband, _⟩ := t.band
    exact ⟨hfloor, hsuffix, hband⟩
  · intro t u ht hu
    exact ⟨t.band.total u.band ht hu, t.band.min_eq_or_eq u.band ht hu⟩
  · intro t ht
    constructor
    · intro dst src hdepth
      exact t.band.leaks_of_floor ht hdepth
    · intro steps
      exact value_foldl_run ht steps

/-- `{0 1}`, as in `sink = &T{f: *p}`, and `{1 1}` compare. The minimum of `{-2 0}` and `{-1 -1}`, which do not, is
neither of them, and memory leaks by it. -/
theorem terms_form_band_mixed :
    let content : Term := .step .inc (.step .copy (.step .dec .zero))
    let deref : Term := .step .inc .zero
    let mixed : Term := .min (.step .inc (.step .dec (.step .dec .zero))) (.step .dec .zero)
    (content.level = ⟨0, 1⟩ ∧ deref.level = ⟨1, 1⟩ ∧ mixed.level = ⟨-2, -1⟩) ∧
    (content.level.min deref.level = content.level ∨ content.level.min deref.level = deref.level) ∧
    mixed.level.leaks (-1) 0 = true ∧
    ((List.replicate 3 Step.inc).foldl (fun l step => step.run l) mixed.level).value = -2 := by
  obtain ⟨_, _, hmin, hfloor⟩ := terms_form_band
  refine ⟨by decide, (hmin _ _ (by decide) (by decide)).2, (hfloor _ (by decide)).1 _ _ (by decide),
    (hfloor _ (by decide)).2 _⟩

end Level

end EscapeAnalysis

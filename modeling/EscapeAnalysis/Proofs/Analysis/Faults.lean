import EscapeAnalysis.Proofs.Analysis.Progress

/-!
# Analyses that stop

An analysis stops in the first group in which it finds a fault. It leaves the notes of the groups before, as an
analysis of those groups alone would, and no others: a group gets its notes when all its flows are recorded, and a
fault is found while they are.

* `func_analyzeGroup_error` : a group that stops leaves the functions as they were;
* `kept_groups` : the groups that an observer is shown;
* `stops_in_group` : the whole analysis.
-/

namespace EscapeAnalysis

/-! ## One group -/

section Group

variable {group : Group} (hnodup : group.funcs.Nodup) {run run' : Run} {e : EscapeError}
  (h : analyzeGroup group run = .error e run')
include hnodup h

theorem func_analyzeGroup_error (f : FuncId) : run'.program.func f = run.program.func f := by
  obtain ⟨s, hs, rfl⟩ := analyzeGroup_eq_error h
  obtain ⟨_, hstarts, _⟩ := Flow.starts_recorded_error hnodup hs
  exact hstarts.frame.func f

theorem sees_analyzeGroup_error :
    (run.observer.watch run.program (.group group)).Sees Event.IsStep run'.observer := by
  obtain ⟨s, hs, rfl⟩ := analyzeGroup_eq_error h
  obtain ⟨_, hstarts, _⟩ := Flow.starts_recorded_error hnodup hs
  exact hstarts.steps.sees

end Group

/-- Concluding a group shows the nodes that are reached and the notes that are written then. -/
theorem Flow.sees_conclude (s : Flow) (group : Group) :
    s.observer.Sees (fun e => e.IsStep ∨ ∃ f ∈ group.funcs, (s.dsts.foldl flood s).Writes f e)
      (s.conclude group).observer := by
  obtain ⟨_, hfind⟩ := info_findStays (group.funcs.foldl noteFunc (s.dsts.foldl flood s))
  unfold conclude
  dsimp only
  rw [hfind]
  exact ((marked_foldl_flood s).sees.mono fun _ he => Or.inl he).trans
    ((sees_foldl_noteFunc _ group.funcs).mono fun _ he => Or.inr he)

/-- After a group has been taken up, nothing is shown that is a group. -/
theorem sees_analyzeGroup {group : Group} {run run' : Run} (h : analyzeGroup group run = .ok () run') :
    (run.observer.watch run.program (.group group)).Sees (fun e => ¬ e.IsGroup) run'.observer := by
  obtain ⟨s, hs, rfl⟩ := analyzeGroup_eq_ok h
  refine ((Flow.starts_recorded hs).steps.sees.mono fun _ he => he.not_group).trans ((s.sees_conclude group).mono ?_)
  rintro e (he | ⟨f, _, he⟩)
  · exact he.not_group
  · exact he.not_group

/-! ## All groups -/

/-- An observer of groups is shown every group once, in their order. -/
theorem kept_groups {text : Group → String} {groups : List Group} {run run' : Run}
    (hsee : run.observer.see = (Observer.groups text).see) (h : groups.forM analyzeGroup run = .ok () run') :
    run'.observer.see = (Observer.groups text).see ∧
      run'.observer.kept = run.observer.kept ++ String.join (groups.map text) := by
  induction groups generalizing run with
  | nil =>
    cases h
    exact ⟨hsee, by simp⟩
  | cons group groups ih =>
    obtain ⟨mid, hgroup, hgroups⟩ := forM_cons_eq_ok h
    have hsees := sees_analyzeGroup hgroup
    obtain ⟨hsee', hkept⟩ := ih (hsees.see_eq.trans hsee) hgroups
    refine ⟨hsee', ?_⟩
    have hone : mid.observer.kept = run.observer.kept ++ text group := by
      rw [hsees.kept_groups hsee]
      change run.observer.see run.program (.group group) run.observer.kept = _
      rw [hsee]
      rfl
    rw [hkept, hone, List.map_cons, String.join_cons, String.append_assoc]

/-- An analysis that stops has analyzed the groups before the one with the fault. That group and those before are all
it takes up. The functions of the groups before have the notes that an analysis of these groups leaves; all others,
imported ones included, are as they were before the analysis. -/
theorem stops_in_group (config : Config) (observer : Observer) {p : Program} {e : EscapeError}
    (he : (escapesWith config observer p).result = .error e) :
    ∃ before group after run run', p.groups = before ++ group :: after ∧
      before.forM analyzeGroup { program := p, config, observer } = .ok () run ∧
      analyzeGroup group run = .error e run' ∧ (escapesWith config observer p).program = run'.program ∧
      (∀ text, observer = .groups text →
        (escapesWith config observer p).kept = String.join ((before ++ [group]).map text)) ∧
      (∀ f, (∀ G ∈ before, f ∉ G.funcs) → (escapesWith config observer p).program.func f = p.func f) ∧
      (∀ f, f ∈ group.funcs ∨ (∃ G ∈ after, f ∈ G.funcs) ∨ (p.func f).imported = true → ∀ G ∈ before, f ∉ G.funcs) ∧
      ∀ f, (escapesWith config observer p).program.func f = run.program.func f := by
  obtain ⟨run', hlast, hprogram, hkept⟩ := escapesWith_eq_error he
  obtain ⟨before, group, after, run, hgroups, hbefore, hgroup⟩ := forM_groups_eq_error hlast
  obtain ⟨hnodup, hother⟩ := Program.nodup_groups hgroups
  have hfunc (f : FuncId) : (escapesWith config observer p).program.func f = run.program.func f := by
    rw [hprogram, func_analyzeGroup_error hnodup hgroup]
  refine ⟨before, group, after, run, run', hgroups, hbefore, hgroup, hprogram, fun text htext => ?_,
    fun f hf => (hfunc f).trans (func_of_not_mem_groups hbefore hf), fun f hf => ?_, hfunc⟩
  · have hsee : ({ program := p, config, observer } : Run).observer.see = (Observer.groups text).see := by rw [htext]
    obtain ⟨hsee', hkept'⟩ := kept_groups hsee hbefore
    have hsees := (sees_analyzeGroup_error hnodup hgroup).mono fun _ he => he.not_group
    rw [hkept, hsees.kept_groups hsee', List.map_append, String.join_append]
    change run.observer.see run.program (.group group) run.observer.kept = _
    rw [hsee', hkept', htext]
    simp [Observer.groups]
  · rcases hf with hf | ⟨G, hG, hf⟩ | hf
    · exact (hother f hf).1
    · obtain ⟨mid, post, rfl⟩ := List.append_of_mem hG
      have hsplit : p.groups = (before ++ group :: mid) ++ G :: post := by rw [hgroups]; simp
      exact fun H hH => ((Program.nodup_groups hsplit).2 f hf).1 H (List.mem_append_left _ hH)
    · exact fun G hG => Program.not_mem_groups_of_imported hf G (by rw [hgroups]; exact List.mem_append_left _ hG)

/-- The analysis stops in the group of `relay`: the notes of `same` are those of its group alone, and `log` has none. -/
theorem stops_relayProgram : ∃ before group after run run',
    (relayProgram true).groups = before ++ group :: after ∧
    before.forM analyzeGroup { program := relayProgram true } = .ok () run ∧
    analyzeGroup group run = .error (.graphInconsistency ⟨7⟩) run' ∧
    (escapes (relayProgram true)).program.func ⟨1⟩ = run.program.func ⟨1⟩ ∧
    (escapes (relayProgram true)).program.func ⟨1⟩ ≠ (relayProgram true).func ⟨1⟩ ∧
    (escapes (relayProgram true)).program.func ⟨0⟩ = (relayProgram true).func ⟨0⟩ := by
  have hfault : (escapes (relayProgram true)).result = .error (.graphInconsistency ⟨7⟩) :=
    Script.eq_error_of_faultOf (by decide +kernel)
  obtain ⟨before, group, after, run, run', hgroups, hbefore, hgroup, _, _, hout, hmem, hfunc⟩ :=
    stops_in_group default .silent hfault
  exact ⟨before, group, after, run, run', hgroups, hbefore, hgroup, hfunc ⟨1⟩, by decide +kernel,
    hout ⟨0⟩ (hmem ⟨0⟩ (Or.inr (Or.inr (by decide +kernel))))⟩

end EscapeAnalysis

import EscapeAnalysis.Proofs.Analysis.Runs
import EscapeAnalysis.Proofs.Building.Scripts
import EscapeAnalysis.Proofs.Flood.Climbing

/-!
# Words climb in every analysis

The recording of a group gives words of the classes `none` and `heap` to nodes, and all other words are those that the
floods of earlier groups left. So every flood of an analysis starts from proper words, and they climb.

* `Flow.IsRecorded s` : `s` is the graph of a group in some analysis;
* `Flow.proper_recorded`, `proper_groups` : the words are proper when a flood starts, and between groups;
* `words_climb` : what every step of every flood does to words.
-/

namespace EscapeAnalysis

/-- `s` is the graph of a group in an analysis, when all its flows are recorded. -/
def Flow.IsRecorded (s : Flow) : Prop :=
  ∃ (config : Config) (observer : Observer) (p : Program) (before after : List Group) (group : Group) (run : Run),
    p.groups = before ++ group :: after ∧
      before.forM analyzeGroup { program := p, config, observer } = .ok () run ∧
      group.funcs.forM Flow.recordFunc (Flow.start run group) = .ok () s

section Group

variable {run : Run} {group : Group} (h : ∀ n, (run.info.word n).Proper)
include h

theorem Flow.proper_recorded {s : Flow} (hs : group.funcs.forM Flow.recordFunc (Flow.start run group) = .ok () s)
    (n : NodeId) : (s.info.word n).Proper := by
  obtain ⟨_, hinfo⟩ := Flow.info_start run group
  have hstart : (Flow.start run group).info.word n = run.info.word n := by
    rw [hinfo]
    rfl
  rcases (Flow.frame_recorded hs).plain n with hword | ⟨c, hc, hword⟩
  · rw [hword, hstart]
    exact h n
  · rw [hword]
    rcases hc with rfl | rfl <;> exact Word.proper_plain (by decide)

theorem proper_analyzeGroup {run' : Run} (hrun : analyzeGroup group run = .ok () run') (n : NodeId) :
    (run'.info.word n).Proper := by
  obtain ⟨s, hs, rfl⟩ := analyzeGroup_eq_ok hrun
  rw [(Flow.conclude_eq s group).2.2, ← Flow.stage_length]
  exact Flow.proper_stage (Flow.proper_recorded h hs) _ n

end Group

theorem proper_groups {run run' : Run} (h : ∀ n, (run.info.word n).Proper) {groups : List Group}
    (hrun : groups.forM analyzeGroup run = .ok () run') (n : NodeId) : (run'.info.word n).Proper := by
  refine groups_invariant (P := fun run => ∀ n, (run.info.word n).Proper) (fun h hgroup => ?_) h hrun n
  exact proper_analyzeGroup h hgroup

theorem Flow.IsRecorded.proper {s : Flow} (h : s.IsRecorded) (n : NodeId) : (s.info.word n).Proper := by
  obtain ⟨config, observer, p, before, after, group, run, _, hrun, hs⟩ := h
  refine Flow.proper_recorded (proper_groups (fun m => ?_) hrun) hs n
  have hword : ({} : Info).word m = .plain .unknown := Table.get_empty m.index
  rw [show ({ program := p, config, observer } : Run).info.word m = .plain .unknown from hword]
  exact Word.proper_plain (by decide)

/-- Let `s` be the graph of a group in any analysis, or any graph whose words are those that a recording gives: of the
class `unknown`, `none` or `heap` with nothing else set. Along the visits of its flood, the words of all nodes climb and
never come to the class `never`. So after the flood only words of class `result` tell of outputs, and what is on the
heap at some stage is there at all later ones. -/
theorem words_climb {s : Flow} (hs : s.IsRecorded ∨ ∀ n, s.info.word n = .plain .unknown ∨
      s.info.word n = .plain .none ∨ s.info.word n = .plain .heap) :
    s.stage 0 = s ∧ s.stage s.visits.length = s.dsts.foldl Flow.flood s ∧
    (∀ k n, ((s.stage k).info.word n).cls ≠ .never ∧
      ((s.stage k).info.word n).Climbs ((s.stage (k + 1)).info.word n)) ∧
    (∀ n i, 0 < (((s.dsts.foldl Flow.flood s).info.word n).outputs.get i).val →
      ((s.dsts.foldl Flow.flood s).info.word n).cls = .result) ∧
    ∀ j k n, j ≤ k → ((s.stage j).info.word n).cls = .heap → (s.stage k).info.word n = .plain .heap := by
  have hproper : ∀ n, (s.info.word n).Proper := by
    rcases hs with hs | hs
    · exact hs.proper
    · intro n
      rcases hs n with hn | hn | hn <;> rw [hn] <;> exact Word.proper_plain (by decide)
  refine ⟨rfl, s.stage_length, fun k n => ?_, fun n i hi => ?_, fun j k n hjk hheap => ?_⟩
  · exact ⟨(Flow.proper_stage hproper k n).cls, Flow.climbs_stage hproper k n⟩
  · rw [← s.stage_length] at hi ⊢
    exact (Flow.proper_stage hproper _ n).outputs i hi
  · exact Flow.word_stage_of_heap hproper hjk hheap

/-- `func climb(p **int64) (r **int64) { r = p; g = new(int64); g = *p; h = p }` -/
def climbSteps : List Script.Step :=
  [.type "P" (.ptr (.named "int64")), .type "PP" (.ptr (.named "P")), .global "g" "P" "g", .global "h" "PP" "h",
    .func { name := "climb", params := [{ name := "p", ty := "PP" }], results := [(some "r", "PP")] } "climb",
    .define (.key "climb")
      [.form (.assign (.result 0) (.param 0)), .form (.assign (.ref (.key "g")) (.new "int64")),
        .form (.assign (.ref (.key "g")) (.deref (.param 0))), .form (.assign (.ref (.key "h")) (.param 0))]]

def climbProgram : Program := (Script.sessionOf climbSteps).program

def climbGroup : Group := ⟨[⟨0⟩], false⟩

def climbGraph : Flow := climbProgram.firstGraph climbGroup

theorem isRecorded_climbGraph : climbGraph.IsRecorded :=
  ⟨default, .silent, climbProgram, [], [], climbGroup, { program := climbProgram }, by decide +kernel, rfl,
    Program.forM_eq_firstGraph (by decide +kernel)⟩

/-- The word of `p` gets the field of `r` and then the content flag, before `p` leaves its scope; what `new` allocates
stays on the heap. -/
theorem words_climb_climbSteps :
    ([0, 1, 4, 5].map fun k => ((climbGraph.stage k).info.word ⟨2⟩).toNat) = [1, 18, 26, 3] ∧
    (∀ k, ((climbGraph.stage k).info.word ⟨2⟩).Climbs ((climbGraph.stage (k + 1)).info.word ⟨2⟩)) ∧
    (climbGraph.stage 5).info.word ⟨5⟩ = .plain .heap := by
  obtain ⟨_, _, hclimbs, _, hheap⟩ := words_climb (Or.inl isRecorded_climbGraph)
  have hnew : ((climbGraph.stage 2).info.word ⟨5⟩).cls = .heap := by decide +kernel
  exact ⟨by decide +kernel, fun k => (hclimbs k ⟨2⟩).2, hheap 2 5 ⟨5⟩ (by decide) hnew⟩

end EscapeAnalysis

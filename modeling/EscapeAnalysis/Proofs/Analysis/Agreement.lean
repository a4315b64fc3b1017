import EscapeAnalysis.Proofs.Analysis.Progress
import EscapeAnalysis.Proofs.Words.Notes

/-!
# Notes and words

An analysis writes notes and never takes one away. After the analysis of its group an input whose word is of class
`none` or `result` has a note that reads as this word; an input of another class keeps the note it had before, which
can be one that an earlier analysis wrote when the body was another.

* `Flow.note_renote` : the note of an input after its word;
* `note_reads_word` : the notes at the end of an analysis.
-/

namespace EscapeAnalysis

namespace Word

theorem note?_eq_some {w : Word} (h : w.cls = .none ∨ w.cls = .result) : ∃ note, w.note? = some note := by
  unfold note?
  rcases h with h | h
  · rw [h]
    exact ⟨_, rfl⟩
  · rw [h]
    exact ⟨_, rfl⟩

end Word

namespace Flow

theorem note_renote {s : Flow} {param : Param} {n : NodeId} (hname : param.name = some n)
    (hty : s.program.hasPointers param.ty = true) :
    ((s.info.word n).cls = .none ∨ (s.info.word n).cls = .result →
      Word.ofNote (renote s.noteFor? param).note = s.info.word n) ∧
    ((s.info.word n).cls = .scope ∨ (s.info.word n).cls = .heap →
      (renote s.noteFor? param).note = param.note) := by
  have hfor : s.noteFor? param = (s.info.word n).note? := by
    simp only [noteFor?, hname, hty, if_true]
  unfold renote
  rw [hfor]
  refine ⟨fun hcls => ?_, fun hcls => ?_⟩
  · obtain ⟨note, hnote⟩ := Word.note?_eq_some hcls
    rw [hnote]
    exact Word.ofNote_note? hnote
  · have hscope : ¬ (s.info.word n).cls < .scope := by
      rcases hcls with hcls | hcls <;> rw [hcls] <;> decide
    rw [Word.note?_eq_none hscope]

end Flow

/-- The notes of the inputs of a function are those of their words when its group is concluded. -/
theorem inputs_analyzeGroup {p : Program} {done : List Group} {group : Group} {run run' : Run}
    (hrun : run.Follows p done) (hnodup : group.funcs.Nodup) (h : analyzeGroup group run = .ok () run') {f : FuncId}
    (hf : f ∈ group.funcs) (hbody : (run.program.func f).hasBody = true) :
    ∃ t : Flow, (run'.program.func f).inputs = (run.program.func f).inputs.map (Flow.renote t.noteFor?) ∧
      t.program.types = run'.program.types ∧ ∀ n, t.info.word n = run'.info.word n := by
  obtain ⟨s, hs, rfl⟩ := analyzeGroup_eq_ok h
  obtain ⟨hprogram, _, hword⟩ := Flow.conclude_eq s group
  have hfunc : (s.dsts.foldl Flow.flood s).program.func f = run.program.func f := by
    rw [(Flow.marked_foldl_flood s).program, (Flow.starts_recorded_all hs hrun.closed).frame.func f]
    rfl
  refine ⟨s.dsts.foldl Flow.flood s, ?_, ?_, fun n => (hword n).symm⟩
  · rw [hprogram, Flow.inputs_foldl_noteFunc _ hnodup hf (by rw [hfunc]; exact hbody), hfunc]
  · rw [hprogram, (Flow.noted_foldl_noteFunc _ group.funcs).types]

/-- At the end of an analysis, an input that holds pointers has a note that reads as the word it had when its group was
concluded, if that word is of class `none` or `result`. If it is of class `scope` or `heap`, then the input has the
note it had before the analysis. -/
theorem note_reads_word (config : Config) (observer : Observer) {p : Program} (hp : p.Closed) {info : Info}
    (hinfo : (escapesWith config observer p).result = .ok info) {before after : List Group} {group : Group}
    (hgroups : p.groups = before ++ group :: after) {f : FuncId} (hf : f ∈ group.funcs)
    (hbody : (p.func f).hasBody = true) {i : Nat} {param : Param} (hparam : (p.func f).inputs[i]? = some param)
    {n : NodeId} (hname : param.name = some n) :
    ∃ run param', (before ++ [group]).forM analyzeGroup { program := p, config, observer } = .ok () run ∧
      ((escapesWith config observer p).program.func f).inputs[i]? = some param' ∧
      (run.program.hasPointers param.ty = true →
        ((run.info.word n).cls = .none ∨ (run.info.word n).cls = .result →
          Word.ofNote param'.note = run.info.word n) ∧
        ((run.info.word n).cls = .scope ∨ (run.info.word n).cls = .heap → param'.note = param.note)) := by
  obtain ⟨last, hlast, hprogram, _⟩ := escapesWith_eq_ok hinfo
  rw [hgroups, List.append_cons] at hlast
  obtain ⟨run, hrun, hafter⟩ := forM_append_eq_ok hlast
  obtain ⟨mid, hmid, hgroup⟩ := forM_append_eq_ok hrun
  obtain ⟨run', hgroup, hnil⟩ := forM_cons_eq_ok hgroup
  cases hnil
  obtain ⟨hnodup, hother⟩ := Program.nodup_groups hgroups
  have hfollows := follows_groups (follows_nil hp config observer) hmid
  have hself : mid.program.func f = p.func f :=
    func_of_not_mem_groups hmid (hother f hf).1
  have hlater : last.program.func f = run.program.func f :=
    func_of_not_mem_groups hafter (hother f hf).2
  obtain ⟨t, hinputs, htypes, hword⟩ := inputs_analyzeGroup hfollows hnodup hgroup hf (by rw [hself]; exact hbody)
  refine ⟨run, Flow.renote t.noteFor? param, hrun, ?_, fun hty => ?_⟩
  · rw [hprogram, hlater, hinputs, hself, List.getElem?_map, hparam]
    rfl
  · rw [← hword]
    refine Flow.note_renote hname ?_
    unfold Program.hasPointers at hty ⊢
    rw [htypes]
    exact hty

/-- A function that leaks an input with the note of one that stays: `func keep(p *int64) { g = p }`. -/
def keepSteps : List Script.Step :=
  [.type "P" (.ptr (.named "int64")), .global "g" "P" "g",
    .func { name := "keep", params := [{ name := "p", ty := "P" }] } "keep", .paramNote (.key "keep") 0 "esc:0x1",
    .define (.key "keep") [.form (.assign (.ref (.key "g")) (.param 0))]]

def keepProgram : Program := (Script.sessionOf keepSteps).program

theorem closed_keepProgram : keepProgram.Closed :=
  (Script.wellFormed_of_run (Script.run_eq_sessionOf (by decide +kernel))).refs

/-- What the analysis of the group of `f` leaves, whether it stops or not. -/
def keepRun : Run :=
  match [⟨[⟨0⟩], false⟩].forM analyzeGroup { program := keepProgram } with
  | .ok _ run => run
  | .error _ run => run

/-- The word of the input is of class `scope`, and the note still reads as class `none`. -/
theorem note_keepProgram : ∃ run param,
    [⟨[⟨0⟩], false⟩].forM analyzeGroup { program := keepProgram } = .ok () run ∧
    ((escapes keepProgram).program.func ⟨0⟩).inputs[0]? = some param ∧
    (run.info.word ⟨1⟩).cls = .scope ∧ Word.ofNote param.note = .plain .none := by
  obtain ⟨info, hinfo⟩ := Script.exists_eq_ok (x := (escapes keepProgram).result) (by decide +kernel)
  have hparam : (keepProgram.func ⟨0⟩).inputs[0]? =
      some { name := some ⟨1⟩, ty := some (.compound ⟨0⟩), note := some "esc:0x1" } := by
    decide +kernel
  have hgroups : keepProgram.groups = [] ++ ⟨[⟨0⟩], false⟩ :: [] := by decide +kernel
  obtain ⟨run, param, hrun, hinput, hnote⟩ := note_reads_word default .silent closed_keepProgram hinfo hgroups
    (f := ⟨0⟩) (by decide) (by decide +kernel) hparam rfl
  have hlast : keepRun = run := by
    rw [keepRun, show [⟨[⟨0⟩], false⟩].forM analyzeGroup { program := keepProgram } = .ok () run from hrun]
  have hcls : (run.info.word ⟨1⟩).cls = .scope := by
    rw [← hlast]
    decide +kernel
  have hpointers : run.program.hasPointers (some (.compound ⟨0⟩)) = true := by
    rw [← hlast]
    decide +kernel
  refine ⟨run, param, hrun, hinput, hcls, ?_⟩
  rw [(hnote hpointers).2 (Or.inl hcls)]
  decide +kernel

end EscapeAnalysis

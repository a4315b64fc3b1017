import EscapeAnalysis.Proofs.Analysis.Faults
import EscapeAnalysis.Proofs.Building.Scripts
import EscapeAnalysis.Proofs.Flood.Marks
import EscapeAnalysis.Proofs.Words.Fields
import EscapeAnalysis.Proofs.Words.Notes

/-!
# Notes fit their functions

A word gets an output field only when an input flows to that output of its own function. So the notes that an analysis
writes tell of outputs that the functions have, and a note that tells of others was there before.

* `Word.outputs_flowTo` : which output field a flow sets;
* `Run.Fits` : the output fields of all words are those of outputs that are there;
* `Flow.fits_foldl_flood` : a flood keeps it;
* `written_notes_fit` : the notes of a whole analysis.
-/

namespace EscapeAnalysis

namespace Word

/-! ## The output fields of words -/

theorem outputs_asResult {w : Word} {i : Fin 4} (h : (w.asResult.outputs.get i).val ≠ 0) :
    (w.outputs.get i).val ≠ 0 := by
  unfold asResult at h
  split at h
  · exact h
  · exact absurd (outputs_plain .result i) h

/-- A flow to an output sets the field of that output at most. -/
theorem outputs_flowTo {w : Word} {k : Nat} {l : Level} {i : Fin 4} (h : ((w.flowTo k l).outputs.get i).val ≠ 0) :
    (w.outputs.get i).val ≠ 0 ∨ i.val + 1 = k := by
  unfold flowTo at h
  split at h
  · rw [outputs_raiseContent] at h
    exact Or.inl h
  · split at h
    · exact absurd (outputs_plain .heap i) h
    · split at h
      · exact absurd (outputs_plain .heap i) h
      · rename_i j hj
        dsimp only at h
        split at h
        · by_cases hij : j = i
          · exact Or.inr (hij ▸ slot?_eq_some hj)
          · rw [outputs_set_of_ne _ _ hij] at h
            exact Or.inl h
        · exact Or.inl h

end Word

/-! ## Words that fit -/

/-- The name belongs to a function that has an `i`-th output, counted from zero. -/
def Program.HasOutput (p : Program) (n : NodeId) (i : Fin 4) : Prop :=
  ∃ f, (p.node n).curfn = some f ∧ i.val < (p.func f).results.length

/-- Outputs are numbered within the outputs of their function. -/
def Program.Numbered (p : Program) : Prop :=
  ∀ n, (p.node n).isNameOf .result = true →
    ∃ f, (p.node n).curfn = some f ∧ (p.node n).ordinal ≤ (p.func f).results.length

theorem Program.Numbered.renoted {p q : Program} (h : p.Numbered) (hnodes : q.nodes = p.nodes)
    (hfuncs : ∀ f, (p.func f).Renoted (q.func f)) : q.Numbered := by
  intro n hn
  have hnode : q.node n = p.node n := by
    unfold node
    rw [hnodes]
  rw [hnode] at hn ⊢
  obtain ⟨f, hf, hle⟩ := h n hn
  exact ⟨f, hf, by rw [(hfuncs f).results]; exact hle⟩

/-- Every output field that is set stands for an output of the function of the name. -/
def Run.Fits (run : Run) : Prop := ∀ n i, ((run.info.word n).outputs.get i).val ≠ 0 → run.program.HasOutput n i

namespace Flow

theorem fits_setWord {s : Flow} (hs : s.Fits) {n : NodeId} {w : Word}
    (hw : ∀ i, (w.outputs.get i).val ≠ 0 → s.program.HasOutput n i) : (s.setWord n w).Fits := by
  intro m i hm
  by_cases h : m = n
  · rw [h, word_setWord_self] at hm
    rw [h]
    exact hw i hm
  · rw [word_setWord_of_ne s w h] at hm
    exact hs m i hm

theorem fits_moveToHeap {s : Flow} (hs : s.Fits) (n : NodeId) : (s.moveToHeap n).Fits := by
  unfold moveToHeap
  split
  · exact hs
  · split
    · exact hs
    · refine fits_setWord (s := { s with info := { s.info with moved := s.info.moved.push n } }) hs fun i hi => ?_
      exact absurd (Word.outputs_plain .heap i) hi

theorem fits_mark {l : Level} {dst src : NodeId} {s t : Flow} (hnumbered : s.program.Numbered)
    (h : Mark l dst src s t) (hs : s.Fits) : t.Fits := by
  cases h with
  | emit | find => exact hs
  | output h _ =>
    simp only [Program.isOutputAndInput, Bool.and_eq_true, decide_eq_true_eq] at h
    obtain ⟨⟨hdst, _⟩, hsame⟩ := h
    refine fits_setWord hs fun i hi => ?_
    rcases Word.outputs_flowTo hi with hi | hi
    · exact hs src i (Word.outputs_asResult hi)
    · obtain ⟨f, hf, hle⟩ := hnumbered dst hdst
      exact ⟨f, hsame.trans hf, by omega⟩
  | input _ _ hw =>
    refine fits_setWord hs fun i hi => ?_
    rcases hw with rfl | rfl
    · exact absurd (Word.outputs_plain .scope i) hi
    · rw [Word.outputs_raiseContent] at hi
      exact hs src i hi
  | alloc => exact fits_setWord hs fun i hi => absurd (Word.outputs_plain .heap i) hi
  | move => exact fits_moveToHeap hs _

theorem fits_foldl_flood {s : Flow} (hnumbered : s.program.Numbered) (hs : s.Fits) : (s.dsts.foldl flood s).Fits :=
  foldl_flood_induction (P := fun t => t.Fits)
    (fun _ _ _ _ ht h => fits_mark (by rw [ht.program]; exact hnumbered) h) hs

end Flow

/-! ## Notes that fit -/

/-- The note tells of outputs that the function has. -/
def Program.NoteFits (p : Program) (f : FuncId) (note : String) : Prop :=
  (Word.ofNote (some note)).TellsFirst (p.func f).results.length

theorem Flow.noteFits_of_writes {s : Flow} (hwf : s.program.WellFormed) (hs : s.Fits) {f : FuncId} {name : Option NodeId}
    {note : String} (h : s.Writes f (.note f name note)) : s.program.NoteFits f note := by
  obtain ⟨_, w, _, he, hname, hnote, hw⟩ := h
  cases he
  intro i hi
  rw [Word.ofNote_note? hnote] at hi
  rcases hw with rfl | ⟨n, rfl, rfl⟩
  · exact absurd (Word.outputs_plain .none i) hi
  · obtain ⟨param, hparam, hn⟩ := List.mem_map.1 hname
    obtain ⟨k, hk, hlt⟩ := hs n i hi
    rw [(hwf.decls f n (hwf.inputs f param hparam n hn).1).2] at hk
    cases hk
    exact hlt

/-- The event is no note, or a note that fits. -/
def Event.Fits (p : Program) : Event → Prop
  | note f _ text => p.NoteFits f text
  | _ => True

/-- What holds between the groups of an analysis of `p` that `observer` watches. -/
structure Run.Fitting (p : Program) (observer : Observer) (run : Run) : Prop where
  sound : run.Sound
  numbered : run.program.Numbered
  fits : run.Fits
  funcs : ∀ f, (p.func f).Renoted (run.program.func f)
  notes : ∀ f, ∀ param ∈ (run.program.func f).inputs, ∀ note, param.note = some note →
    p.NoteFits f note ∨ ∃ other ∈ (p.func f).inputs, other.note = some note
  sees : observer.Sees (Event.Fits p) run.observer

theorem Event.IsStep.fits {e : Event} (h : e.IsStep) (p : Program) : e.Fits p := by
  cases e with
  | note => exact h.elim
  | _ => trivial

/-! ## One group -/

section Recorded

variable {run : Run} {group : Group} {s : Flow}
  (hs : group.funcs.forM Flow.recordFunc (Flow.start run group) = .ok () s)
include hs

/-- The words that recording writes have no output fields. -/
theorem fits_recorded (h : run.Fits) : s.Fits := by
  intro n i hi
  have hsame : s.info.word n = run.info.word n := by
    obtain ⟨_, hinfo⟩ := Flow.info_start run group
    have hstart : (Flow.start run group).info.word n = run.info.word n := by rw [hinfo]; rfl
    rcases (Flow.frame_recorded hs).plain n with hw | ⟨c, _, hw⟩
    · rw [hw, hstart]
    · rw [hw] at hi
      exact absurd (Word.outputs_plain c i) hi
  rw [hsame] at hi
  obtain ⟨f, hf, hlt⟩ := h n i hi
  have hn : n.index < run.program.nodes.size := by
    refine Nat.lt_of_not_le fun hle => ?_
    rw [run.program.node_of_size_le hle] at hf
    cases hf
  exact ⟨f, ((advances_recorded hs).node n hn).curfn.trans hf, by rw [func_recorded hs]; exact hlt⟩

theorem numbered_recorded (h : run.program.Numbered) : s.program.Numbered := by
  intro n hn
  have hsame := (advances_recorded hs).node n (lt_size_of_result hs hn)
  obtain ⟨f, hf, hle⟩ := h n (by rw [← hsame.isNameOf]; exact hn)
  exact ⟨f, hsame.curfn.trans hf, by rw [hsame.ordinal, func_recorded hs]; exact hle⟩

end Recorded

section Group

variable {p : Program} {observer : Observer} {run run' : Run} {group : Group} (hrun : run.Fitting p observer)
include hrun

theorem Run.Fitting.analyzeGroup (h : analyzeGroup group run = .ok () run') : run'.Fitting p observer := by
  obtain ⟨s, hs, rfl⟩ := analyzeGroup_eq_ok h
  have hsound := sound_recorded hs hrun.sound
  have hnumbered := numbered_recorded hs hrun.numbered
  have hflooded := Flow.marked_foldl_flood s
  have hfits := Flow.fits_foldl_flood hnumbered (fits_recorded hs hrun.fits)
  obtain ⟨hprogram, _, hword⟩ := Flow.conclude_eq s group
  have hnode := Flow.node_conclude s group
  have hrenoted := Flow.renoted_conclude s group
  have hp (f : FuncId) : (p.func f).Renoted (s.program.func f) := by
    rw [func_recorded hs]
    exact hrun.funcs f
  -- What is written now fits the functions as they are and as they were.
  have hwrites {f : FuncId} {name : Option NodeId} {note : String}
      (hw : (s.dsts.foldl Flow.flood s).Writes f (.note f name note)) : p.NoteFits f note := by
    have := Flow.noteFits_of_writes (by rw [hflooded.program]; exact hsound.wellFormed) hfits hw
    unfold Program.NoteFits at this ⊢
    rw [hflooded.program, (hp f).results] at this
    exact this
  refine ⟨sound_concluded hs hrun.sound, hnumbered.renoted (s.nodes_conclude group) hrenoted, fun n i hi => ?_,
    fun f => (hp f).trans (hrenoted f), fun f param hparam note hnote => ?_, ?_⟩
  · rw [show (s.conclude group).toRun.info.word n = _ from hword n] at hi
    obtain ⟨f, hf, hlt⟩ := hfits n i hi
    rw [hflooded.program] at hf hlt
    exact ⟨f, by rw [hnode]; exact hf, by rw [(hrenoted f).results]; exact hlt⟩
  · rw [show (s.conclude group).toRun.program = _ from hprogram] at hparam
    rcases Flow.mem_inputs_foldl_noteFunc hparam with hparam | ⟨_, written, hwritten, hw⟩
    · rw [hflooded.program, func_recorded hs] at hparam
      exact hrun.notes f param hparam note hnote
    · rw [hnote] at hwritten
      cases hwritten
      exact Or.inl (hwrites hw)
  · have hgroup : run.observer.Sees (Event.Fits p) (run.observer.watch run.program (.group group)) :=
      run.observer.sees_watch _ trivial
    refine hrun.sees.trans (hgroup.trans (((Flow.starts_recorded hs).steps.sees.mono fun _ he => he.fits p).trans
      ((s.sees_conclude group).mono ?_)))
    rintro e (he | ⟨f, _, he⟩)
    · exact he.fits p
    · obtain ⟨name, w, note, rfl, _⟩ := id he
      exact hwrites he

end Group

theorem Run.Fitting.groups {p : Program} {observer : Observer} {groups : List Group} {run run' : Run}
    (hrun : run.Fitting p observer) (h : groups.forM EscapeAnalysis.analyzeGroup run = .ok () run') :
    run'.Fitting p observer :=
  groups_invariant Run.Fitting.analyzeGroup hrun h

/-! ## All groups -/

theorem fitting_start {p : Program} (hwf : p.WellFormed) (htidy : p.Tidy) (config : Config) (observer : Observer) :
    Run.Fitting p observer { program := p, config, observer } := by
  refine ⟨?_, fun n hn => (htidy.placed n).numbered hn, fun n i hi => ?_, fun f => .refl _,
    fun f param hparam note hnote => Or.inr ⟨param, hparam, hnote⟩, .refl _ _⟩
  · exact ⟨hwf, (sound_start hwf _ _).moved⟩
  · rw [show ({} : Info).word n = .plain .unknown from Table.get_empty n.index] at hi
    exact absurd (Word.outputs_plain .unknown i) hi

/-- Whether the analysis ends or stops, what its observer is shown fits, and so do the notes that were not there. -/
theorem fitting_escapesWith {p : Program} {config : Config} {observer : Observer}
    (hstart : Run.Fitting p observer { program := p, config, observer }) :
    ∃ last : Run, observer.Sees (Event.Fits p) last.observer ∧
      (escapesWith config observer p).kept = last.observer.kept ∧
      (escapesWith config observer p).program = last.program ∧
      ∀ f, ∀ param ∈ (last.program.func f).inputs, ∀ note, param.note = some note →
        p.NoteFits f note ∨ ∃ other ∈ (p.func f).inputs, other.note = some note := by
  unfold escapesWith
  cases hrun : p.groups.forM analyzeGroup { program := p, config, observer } with
  | ok _ run => exact ⟨run, (hstart.groups hrun).sees, rfl, rfl, (hstart.groups hrun).notes⟩
  | error e run' =>
    obtain ⟨before, group, after, run, hgroups, hbefore, hgroup⟩ := forM_groups_eq_error hrun
    have hfitting := hstart.groups hbefore
    have hshown : run.observer.Sees (Event.Fits p) (run.observer.watch run.program (.group group)) :=
      run.observer.sees_watch _ trivial
    have hsteps := (sees_analyzeGroup_error (Program.nodup_groups hgroups).1 hgroup).mono fun _ he => he.fits p
    refine ⟨run', hfitting.sees.trans (hshown.trans hsteps), rfl, rfl, fun f param hparam => ?_⟩
    obtain ⟨s, hs, rfl⟩ := analyzeGroup_eq_error hgroup
    obtain ⟨_, hstarts, _⟩ := Flow.starts_recorded_error (Program.nodup_groups hgroups).1 hs
    have hfunc : s.program.func f = run.program.func f := hstarts.frame.func f
    rw [show s.toRun.program.func f = _ from hfunc] at hparam
    exact hfitting.notes f param hparam

/-- Every note that an analysis writes tells of outputs that its function has: so do the notes that an observer is shown,
and the notes of the inputs afterwards that no input had before. When an analysis stops at a note that tells of too many
outputs, an input had that note before. -/
theorem written_notes_fit {steps : List Script.Step} {session : Script.Session} (hrun : Script.run steps = .ok session)
    (config : Config) (observer : Observer) :
    (∃ shown : List (Program × Event),
      (escapesWith config observer session.program).kept = (observer.showAll shown).kept ∧
      ∀ q f name note, (q, .note f name note) ∈ shown → session.program.NoteFits f note) ∧
    (∀ f, ∀ param ∈ ((escapesWith config observer session.program).program.func f).inputs, ∀ note,
      param.note = some note →
        session.program.NoteFits f note ∨ ∃ other ∈ (session.program.func f).inputs, other.note = some note) ∧
    ∀ note : String, (escapesWith config observer session.program).result = .error (.corruptNote note) →
      ∃ f, ∃ param ∈ (session.program.func f).inputs, param.note = some note := by
  have hstart := fitting_start (Script.wellFormed_of_run hrun) (Script.tidy_of_run hrun) config observer
  obtain ⟨last, hsees, hkept, hprogram, hnotes⟩ := fitting_escapesWith hstart
  refine ⟨?_, ?_, fun note he => ?_⟩
  · obtain ⟨shown, hlast, hshown⟩ := hsees.exists_shown
    exact ⟨shown, by rw [hkept, hlast], fun q f name note hmem => hshown _ hmem⟩
  · rw [hprogram]
    exact hnotes
  · obtain ⟨run', hlast, _⟩ := escapesWith_eq_error he
    obtain ⟨before, group, after, run, hgroups, hbefore, hgroup⟩ := forM_groups_eq_error hlast
    have hfitting := hstart.groups hbefore
    obtain ⟨s, hs, rfl⟩ := analyzeGroup_eq_error hgroup
    obtain ⟨_, hstarts, f, param, hparam, hnote, hlong⟩ :=
      Flow.starts_recorded_error (Program.nodup_groups hgroups).1 hs
    have hfunc : s.program.func f = run.program.func f := hstarts.frame.func f
    rw [hfunc] at hparam hlong
    rcases hfitting.notes f param hparam note hnote with hfits | ⟨other, hother, hnote⟩
    · rw [(hfitting.funcs f).results] at hlong
      exact absurd (Word.length_fields_le hfits) (Nat.not_le.2 hlong)
    · exact ⟨f, other, hother, hnote⟩

/-- `swap` returns its inputs; with `wrong`, `use` calls a function whose note tells of a result that it does not have. -/
def swapSteps (wrong : Bool) : List Script.Step :=
  [.type "P" (.ptr (.named "int64")),
    .func { name := "swap", params := [{ name := "p", ty := "P" }, { name := "q", ty := "P" }],
            results := [(none, "P"), (none, "P")] } "swap",
    .importFunc { name := "log", params := [{ name := "p", ty := "P" }] } "log",
    .func { name := "use", params := [{ name := "p", ty := "P" }] } "use",
    .define (.key "swap") [.form (.ret [.param 1, .param 0])],
    .define (.key "use") [.form (.exprStmt (.call (.key "log") [.param 0] false))]] ++
    if wrong then [.paramNote (.key "log") 0 "esc:0x12"] else []

def swapSession (wrong : Bool) : Script.Session := Script.sessionOf (swapSteps wrong)

theorem run_swapSteps (wrong : Bool) : Script.run (swapSteps wrong) = .ok (swapSession wrong) :=
  Script.run_eq_sessionOf (by cases wrong <;> decide +kernel)

/-- The notes of `swap` are written and fit, and the note at which the other analysis stops was there. -/
theorem notes_swapSession :
    (∃ shown : List (Program × Event),
      (Observer.tracer.showAll shown).kept = "group [swap]\n  flow ~r0 <- q\n  flow ~r1 <- p\n" ++
        "  walk ~r0 <- q level=\x7b0 0\x7d\n  walk ~r1 <- p level=\x7b0 0\x7d\n" ++
        "  tag swap(p) esc:0x82\n  tag swap(q) esc:0x12\n" ++
        "group [use]\n  flow .sink <- p\n  walk .sink <- p level=\x7b0 0\x7d\n" ∧
      ∀ q f name note, (q, .note f name note) ∈ shown → (swapSession false).program.NoteFits f note) ∧
    ∃ f, ∃ param ∈ ((swapSession true).program.func f).inputs, param.note = some "esc:0x12" := by
  obtain ⟨⟨shown, hkept, hshown⟩, _, _⟩ := written_notes_fit (run_swapSteps false) default .tracer
  obtain ⟨_, _, hbefore⟩ := written_notes_fit (run_swapSteps true) default default
  exact ⟨⟨shown, hkept.symm.trans (by decide +kernel), hshown⟩,
    hbefore _ (Script.eq_error_of_faultOf (by decide +kernel))⟩

end EscapeAnalysis

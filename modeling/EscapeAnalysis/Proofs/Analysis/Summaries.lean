import EscapeAnalysis.Proofs.Analysis.Runs
import EscapeAnalysis.Proofs.Building.Scripts
import EscapeAnalysis.Proofs.Words.Notes

/-!
# Notes do not understate flows

The note that an analysis leaves on an input says at least what the paths of the flow graph say: a path from the sink
makes the input unknown to the callers, or tells them that what it points to escapes; a path from an output is in the
field of that output.

* `Program.HasGraph p c o group s` : `s` is the graph of a group in an analysis of `p`;
* `HasGraph.inputs` : the notes are those of the words after the flood of that graph;
* `HasGraph.sound`, `HasGraph.func`, `HasGraph.sink` : what the graph has of the program that was analyzed.
-/

namespace EscapeAnalysis

/-- `s` is the graph of the group in an analysis of `p`, when all its flows are recorded. -/
def Program.HasGraph (p : Program) (c : Config) (o : Observer) (group : Group) (s : Flow) : Prop :=
  ∃ before after run, p.groups = before ++ group :: after ∧
    before.forM analyzeGroup { program := p, config := c, observer := o } = .ok () run ∧
    group.funcs.forM Flow.recordFunc (Flow.start run group) = .ok () s

/-! ## The graph of a group -/

namespace Program.HasGraph

variable {p : Program} {c : Config} {o : Observer} {group : Group} {s : Flow} (hp : p.WellFormed)
  (h : p.HasGraph c o group s)
include hp h

theorem sound : s.toRun.Sound ∧ Run.Advances { program := p, config := c, observer := o } s.toRun := by
  obtain ⟨before, after, run, _, hrun, hs⟩ := h
  obtain ⟨hsound, hadv⟩ := sound_groups (sound_start hp c o) hrun
  exact ⟨sound_recorded hs hsound, hadv.trans (advances_recorded hs)⟩

omit hp in
theorem func {f : FuncId} (hf : f ∈ group.funcs) : s.program.func f = p.func f := by
  obtain ⟨before, after, run, hgroups, hrun, hs⟩ := h
  rw [func_recorded hs, func_of_not_mem_groups hrun ((nodup_groups hgroups).2 f hf).1]

/-- The sink is a name outside all functions. -/
theorem sink : (s.program.node s.sink).isNameOf .result = false ∧ s.info.depth s.sink < 0 := by
  obtain ⟨before, after, run, _, hrun, hs⟩ := h
  obtain ⟨hsound, _⟩ := sound_groups (sound_start hp c o) hrun
  have hstarts := Flow.starts_recorded_all hs hsound.wellFormed.refs
  have hdepth := hstarts.steps.depth_of_not_node (n := (Flow.start run group).sink) fun h => h rfl
  rw [hstarts.frame.sink, hdepth, Flow.depth_sink_start, (hstarts.frame.node _ (Flow.sink_lt_start run group)).isNameOf,
    Flow.node_sink_start]
  exact ⟨rfl, by decide⟩

theorem input {f : FuncId} (hf : f ∈ group.funcs) {param : Param} (hparam : param ∈ (p.func f).inputs) {n : NodeId}
    (hname : param.name = some n) : (s.program.node n).isNameOf .param = true ∧ (s.program.node n).curfn = some f := by
  obtain ⟨hsound, _⟩ := h.sound hp
  rw [← h.func hf] at hparam
  obtain ⟨hdecl, hcls⟩ := hsound.wellFormed.inputs f param hparam n hname
  obtain ⟨hop, hcurfn⟩ := hsound.wellFormed.decls f n hdecl
  refine ⟨?_, hcurfn⟩
  unfold Node.isNameOf
  rw [hop, hcls]
  rfl

theorem output {f : FuncId} (hf : f ∈ group.funcs) {n : NodeId} (hn : n ∈ p.outputs (p.func f)) :
    (s.program.node n).isNameOf .result = true ∧ (s.program.node n).curfn = some f ∧
      (s.program.node n).ordinal = (p.node n).ordinal := by
  obtain ⟨hsound, hadv⟩ := h.sound hp
  obtain ⟨hdecl, hresult⟩ := List.mem_filter.1 hn
  have hsame := hadv.node n (hp.hasNode_of_mem_refs (Func.mem_refs_decls hdecl))
  rw [← h.func hf] at hdecl
  exact ⟨by rw [hsame.isNameOf]; exact hresult, (hsound.wellFormed.decls f n hdecl).2, hsame.ordinal⟩

/-- After the analysis the inputs of a function have the notes of their words after the flood, and what the flood
moved to the heap is moved. -/
theorem inputs {info : Info} (hinfo : (escapesWith c o p).result = .ok info) {f : FuncId} (hf : f ∈ group.funcs)
    (hbody : (p.func f).hasBody = true) :
    ((escapesWith c o p).program.func f).inputs =
        (p.func f).inputs.map (Flow.renote (s.dsts.foldl Flow.flood s).noteFor?) ∧
      ∀ n ∈ (s.dsts.foldl Flow.flood s).info.moved, n ∈ info.moved := by
  have hself := h.func hf
  obtain ⟨before, after, run, hgroups, hrun, hs⟩ := h
  obtain ⟨hsound, _⟩ := sound_groups (sound_start hp c o) hrun
  obtain ⟨last, hlast, hprogram, rfl⟩ := escapesWith_eq_ok hinfo
  rw [hgroups] at hlast
  obtain ⟨run', hrun', hrest⟩ := forM_append_eq_ok hlast
  cases hrun.symm.trans hrun'
  obtain ⟨mid, hmid, hafter⟩ := forM_cons_eq_ok hrest
  obtain ⟨s', hs', rfl⟩ := analyzeGroup_eq_ok hmid
  cases hs.symm.trans hs'
  obtain ⟨_, hadv⟩ := sound_groups (sound_concluded hs hsound) hafter
  have hflood := (Flow.marked_foldl_flood s).program
  obtain ⟨hconclude, hmoved, _⟩ := Flow.conclude_eq s group
  constructor
  · rw [hprogram, func_of_not_mem_groups hafter ((nodup_groups hgroups).2 f hf).2, hconclude,
      Flow.inputs_foldl_noteFunc _ (nodup_groups hgroups).1 hf (by rw [hflood, hself]; exact hbody), hflood, hself]
  · intro n hn
    exact hadv.moved n (by rw [hmoved]; exact hn)

end Program.HasGraph

/-! ## Notes and paths -/

/-- The note of an input that had none is the word of the input, if it has one. -/
theorem Flow.ofNote_renote (s : Flow) {param : Param} {n : NodeId} (hname : param.name = some n)
    (hnote : param.note = none) :
    Word.ofNote (renote s.noteFor? param).note = .plain .unknown ∨
      Word.ofNote (renote s.noteFor? param).note = s.info.word n ∧ (s.info.word n).cls < .scope := by
  unfold renote
  cases hfor : s.noteFor? param with
  | none =>
    dsimp only
    rw [hnote]
    exact Or.inl rfl
  | some note =>
    have hword : (s.info.word n).note? = some note := by
      simp only [noteFor?, hname] at hfor
      split at hfor
      · exact hfor
      · cases hfor
    refine Or.inr ⟨Word.ofNote_note? hword, ?_⟩
    by_cases hscope : (s.info.word n).cls < .scope
    · exact hscope
    · rw [Word.note?_eq_none hscope] at hword
      cases hword

/-- After an analysis of a program that a script built, the note of an input that had none covers every path to the
input. A path from the sink leaves the input unknown, unless it passes a dereference and the note says that what the
input points to escapes. A path from an output that stays on the stack leaves the input unknown, or is covered by the
field of that output, or passes a dereference and the note says that what the input points to escapes. -/
theorem note_covers_path {steps : List Script.Step} {session : Script.Session} (hsteps : Script.run steps = .ok session)
    {c : Config} {o : Observer} {info : Info} (hinfo : (escapesWith c o session.program).result = .ok info)
    {group : Group} {s : Flow}
    (hgraph : session.program.HasGraph c o group s) {f : FuncId} (hf : f ∈ group.funcs)
    (hbody : (session.program.func f).hasBody = true) {i : Nat} {param : Param}
    (hparam : (session.program.func f).inputs[i]? = some param) {n : NodeId} (hname : param.name = some n)
    (hnote : param.note = none) :
    ∃ param' w, ((escapesWith c o session.program).program.func f).inputs[i]? = some param' ∧ w = Word.ofNote param'.note ∧
      ∀ dst l, s.IsRoot dst → s.Path dst l n →
        (dst = s.sink → l.suffix ≤ 0 → w = .plain .unknown) ∧
        (dst = s.sink → 0 < l.suffix → w = .plain .unknown ∨ w.content = true) ∧
        (dst ∈ session.program.outputs (session.program.func f) → dst ∉ info.moved →
          w = .plain .unknown ∨
          (∃ k, k.val + 1 = (session.program.node dst).ordinal ∧ 0 < (w.outputs.get k).val ∧
            ((w.outputs.get k).val : Int) - 1 ≤ l.value) ∨
          1 ≤ l.suffix ∧ w.content = true) := by
  have hp := Script.wellFormed_of_run hsteps
  obtain ⟨hinputs, hmoved⟩ := hgraph.inputs hp hinfo hf hbody
  refine ⟨_, _, by rw [hinputs, List.getElem?_map, hparam]; rfl, rfl, fun dst l hroot hpath => ?_⟩
  rcases (s.dsts.foldl Flow.flood s).ofNote_renote hname hnote with hw | ⟨hw, hscope⟩
  · exact ⟨fun _ _ => hw, fun _ _ => Or.inl hw, fun _ _ => Or.inl hw⟩
  rw [hw]
  obtain ⟨hn, hcurfn⟩ := hgraph.input hp hf (List.mem_of_getElem? hparam) hname
  have hsink (hdst : dst = s.sink) : 0 < l.suffix ∧ ((s.dsts.foldl Flow.flood s).info.word n).content = true := by
    obtain ⟨hresult, hdepth⟩ := hgraph.sink hp
    rw [← hdst] at hresult hdepth
    exact Flow.content_foldl_flood hroot hpath hn hresult hdepth hscope
  refine ⟨fun hdst hl => absurd (hsink hdst).1 (Int.not_lt.2 hl), fun hdst _ => Or.inr (hsink hdst).2, ?_⟩
  intro hout hstays
  obtain ⟨hresult, hcurfn', hordinal⟩ := hgraph.output hp hf hout
  have hboth : s.program.isOutputAndInput dst n = true := by
    simp [Program.isOutputAndInput, hresult, hn, hcurfn, hcurfn']
  -- Flows to an output on the heap are not told in its field, so it has to stay.
  have htells := Flow.tells_foldl_flood hroot hpath hboth (hgraph.sound hp).1.moved
    (fun hdst => hstays (hmoved dst hdst)) hscope
  rw [hordinal] at htells
  exact Or.inr (htells.imp_left And.right)

/-- A function that stores what its input points to and returns it:
`func load(p **int64) *int64 { g = *p; return *p }`. -/
def loadSteps : List Script.Step :=
  [.type "P" (.ptr (.named "int64")), .type "PP" (.ptr (.named "P")), .global "g" "P" "g",
    .func { name := "load", params := [{ name := "p", ty := "PP" }], results := [(none, "P")] } "load",
    .define (.key "load")
      [.form (.assign (.ref (.key "g")) (.deref (.param 0))), .form (.ret [.deref (.param 0)])]]

def loadSession : Script.Session := Script.sessionOf loadSteps

def loadGroup : Group := ⟨[⟨0⟩], false⟩

def loadGraph : Flow := loadSession.program.firstGraph loadGroup

theorem hasGraph_loadGraph : loadSession.program.HasGraph default .silent loadGroup loadGraph :=
  ⟨[], [], { program := loadSession.program }, by decide +kernel, rfl, Program.forM_eq_firstGraph (by decide +kernel)⟩

/-- Paths from the sink and from the result come to `p` at level `{1 1}`, and the note of `p` covers both. -/
theorem note_loadSteps : ∃ param w, ((escapes loadSession.program).program.func ⟨0⟩).inputs[0]? = some param ∧
    w = Word.ofNote param.note ∧ (w = .plain .unknown ∨ w.content = true) ∧
    (w = .plain .unknown ∨ (∃ k, k.val + 1 = (loadSession.program.node ⟨2⟩).ordinal ∧ 0 < (w.outputs.get k).val ∧
      ((w.outputs.get k).val : Int) - 1 ≤ 1) ∨ 1 ≤ (1 : Int) ∧ w.content = true) := by
  obtain ⟨info, hinfo⟩ := Script.exists_eq_ok (x := (escapes loadSession.program).result) (by decide +kernel)
  have hmoved : (escapes loadSession.program).result.toOption.map (·.moved.toList) = some [] := by decide +kernel
  have hstays : ⟨2⟩ ∉ info.moved := by
    rw [hinfo] at hmoved
    rw [← Array.mem_toList_iff, show info.moved.toList = [] from Option.some.inj hmoved]
    exact List.not_mem_nil
  have hinput : (loadSession.program.func ⟨0⟩).inputs[0]? =
      some { name := some ⟨1⟩, ty := some (.compound ⟨1⟩) } := by
    decide +kernel
  obtain ⟨param, w, hparam, hw, hpaths⟩ := note_covers_path (Script.run_eq_sessionOf (by decide +kernel)) hinfo
    hasGraph_loadGraph (f := ⟨0⟩) (by decide) (by decide +kernel) hinput rfl rfl
  have hsink : loadGraph.IsRoot loadGraph.sink := ⟨by decide +kernel, Or.inl (by decide +kernel)⟩
  have hresult : loadGraph.IsRoot ⟨2⟩ := ⟨by decide +kernel, Or.inl (by decide +kernel)⟩
  have hstored : loadGraph.Path loadGraph.sink .zero ⟨3⟩ := .source (by decide +kernel)
  have hreturned : loadGraph.Path ⟨2⟩ .zero ⟨5⟩ := .source (by decide +kernel)
  exact ⟨param, w, hparam, hw,
    (hpaths _ ⟨1, 1⟩ hsink (hstored.operand (by decide +kernel))).2.1 rfl (by decide),
    (hpaths _ ⟨1, 1⟩ hresult (hreturned.operand (by decide +kernel))).2.2 (by decide +kernel) hstays⟩

end EscapeAnalysis

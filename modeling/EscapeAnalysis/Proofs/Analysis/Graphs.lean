import EscapeAnalysis.Proofs.Analysis.Returns
import EscapeAnalysis.Proofs.Recording.Graphs

/-!
# The flow graph in every analysis

Groups leave the names of results as they are, and the graph of a group starts without edges. So every state of the
recording of a group has a well linked graph, in any analysis.

* `namesResults_groups` : the names of results, between groups;
* `Program.Laid.namesResults` : the programs that scripts build declare names for their results;
* `recording_wellLinked` : the graph in every state of a recording.
-/

namespace EscapeAnalysis

namespace Program

variable {p q : Program}

theorem NamesResults.renoted (h : p.NamesResults) (hnodes : q.nodes = p.nodes)
    (hfuncs : ∀ f, (p.func f).Renoted (q.func f)) : q.NamesResults := by
  intro f result hresult n hn
  rw [(hfuncs f).results] at hresult
  have hop := h f result hresult n hn
  unfold node at hop ⊢
  rwa [hnodes]

/-- The names of results are among the outputs. -/
theorem Laid.namesResults (h : p.Laid) (hwf : p.WellFormed) : p.NamesResults := by
  intro f result hresult n hn
  obtain ⟨k, hk⟩ := List.getElem?_of_mem hresult
  have hmem := List.mem_of_getElem? (h.output_of_result hwf hk hn).1
  exact (Node.isNameOf_iff.1 (List.mem_filter.1 hmem).2).1

end Program

/-! ## Groups -/

theorem Flow.namesResults_start {run : Run} (h : run.program.NamesResults) (group : Group) :
    (Flow.start run group).program.NamesResults := by
  intro f result hresult n hn
  have hop := h f result hresult n hn
  have hlt := run.program.lt_size_of_op_ne (show (run.program.node n).op ≠ .block by simp [hop])
  rw [Flow.program_start, Program.node_addNode, if_neg (Nat.ne_of_lt hlt)]
  exact hop

theorem namesResults_analyzeGroup {run run' : Run} (h : run.program.NamesResults) {group : Group}
    (hrun : analyzeGroup group run = .ok () run') : run'.program.NamesResults := by
  obtain ⟨s, hs, rfl⟩ := analyzeGroup_eq_ok hrun
  have hrecorded := (Flow.frame_recorded hs).namesResults (Flow.namesResults_start h group)
  exact hrecorded.renoted (s.nodes_conclude group) (s.renoted_conclude group)

theorem namesResults_groups {run run' : Run} (h : run.program.NamesResults) {groups : List Group}
    (hrun : groups.forM analyzeGroup run = .ok () run') : run'.program.NamesResults :=
  groups_invariant (P := fun run => run.program.NamesResults) (fun h hgroup => namesResults_analyzeGroup h hgroup) h hrun

/-! ## The recording of a group -/

theorem Flow.not_edge_start (run : Run) (group : Group) (dst src : NodeId) : ¬(Flow.start run group).Edge dst src := by
  intro he
  unfold Flow.Edge at he
  rw [show (Flow.start run group).sources.get dst.index = #[] from Table.get_empty dst.index] at he
  simp at he

theorem Flow.wellLinked_start (run : Run) (group : Group) : (Flow.start run group).WellLinked := by
  have hnone := Flow.not_edge_start run group
  refine ⟨List.nodup_nil, fun n => ?_, fun d x he => absurd he (hnone d x), fun d x he => absurd he (hnone d x),
    fun d x he => absurd he (hnone d x), fun d x he => absurd he (hnone d x)⟩
  rw [show (Flow.start run group).sources.get n.index = #[] from Table.get_empty n.index]
  simp [Flow.start]

/-- Let the results of a program that have names have names of variables, and let a group of it be recorded, in any
analysis. Wherever the recording comes, after some of the functions, at the body of the next one, at each node of the
body, at its end or at an error, it comes there from the empty graph by steps, and the graph is well linked: the list of
destinations has each node that edges lead to once; no edge leads from a node to itself, or from a value that is known
to have no pointers; and edges lead from nodes that are sources to nodes that keep what they get, or to the sink of the
group. In all states on the way the same holds, and the destinations are listed in the order of their first edges. -/
theorem recording_wellLinked {p : Program} (hp : p.NamesResults) {config : Config} {observer : Observer}
    {before after : List Group} {group : Group} (hgroups : p.groups = before ++ group :: after) {run : Run}
    (hrun : before.forM analyzeGroup { program := p, config, observer } = .ok () run) :
    (∀ t, Flow.ComesTo (Flow.start run group) group.funcs t →
      t.sink = (Flow.start run group).sink ∧ t.WellLinked ∧
        ∃ k states, Flow.IsTrace .any (Flow.start run group) t k states) ∧
    ∀ t k states, Flow.IsTrace .any (Flow.start run group) t k states → ∀ i ≤ k,
      (states i).sink = (Flow.start run group).sink ∧ (states i).WellLinked ∧
      (states i).dsts.toList.Pairwise fun d d' =>
        ∃ j ≤ i, (states j).sources.get d.index ≠ #[] ∧ (states j).sources.get d'.index = #[] := by
  have hnames := Flow.namesResults_start (namesResults_groups hp hrun) group
  have hstart := Flow.wellLinked_start run group
  refine ⟨fun t ht => ?_, fun t k states htrace i hi => ?_⟩
  · have hsteps := ht.steps (Flow.refs_start_any run group) (Program.nodup_groups hgroups).1 fun f hf => by
      rw [Flow.state_start, if_pos hf]
    obtain ⟨k, states, htrace⟩ := Flow.exists_isTrace hsteps
    have hlinked := htrace.wellLinked hnames hstart (Nat.le_refl k)
    rw [htrace.last] at hlinked
    exact ⟨hsteps.frame.sink, hlinked, k, states, htrace⟩
  · exact ⟨(htrace.frame hi).sink, htrace.wellLinked hnames hstart hi, htrace.pairwise_dsts hnames hstart rfl hi⟩

/-- `func spin(p *int64) (r *int64) { var x *int64; _ = p; p = p; g = x; x = p; r = spin(x) }` -/
def spinSteps : List Script.Step :=
  [.type "P" (.ptr (.named "int64")), .global "g" "P" "g",
    .func { name := "spin", params := [{ name := "p", ty := "P" }], results := [(some "r", "P")] } "spin",
    .define (.key "spin")
      [.form (.declare "x" "P" "x"), .form (.assign .blank (.param 0)), .form (.assign (.param 0) (.param 0)),
        .form (.assign (.ref (.key "g")) (.ref (.key "x"))), .form (.assign (.ref (.key "x")) (.param 0)),
        .form (.assign (.result 0) (.call (.key "spin") [.ref (.key "x")] false))]]

def spinProgram : Program := (Script.sessionOf spinSteps).program

def spinGroup : Group := ⟨[⟨0⟩], true⟩

theorem run_spinSteps : Script.run spinSteps = .ok (Script.sessionOf spinSteps) :=
  Script.run_eq_sessionOf (by decide +kernel)

/-- The result of a recursive function flows to the sink; the self-assignment, the blank one, and the result of the call
that is stored in itself make no edge. -/
theorem recording_wellLinked_spinSteps :
    (spinProgram.firstGraph spinGroup).dsts = #[⟨13⟩, ⟨3⟩, ⟨1⟩] ∧ (spinProgram.firstGraph spinGroup).sink = ⟨13⟩ ∧
    (spinProgram.firstGraph spinGroup).WellLinked ∧
    ∃ k states, Flow.IsTrace .any (Flow.start { program := spinProgram } spinGroup) (spinProgram.firstGraph spinGroup)
      k states := by
  have hnames := (Script.laid_of_run run_spinSteps).namesResults (Script.wellFormed_of_run run_spinSteps)
  obtain ⟨hcomes, _⟩ := recording_wellLinked (p := spinProgram) hnames
    (show spinProgram.groups = [] ++ [spinGroup] by decide +kernel) rfl
  obtain ⟨_, hlinked, htrace⟩ := hcomes (spinProgram.firstGraph spinGroup)
    (.recorded (List.append_nil _).symm (Program.forM_eq_firstGraph (by decide +kernel)))
  exact ⟨by decide +kernel, by decide +kernel, hlinked, htrace⟩

end EscapeAnalysis

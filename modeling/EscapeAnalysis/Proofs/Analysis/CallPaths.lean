import EscapeAnalysis.Proofs.Recording.CallShapes
import EscapeAnalysis.Proofs.Rerun.Groups

/-!
# Calls of the group and calls known by notes

Whether a callee with a body belongs to the group of the call or was noted before depends on who else calls whom. The two
ways to bind the call accept the same numbers of arguments, and bind it to as many results.

* `Program.Ordered.operandsEnd`, `ordered_groups` : expressions stay without cycles from group to group;
* `Flow.Steps.state_ne_unknown` : what has made a step stays known;
* `call_paths_agree` : the two ways to bind a call.
-/

namespace EscapeAnalysis

/-! ## Programs of recordings -/

theorem Node.mem_inner_of_mem_operands {x : Node} {m : NodeId} (h : m ∈ x.operands) : m ∈ x.inner := by
  unfold operands at h
  rw [mem_inner]
  split at h
  · rename_i hop
    exact Or.inr (Or.inr (Or.inr ⟨by simp [hop], List.mem_of_mem_head? (Option.mem_toList.1 h)⟩))
  · split at h
    · exact Or.inl (Option.mem_toList.1 h)
    · split at h
      · rename_i harith
        have hcall : x.op.isCall = false := by
          revert harith
          cases x.op <;> decide
        rcases List.mem_append.1 h with h | h
        · exact Or.inl (Option.mem_toList.1 h)
        · exact Or.inr (Or.inr (Or.inl ⟨hcall, Option.mem_toList.1 h⟩))
      · cases h

theorem Program.Ordered.operandsEnd {p : Program} (h : p.Ordered) : p.OperandsEnd :=
  operandsEnd_of_older fun n m hm => h n m (Node.mem_inner_of_mem_operands hm)

theorem ordered_groups {p : Program} {done groups : List Group} {run run' : Run} (hrun : run.Follows p done)
    (hordered : run.program.Ordered) (h : groups.forM analyzeGroup run = .ok () run') : run'.program.Ordered := by
  refine (groups_induct (motive := fun done _ run => run.Follows p done ∧ run.program.Ordered)
    (fun _ hrun hgroup => ⟨hrun.1.analyzeGroup hgroup, ?_⟩) rfl ⟨hrun, hordered⟩ h).2
  obtain ⟨s, hs, rfl⟩ := analyzeGroup_eq_ok hgroup
  exact Flow.ordered_conclude (Flow.ordered_recorded hrun.1.closed hrun.2 hs) _

namespace Flow

theorem Steps.state_ne_unknown {A : Area} {s t : Flow} (h : Steps A s t) {f : FuncId} (hf : s.info.state f ≠ .unknown) :
    t.info.state f ≠ .unknown := by
  induction h with
  | refl => exact hf
  | tail _ h ih =>
    cases h with
    | change h =>
      rw [Info.state, h.states]
      exact ih
    | @start g _ =>
      by_cases he : f = g
      · rw [he, startFunc, Info.state_setState_self]
        simp
      · exact fun h => ih ((Info.state_setState_of_ne _ _ he).symm.trans h)
    | leave _ _ => exact ih

end Flow

/-! ## Recordings of a group -/

section Group

variable {p : Program} {before : List Group} {run : Run} (hrun : run.Follows p before) {group : Group} {s : Flow}
  (hs : Flow.Steps (.all (Flow.start run group).sink fun _ => True) (Flow.start run group) s)
include hrun hs

theorem includes_of_steps : p.Includes s.program := by
  have hnodes := (hrun.nodes.trans (Flow.extends_start run group)).trans (Flow.Steps.frame hs).nodes
  exact ⟨hnodes.size_le, hnodes.node, hrun.types.trans (Flow.Steps.frame hs).types⟩

theorem renoted_of_steps (f : FuncId) : (p.func f).Renoted (s.program.func f) := by
  rw [(Flow.Steps.frame hs).func f]
  exact hrun.funcs f

theorem calleeOf_of_steps (hp : p.Closed) {n : NodeId} {f : FuncId} (h : p.calleeOf n = some f) :
    s.program.calleeOf n = some f := by
  have hnodes := (hrun.nodes.trans (Flow.extends_start run group)).trans (Flow.Steps.frame hs).nodes
  rw [hnodes.calleeOf hp (p.lt_size_of_op_ne (Flow.op_ne_block_of_isCall (Flow.isCall_of_calleeOf h))), h]

/-- A callee with a body is in the group, or in an earlier one. -/
theorem state_ne_unknown_of_steps (hp : p.Closed) {after : List Group} (hgroups : p.groups = before ++ group :: after)
    {n : NodeId} {f : FuncId} (hf : p.isGroupCandidate f = true) (hcallee : p.calleeOf n = some f)
    (hbelow : ∃ g ∈ group.funcs, p.Below g n) : s.info.state f ≠ .unknown := by
  refine Flow.Steps.state_ne_unknown hs ?_
  obtain ⟨g, hg, hn⟩ := hbelow
  have hstates := Flow.states_start run group
  rw [hrun.states] at hstates
  have hall : ∀ x ∈ (Flow.start run group).info.states, x.2 ≠ .unknown := by
    intro x hx
    rw [hstates, List.mem_append, List.mem_flatMap] at hx
    rcases hx with hx | ⟨G, _, hx⟩
    · obtain ⟨_, _, rfl⟩ := List.mem_map.1 hx
      simp
    · exact (Group.mem_steps.1 hx).2
  rcases Program.grouped_of_calleeOf hp hgroups hg hn hcallee (Program.mem_decls_of_isGroupCandidate hf) with hf | ⟨G, hG, hf⟩
  · refine Info.state_ne_unknown (s := .planned) ?_ hall
    rw [hstates]
    simp [hf]
  · refine Info.state_ne_unknown (s := .noted) ?_ hall
    rw [hstates]
    refine List.mem_append_right _ (List.mem_flatMap.2 ⟨G, List.mem_reverse.2 hG, ?_⟩)
    exact Group.mem_steps.2 ⟨hf, by simp⟩

end Group

/-- Take any state of the recording of a group, and a call of `f` that is not bound yet, with any arguments. If the call
is met below the group and `f` has a body, `f` has made a step. Then the call stops, as a call of the group, exactly if it
has more arguments than `f` has parameters and either spreads its last argument or none of the parameters takes the rest.
It stops with the count of the arguments. As a call known by notes it does the same, unless a note is corrupt. Otherwise
both bind the call to as many results as `f` declares, and a statement that assigns or returns these results stops after
the one as it does after the other. -/
theorem call_paths_agree {steps : List Script.Step} {session : Script.Session} (hsteps : Script.run steps = .ok session)
    {config : Config} {observer : Observer} {before after : List Group} {group : Group}
    (hgroups : session.program.groups = before ++ group :: after) {run : Run}
    (hbefore : before.forM analyzeGroup { program := session.program, config, observer } = .ok () run) {s : Flow}
    (hs : Flow.Steps (.all (Flow.start run group).sink fun _ => True) (Flow.start run group) s) {n : NodeId} {f : FuncId}
    (hcallee : session.program.calleeOf n = some f) (hunbound : s.results.get n.index = []) (args : List NodeId)
    (detached : Bool) :
    let overflows := Overflows (session.program.func f).params (session.program.node n).variadic args.length
    let inGroup := Flow.callInGroup n f args
    let byNotes := Flow.callByNotes n detached args
    (session.program.isGroupCandidate f = true → (∃ g ∈ group.funcs, session.program.Below g n) →
      s.info.state f ≠ .unknown) ∧
    (s.info.state f ≠ .unknown →
      (overflows → Flow.stop? inGroup s = some (.argCount n)) ∧ (¬ overflows → Flow.stop? inGroup s = none)) ∧
    ((∃ note, Flow.stop? byNotes s = some (.corruptNote note)) ∨
      (overflows → Flow.stop? byNotes s = some (.argCount n)) ∧ (¬ overflows → Flow.stop? byNotes s = none)) ∧
    (∀ t, inGroup s = .ok () t ∨ byNotes s = .ok () t →
      (t.results.get n.index).length = (session.program.func f).results.length) ∧
    ∀ t u, inGroup s = .ok () t → byNotes s = .ok () u → ∀ stmt, session.program.TakesResults stmt n → ∀ up,
      Flow.stop? (Flow.visit stmt up) t = Flow.stop? (Flow.visit stmt up) u := by
  intro overflows inGroup byNotes
  have hp := Script.wellFormed_of_run hsteps
  have hdrafted := Script.drafted_of_run hsteps
  have hstart := follows_nil hp.refs config observer
  have hrun : run.Follows session.program before := follows_groups hstart hbefore
  have hends : s.program.OperandsEnd :=
    (Flow.Steps.ordered trivial hs
      (Flow.ordered_start (ordered_groups hstart hdrafted.ordered hbefore) group)).operandsEnd
  have hincludes := includes_of_steps hrun hs
  have hfunc := renoted_of_steps hrun hs f
  have hcallee' := calleeOf_of_steps hrun hs hp.refs hcallee
  have hoverflows :
      Overflows (s.program.func f).params (s.program.node n).variadic args.length ↔ overflows := by
    obtain ⟨_, _, he⟩ := hincludes.node n (session.program.lt_size_of_op_ne
      (Flow.op_ne_block_of_isCall (Flow.isCall_of_calleeOf hcallee)))
    rw [he]
    refine overflows_congr ?_
    have hbare := congrArg (List.map (·.variadic)) hfunc.params
    rw [List.map_map, List.map_map] at hbare
    exact hbare
  have hnamed : Flow.Named s (s.program.func f).inputs := by
    intro param hparam m hm
    have hmem : some m ∈ (session.program.func f).inputs.map (·.name) := by
      rw [← hfunc.names]
      exact List.mem_map.2 ⟨param, hparam, hm⟩
    obtain ⟨param', hparam', hm'⟩ := List.mem_map.1 hmem
    exact hincludes.op (hp.decls f m (hp.inputs f param' hparam' m hm').1).1 (by simp)
  have hinGroup (hstate : s.info.state f ≠ .unknown) := Flow.callInGroup_shape hcallee' hends hunbound hstate hnamed
    (fun result hresult => hdrafted.named f result (hfunc.results ▸ hresult)) args
  have hbyNotes := Flow.callByNotes_shape hcallee' hends hunbound detached args
  simp only [hoverflows, hfunc.results] at hinGroup hbyNotes
  refine ⟨fun hf hbelow => state_ne_unknown_of_steps hrun hs hp.refs hgroups hf hcallee hbelow, fun hstate => ?_, ?_,
    fun t ht => ?_, fun t u ht hu stmt hstmt up => ?_⟩
  · have hstop := Flow.Comes.stop?_of_not (X := fun _ => False)
      ((hinGroup hstate).imp (fun _ _ h hq => ⟨h, hq.1⟩) fun _ => Or.inr)
    exact hstop.resolve_left fun h => h.elim fun _ hX => hX.1
  · refine (Flow.Comes.stop?_of_not (hbyNotes.mono fun _ _ _ h => h.1)).imp_left ?_
    rintro ⟨_, ⟨note, rfl⟩, hstop⟩
    exact ⟨note, hstop⟩
  · rcases ht with ht | ht
    · exact ((hinGroup (Flow.state_ne_unknown_of_callInGroup ht)).ok ht).2.2.length
    · exact (hbyNotes.ok ht).2.2.length
  · refine Flow.stop?_takesResults up hdrafted hp.refs hincludes hends (fun g m hm => ?_)
      ((hinGroup (Flow.state_ne_unknown_of_callInGroup ht)).ok ht).2.2 (hbyNotes.ok hu).2.2 hstmt
    rw [(renoted_of_steps hrun hs g).decls] at hm
    exact Nat.lt_of_lt_of_le (hp.refs m (Or.inr ⟨g, Func.mem_refs_decls hm⟩)) hincludes.size_le

/-- `func both(p *int64) (*int64, *int64) { var a *int64; a, _ = both(p); return both(p) }` -/
def bothSteps : List Script.Step :=
  [.type "P" (.ptr (.named "int64")),
    .func { name := "both", params := [{ name := "p", ty := "P" }], results := [(none, "P"), (none, "P")] } "both",
    .define (.key "both")
      [.form (.declare "a" "P" "a"),
        .form (.assignCall [.ref (.key "a"), .blank] (.call (.key "both") [.param 0] false)),
        .form (.ret [.call (.key "both") [.param 0] false])]]

def bothProgram : Program := (Script.sessionOf bothSteps).program

def bothGraph : Flow := Flow.start { program := bothProgram } ⟨[⟨0⟩], true⟩

/-- The first call takes one argument, and not two. It is bound to two results, and the assignment takes them. -/
theorem call_paths_agree_bothSteps :
    Flow.stop? (Flow.callInGroup ⟨7⟩ ⟨0⟩ [⟨0⟩, ⟨0⟩]) bothGraph = some (.argCount ⟨7⟩) ∧
    Flow.stop? (Flow.callInGroup ⟨7⟩ ⟨0⟩ [⟨0⟩]) bothGraph = none ∧
    ∀ t u, Flow.callInGroup ⟨7⟩ ⟨0⟩ [⟨0⟩] bothGraph = .ok () t → Flow.callByNotes ⟨7⟩ false [⟨0⟩] bothGraph = .ok () u →
      (t.results.get 7).length = 2 ∧ (u.results.get 7).length = 2 ∧
        Flow.stop? (Flow.visit ⟨8⟩ none) t = Flow.stop? (Flow.visit ⟨8⟩ none) u := by
  have hrun : Script.run bothSteps = .ok (Script.sessionOf bothSteps) := Script.run_eq_sessionOf (by decide +kernel)
  have hgroups : bothProgram.groups = [] ++ ⟨[⟨0⟩], true⟩ :: [] := by decide +kernel
  have hbefore : List.forM [] analyzeGroup { program := bothProgram } = .ok () { program := bothProgram } := rfl
  have hs : Flow.Steps (.all bothGraph.sink fun _ => True) bothGraph bothGraph := .refl
  have hcallee : bothProgram.calleeOf ⟨7⟩ = some ⟨0⟩ := by decide +kernel
  have hunbound : bothGraph.results.get (⟨7⟩ : NodeId).index = [] := by decide +kernel
  have hagree (args : List NodeId) := call_paths_agree hrun hgroups hbefore hs hcallee hunbound args false
  have hstate : bothGraph.info.state ⟨0⟩ ≠ .unknown := by decide +kernel
  have hlength : (bothProgram.func ⟨0⟩).params.length = 1 := by decide +kernel
  have hnone : (bothProgram.func ⟨0⟩).params.all (!·.variadic) = true := by decide +kernel
  refine ⟨((hagree [⟨0⟩, ⟨0⟩]).2.1 hstate).1 ⟨?_, Or.inr fun i _ param hparam => ?_⟩,
    ((hagree [⟨0⟩]).2.1 hstate).2 fun hover => ?_, fun t u ht hu => ?_⟩
  · exact lt_of_eq_of_lt hlength (by decide)
  · simpa using List.all_eq_true.1 hnone param (List.mem_of_getElem? hparam)
  · exact Nat.lt_irrefl 1 (lt_of_eq_of_lt hlength.symm hover.1)
  · obtain ⟨_, _, _, hresults, htakes⟩ := hagree [⟨0⟩]
    have htwo : (bothProgram.func ⟨0⟩).results.length = 2 := by decide +kernel
    exact ⟨(hresults t (Or.inl ht)).trans htwo, (hresults u (Or.inr hu)).trans htwo,
      htakes t u ht hu ⟨8⟩ (.assign (by decide +kernel) (by decide +kernel)) none⟩

end EscapeAnalysis

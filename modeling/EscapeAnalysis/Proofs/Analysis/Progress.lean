import EscapeAnalysis.Proofs.Analysis.Runs
import EscapeAnalysis.Proofs.Building.Scripts
import EscapeAnalysis.Proofs.Groups.Callees

/-!
# The progress of functions

Every function of a group is planned, started and noted, once each and in this order, and the analysis takes no step
with any other function. So no function is recorded twice, and a callee that has a body is in a group by the time its
caller is recorded: a call can only be found to be bound if its recording was begun twice.

* `Group.steps` : the steps of the functions of a group;
* `Run.Follows p groups run` : `run` is what the analysis of `groups` leaves of `p`;
* `follows_groups` : one group after the other;
* `Run.Follows.fault` : where the recording of the next group can stop.
-/

namespace EscapeAnalysis

/-! ## Histories -/

namespace Info

theorem state_eq_getLast (i : Info) (f : FuncId) : i.state f = (i.history f).getLast?.getD .unknown := by
  rw [state, history, List.getLast?_reverse, List.head?_map, List.head?_filter]
  congr 1
  induction i.states with
  | nil => rfl
  | cons x states ih =>
    obtain ⟨g, s⟩ := x
    by_cases h : g = f
    · simp [h]
    · simp [List.lookup_cons, h, beq_false_of_ne (Ne.symm h), ih]

theorem state_ne_unknown {i : Info} {f : FuncId} {s : FuncState} (hf : (f, s) ∈ i.states)
    (h : ∀ x ∈ i.states, x.2 ≠ .unknown) : i.state f ≠ .unknown := by
  unfold state
  cases hl : i.states.lookup f with
  | none =>
    rw [List.lookup_eq_none_iff] at hl
    simpa using hl (f, s) hf
  | some s' =>
    rw [List.lookup_eq_some_iff] at hl
    obtain ⟨l₁, l₂, he, _⟩ := hl
    exact h (f, s') (by simp [he])

theorem states_foldl_setState (i : Info) (funcs : List FuncId) (s : FuncState) :
    (funcs.foldl (fun i f => i.setState f s) i).states = funcs.reverse.map (·, s) ++ i.states := by
  induction funcs generalizing i with
  | nil => rfl
  | cons f funcs ih =>
    rw [List.foldl_cons, ih, List.reverse_cons, List.map_append, List.append_assoc]
    rfl

end Info

/-! ## The steps of a group -/

/-- The steps of the functions of a group, the last one first. -/
def Group.steps (group : Group) : List (FuncId × FuncState) :=
  [.noted, .started, .planned].flatMap fun s => group.funcs.reverse.map (·, s)

theorem Group.mem_steps {group : Group} {f : FuncId} {s : FuncState} :
    (f, s) ∈ group.steps ↔ f ∈ group.funcs ∧ s ≠ .unknown := by
  cases s <;> simp [steps]

theorem filter_map_pair {α : Type} {funcs : List FuncId} (hnodup : funcs.Nodup) {f : FuncId} (hf : f ∈ funcs) (a : α) :
    (funcs.map (·, a)).filter (·.1 = f) = [(f, a)] := by
  rw [List.filter_map]
  have hfilter : funcs.filter ((fun x : FuncId × α => decide (x.1 = f)) ∘ (·, a)) = [f] := by
    have heq := List.filter_eq (l := funcs) f
    rw [List.Nodup.count hnodup, if_pos hf] at heq
    exact heq
  rw [hfilter]
  rfl

theorem Group.filter_steps {group : Group} (hnodup : group.funcs.Nodup) {f : FuncId} (hf : f ∈ group.funcs) :
    group.steps.filter (·.1 = f) = [(f, .noted), (f, .started), (f, .planned)] := by
  have hone (s : FuncState) : (group.funcs.reverse.map (·, s)).filter (·.1 = f) = [(f, s)] :=
    filter_map_pair (List.nodup_reverse.2 hnodup) (List.mem_reverse.2 hf) s
  simp only [steps, List.flatMap_cons, List.flatMap_nil, List.filter_append, hone]
  rfl

theorem filter_steps_of_not_mem {groups : List Group} {f : FuncId} (hf : ∀ G ∈ groups, f ∉ G.funcs) :
    (groups.flatMap Group.steps).filter (·.1 = f) = [] := by
  rw [List.filter_eq_nil_iff]
  rintro ⟨g, s⟩ hx he
  obtain ⟨G, hG, hmem⟩ := List.mem_flatMap.1 hx
  have hg : g = f := by simpa using he
  exact hf G hG (hg ▸ (Group.mem_steps.1 hmem).1)

/-! ## From group to group -/

structure Run.Follows (p : Program) (groups : List Group) (run : Run) : Prop where
  closed : run.program.Closed
  nodes : p.Extends run.program
  types : p.types.Grows run.program.types
  funcs : ∀ f, (p.func f).Renoted (run.program.func f)
  states : run.info.states = groups.reverse.flatMap Group.steps

theorem follows_nil {p : Program} (hp : p.Closed) (config : Config) (observer : Observer) :
    Run.Follows p [] { program := p, config, observer } :=
  ⟨hp, .refl p, .refl _, fun _ => .refl _, rfl⟩

namespace Flow

theorem states_start (run : Run) (group : Group) :
    (start run group).info.states = group.funcs.reverse.map (·, .planned) ++ run.info.states :=
  Info.states_foldl_setState _ group.funcs .planned

theorem states_conclude (s : Flow) (group : Group) :
    (s.conclude group).info.states = group.funcs.reverse.map (·, .noted) ++ s.info.states := by
  obtain ⟨_, hfind⟩ := info_findStays (group.funcs.foldl noteFunc (s.dsts.foldl flood s))
  obtain ⟨_, _, _, _, _, _, hmarked⟩ := marked_foldl_flood s
  unfold conclude
  dsimp only
  rw [hfind, info_foldl_noteFunc, hmarked]
  exact Info.states_foldl_setState _ group.funcs .noted

theorem extends_start (run : Run) (group : Group) : run.program.Extends (start run group).program :=
  run.program.extends_addNode _

end Flow

theorem Run.Follows.analyzeGroup {p : Program} {groups : List Group} {group : Group} {run run' : Run}
    (hrun : run.Follows p groups) (h : analyzeGroup group run = .ok () run') :
    run'.Follows p (groups ++ [group]) := by
  obtain ⟨s, hs, rfl⟩ := analyzeGroup_eq_ok h
  have hstarts := Flow.starts_recorded hs
  have hnodes := Flow.nodes_conclude s group
  have hfuncs := Flow.renoted_conclude s group
  refine ⟨(Flow.closed_recorded hs hrun.closed).renoted hnodes hfuncs, ?_, ?_, fun f => ?_, ?_⟩
  · exact ((hrun.nodes.trans (Flow.extends_start run group)).trans hstarts.frame.nodes).trans (.of_nodes_eq hnodes)
  · exact hrun.types.trans (Flow.types_conclude s group ▸ hstarts.frame.types)
  · have hfunc : s.program.func f = run.program.func f := hstarts.frame.func f
    exact (hrun.funcs f).trans (hfunc ▸ hfuncs f)
  · rw [Flow.states_conclude, hstarts.states, Flow.states_start, hrun.states, List.reverse_append, List.flatMap_append]
    simp [Group.steps]

theorem follows_groups {p : Program} {done groups : List Group} {run run' : Run} (hrun : run.Follows p done)
    (h : groups.forM analyzeGroup run = .ok () run') : run'.Follows p (done ++ groups) :=
  groups_induct (motive := fun done _ run => run.Follows p done) (fun _ => Run.Follows.analyzeGroup) rfl hrun h

theorem forM_analyzeGroup_eq_error {groups : List Group} {run run' : Run} {e : EscapeError}
    (h : groups.forM analyzeGroup run = .error e run') :
    ∃ before group after mid s, groups = before ++ group :: after ∧ before.forM analyzeGroup run = .ok () mid ∧
      group.funcs.forM Flow.recordFunc (Flow.start mid group) = .error e s := by
  obtain ⟨before, group, after, mid, hgroups, hbefore, hgroup⟩ := forM_groups_eq_error h
  obtain ⟨s, hs, _⟩ := analyzeGroup_eq_error hgroup
  exact ⟨before, group, after, mid, s, hgroups, hbefore, hs⟩

/-! ## Faults -/

namespace Program

variable {p : Program}

theorem confines_below (hp : p.Closed) (funcs : List FuncId) : p.Confines fun n => ∃ f ∈ funcs, p.Below f n := by
  rintro q hq n ⟨f, hf, hn⟩ m hm
  exact (hq.part (hp.below hn) hm).imp_left fun hm => ⟨f, hf, hn.part hm⟩

theorem target_of_calleeOf {n : NodeId} {f : FuncId} (h : p.calleeOf n = some f) : p.target n = some f := by
  unfold target
  split
  · exact h
  · exact h
  all_goals
    unfold calleeOf at h
    cases hl : (p.node n).left <;> simp_all

theorem mem_decls_of_isGroupCandidate {f : FuncId} (h : p.isGroupCandidate f = true) : f ∈ p.decls := by
  unfold isGroupCandidate at h
  rw [Bool.and_eq_true] at h
  simp only [decls, List.mem_filter, List.mem_map, List.mem_range]
  exact ⟨⟨f.index, Flow.lt_size_of_hasBody h.2, rfl⟩, h.1⟩

theorem mem_decls_of_mem_groups {group : Group} (hG : group ∈ p.groups) {f : FuncId} (hf : f ∈ group.funcs) :
    f ∈ p.decls :=
  CallGraph.mem_of_grouped ⟨group, hG, hf⟩

/-- What a function of the group calls is in the group or in an earlier one. -/
theorem grouped_of_calls {before after : List Group} {group : Group} (hgroups : p.groups = before ++ group :: after)
    {f callee : FuncId} (hf : f ∈ group.funcs) (hcalls : (CallGraph.ofProgram p p.decls).Calls f callee) :
    callee ∈ group.funcs ∨ ∃ G ∈ before, callee ∈ G.funcs := by
  have hbuilt := CallGraph.built_groups (CallGraph.closed_ofProgram p p.decls)
  rw [show (CallGraph.ofProgram p p.decls).groups = _ from hgroups] at hbuilt
  obtain ⟨_, _, hcloses⟩ := hbuilt.closes
  exact hcloses.callees f hf callee hcalls

theorem grouped_of_calleeOf {before after : List Group} {group : Group} (hp : p.Closed)
    (hgroups : p.groups = before ++ group :: after) {f callee : FuncId} (hf : f ∈ group.funcs) {n : NodeId}
    (hn : p.Below f n) (hcallee : p.calleeOf n = some callee) (hdecl : callee ∈ p.decls) :
    callee ∈ group.funcs ∨ ∃ G ∈ before, callee ∈ G.funcs := by
  have hmem : group ∈ p.groups := by simp [hgroups]
  exact grouped_of_calls hgroups hf
    (calls_of_target hp (mem_decls_of_mem_groups hmem hf) hn (target_of_calleeOf hcallee) hdecl)

end Program

namespace Run.Follows

variable {p : Program} {before after : List Group} {group : Group} {run : Run} (hrun : run.Follows p before)
  (hp : p.Closed) (hacyclic : p.Acyclic) (hgroups : p.groups = before ++ group :: after)

include hrun hp hacyclic hgroups

/-- What a function of the group calls has made a step by now. -/
theorem callee_known {A : Area} {fs : List FuncId} {s : Flow} (hs : Flow.Starts A fs (Flow.start run group) s) {n : NodeId}
    (hn : ∃ f ∈ group.funcs, p.Below f n) {callee : FuncId} (hcallee : s.program.calleeOf n = some callee)
    (hcandidate : s.program.isGroupCandidate callee = true) : s.info.state callee ≠ .unknown := by
  obtain ⟨f, hf, hbelow⟩ := hn
  have hmem : group ∈ p.groups := by simp [hgroups]
  have hnodes := (hrun.nodes.trans (Flow.extends_start run group)).trans hs.frame.nodes
  rw [hnodes.calleeOf hp (hp.below hbelow)] at hcallee
  have hdecl : callee ∈ p.decls := by
    refine Program.mem_decls_of_isGroupCandidate ?_
    have hfunc : s.program.func callee = run.program.func callee := hs.frame.func callee
    rw [Program.isGroupCandidate, hfunc, (hrun.funcs callee).rest] at hcandidate
    exact hcandidate
  have hcalls := Program.calls_of_below hp hacyclic (Program.mem_decls_of_mem_groups hmem hf) hbelow
    (Program.target_of_calleeOf hcallee) hdecl
  have hstates := hs.states
  rw [Flow.states_start, hrun.states] at hstates
  have hall : ∀ x ∈ s.info.states, x.2 ≠ .unknown := by
    intro x hx
    rw [hstates, List.mem_append, List.mem_append, List.mem_flatMap] at hx
    rcases hx with hx | hx | ⟨G, _, hx⟩
    · obtain ⟨_, _, rfl⟩ := List.mem_map.1 hx
      simp
    · obtain ⟨_, _, rfl⟩ := List.mem_map.1 hx
      simp
    · exact (Group.mem_steps.1 hx).2
  rcases Program.grouped_of_calls hgroups hf hcalls with hc | ⟨G, hG, hc⟩
  · refine Info.state_ne_unknown (s := .planned) ?_ hall
    rw [hstates]
    simp [hc]
  · refine Info.state_ne_unknown (s := .noted) ?_ hall
    rw [hstates]
    refine List.mem_append_right _ (List.mem_append_right _ (List.mem_flatMap.2 ⟨G, List.mem_reverse.2 hG, ?_⟩))
    exact Group.mem_steps.2 ⟨hc, by simp⟩

/-- The recording of a group takes no function twice, and finds a call bound only if it met the call twice. -/
theorem fault {e : EscapeError} {s : Flow} (h : group.funcs.forM Flow.recordFunc (Flow.start run group) = .error e s) :
    (∀ f, e ≠ .repeatedFunc f) ∧ ∀ n, e = .graphInconsistency n → 2 ≤ s.calls.count n ∧
      ∀ callee, s.program.calleeOf n = some callee → s.program.isGroupCandidate callee = true →
        s.info.state callee ≠ .unknown := by
  have hconfines := (Program.confines_below hp group.funcs).extends
    (hrun.nodes.trans (Flow.extends_start run group))
  have hbody : ∀ f ∈ group.funcs, ∀ m ∈ ((Flow.start run group).program.func f).body.getD [],
      ∃ f ∈ group.funcs, p.Below f m := by
    intro f hf m hm
    change m ∈ (run.program.func f).body.getD [] at hm
    rw [(hrun.funcs f).rest] at hm
    exact ⟨f, hf, m, hm, .refl⟩
  have hnodup := (Program.nodup_groups hgroups).1
  have hplanned : ∀ f ∈ group.funcs, (Flow.start run group).info.state f = .planned := by
    intro f hf
    rw [Flow.state_start, if_pos hf]
  obtain ⟨fs, hstarts, hblames⟩ := Flow.starts_funcs_error (Flow.refs_start_all run group hrun.closed _) hconfines
    hbody hnodup hplanned h
  refine ⟨fun f hf => ?_, fun n hn => ?_⟩
  · rw [hf] at hblames
    exact hblames
  · rw [hn] at hblames
    obtain ⟨hbelow, htwice⟩ := hblames
    have hknown : ∀ callee, s.program.calleeOf n = some callee → s.program.isGroupCandidate callee = true →
        s.info.state callee ≠ .unknown :=
      fun _ => callee_known hrun hp hacyclic hgroups hstarts hbelow
    refine ⟨htwice.resolve_right ?_, hknown⟩
    rintro ⟨callee, hcallee, hcandidate, hstate⟩
    exact hknown callee hcallee hcandidate hstate

end Run.Follows

/-! ## All groups -/

theorem history_of_mem {p : Program} {done rest : List Group} {run : Run} (hrun : run.Follows p done)
    (hgroups : p.groups = done ++ rest) {group : Group} (hgroup : group ∈ done) {f : FuncId} (hf : f ∈ group.funcs) :
    run.info.history f = [.planned, .started, .noted] := by
  obtain ⟨before, after, rfl⟩ := List.append_of_mem hgroup
  rw [List.append_assoc, List.cons_append] at hgroups
  obtain ⟨hnodup, hother⟩ := Program.nodup_groups hgroups
  obtain ⟨hbefore, hafter⟩ := hother f hf
  have hstates := hrun.states
  rw [List.reverse_append, List.reverse_cons, List.flatMap_append, List.flatMap_append] at hstates
  rw [Info.history, hstates, List.filter_append, List.filter_append,
    filter_steps_of_not_mem fun G hG => hafter G (List.mem_append_left _ (List.mem_reverse.1 hG)),
    filter_steps_of_not_mem fun G hG => hbefore G (List.mem_reverse.1 hG),
    List.flatMap_singleton, group.filter_steps hnodup hf]
  rfl

theorem history_of_mem_group {p : Program} {run : Run} (hrun : run.Follows p p.groups) {group : Group}
    (hgroup : group ∈ p.groups) {f : FuncId} (hf : f ∈ group.funcs) :
    run.info.history f = [.planned, .started, .noted] :=
  history_of_mem hrun (List.append_nil _).symm hgroup hf

theorem history_of_not_mem {p : Program} {groups : List Group} {run : Run} (hrun : run.Follows p groups) {f : FuncId}
    (hf : ∀ G ∈ groups, f ∉ G.funcs) : run.info.history f = [] := by
  rw [Info.history, hrun.states, filter_steps_of_not_mem fun G hG => hf G (List.mem_reverse.1 hG)]
  rfl

theorem Program.not_mem_groups_of_imported {p : Program} {f : FuncId} (hf : (p.func f).imported = true) :
    ∀ G ∈ p.groups, f ∉ G.funcs := by
  intro G hG hmem
  have hdecl := Program.mem_decls_of_mem_groups hG hmem
  simp [Program.decls, hf] at hdecl

/-- No function is recorded twice. If a call is found to be bound, then the recording of one group met it twice, and
its callee was in a group. If the analysis comes to its end, then the functions of the groups, and no others, were
planned, started and noted, once each. -/
theorem functions_progress_once (config : Config) (observer : Observer) {p : Program} (hp : p.Closed)
    (hacyclic : p.Acyclic) :
    (∀ f, (escapesWith config observer p).result ≠ .error (.repeatedFunc f)) ∧
    (∀ n, (escapesWith config observer p).result = .error (.graphInconsistency n) →
      ∃ before group after run s, p.groups = before ++ group :: after ∧
        before.forM analyzeGroup { program := p, config, observer } = .ok () run ∧
        group.funcs.forM Flow.recordFunc (Flow.start run group) = .error (.graphInconsistency n) s ∧
        2 ≤ s.calls.count n ∧
        ∀ callee, s.program.calleeOf n = some callee → s.program.isGroupCandidate callee = true →
          s.info.state callee ≠ .unknown) ∧
    ∀ info, (escapesWith config observer p).result = .ok info →
      (∀ group ∈ p.groups, ∀ f ∈ group.funcs,
        info.history f = [.planned, .started, .noted] ∧ info.state f = .noted) ∧
      (∀ f, (∀ group ∈ p.groups, f ∉ group.funcs) → info.history f = [] ∧ info.state f = .unknown) ∧
      ∀ f, (p.func f).imported = true → info.history f = [] ∧ info.state f = .unknown := by
  have hstart := follows_nil hp config observer
  have herror {e : EscapeError} (he : (escapesWith config observer p).result = .error e) :
      ∃ before group after run s, p.groups = before ++ group :: after ∧
        before.forM analyzeGroup { program := p, config, observer } = .ok () run ∧
        group.funcs.forM Flow.recordFunc (Flow.start run group) = .error e s ∧ run.Follows p before := by
    unfold escapesWith at he
    split at he
    · cases he
    · rename_i hrun
      cases he
      obtain ⟨before, group, after, run, s, hgroups, hbefore, hs⟩ := forM_analyzeGroup_eq_error hrun
      exact ⟨before, group, after, run, s, hgroups, hbefore, hs, follows_groups hstart hbefore⟩
  refine ⟨fun f hf => ?_, fun n hn => ?_, fun info hinfo => ?_⟩
  · obtain ⟨before, group, after, run, s, hgroups, _, hs, hrun⟩ := herror hf
    exact (hrun.fault hp hacyclic hgroups hs).1 f rfl
  · obtain ⟨before, group, after, run, s, hgroups, hbefore, hs, hrun⟩ := herror hn
    exact ⟨before, group, after, run, s, hgroups, hbefore, hs, (hrun.fault hp hacyclic hgroups hs).2 n rfl⟩
  · obtain ⟨run, hrun, _, rfl⟩ := escapesWith_eq_ok hinfo
    have hfollows : run.Follows p p.groups := follows_groups hstart hrun
    have hnone {f : FuncId} (hf : ∀ group ∈ p.groups, f ∉ group.funcs) :
        run.info.history f = [] ∧ run.info.state f = .unknown := by
      have hhistory := history_of_not_mem hfollows hf
      exact ⟨hhistory, by rw [Info.state_eq_getLast, hhistory]; rfl⟩
    refine ⟨fun group hgroup f hf => ?_, fun f => hnone, fun f hf => hnone (Program.not_mem_groups_of_imported hf)⟩
    have hhistory := history_of_mem_group hfollows hgroup hf
    exact ⟨hhistory, by rw [Info.state_eq_getLast, hhistory]; rfl⟩

/-- `func same(p *int64) *int64 { return p }` and `func relay(p *int64) { g = same(p); log(p) }`, where `log` is
imported. With `again`, the node of the first call is a statement of `relay` once more. -/
def relaySteps (again : Bool) : List Script.Step :=
  [.type "P" (.ptr (.named "int64")), .global "g" "P" "g",
    .importFunc { name := "log", params := [{ name := "p", ty := "P" }] } "log",
    .func { name := "same", params := [{ name := "p", ty := "P" }], results := [(none, "P")] } "same",
    .func { name := "relay", params := [{ name := "p", ty := "P" }] } "relay",
    .define (.key "same") [.form (.ret [.param 0])],
    .define (.key "relay")
      ([.form (.assign (.ref (.key "g")) (.bind "call" (.call (.key "same") [.param 0] false))),
        .form (.exprStmt (.call (.key "log") [.param 0] false))] ++
        if again then [.form (.exprStmt (.ref (.key "call")))] else [])]

def relayProgram (again : Bool) : Program := (Script.sessionOf (relaySteps again)).program

theorem closed_relayProgram (again : Bool) : (relayProgram again).Closed :=
  (Script.wellFormed_of_run (Script.run_eq_sessionOf (by cases again <;> decide +kernel))).refs

theorem acyclic_relayProgram (again : Bool) : (relayProgram again).Acyclic := by
  refine Program.acyclic_of_older ?_
  cases again <;> decide +kernel

/-- The functions with bodies are noted and the imported one is left alone; and the analysis stops at the call that is
met twice. -/
theorem functions_progress_relay :
    (∃ info, (escapes (relayProgram false)).result = .ok info ∧
      info.history ⟨2⟩ = [.planned, .started, .noted] ∧ info.state ⟨0⟩ = .unknown) ∧
    ∃ before group after run s, (relayProgram true).groups = before ++ group :: after ∧
      before.forM analyzeGroup { program := relayProgram true } = .ok () run ∧
      group.funcs.forM Flow.recordFunc (Flow.start run group) = .error (.graphInconsistency ⟨7⟩) s ∧
      2 ≤ s.calls.count ⟨7⟩ := by
  have hfalse := functions_progress_once default .silent (closed_relayProgram false) (acyclic_relayProgram false)
  have htrue := functions_progress_once default .silent (closed_relayProgram true) (acyclic_relayProgram true)
  refine ⟨?_, ?_⟩
  · obtain ⟨info, hinfo⟩ := Script.exists_eq_ok (x := (escapes (relayProgram false)).result) (by decide +kernel)
    obtain ⟨hgroups, _, himported⟩ := hfalse.2.2 info hinfo
    exact ⟨info, hinfo, (hgroups ⟨[⟨2⟩], false⟩ (by decide +kernel) ⟨2⟩ (by decide)).1,
      (himported ⟨0⟩ (by decide +kernel)).2⟩
  · obtain ⟨before, group, after, run, s, hgroups, hbefore, hs, htwice, _⟩ :=
      htrue.2.1 ⟨7⟩ (Script.eq_error_of_faultOf (by decide +kernel))
    exact ⟨before, group, after, run, s, hgroups, hbefore, hs, htwice⟩

end EscapeAnalysis

import EscapeAnalysis.Proofs.Analysis.Returns
import EscapeAnalysis.Proofs.Recording.LoopDepths
import EscapeAnalysis.Proofs.Recording.Tours

/-!
# Loop depths in every analysis

Between groups no local variable is above depth 0, so the graph of each group starts as a walk needs it. The loop depth
at a stop of the walk of a function is then known from the nodes above the stop and from the labels passed before it.

* `Run.Grounded` : the depths of local variables between groups;
* `Flow.based_start` : the graph of a group when its recording starts;
* `Program.DeepSince` : the depths of what is marked and of what was declared at the stops of a log;
* `loop_depth_of_stops` : the loop depth at every stop of a walk, and the depths when the flood starts.
-/

namespace EscapeAnalysis

/-! ## Groups -/

def Run.Grounded (run : Run) : Prop := ∀ n, (run.program.node n).isNameOf .auto = true → 0 ≤ run.info.depth n

theorem grounded_nil (p : Program) (config : Config) (observer : Observer) :
    Run.Grounded { program := p, config, observer } := by
  intro n _
  rw [show ({} : Info).depth n = 0 from Table.get_empty n.index]

namespace Flow

variable {p : Program} {groups : List Group} {run : Run}

/-- The sink is a global name, and nothing is marked yet. -/
theorem deep_start (hrun : run.Grounded) (group : Group) : (start run group).Deep := by
  refine ⟨fun x hx => absurd hx (Array.not_mem_empty x), fun n hn => ?_⟩
  rw [program_start, Program.node_addNode] at hn
  split at hn
  · cases hn
  · rename_i hne
    obtain ⟨_, hinfo⟩ := info_start run group
    rw [hinfo]
    change 0 ≤ (run.info.setDepth ⟨run.program.nodes.size⟩ (-1)).depth n
    rw [depth_setDepth, if_neg]
    · exact hrun n hn
    · rintro rfl
      exact hne rfl

theorem based_start (hrun : run.Follows p groups) (hdepth : run.Grounded) (group : Group) :
    Based p (start run group) :=
  ⟨hrun.nodes.trans (extends_start run group), refs_start_all run group hrun.closed _,
    fun f => (hrun.funcs f).body, deep_start hdepth group⟩

end Flow

theorem Run.Grounded.analyzeGroup {p : Program} (hp : p.Closed) {groups : List Group} {group : Group} {run run' : Run}
    (hrun : run.Follows p groups) (hdepth : run.Grounded) (h : analyzeGroup group run = .ok () run') :
    run'.Grounded := by
  obtain ⟨s, hs, rfl⟩ := analyzeGroup_eq_ok h
  have hbased := (Flow.based_start hrun hdepth group).recorded hp hs
  intro n hn
  have hnode : (s.conclude group).program.node n = s.program.node n := by
    unfold Program.node
    rw [s.nodes_conclude group]
  rw [hnode] at hn
  rw [s.depth_conclude group]
  exact hbased.deep.auto n hn

theorem grounded_groups {p : Program} (hp : p.Closed) {done groups : List Group} {run run' : Run}
    (hrun : run.Follows p done) (hdepth : run.Grounded) (h : groups.forM analyzeGroup run = .ok () run') :
    run'.Grounded :=
  (groups_induct (motive := fun done _ run => run.Follows p done ∧ run.Grounded)
    (fun _ hrun hgroup => ⟨hrun.1.analyzeGroup hgroup, hrun.2.analyzeGroup hp hrun.1 hgroup⟩) rfl ⟨hrun, hdepth⟩ h).2

/-! ## The stops of a walk -/

/-- What is marked, and what was declared at the stops of the log, is at depth 1 or deeper. -/
def Program.DeepSince (p : Program) (log : List Stop) (s : Flow) : Prop :=
  (∀ x ∈ s.pending, 1 ≤ s.info.depth x.1) ∧
    ∀ stop ∈ log, ∀ var ∈ p.declared (p.node stop.node), 1 ≤ s.info.depth var

theorem Flow.Standing.deepSince {p : Program} {b s : Flow} {path : List Above} {log : List Stop}
    (h : Flow.Standing p b path s log) : p.DeepSince log s :=
  ⟨fun x hx => (h.deep.pending x hx).2.2, h.declared⟩

section Stops

variable {p : Program} {b s : Flow} {f : FuncId} (hp : p.Closed) (h : Flow.Based p s)
  (hb : Flow.enterBody f (s.startFunc f) = .ok () b)
include hp h hb

/-- The loop depth at a stop, and how deep all is that was marked or declared before it. -/
theorem Flow.Based.stop {later earlier : List Stop} {stop : Stop}
    (he : b.walkStops ((p.func f).body.getD []) = later ++ stop :: earlier) :
    (p.LabelsOnce ((p.func f).body.getD []) → stop.state.depth =
      1 + p.loops stop.path + (earlier.countP fun st => b.loopsBack (p.node st.node) : Nat)) ∧
    1 ≤ stop.state.depth ∧ p.DeepSince earlier stop.state := by
  obtain ⟨hready, hdepth, hdeep, hbody⟩ := h.ready hp hb
  have hstood : Flow.Stood p b (b.walkStops ((p.func f).body.getD [])) :=
    (Flow.logs_walkBody hready hdeep hbody).walkStops fun _ _ hwent => hwent.2.2
  have hstand := hstood later stop earlier he
  refine ⟨fun hlabels => ?_, hstand.depth_pos hready.depth, hstand.deepSince⟩
  have hnodup := Flow.nodup_passed_walkStops hready hlabels hbody
  rw [he] at hnodup
  rw [← hdepth]
  have hearlier : earlier.Sublist (later ++ stop :: earlier) :=
    (List.sublist_cons_self stop earlier).trans (List.sublist_append_right later _)
  exact hstand.depth_eq (hnodup.sublist (hearlier.filterMap _))

theorem Flow.Based.toured (hbare : p.Bare) : p.Toured (b.walkStops ((p.func f).body.getD [])) := by
  obtain ⟨hready, _, _, hbody⟩ := h.ready hp hb
  exact Flow.toured_walkStops hready hbare hbody

/-- The end of the walk: it has been everywhere. -/
theorem Flow.Based.walked (hbare : p.Bare) {t : Flow} (ht : Flow.walkBody ((p.func f).body.getD []) b = .ok () t) :
    StopsAt (b.walkStops ((p.func f).body.getD [])) [] ((p.func f).body.getD []) ∧
      p.DeepSince (b.walkStops ((p.func f).body.getD [])) t := by
  obtain ⟨hready, _, hdeep, hbody⟩ := h.ready hp hb
  exact ⟨Flow.stopsAt_walkStops hready hbare hbody ht, (Flow.went_walkBody hready hdeep hbody ht).2.1.deepSince⟩

end Stops

/-- Let the recording come to a function of a program that a script built. When the function is entered, the walk of its
body follows; it stops at a node after it has been to the parts of the node, and if it comes to its end, it has been to
all statements. At each stop the loop depth is 1, and one more for each loop that the stop is inside of, and for each
label passed that the scan found to loop, if no label is twice in the body. It is never less than 1, nor is the depth of
what is marked and of the variables that are declared. The end of the function leaves the depth and the current function
that were there before. When the flood starts, the sink of the group is at depth -1, inputs are at depth 1 and outputs
at depth 0. -/
theorem loop_depth_of_stops {steps : List Script.Step} {session : Script.Session}
    (hsteps : Script.run steps = .ok session) {config : Config} {observer : Observer} {before : List Group} {run : Run}
    (hrun : before.forM analyzeGroup { program := session.program, config, observer } = .ok () run)
    {group : Group} {done rest : List FuncId} {f : FuncId} (hfuncs : group.funcs = done ++ f :: rest) {s : Flow}
    (hs : done.forM Flow.recordFunc (Flow.start run group) = .ok () s) {body : List NodeId}
    (hbody : (session.program.func f).body.getD [] = body) :
    (∀ b, Flow.enterBody f (s.startFunc f) = .ok () b →
      Flow.recordBody f (s.startFunc f) = Flow.walkBody body b ∧
      Flow.Erases (Flow.walkBodyLog body) (Flow.walkBody body) ∧ session.program.Toured (b.walkStops body) ∧
      (∀ (later : List Stop) (stop : Stop) (earlier : List Stop), b.walkStops body = later ++ stop :: earlier →
        (session.program.LabelsOnce body → stop.state.depth = 1 + session.program.loops stop.path +
          (earlier.countP fun st => b.loopsBack (session.program.node st.node) : Nat)) ∧
        1 ≤ stop.state.depth ∧ session.program.DeepSince earlier stop.state) ∧
      ∀ t, Flow.walkBody body b = .ok () t →
        StopsAt (b.walkStops body) [] body ∧ session.program.DeepSince (b.walkStops body) t) ∧
    (∀ t, Flow.recordFunc f s = .ok () t → t.depth = s.depth ∧ t.curfn = s.curfn) ∧
    ∀ t, group.funcs.forM Flow.recordFunc (Flow.start run group) = .ok () t →
      t.info.depth t.sink = -1 ∧ (∀ x ∈ t.pending, 1 ≤ t.info.depth x.1) ∧
      ∀ n ∈ (session.program.func f).decls,
        ((session.program.node n).cls = .param → t.info.depth n = 1) ∧
        ((session.program.node n).cls = .result → t.info.depth n = 0) := by
  have hwf := Script.wellFormed_of_run hsteps
  have hlocal := Script.isFormedIn_of_run hsteps
  have hbare : session.program.Bare := (Script.drafted_of_run hsteps).bare
  generalize session.program = p at *
  subst hbody
  have hfollows := follows_groups (follows_nil hwf.refs config observer) hrun
  have hgrounded := grounded_groups hwf.refs (follows_nil hwf.refs config observer) (grounded_nil _ _ _) hrun
  have hstart := Flow.based_start hfollows hgrounded group
  have hbased := hstart.recorded hwf.refs hs
  refine ⟨fun b hb => ⟨?_, Flow.erases_walkBodyLog _, hbased.toured hwf.refs hb hbare,
    fun later stop earlier => hbased.stop hwf.refs hb, fun t ht => hbased.walked hwf.refs hb hbare ht⟩,
    fun t ht => ?_, fun t ht => ⟨?_, ?_, fun n hn => ?_⟩⟩
  · rw [Flow.recordBody_of_enterBody hb]
    exact congrArg (fun body => Flow.walkBody (body.getD []) b) (hbased.body f)
  · obtain ⟨_, _, _, _, rfl⟩ := Flow.recordFunc_eq_ok ht
    exact ⟨rfl, rfl⟩
  · have hstarts := Flow.starts_recorded_all ht hfollows.closed
    rw [hstarts.frame.sink, hstarts.steps.depth_of_not_node (fun hne => hne rfl), Flow.depth_sink_start]
  · exact fun x hx => ((hstart.recorded hwf.refs ht).deep.pending x hx).2.2
  · have hf : f ∈ group.funcs := by
      rw [hfuncs]
      exact List.mem_append_right _ List.mem_cons_self
    refine ⟨fun hcls => ?_, fun hcls => ?_⟩
    · rw [Program.atHome_of_follows hwf hlocal hfollows ht hf hn (Or.inl hcls), hcls]
      rfl
    · rw [Program.atHome_of_follows hwf hlocal hfollows ht hf hn (Or.inr hcls), hcls]
      rfl

/-- `func nest(p *int64) (r *int64) { again: for { var x int64; p = &x }; if 1 {} else { for range "" { p, r = r, p } };
r = new(int64); goto again }` -/
def nestSteps : List Script.Step :=
  [.type "P" (.ptr (.named "int64")),
    .func { name := "nest", params := [{ name := "p", ty := "P" }], results := [(some "r", "P")] } "nest",
    .define (.key "nest")
      [.form (.label "again"),
        .form (.forStmt none
          [.form (.declare "x" "int64" "x"), .form (.assign (.param 0) (.addr (.ref (.key "x"))))]),
        .form (.ifStmt (.int 1) []
          [.form (.rangeStmt none none (.str "") [.form (.assignMany [.param 0, .result 0] [.result 0, .param 0])])]),
        .form (.assign (.result 0) (.new "int64")), .form (.goto "again")]]

def nestProgram : Program := (Script.sessionOf nestSteps).program

def nestGroup : Group := ⟨[⟨0⟩], false⟩

def nestBody : List NodeId := (nestProgram.func ⟨0⟩).body.getD []

/-- The graph when the walk of the body starts. -/
def nestEntered : Flow :=
  match Flow.enterBody ⟨0⟩ ((Flow.start { program := nestProgram } nestGroup).startFunc ⟨0⟩) with
  | .ok _ b => b
  | .error _ b => b

theorem labelsOnce_nestBody : nestProgram.LabelsOnce nestBody :=
  Program.labelsOnce_of_not_cycle
    (fun _ _ n _ => Program.not_cycle_of_rank
      (fun n => if n = ⟨9⟩ then 17 else if n = ⟨3⟩ ∨ n = ⟨11⟩ then 16 else n.index) (by decide +kernel) n)
    (by decide +kernel)

/-- The address of `x` is taken after the label, inside of the first loop, and the values are swapped inside of the other
one; the label still counts where the walk has left the loops. -/
theorem loop_depth_of_stops_nestSteps :
    (∃ later stop earlier, nestEntered.walkStops nestBody = later ++ stop :: earlier ∧
      (nestProgram.node stop.node).op = .addr ∧ stop.state.depth = 1 + 1 + 1) ∧
    (∃ later stop earlier, nestEntered.walkStops nestBody = later ++ stop :: earlier ∧
      (nestProgram.node stop.node).op = .assignMany ∧ stop.state.depth = 1 + 1 + 1) ∧
    (∃ later stop earlier, nestEntered.walkStops nestBody = later ++ stop :: earlier ∧
      (nestProgram.node stop.node).op = .new ∧ stop.state.depth = 1 + 0 + 1) ∧
    (nestProgram.firstGraph nestGroup).info.depth ⟨0⟩ = 1 ∧ (nestProgram.firstGraph nestGroup).info.depth ⟨1⟩ = 0 := by
  have hentered : Flow.enterBody ⟨0⟩ ((Flow.start { program := nestProgram } nestGroup).startFunc ⟨0⟩) =
      .ok () nestEntered := by
    have hok : (EStateM.run' (Flow.enterBody ⟨0⟩)
        ((Flow.start { program := nestProgram } nestGroup).startFunc ⟨0⟩)).isSome = true := by decide +kernel
    unfold EStateM.run' EStateM.run at hok
    unfold nestEntered
    cases he : Flow.enterBody ⟨0⟩ ((Flow.start { program := nestProgram } nestGroup).startFunc ⟨0⟩) with
    | ok _ b => rfl
    | error e b =>
      rw [he] at hok
      cases hok
  obtain ⟨hwalk, _, hflood⟩ := loop_depth_of_stops
    (show Script.run nestSteps = .ok (Script.sessionOf nestSteps) from Script.run_eq_sessionOf (by decide +kernel))
    (show ([] : List Group).forM analyzeGroup { program := nestProgram } = .ok () { program := nestProgram } from rfl)
    (show nestGroup.funcs = [] ++ ⟨0⟩ :: [] from rfl)
    (show ([] : List FuncId).forM Flow.recordFunc (Flow.start { program := nestProgram } nestGroup) = .ok () _ from rfl)
    (show (nestProgram.func ⟨0⟩).body.getD [] = nestBody from rfl)
  have hsplit (i : Fin (nestEntered.walkStops nestBody).length) : nestEntered.walkStops nestBody =
      (nestEntered.walkStops nestBody).take i ++
        (nestEntered.walkStops nestBody).get i :: (nestEntered.walkStops nestBody).drop (i + 1) := by
    rw [List.get_eq_getElem, List.getElem_cons_drop, List.take_append_drop]
  have hdepth (i : Fin (nestEntered.walkStops nestBody).length) :=
    ((hwalk nestEntered hentered).2.2.2.1 _ _ _ (hsplit i)).1 labelsOnce_nestBody
  have hhome := (hflood _ (Program.forM_eq_firstGraph (by decide +kernel))).2.2
  refine ⟨⟨_, _, _, hsplit ⟨15, by decide +kernel⟩, by decide +kernel, ?_⟩,
    ⟨_, _, _, hsplit ⟨6, by decide +kernel⟩, by decide +kernel, ?_⟩,
    ⟨_, _, _, hsplit ⟨2, by decide +kernel⟩, by decide +kernel, ?_⟩,
    (hhome ⟨0⟩ (by decide +kernel)).1 (by decide +kernel), (hhome ⟨1⟩ (by decide +kernel)).2 (by decide +kernel)⟩
  all_goals
    rw [hdepth]
    decide +kernel

end EscapeAnalysis

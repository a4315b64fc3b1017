import EscapeAnalysis.Proofs.Analysis.Notes
import EscapeAnalysis.Proofs.Flood.Inputs
import EscapeAnalysis.Proofs.Groups.BottomUp
import EscapeAnalysis.Proofs.Recording.Walks

/-!
# Runs of the analysis

What holds between the groups of an analysis. References stay in range, so that the sink of a group is a node that
nothing refers to; and a result has the word of the heap only if it was moved there.

* `Run.Sound` : what holds of a well-formed program before and after each group;
* `Run.Advances run run'` : what a group leaves of the nodes and of the moved variables;
* `Flow.refs_start` : what the empty graph of a group refers to;
* `sound_analyzeGroup`, `sound_groups` : one group, and several;
* `func_of_not_mem_groups` : groups leave the functions of other groups as they are.
-/

namespace EscapeAnalysis

/-! ## Between groups -/

structure Run.Sound (run : Run) : Prop where
  wellFormed : run.program.WellFormed
  moved : ∀ n, (run.program.node n).isNameOf .result = true → run.info.word n = .plain .heap → n ∈ run.info.moved

/-- Nodes stay, up to what a recording writes to them, and what is moved stays so. -/
structure Run.Advances (run run' : Run) : Prop where
  size_le : run.program.nodes.size ≤ run'.program.nodes.size
  node : ∀ n, n.index < run.program.nodes.size → (run.program.node n).SameBut (run'.program.node n)
  moved : ∀ n ∈ run.info.moved, n ∈ run'.info.moved

theorem Run.Advances.refl (run : Run) : run.Advances run := ⟨Nat.le_refl _, fun _ _ => .refl _, fun _ h => h⟩

theorem Run.Advances.trans {r₁ r₂ r₃ : Run} (h₁ : r₁.Advances r₂) (h₂ : r₂.Advances r₃) : r₁.Advances r₃ :=
  ⟨Nat.le_trans h₁.size_le h₂.size_le,
    fun n hn => (h₁.node n hn).trans (h₂.node n (Nat.lt_of_lt_of_le hn h₁.size_le)),
    fun n hn => h₂.moved n (h₁.moved n hn)⟩

theorem sound_start {p : Program} (h : p.WellFormed) (c : Config) (o : Observer) :
    Run.Sound { program := p, config := c, observer := o } := by
  refine ⟨h, fun n _ hw => ?_⟩
  rw [show ({} : Info).word n = .plain .unknown from Table.get_empty n.index] at hw
  cases hw

namespace Flow

/-! ## The start of a group -/

theorem program_start (run : Run) (group : Group) :
    (start run group).program = (run.program.addNode { op := .name, sym := some ".sink", cls := .global }).2 := rfl

theorem sink_start (run : Run) (group : Group) : (start run group).sink = ⟨run.program.nodes.size⟩ := rfl

theorem sink_lt_start (run : Run) (group : Group) :
    (start run group).sink.index < (start run group).program.nodes.size := by
  simp [start, Program.addNode]

theorem node_sink_start (run : Run) (group : Group) :
    (start run group).program.node (start run group).sink = { op := .name, sym := some ".sink", cls := .global } := by
  rw [program_start, sink_start, Program.node_addNode, if_pos rfl]

theorem info_foldl_setState (funcs : List FuncId) (info : Info) (state : FuncState) :
    ∃ states, funcs.foldl (fun info f => info.setState f state) info = { info with states } := by
  induction funcs generalizing info with
  | nil => exact ⟨info.states, rfl⟩
  | cons f funcs ih =>
    obtain ⟨states, h⟩ := ih (info.setState f state)
    exact ⟨states, h⟩

theorem info_start (run : Run) (group : Group) :
    ∃ states, (start run group).info = { run.info.setDepth ⟨run.program.nodes.size⟩ (-1) with states } :=
  info_foldl_setState group.funcs _ .planned

theorem depth_sink_start (run : Run) (group : Group) : (start run group).info.depth (start run group).sink = -1 := by
  obtain ⟨_, h⟩ := info_start run group
  rw [h, sink_start]
  exact Table.get_set_self _ _ _

theorem state_foldl_setState (funcs : List FuncId) (info : Info) (state : FuncState) (f : FuncId) :
    (funcs.foldl (fun info f => info.setState f state) info).state f = if f ∈ funcs then state else info.state f := by
  induction funcs generalizing info with
  | nil => rfl
  | cons g funcs ih =>
    rw [List.foldl_cons, ih]
    by_cases hf : f ∈ funcs
    · rw [if_pos hf, if_pos (List.mem_cons_of_mem _ hf)]
    · rw [if_neg hf]
      by_cases he : f = g
      · rw [he, if_pos List.mem_cons_self, Info.state_setState_self]
      · rw [if_neg (by simp [he, hf]), Info.state_setState_of_ne _ _ he]

theorem state_start (run : Run) (group : Group) (f : FuncId) :
    (start run group).info.state f = if f ∈ group.funcs then .planned else run.info.state f :=
  state_foldl_setState group.funcs _ .planned f

section Refs

variable {A : Area} {run : Run} {group : Group}

/-- An area that is closed under references has all that the empty graph refers to. -/
theorem refs_start (hfresh : ∀ n : NodeId, run.program.nodes.size < n.index → A.node n ∧ A.stand n)
    (hclosed : A.closed → run.program.Closed)
    (hnode : ∀ n, A.node n → ∀ m ∈ (run.program.node n).refs, A.node m)
    (hfunc : ∀ f, A.func f → ∀ m ∈ (run.program.func f).refs, A.node m)
    (hcaptured : ∀ n, A.node n → (run.program.node n).op = .closure → ∀ f, (run.program.node n).func = some f →
      ∀ name ∈ (run.program.func f).captures, ∀ var, (run.program.node name).origin = some var → A.node var)
    (houtputs : ∀ f, A.func f → ∀ result ∈ (run.program.func f).results, ∀ n, result.name = some n → A.stand n)
    (hstates : ∀ f, run.info.state f = .planned ∨ run.info.state f = .started → A.func f)
    (hgroup : ∀ f ∈ group.funcs, A.func f) : (start run group).Refs A := by
  have hvalid {m : NodeId} (hm : A.node m) (href : run.program.Refers m) : (start run group).Valid A m := by
    refine ⟨hm, fun h => Nat.lt_of_lt_of_le (hclosed h m href) ?_⟩
    simp [start, Program.addNode]
  -- The sink refers to nothing, and the other nodes are those of the program.
  have hrefs {n m : NodeId} (hm : m ∈ ((start run group).program.node n).refs) :
      (start run group).program.node n = run.program.node n := by
    rw [program_start, Program.node_addNode] at hm ⊢
    split at hm
    · simp [Node.refs, Node.children] at hm
    · rename_i hn
      rw [if_neg hn]
  have horigin {n m : NodeId} (hm : ((start run group).program.node n).origin = some m) :
      (run.program.node n).origin = some m := by
    rwa [hrefs (Node.mem_refs_origin hm)] at hm
  refine ⟨fun n hn => hfresh n ?_, fun n hn m hm => ?_, fun f hf m hm => hvalid (hfunc f hf m hm) (Or.inr ⟨f, hm⟩),
    fun n hn hop f hf name hname var hvar => ?_, houtputs, fun i m hm => ?_, fun i m hm => ?_, fun m hm => ?_,
    fun n hn => absurd (Table.get_empty n.index) hn, fun f hf => ?_, fun f hf => ?_⟩
  · simpa [start, Program.addNode, Nat.succ_le_iff] using hn
  · have he := hrefs hm
    rw [he] at hm
    exact hvalid (hnode n hn.1 m hm) (Or.inl ⟨n, hm⟩)
  · have he : (start run group).program.node n = run.program.node n := by
      rw [program_start, Program.node_addNode] at hop ⊢
      split at hop
      · cases hop
      · rename_i hn
        rw [if_neg hn]
    rw [he] at hop hf
    have hvar := horigin hvar
    exact hvalid (hcaptured n hn.1 hop f hf name hname var hvar) (Or.inl ⟨name, Node.mem_refs_origin hvar⟩)
  · rw [show (start run group).results.get i = [] from Table.get_empty i] at hm
    simp at hm
  · rw [show (start run group).sources.get i = #[] from Table.get_empty i] at hm
    simp at hm
  · simp [start] at hm
  · rw [state_start] at hf
    split at hf
    · rename_i hmem
      exact hgroup f hmem
    · exact hstates f hf
  · cases hf

variable (run group)

theorem refs_start_any : (start run group).Refs .any := by
  refine refs_start ?_ ?_ ?_ ?_ ?_ ?_ ?_ ?_ <;> simp [Area.any]

theorem refs_start_all (h : run.program.Closed) (walk : NodeId → Prop) :
    (start run group).Refs (.all (start run group).sink walk) := by
  have hne {m : NodeId} (hm : run.program.Refers m) : m ≠ (start run group).sink := by
    rintro rfl
    exact Nat.lt_irrefl _ (h _ hm)
  refine refs_start (fun n hn => ⟨?_, trivial⟩) (fun _ => h) (fun n _ m hm => hne (Or.inl ⟨n, hm⟩))
    (fun f _ m hm => hne (Or.inr ⟨f, hm⟩))
    (fun _ _ _ _ _ name _ var hvar => hne (Or.inl ⟨name, Node.mem_refs_origin hvar⟩)) (fun _ _ _ _ _ _ => trivial)
    (fun _ _ => trivial) fun _ _ => trivial
  rintro rfl
  exact Nat.lt_irrefl _ hn

end Refs

/-! ## The flood of a group -/

theorem marked_foldl_flood (s : Flow) : Marked s (s.dsts.foldl flood s) := by
  rw [foldl_flood]
  exact marked_foldl_follow s s.visits

/-! ## The end of a group -/

theorem info_findStays (s : Flow) : ∃ report, s.findStays = { s with info := { s.info with report } } := by
  unfold findStays
  split
  · rw [← Array.foldl_toList]
    generalize s.pending.toList = pending
    induction pending generalizing s with
    | nil => exact ⟨s.info.report, rfl⟩
    | cons x pending ih =>
      rw [List.foldl_cons]
      dsimp only
      split
      · obtain ⟨report, h⟩ := ih (s.find (.stays x.1 x.2)) (by assumption)
        exact ⟨report, h⟩
      · exact ih s (by assumption)
  · exact ⟨s.info.report, rfl⟩

/-- Concluding a group floods its graph and writes notes; the rest is reports and states. -/
theorem conclude_eq (s : Flow) (group : Group) :
    (s.conclude group).program = (group.funcs.foldl noteFunc (s.dsts.foldl flood s)).program ∧
    (s.conclude group).info.moved = (s.dsts.foldl flood s).info.moved ∧
    ∀ n, (s.conclude group).info.word n = (s.dsts.foldl flood s).info.word n := by
  obtain ⟨_, hfind⟩ := info_findStays (group.funcs.foldl noteFunc (s.dsts.foldl flood s))
  obtain ⟨_, hnoted⟩ := (noted_foldl_noteFunc (s.dsts.foldl flood s) group.funcs).info
  unfold conclude
  dsimp only
  rw [hfind, hnoted]
  exact ⟨rfl, rfl, fun _ => rfl⟩

theorem nodes_conclude (s : Flow) (group : Group) : (s.conclude group).program.nodes = s.program.nodes := by
  rw [(conclude_eq s group).1, (noted_foldl_noteFunc _ group.funcs).nodes, (marked_foldl_flood s).program]

theorem node_conclude (s : Flow) (group : Group) (n : NodeId) : (s.conclude group).program.node n = s.program.node n := by
  unfold Program.node
  rw [nodes_conclude]

theorem types_conclude (s : Flow) (group : Group) : (s.conclude group).program.types = s.program.types := by
  rw [(conclude_eq s group).1, (noted_foldl_noteFunc _ group.funcs).types, (marked_foldl_flood s).program]

theorem depth_conclude (s : Flow) (group : Group) (n : NodeId) :
    (s.conclude group).info.depth n = s.info.depth n := by
  obtain ⟨_, hfind⟩ := info_findStays (group.funcs.foldl noteFunc (s.dsts.foldl flood s))
  obtain ⟨_, hnoted⟩ := (noted_foldl_noteFunc (s.dsts.foldl flood s) group.funcs).info
  unfold conclude
  dsimp only
  rw [hfind, hnoted, ← (marked_foldl_flood s).depth]
  rfl

theorem renoted_conclude (s : Flow) (group : Group) (f : FuncId) :
    (s.program.func f).Renoted ((s.conclude group).program.func f) := by
  rw [(conclude_eq s group).1, ← (marked_foldl_flood s).program]
  exact (noted_foldl_noteFunc _ group.funcs).funcs f

/-- The flood writes no function, and notes are written to the functions of the group. -/
theorem func_conclude (s : Flow) {group : Group} {f : FuncId} (hf : f ∉ group.funcs) :
    (s.conclude group).program.func f = s.program.func f := by
  rw [(conclude_eq s group).1, func_foldl_noteFunc_of_not_mem _ hf, (marked_foldl_flood s).program]

section Recorded

variable {run : Run} {group : Group} {s : Flow}
  (hs : group.funcs.forM recordFunc (start run group) = .ok () s)
include hs

theorem starts_recorded : Starts .any group.funcs.reverse (start run group) s :=
  starts_funcs (refs_start_any run group) (Program.confines_true _) (fun _ _ _ _ => trivial) hs

theorem frame_recorded : Frame (start run group) s := (starts_recorded hs).frame

omit hs in
/-- Also a recording that stops makes changes only. -/
theorem starts_recorded_error (hnodup : group.funcs.Nodup) {e : EscapeError}
    (hs : group.funcs.forM recordFunc (start run group) = .error e s) :
    ∃ fs, Starts .any fs (start run group) s ∧ Blames .any e s :=
  starts_funcs_error (refs_start_any run group) (Program.confines_true _) (fun _ _ _ _ => trivial) hnodup
    (fun f hf => by rw [state_start, if_pos hf]) hs

theorem starts_recorded_all (h : run.program.Closed) :
    Starts (.all (start run group).sink fun _ => True) group.funcs.reverse (start run group) s :=
  starts_funcs (refs_start_all run group h _) (Program.confines_true _) (fun _ _ _ _ => trivial) hs

/-- The references of the graph are those of its program, and the sink has none. -/
theorem closed_recorded (h : run.program.Closed) : s.program.Closed := by
  have hstarts := starts_recorded_all hs h
  have hsink : (s.program.node s.sink).refs = [] := by
    have hlt := sink_lt_start run group
    unfold Node.refs
    rw [hstarts.frame.sink, hstarts.frame.nodes.children hlt (by rw [node_sink_start]; rfl),
      (hstarts.frame.node _ hlt).origin, node_sink_start]
    rfl
  intro m hm
  rcases hm with ⟨n, hm⟩ | ⟨f, hm⟩
  · refine (hstarts.refs.node n ⟨?_, fun _ => ?_⟩ m hm).2 trivial
    · rintro rfl
      rw [← hstarts.frame.sink, hsink] at hm
      exact List.not_mem_nil hm
    · refine Nat.lt_of_not_le fun hle => ?_
      rw [s.program.node_of_size_le hle] at hm
      exact List.not_mem_nil hm
  · exact (hstarts.refs.func f trivial m hm).2 trivial

end Recorded

end Flow

/-! ## Groups -/

theorem analyzeGroup_eq_ok {group : Group} {run run' : Run} (h : analyzeGroup group run = .ok () run') :
    ∃ s, group.funcs.forM Flow.recordFunc (Flow.start run group) = .ok () s ∧ run' = (s.conclude group).toRun := by
  unfold analyzeGroup at h
  cases hs : group.funcs.forM Flow.recordFunc (Flow.start run group) with
  | ok a s =>
    rw [hs] at h
    cases h
    exact ⟨s, rfl, rfl⟩
  | error e s =>
    rw [hs] at h
    cases h

theorem analyzeGroup_eq_error {group : Group} {run run' : Run} {e : EscapeError}
    (h : analyzeGroup group run = .error e run') :
    ∃ s, group.funcs.forM Flow.recordFunc (Flow.start run group) = .error e s ∧ run' = s.toRun := by
  unfold analyzeGroup at h
  split at h
  · cases h
  · rename_i s hs
    cases h
    exact ⟨s, hs, rfl⟩

section Group

variable {run : Run} {group : Group} {s : Flow}
  (hs : group.funcs.forM Flow.recordFunc (Flow.start run group) = .ok () s)

include hs

theorem advances_recorded : run.Advances s.toRun := by
  have hframe := Flow.frame_recorded hs
  have hsize : run.program.nodes.size ≤ (Flow.start run group).program.nodes.size := by
    simp [Flow.start, Program.addNode]
  refine ⟨Nat.le_trans hsize hframe.size_le, fun n hn => ?_, fun n hn => ?_⟩
  · have := hframe.node n (Nat.lt_of_lt_of_le hn hsize)
    rwa [Flow.program_start, Program.node_addNode_of_lt _ _ hn] at this
  · obtain ⟨_, hinfo⟩ := Flow.info_start run group
    rw [hframe.moved, hinfo]
    exact hn

/-- Results are no new nodes, and not the sink. -/
theorem lt_size_of_result {n : NodeId} (hn : (s.program.node n).isNameOf .result = true) :
    n.index < run.program.nodes.size := by
  have hframe := Flow.frame_recorded hs
  obtain ⟨hop, hcls⟩ := Node.isNameOf_iff.1 hn
  have hstart : n.index < (Flow.start run group).program.nodes.size := by
    refine Nat.lt_of_not_le fun hle => ?_
    rw [hframe.new n hle hop] at hcls
    cases hcls
  refine Nat.lt_of_not_le fun hle => ?_
  have heq : n.index = run.program.nodes.size := by
    simp [Flow.start, Program.addNode] at hstart
    omega
  rw [(hframe.node n hstart).cls, Flow.program_start, Program.node_addNode, if_pos heq] at hcls
  cases hcls

theorem func_recorded (f : FuncId) : s.program.func f = run.program.func f := (Flow.frame_recorded hs).func f

theorem advances_concluded : run.Advances (s.conclude group).toRun := by
  have hnodes := Flow.nodes_conclude s group
  refine (advances_recorded hs).trans ⟨Nat.le_of_eq (by rw [hnodes]), fun n _ => ?_, fun n hn => ?_⟩
  · have hnode : (s.conclude group).program.node n = s.program.node n := by
      unfold Program.node
      rw [hnodes]
    rw [hnode]
    exact .refl _
  · rw [(Flow.conclude_eq s group).2.1]
    exact (Flow.marked_foldl_flood s).moved hn

variable (hrun : run.Sound)

include hrun

theorem sound_recorded : s.toRun.Sound := by
  have hframe := Flow.frame_recorded hs
  have hadv := advances_recorded hs
  refine ⟨hrun.wellFormed.of_funcs_eq (Flow.closed_recorded hs hrun.wellFormed.refs) hframe.funcs fun n hn hop => ?_,
    fun n hn hw => ?_⟩
  · have hsame := hadv.node n hn
    exact ⟨hsame.op.trans hop, hsame.curfn, hsame.cls⟩
  have hlt := lt_size_of_result hs hn
  have hsame := hadv.node n hlt
  obtain ⟨hop, hcls⟩ : (run.program.node n).op = .name ∧ (run.program.node n).cls = .result := by
    rw [hsame.isNameOf] at hn
    simpa [Node.isNameOf] using hn
  have hstart : (Flow.start run group).program.node n = run.program.node n := Program.node_addNode_of_lt _ _ hlt
  rw [hframe.word n (by rw [hstart, hop]) (by rw [hstart, hcls]; simp)] at hw
  obtain ⟨_, hinfo⟩ := Flow.info_start run group
  rw [hinfo] at hw
  exact hadv.moved n (hrun.moved n (by rw [← (hadv.node n hlt).isNameOf]; exact hn) hw)

theorem sound_concluded : (s.conclude group).toRun.Sound := by
  have hsound := sound_recorded hs hrun
  have hmarked := Flow.marked_foldl_flood s
  have hnoted := Flow.noted_foldl_noteFunc (s.dsts.foldl Flow.flood s) group.funcs
  obtain ⟨hprogram, hmoved, hword⟩ := Flow.conclude_eq s group
  have hnodes := Flow.nodes_conclude s group
  refine ⟨hsound.wellFormed.renoted hnodes fun f => ?_, fun n hn hw => ?_⟩
  · rw [hprogram, ← hmarked.program]
    exact hnoted.funcs f
  · rw [hmoved]
    refine Flow.heapMoved_foldl_flood (fun m => hsound.moved m) n ?_ (by rw [← hword]; exact hw)
    rw [hmarked.program]
    unfold Program.node at hn ⊢
    rw [← hnodes]
    exact hn

end Group

theorem sound_analyzeGroup {group : Group} {run run' : Run} (hrun : run.Sound)
    (h : analyzeGroup group run = .ok () run') : run'.Sound ∧ run.Advances run' := by
  obtain ⟨s, hs, rfl⟩ := analyzeGroup_eq_ok h
  exact ⟨sound_concluded hs hrun, advances_concluded hs⟩

theorem func_analyzeGroup {group : Group} {run run' : Run} (h : analyzeGroup group run = .ok () run') {f : FuncId}
    (hf : f ∉ group.funcs) : run'.program.func f = run.program.func f := by
  obtain ⟨s, hs, rfl⟩ := analyzeGroup_eq_ok h
  rw [Flow.func_conclude s hf, func_recorded hs]

theorem forM_cons_eq_ok {group : Group} {groups : List Group} {run run' : Run}
    (h : (group :: groups).forM analyzeGroup run = .ok () run') :
    ∃ mid, analyzeGroup group run = .ok () mid ∧ groups.forM analyzeGroup mid = .ok () run' := by
  change EStateM.bind (analyzeGroup group) (fun _ => groups.forM analyzeGroup) run = _ at h
  unfold EStateM.bind at h
  cases hg : analyzeGroup group run with
  | ok a mid =>
    rw [hg] at h
    exact ⟨mid, rfl, h⟩
  | error e mid =>
    rw [hg] at h
    cases h

/-- The induction along the groups of an analysis, of which those of `done` are analyzed. -/
theorem groups_induct {all : List Group} {motive : List Group → List Group → Run → Prop}
    (step : ∀ {done group groups run run'}, all = done ++ group :: groups → motive done (group :: groups) run →
      analyzeGroup group run = .ok () run' → motive (done ++ [group]) groups run')
    {done groups : List Group} {run run' : Run} (hall : all = done ++ groups) (start : motive done groups run)
    (h : groups.forM analyzeGroup run = .ok () run') : motive all [] run' := by
  induction groups generalizing done run with
  | nil =>
    cases h
    rw [hall, List.append_nil]
    exact start
  | cons group groups ih =>
    obtain ⟨mid, hgroup, hgroups⟩ := forM_cons_eq_ok h
    refine ih ?_ (step hall start hgroup) hgroups
    rw [hall, List.append_assoc, List.singleton_append]

/-- What every group keeps holds after all of them. -/
theorem groups_invariant {P : Run → Prop}
    (step : ∀ {group run run'}, P run → analyzeGroup group run = .ok () run' → P run') {groups : List Group}
    {run run' : Run} (start : P run) (h : groups.forM analyzeGroup run = .ok () run') : P run' :=
  groups_induct (motive := fun _ _ run => P run) (fun _ => step) (List.nil_append groups).symm start h

theorem sound_groups {groups : List Group} {run run' : Run} (hrun : run.Sound)
    (h : groups.forM analyzeGroup run = .ok () run') : run'.Sound ∧ run.Advances run' := by
  refine groups_invariant (P := fun r => r.Sound ∧ run.Advances r) (fun hr hgroup => ?_) ⟨hrun, .refl _⟩ h
  obtain ⟨hsound, hadv⟩ := sound_analyzeGroup hr.1 hgroup
  exact ⟨hsound, hr.2.trans hadv⟩

/-- The functions of other groups are left as they are. -/
theorem func_of_not_mem_groups {groups : List Group} {run run' : Run} (h : groups.forM analyzeGroup run = .ok () run')
    {f : FuncId} (hf : ∀ G ∈ groups, f ∉ G.funcs) : run'.program.func f = run.program.func f := by
  induction groups generalizing run with
  | nil =>
    cases h
    rfl
  | cons group groups ih =>
    obtain ⟨mid, hgroup, hgroups⟩ := forM_cons_eq_ok h
    rw [List.forall_mem_cons] at hf
    rw [ih hgroups hf.2, func_analyzeGroup hgroup hf.1]

theorem forM_append_eq_ok {pre post : List Group} {run run' : Run}
    (h : (pre ++ post).forM analyzeGroup run = .ok () run') :
    ∃ mid, pre.forM analyzeGroup run = .ok () mid ∧ post.forM analyzeGroup mid = .ok () run' := by
  induction pre generalizing run with
  | nil => exact ⟨run, rfl, h⟩
  | cons group pre ih =>
    obtain ⟨mid, hgroup, hgroups⟩ := forM_cons_eq_ok h
    obtain ⟨mid', hpre, hpost⟩ := ih hgroups
    refine ⟨mid', ?_, hpost⟩
    change EStateM.bind (analyzeGroup group) (fun _ => pre.forM analyzeGroup) run = _
    unfold EStateM.bind
    rw [hgroup]
    exact hpre

theorem forM_groups_eq_error {groups : List Group} {run run' : Run} {e : EscapeError}
    (h : groups.forM analyzeGroup run = .error e run') :
    ∃ before group after mid, groups = before ++ group :: after ∧ before.forM analyzeGroup run = .ok () mid ∧
      analyzeGroup group mid = .error e run' := by
  induction groups generalizing run with
  | nil => cases h
  | cons group groups ih =>
    rw [Flow.forM_cons_eq] at h
    split at h
    · rename_i mid hgroup
      obtain ⟨before, G, after, mid', rfl, hbefore, hG⟩ := ih h
      refine ⟨group :: before, G, after, mid', rfl, ?_, hG⟩
      rw [Flow.forM_cons_eq, hgroup]
      exact hbefore
    · rename_i hgroup
      cases h
      exact ⟨[], group, groups, run, rfl, rfl, hgroup⟩

/-! ## Programs -/

/-- The functions of a group are in no other group, and in this one once. -/
theorem Program.nodup_groups {p : Program} {before after : List Group} {group : Group}
    (h : p.groups = before ++ group :: after) : group.funcs.Nodup ∧
      ∀ f ∈ group.funcs, (∀ G ∈ before, f ∉ G.funcs) ∧ ∀ G ∈ after, f ∉ G.funcs := by
  have hnodup := (CallGraph.built_groups (CallGraph.closed_ofProgram p p.decls)).nodup
  rw [show (CallGraph.ofProgram p p.decls).groups = _ from h, List.flatMap_append, List.flatMap_cons,
    List.nodup_append', List.nodup_append'] at hnodup
  obtain ⟨_, ⟨hgroup, _, hafter⟩, hbefore⟩ := hnodup
  refine ⟨hgroup, fun f hf => ⟨fun G hG hfG => ?_, fun G hG hfG => ?_⟩⟩
  · exact hbefore (List.mem_flatMap.2 ⟨G, hG, hfG⟩) (List.mem_append_left _ hf)
  · exact hafter hf (List.mem_flatMap.2 ⟨G, hG, hfG⟩)

theorem Program.nodup_of_mem_groups {p : Program} {group : Group} (h : group ∈ p.groups) : group.funcs.Nodup := by
  obtain ⟨before, after, hgroups⟩ := List.append_of_mem h
  exact (nodup_groups hgroups).1

theorem Program.eq_of_mem_groups {p : Program} {G H : Group} (hG : G ∈ p.groups) (hH : H ∈ p.groups) {f : FuncId}
    (hf : f ∈ G.funcs) (hf' : f ∈ H.funcs) : G = H := by
  obtain ⟨before, after, hgroups⟩ := List.append_of_mem hG
  obtain ⟨hbefore, hafter⟩ := (nodup_groups hgroups).2 f hf
  rw [hgroups, List.mem_append, List.mem_cons] at hH
  rcases hH with hH | hH | hH
  · exact absurd hf' (hbefore H hH)
  · exact hH.symm
  · exact absurd hf' (hafter H hH)

theorem escapesWith_eq_ok {c : Config} {o : Observer} {p : Program} {info : Info}
    (h : (escapesWith c o p).result = .ok info) :
    ∃ run, p.groups.forM analyzeGroup { program := p, config := c, observer := o } = .ok () run ∧
      (escapesWith c o p).program = run.program ∧ info = run.info := by
  unfold escapesWith at h ⊢
  cases hrun : p.groups.forM analyzeGroup { program := p, config := c, observer := o } with
  | ok _ run =>
    rw [hrun] at h
    cases h
    exact ⟨run, rfl, rfl, rfl⟩
  | error e run =>
    rw [hrun] at h
    cases h

theorem escapesWith_eq_error {c : Config} {o : Observer} {p : Program} {e : EscapeError}
    (h : (escapesWith c o p).result = .error e) :
    ∃ run, p.groups.forM analyzeGroup { program := p, config := c, observer := o } = .error e run ∧
      (escapesWith c o p).program = run.program ∧ (escapesWith c o p).kept = run.observer.kept := by
  unfold escapesWith at h ⊢
  cases hrun : p.groups.forM analyzeGroup { program := p, config := c, observer := o } with
  | ok _ run =>
    rw [hrun] at h
    cases h
  | error e' run =>
    rw [hrun] at h
    cases h
    exact ⟨run, rfl, rfl, rfl⟩

/-! ## Graphs of given programs -/

/-- The graph of a group that is the first one. -/
def Program.firstGraph (p : Program) (group : Group) : Flow :=
  match group.funcs.forM Flow.recordFunc (Flow.start { program := p } group) with
  | .ok _ s => s
  | .error _ s => s

theorem Program.forM_eq_firstGraph {p : Program} {group : Group}
    (h : (EStateM.run' (group.funcs.forM Flow.recordFunc) (Flow.start { program := p } group)).isSome = true) :
    group.funcs.forM Flow.recordFunc (Flow.start { program := p } group) = .ok () (p.firstGraph group) := by
  unfold firstGraph
  unfold EStateM.run' EStateM.run at h
  cases hrun : group.funcs.forM Flow.recordFunc (Flow.start { program := p } group) with
  | ok _ s => rfl
  | error e s =>
    rw [hrun] at h
    cases h

end EscapeAnalysis

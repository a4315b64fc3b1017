import EscapeAnalysis.Proofs.Analysis.Progress
import EscapeAnalysis.Proofs.Flood.Marks

/-!
# What the analysis of a group leaves alone

A group is recorded and flooded within an area: the nodes that its functions refer to, what these refer to, and the
variables that the closures among them capture. Everything else is left as it is, whether the analysis of the group
comes to its end or stops at a fault.

* `Program.Touches p funcs n` : the analysis of a group of `funcs` can come to the node;
* `Program.Owns p funcs n` : the node is below a body of `funcs`, or one of them declares or captures it;
* `Run.Spares T W funcs run run'` : what is left alone outside of the nodes `T`, the calls `W` and the functions `funcs`;
* `spares_analyzeGroup` : the analysis of one group;
* `right_groups` : the calls that got a slice of `...` arguments from the groups so far;
* `Run.Follows.owns_of_touches` : if a group keeps to its closures and shares no call with the groups before it, then
  it comes to what it owns only.
-/

namespace EscapeAnalysis

namespace Flow

variable {A : Area} {s : Flow}

/-! ## Floods within an area -/

/-- A walk goes from a captured name to what it stands for, and from an expression that is no call to a part. -/
theorem operand_cases {p : Program} {l k : Level} {n m : NodeId} (h : p.operand? l n = some (k, m)) :
    (p.node n).op = .name ∧ (p.node n).cls = .captured ∧ (p.node n).origin = some m ∨
      (p.node n).op ≠ .name ∧ (p.node n).op.isCall = false ∧ ((p.node n).left = some m ∨ m ∈ (p.node n).list) := by
  have hmap {part : Option NodeId} {l : Level} (h : part.map (l, ·) = some (k, m)) : part = some m := by
    obtain ⟨x, hx, he⟩ := Option.map_eq_some_iff.1 h
    cases he
    exact hx
  unfold Program.operand? at h
  dsimp only at h
  cases hop : (p.node n).op with
  | name =>
    rw [hop] at h
    dsimp only at h
    split at h
    · rename_i hcls
      exact Or.inl ⟨rfl, hcls, hmap h⟩
    · cases h
  | append =>
    rw [hop] at h
    exact Or.inr ⟨nofun, rfl, Or.inr (List.mem_of_mem_head? (hmap h))⟩
  | ptrLit | addr | restArg | dot | slice | sliceArray | slice3 | slice3Array | sliceString | index | dotPtr | indexMap
  | deref =>
    rw [hop] at h
    exact Or.inr ⟨nofun, rfl, Or.inl (hmap h)⟩
  | _ =>
    rw [hop] at h
    cases h

theorem mem_refs_of_operand {p : Program} {l k : Level} {n m : NodeId} (h : p.operand? l n = some (k, m)) :
    m ∈ (p.node n).refs := by
  rcases operand_cases h with ⟨_, _, h⟩ | ⟨_, _, h | h⟩
  · exact Node.mem_refs_origin h
  · exact Node.mem_refs_left h
  · exact Node.mem_refs_list h

section Refs

variable (hs : s.Refs A)
include hs

theorem Refs.path {dst n : NodeId} {l : Level} (h : s.Path dst l n) : s.Valid A n := by
  induction h with
  | source h => exact hs.sources _ _ h
  | operand _ hx ih => exact hs.node _ ih _ (mem_refs_of_operand hx)
  | flow _ hsrc _ => exact hs.sources _ _ hsrc

theorem Refs.addressed {fuel : Nat} {n var : NodeId} (hn : s.Valid A n)
    (h : s.program.addressed? fuel n = some var) : s.Valid A var := by
  induction fuel generalizing n with
  | zero => cases h
  | succ fuel ih =>
    unfold Program.addressed? at h
    dsimp only at h
    split at h
    · split at h
      · obtain ⟨m, hm, h⟩ := Option.bind_eq_some_iff.1 h
        exact ih (hs.node n hn m (Node.mem_refs_origin hm)) h
      all_goals cases h
      all_goals exact hn
    all_goals try cases h
    all_goals
      obtain ⟨m, hm, h⟩ := Option.bind_eq_some_iff.1 h
      split at h
      · cases h
      · exact ih (hs.node n hn m (Node.mem_refs_left hm)) h

/-- A flood writes words and moves variables within the area. -/
theorem flood_of_not_valid {n : NodeId} (hn : ¬ s.Valid A n) :
    (s.dsts.foldl flood s).info.word n = s.info.word n ∧
      (n ∈ (s.dsts.foldl flood s).info.moved ↔ n ∈ s.info.moved) := by
  refine foldl_flood_induction (P := fun t => t.info.word n = s.info.word n ∧ (n ∈ t.info.moved ↔ n ∈ s.info.moved))
    (fun v hv t u ht hmark h => ?_) ⟨rfl, Iff.rfl⟩
  obtain ⟨_, _, l, hpath, _⟩ := exists_path_of_mem_visits hv
  have hnode := hs.path hpath
  have hword {m : NodeId} (hm : s.Valid A m) (w : Word) : (t.setWord m w).info.word n = t.info.word n :=
    Table.get_set_of_ne _ _ fun e => hn (NodeId.ext e ▸ hm)
  cases hmark with
  | emit => exact h
  | find _ => exact h
  | output _ _ => exact ⟨(hword hnode _).trans h.1, h.2⟩
  | input _ _ _ => exact ⟨(hword hnode _).trans h.1, h.2⟩
  | alloc _ => exact ⟨(hword hnode _).trans h.1, h.2⟩
  | @move x var _ _ hx hvar =>
    rw [ht.program] at hx hvar
    have hvalid := hs.addressed (hs.node _ hnode x (Node.mem_refs_left hx)) hvar
    have hne : n ≠ var := fun e => hn (e ▸ hvalid)
    unfold moveToHeap
    split
    · exact h
    · split
      · exact h
      · refine ⟨(Table.get_set_of_ne _ _ fun e => hne (NodeId.ext e)).trans h.1, ?_⟩
        change n ∈ t.info.moved.push var ↔ _
        rw [Array.mem_push, ← h.2]
        simp [hne]

end Refs

theorem state_conclude (s : Flow) (group : Group) (f : FuncId) :
    (s.conclude group).info.state f = if f ∈ group.funcs then .noted else s.info.state f := by
  rw [Info.state, states_conclude, ← Info.states_foldl_setState, ← Info.state, state_foldl_setState]

end Flow

/-! ## Between groups -/

theorem lookup_map_pair (funcs : List FuncId) (state : FuncState) (f : FuncId) :
    (funcs.map (·, state)).lookup f = if f ∈ funcs then some state else none := by
  induction funcs with
  | nil => rfl
  | cons g funcs ih =>
    rw [List.map_cons, List.lookup_cons, ih]
    by_cases he : f = g
    · simp [he]
    · simp [he, beq_false_of_ne he]

theorem Group.lookup_steps (group : Group) (f : FuncId) :
    group.steps.lookup f = if f ∈ group.funcs then some .noted else none := by
  simp only [steps, List.flatMap_cons, List.flatMap_nil, List.lookup_append, lookup_map_pair, List.mem_reverse]
  split <;> rfl

/-- Between groups a function has its notes, or is in no group so far. -/
theorem Run.Follows.state_eq {p : Program} {groups : List Group} {run : Run} (hrun : run.Follows p groups) (f : FuncId) :
    run.info.state f = .noted ∨ run.info.state f = .unknown := by
  unfold Info.state
  rw [hrun.states]
  induction groups.reverse with
  | nil => exact Or.inr rfl
  | cons G groups ih =>
    rw [List.flatMap_cons, List.lookup_append, G.lookup_steps]
    split
    · exact Or.inl rfl
    · exact ih

/-! ## The area of a group -/

/-- The analysis of a group of `funcs` can come to the node. -/
inductive Program.Touches (p : Program) (funcs : List FuncId) : NodeId → Prop where
  | own {f : FuncId} {n : NodeId} (hf : f ∈ funcs) (hn : n ∈ (p.func f).refs) : Touches p funcs n
  /-- A part of a node, or what a captured name stands for. -/
  | part {n m : NodeId} (hn : Touches p funcs n) (hm : m ∈ (p.node n).refs) : Touches p funcs m
  /-- What the closure of an expression captures. -/
  | captured {n name var : NodeId} {f : FuncId} (hn : Touches p funcs n) (hop : (p.node n).op = .closure)
    (hf : (p.node n).func = some f) (hname : name ∈ (p.func f).captures) (hvar : (p.node name).origin = some var) :
    Touches p funcs var

/-- The area of a group: what it touches, and nodes that were not there before it. -/
def Run.area (run : Run) (group : Group) (walk : NodeId → Prop) : Area where
  node n := n.index ≠ run.program.nodes.size ∧ (n.index < run.program.nodes.size → run.program.Touches group.funcs n)
  func f := f ∈ group.funcs
  walk := walk
  stand n := n.index < run.program.nodes.size → (run.program.node n).op = .name
  closed := True

theorem Flow.refs_start_area {p : Program} {groups : List Group} {run : Run} (hrun : run.Follows p groups) (group : Group)
    (walk : NodeId → Prop)
    (hresults : ∀ f, ∀ result ∈ (run.program.func f).results, ∀ n, result.name = some n → (run.program.node n).op = .name) :
    (start run group).Refs (run.area group walk) := by
  have hmem {m : NodeId} (href : run.program.Refers m) (hm : run.program.Touches group.funcs m) :
      (run.area group walk).node m :=
    ⟨Nat.ne_of_lt (hrun.closed m href), fun _ => hm⟩
  -- A node of the area that refers to something was there before.
  have htouched {n : NodeId} (hn : (run.area group walk).node n)
      (hx : (run.program.node n).refs ≠ [] ∨ (run.program.node n).op ≠ .block) : run.program.Touches group.funcs n := by
    refine hn.2 (Nat.lt_of_not_le fun hle => ?_)
    rw [run.program.node_of_size_le hle] at hx
    exact hx.elim (fun h => h rfl) fun h => h rfl
  refine refs_start (fun n hn => ⟨⟨Nat.ne_of_gt hn, fun hlt => ?_⟩, fun hlt => ?_⟩) (fun _ => hrun.closed)
    (fun n hn m hm => hmem (Or.inl ⟨n, hm⟩) (.part (htouched hn (Or.inl (List.ne_nil_of_mem hm))) hm))
    (fun f hf m hm => hmem (Or.inr ⟨f, hm⟩) (.own hf hm))
    (fun n hn hop f hf name hname var hvar => hmem (Or.inl ⟨name, Node.mem_refs_origin hvar⟩) ?_)
    (fun f _ result hresult n hn _ => hresults f result hresult n hn) (fun f hf => ?_) fun f hf => hf
  · exact absurd hlt (Nat.not_lt.2 (Nat.le_of_lt hn))
  · exact absurd hlt (Nat.not_lt.2 (Nat.le_of_lt hn))
  · exact .captured (htouched hn (Or.inr (by simp [hop]))) hop hf hname hvar
  · rcases hrun.state_eq f with h | h <;> rw [h] at hf <;> simp at hf

/-! ## What is left alone -/

/-- Nodes outside of `T` keep what is known of them, functions outside of `funcs` keep their notes and their progress.
Nodes change only where a call of `W` gets a slice of `...` arguments or marks an argument. -/
structure Run.Spares (T W : NodeId → Prop) (funcs : List FuncId) (run run' : Run) : Prop where
  info : ∀ n, n.index < run.program.nodes.size → ¬ T n → run'.info.word n = run.info.word n ∧
    run'.info.depth n = run.info.depth n ∧ (n ∈ run'.info.moved ↔ n ∈ run.info.moved)
  func : ∀ f, f ∉ funcs → run'.program.func f = run.program.func f ∧ run'.info.state f = run.info.state f
  node : ∀ n, n.index < run.program.nodes.size → (run.program.node n).SameBut (run'.program.node n)
  right : ∀ n, n.index < run.program.nodes.size → (run'.program.node n).right ≠ (run.program.node n).right →
    W n ∧ (run.program.node n).op.isCall = true
  noEscape : ∀ n, n.index < run.program.nodes.size → (run'.program.node n).noEscape ≠ (run.program.node n).noEscape →
    ∃ call, W call ∧ (run.program.node call).op.isCall = true ∧ run.program.IsArgument call n

theorem Run.Spares.mono {T T' W : NodeId → Prop} {funcs : List FuncId} {run run' : Run} (h : run.Spares T W funcs run')
    (hT : ∀ n, T n → T' n) : run.Spares T' W funcs run' :=
  ⟨fun n hn hnot => h.info n hn fun hn => hnot (hT n hn), h.func, h.node, h.right, h.noEscape⟩

namespace Flow

variable {run : Run} {group : Group} {walk : NodeId → Prop} {s : Flow}

theorem node_start_of_lt {n : NodeId} (hn : n.index < run.program.nodes.size) :
    (start run group).program.node n = run.program.node n :=
  Program.node_addNode_of_lt _ _ hn

theorem closed_start (h : run.program.Closed) : (start run group).program.Closed := by
  intro m hm
  rw [program_start] at hm
  rcases Program.refers_addNode hm with hm | hm
  · exact Nat.lt_of_lt_of_le (h m hm) (extends_start run group).size_le
  · simp [Node.refs, Node.children] at hm

/-- What a recording leaves alone. -/
theorem Steps.spares (h : Steps (run.area group walk) (start run group) s) (hclosed : run.program.Closed)
    (hwalk : ∀ n, walk n → n.index < run.program.nodes.size) :
    run.Spares (run.program.Touches group.funcs) walk group.funcs s.toRun := by
  have hframe := h.frame
  have hstart := extends_start run group
  have hlt {n : NodeId} (hn : n.index < run.program.nodes.size) := Nat.lt_of_lt_of_le hn hstart.size_le
  obtain ⟨_, hinfo⟩ := info_start run group
  refine ⟨fun n hn hnot => ?_, fun f hf => ⟨hframe.func f, ?_⟩, fun n hn => ?_, fun n hn hne => ?_, fun n hn hne => ?_⟩
  · have hnode : ¬ (run.area group walk).node n := fun hnode => hnot (hnode.2 hn)
    rw [h.word_of_not_node hnode, h.depth_of_not_node hnode, hframe.moved, hinfo]
    exact ⟨rfl, Table.get_set_of_ne _ _ (Nat.ne_of_lt hn), Iff.rfl⟩
  · rw [h.state_of_not_func hf, state_start, if_neg hf]
  · exact (hstart.node n hn).trans (hframe.node n (hlt hn))
  · rcases h.right (hlt hn) with he | ⟨hin, hcall⟩
    · rw [node_start_of_lt hn] at he
      exact absurd he hne
    · rw [node_start_of_lt hn] at hcall
      exact ⟨hin, hcall⟩
  · have hstand (m : NodeId) (hm : (run.area group walk).stand m) (hmlt : m.index < (start run group).program.nodes.size) :
        ((start run group).program.node m).op = .name := by
      by_cases hmrun : m.index < run.program.nodes.size
      · rw [node_start_of_lt hmrun]
        exact hm hmrun
      · have hsink : m = (start run group).sink := by
          refine NodeId.ext ?_
          rw [sink_start]
          simp [start, Program.addNode] at hmlt
          dsimp only
          omega
        rw [hsink, node_sink_start]
    rcases h.noEscape (closed_start hclosed) (fun m hm => hlt (hwalk m hm)) hstand (hlt hn) with
      he | ⟨call, hin, hcall, arg, harg, fuel, hfuel⟩
    · rw [node_start_of_lt hn] at he
      exact absurd he hne
    · rw [node_start_of_lt (hwalk call hin)] at hcall harg
      refine ⟨call, hin, hcall, arg, harg, fuel, ?_⟩
      rw [← hstart.unwrap hclosed (hclosed arg (Or.inl ⟨call, Node.mem_refs_list harg⟩))]
      exact hfuel

/-- The flood keeps to the area, and notes are written to the functions of the group. -/
theorem Starts.spares_conclude {fs : List FuncId} (h : Starts (run.area group walk) fs (start run group) s)
    (hclosed : run.program.Closed) (hwalk : ∀ n, walk n → n.index < run.program.nodes.size) :
    run.Spares (run.program.Touches group.funcs) walk group.funcs (s.conclude group).toRun := by
  have hspares := h.steps.spares hclosed hwalk
  have hnode := node_conclude s group
  obtain ⟨_, hmoved, hword⟩ := conclude_eq s group
  refine ⟨fun n hn hnot => ?_, fun f hf => ?_, fun n hn => ?_, fun n hn => ?_, fun n hn => ?_⟩
  · obtain ⟨hw, hd, hm⟩ := hspares.info n hn hnot
    obtain ⟨hw', hm'⟩ := flood_of_not_valid h.refs fun hvalid => hnot (hvalid.1.2 hn)
    rw [hword, hmoved, depth_conclude]
    exact ⟨hw'.trans hw, hd, hm'.trans hm⟩
  · obtain ⟨hfunc, hstate⟩ := hspares.func f hf
    rw [func_conclude s hf, state_conclude, if_neg hf]
    exact ⟨hfunc, hstate⟩
  · rw [hnode]
    exact hspares.node n hn
  · rw [hnode]
    exact hspares.right n hn
  · rw [hnode]
    exact hspares.noEscape n hn

end Flow

/-! ## One group -/

/-- The nodes below the bodies of functions. -/
def Program.BelowAny (p : Program) (funcs : List FuncId) (n : NodeId) : Prop := ∃ f ∈ funcs, p.Below f n

section Follows

variable {p : Program} {before : List Group} {group : Group} {run run' : Run} (hrun : run.Follows p before)
  (hp : p.WellFormed) (htidy : p.Tidy)

include hrun hp htidy

theorem Run.Follows.op_of_results {f : FuncId} {result : Param} (hresult : result ∈ (run.program.func f).results)
    {n : NodeId} (hn : result.name = some n) : (run.program.node n).op = .name := by
  rw [(hrun.funcs f).rest] at hresult
  have hdecl := (htidy.results f result hresult n hn).1
  rw [(hrun.nodes.node n (hp.refs n (Or.inr ⟨f, Func.mem_refs_decls hdecl⟩))).op]
  exact (hp.decls f n hdecl).1

/-- The next group starts within its area, and from the bodies of its functions. -/
theorem Run.Follows.area_start (group : Group) : (Flow.start run group).Refs (run.area group (p.BelowAny group.funcs)) ∧
    (Flow.start run group).program.Confines (p.BelowAny group.funcs) ∧
    ∀ f ∈ group.funcs, ∀ m ∈ ((Flow.start run group).program.func f).body.getD [], p.BelowAny group.funcs m := by
  refine ⟨Flow.refs_start_area hrun group (p.BelowAny group.funcs) fun f result hresult n hn =>
      hrun.op_of_results hp htidy hresult hn,
    (Program.confines_below hp.refs group.funcs).extends (hrun.nodes.trans (Flow.extends_start run group)),
    fun f hf m hm => ?_⟩
  change m ∈ (run.program.func f).body.getD [] at hm
  rw [(hrun.funcs f).rest] at hm
  exact ⟨f, hf, m, hm, .refl⟩

theorem Run.Follows.starts_area {s : Flow} (hs : group.funcs.forM Flow.recordFunc (Flow.start run group) = .ok () s) :
    Flow.Starts (run.area group (p.BelowAny group.funcs)) group.funcs.reverse (Flow.start run group) s := by
  obtain ⟨hrefs, hconfines, hbody⟩ := hrun.area_start hp htidy group
  exact Flow.starts_funcs hrefs hconfines hbody hs

/-- What the analysis of the next group leaves alone, whether it stops or not. -/
theorem spares_analyzeGroup (hnodup : group.funcs.Nodup)
    (h : analyzeGroup group run = .ok () run' ∨ ∃ e, analyzeGroup group run = .error e run') :
    run.Spares (run.program.Touches group.funcs) (p.BelowAny group.funcs) group.funcs run' := by
  obtain ⟨hrefs, hconfines, hbody⟩ := hrun.area_start hp htidy group
  have hwalk (n : NodeId) (hn : p.BelowAny group.funcs n) : n.index < run.program.nodes.size := by
    obtain ⟨f, _, hn⟩ := hn
    exact Nat.lt_of_lt_of_le (hp.refs.below hn) hrun.nodes.size_le
  rcases h with h | ⟨e, h⟩
  · obtain ⟨s, hs, rfl⟩ := analyzeGroup_eq_ok h
    exact (hrun.starts_area hp htidy hs).spares_conclude hrun.closed hwalk
  · obtain ⟨s, hs, rfl⟩ := analyzeGroup_eq_error h
    obtain ⟨fs, hstarts, _⟩ := Flow.starts_funcs_error hrefs hconfines hbody hnodup
      (fun f hf => by rw [Flow.state_start, if_pos hf]) hs
    exact hstarts.steps.spares hrun.closed hwalk

/-! ## What a group owns -/

omit hrun hp htidy in
/-- Only calls below the bodies of the groups get a slice of `...` arguments. -/
theorem right_groups (hp : p.WellFormed) (htidy : p.Tidy) {done groups : List Group} {run run' : Run}
    (hrun : run.Follows p done) (h : groups.forM analyzeGroup run = .ok () run')
    (hnodup : ∀ G ∈ groups, G.funcs.Nodup) {n : NodeId} (hn : n.index < p.nodes.size)
    (hne : (run'.program.node n).right ≠ (run.program.node n).right) :
    (∃ G ∈ groups, p.BelowAny G.funcs n) ∧ (p.node n).op.isCall = true := by
  induction groups generalizing done run with
  | nil =>
    cases h
    exact absurd rfl hne
  | cons G groups ih =>
    obtain ⟨mid, hG, hgroups⟩ := forM_cons_eq_ok h
    rw [List.forall_mem_cons] at hnodup
    by_cases hmid : (mid.program.node n).right = (run.program.node n).right
    · rw [← hmid] at hne
      obtain ⟨⟨G', hG', hbelow⟩, hcall⟩ := ih (hrun.analyzeGroup hG) hgroups hnodup.2 hne
      exact ⟨⟨G', List.mem_cons_of_mem _ hG', hbelow⟩, hcall⟩
    · have hlt := Nat.lt_of_lt_of_le hn hrun.nodes.size_le
      obtain ⟨hbelow, hcall⟩ := (spares_analyzeGroup hrun hp htidy hnodup.1 (Or.inl hG)).right n hlt hmid
      rw [(hrun.nodes.node n hn).op] at hcall
      exact ⟨⟨G, List.mem_cons_self, hbelow⟩, hcall⟩

end Follows

/-- The node is below a body of `funcs`, or one of them declares or captures it. -/
def Program.Owns (p : Program) (funcs : List FuncId) (n : NodeId) : Prop :=
  ∃ f ∈ funcs, p.Below f n ∨ n ∈ (p.func f).decls ∨ n ∈ (p.func f).captures

/-- Names that any function may mention: variables of the package, functions and the blank name. -/
def Node.isShared (x : Node) : Bool := x.isNameOf .global || x.isNameOf .func || x.isBlank

theorem Node.op_of_isShared {x : Node} (h : x.isShared = true) : x.op = .name := by
  simp only [isShared, isNameOf, isBlank, Bool.or_eq_true, Bool.and_eq_true, beq_iff_eq] at h
  grind

/-- The closures of a group are its own, and so is what its captured names stand for. -/
structure Program.KeepsClosures (p : Program) (funcs : List FuncId) : Prop where
  closures : ∀ n, p.BelowAny funcs n → (p.node n).op = .closure → ∀ f, (p.node n).func = some f → f ∈ funcs
  captured : ∀ n, p.Owns funcs n → ∀ var, (p.node n).origin = some var → p.Owns funcs var

section Owns

variable {p : Program} {before : List Group} {group : Group} {run : Run} (hrun : run.Follows p before)
  (hp : p.WellFormed) (htidy : p.Tidy)

include htidy

/-- What is owned has its parts below a body, unless it has none. -/
theorem Program.Owns.part {funcs : List FuncId} {n m : NodeId} (hn : p.Owns funcs n) (hm : m ∈ (p.node n).children) :
    p.Owns funcs m := by
  obtain ⟨f, hf, hn | hn | hn⟩ := hn
  · exact ⟨f, hf, Or.inl (hn.part hm)⟩
  · have hrefs := (htidy.decls f n hn).2
    exact absurd (Node.mem_refs_children hm) (by simp [hrefs])
  · rw [(htidy.captures f n hn).2.2] at hm
    exact absurd hm List.not_mem_nil

include hp

theorem Program.owns_of_mem_refs {funcs : List FuncId} {f : FuncId} (hf : f ∈ funcs) {n : NodeId}
    (hn : n ∈ (p.func f).refs) : p.Owns funcs n := by
  refine ⟨f, hf, ?_⟩
  rcases Func.mem_refs.1 hn with ⟨param, hparam, hname⟩ | hbody | hdecl | hcapture
  · rcases List.mem_append.1 hparam with hparam | hparam
    · exact Or.inr (Or.inl (hp.inputs f param hparam n hname).1)
    · exact Or.inr (Or.inl (htidy.results f param hparam n hname).1)
  · exact Or.inl ⟨n, hbody, .refl⟩
  · exact Or.inr (Or.inl hdecl)
  · exact Or.inr (Or.inr hcapture)

omit htidy in
theorem Program.Owns.lt_size {funcs : List FuncId} {n : NodeId} (hn : p.Owns funcs n) : n.index < p.nodes.size := by
  obtain ⟨f, _, hn | hn | hn⟩ := hn
  · exact hp.refs.below hn
  · exact hp.refs n (Or.inr ⟨f, Func.mem_refs_decls hn⟩)
  · exact hp.refs n (Or.inr ⟨f, Func.mem_refs_captures hn⟩)

include hrun

/-- A group that keeps to its closures and shares no call with the groups before it comes to what it owns only. -/
theorem Run.Follows.owns_of_touches (hkeeps : p.KeepsClosures group.funcs)
    (hright : ∀ n, p.Owns group.funcs n → (run.program.node n).right = (p.node n).right) {n : NodeId}
    (h : run.program.Touches group.funcs n) : p.Owns group.funcs n := by
  induction h with
  | own hf hn =>
    rw [(hrun.funcs _).refs] at hn
    exact Program.owns_of_mem_refs hp htidy hf hn
  | @part n m _ hm ih =>
    obtain ⟨right, noEscape, he⟩ := hrun.nodes.node n (ih.lt_size hp)
    have hr := hright n ih
    rw [he] at hm hr
    simp only at hr
    simp only [Node.refs, Node.children, hr] at hm
    rcases List.mem_append.1 hm with hm | hm
    · exact ih.part htidy hm
    · exact hkeeps.captured n ih m (Option.mem_toList.1 hm)
  | @captured n name var f _ hop hf hname hvar ih =>
    have hsame := hrun.nodes.node n (ih.lt_size hp)
    rw [hsame.op] at hop
    rw [hsame.func] at hf
    rw [(hrun.funcs f).rest] at hname
    -- A closure is no name, so it is below a body.
    have hbelow : p.BelowAny group.funcs n := by
      obtain ⟨g, hg, hn | hn | hn⟩ := ih
      · exact ⟨g, hg, hn⟩
      · rw [(hp.decls g n hn).1] at hop
        cases hop
      · have hname := (htidy.captures g n hn).1
        simp [Node.isNameOf, hop] at hname
    have hown : p.Owns group.funcs name := ⟨f, hkeeps.closures n hbelow hop f hf, Or.inr (Or.inr hname)⟩
    rw [(hrun.nodes.node name (hown.lt_size hp)).origin] at hvar
    exact hkeeps.captured name hown var hvar

end Owns

/-! ## Groups of a program -/

/-- The analysis of a group, whether it stops or not, leaves everything alone that it cannot come to, the notes and the
progress of all other functions included. If the group shares no node with the groups before it, apart from names that
all functions share, and keeps to its closures, then it can come only to what is below its bodies, declared or
captured. -/
theorem group_keeps_to_itself {steps : List Script.Step} {session : Script.Session}
    (hsession : Script.run steps = .ok session) (config : Config) (observer : Observer) {before after : List Group}
    {group : Group} {run run' : Run} (hgroups : session.program.groups = before ++ group :: after)
    (hbefore : before.forM analyzeGroup { program := session.program, config, observer } = .ok () run)
    (hgroup : analyzeGroup group run = .ok () run' ∨ ∃ e, analyzeGroup group run = .error e run') :
    run.Spares (run.program.Touches group.funcs) (session.program.BelowAny group.funcs) group.funcs run' ∧
    ((∀ G ∈ before, ∀ n, session.program.BelowAny G.funcs n → session.program.BelowAny group.funcs n →
        (session.program.node n).isShared = true) →
      session.program.KeepsClosures group.funcs →
      run.Spares (session.program.Owns group.funcs) (session.program.BelowAny group.funcs) group.funcs run') := by
  have hp := Script.wellFormed_of_run hsession
  have htidy := Script.tidy_of_run hsession
  have hstart := follows_nil hp.refs config observer
  have hrun : run.Follows session.program before := follows_groups hstart hbefore
  have hspares := spares_analyzeGroup hrun hp htidy (Program.nodup_groups hgroups).1 hgroup
  refine ⟨hspares, fun hdisjoint hkeeps => hspares.mono fun n hn => hrun.owns_of_touches hp htidy hkeeps ?_ hn⟩
  intro m hm
  by_contra hne
  have hnodup : ∀ G ∈ before, G.funcs.Nodup := fun G hG =>
    Program.nodup_of_mem_groups (hgroups ▸ List.mem_append_left _ hG)
  obtain ⟨⟨G, hG, hbelow⟩, hcall⟩ := right_groups hp htidy hstart hbefore hnodup (hm.lt_size hp) hne
  -- A call is no name, so it is below a body of the group and of an earlier one.
  have hop : (session.program.node m).op = .name := by
    obtain ⟨f, hf, hm | hm | hm⟩ := hm
    · exact Node.op_of_isShared (hdisjoint G hG m hbelow ⟨f, hf, hm⟩)
    · exact (hp.decls f m hm).1
    · exact (Node.isNameOf_iff.1 (htidy.captures f m hm).1).1
  rw [hop] at hcall
  cases hcall

/-- `func o() { var v int64; c := func() { v = 1 }; c() }` and `func g() { var x int64; ptr = &x }`, where one of the two
has the closure and stores it: with `lent` it is `g`. -/
def lendSteps (lent : Bool) : List Script.Step :=
  let store : Script.Action := .form (.assign (.ref (.key "keep")) (.ref (.key "closure")))
  [.type "P" (.ptr (.named "int64")), .type "F" (.func [] [] false), .global "keep" "F" "keep",
    .global "ptr" "P" "ptr", .func { name := "o" } "o", .func { name := "g" } "g",
    .define (.key "o") ([.form (.declare "v" "int64" "v"),
      .form (.bind "closure" (.closure {} [.form (.bind "w" (.capture (.ref (.key "v")) false)),
        .form (.assign (.ref (.key "w")) (.int 1))] (some "c"))),
      .form (.exprStmt (.call (.key "c") [] false))] ++ if lent then [] else [store]),
    .define (.key "g") ([.form (.declare "x" "int64" "x"),
      .form (.assign (.ref (.key "ptr")) (.addr (.ref (.key "x"))))] ++ if lent then [store] else [])]

def lendSession (lent : Bool) : Script.Session := Script.sessionOf (lendSteps lent)

theorem run_lendSteps (lent : Bool) : Script.run (lendSteps lent) = .ok (lendSession lent) :=
  Script.run_eq_sessionOf (by cases lent <;> decide +kernel)

/-! A list of nodes that has the bodies and the parts of its nodes has all nodes below the bodies. -/

section Lists

variable {p : Program} {funcs : List FuncId} (nodes : List NodeId)
  (hbody : ∀ f ∈ funcs, ∀ m ∈ (p.func f).body.getD [], m ∈ nodes)
  (hpart : ∀ k ∈ nodes, ∀ m ∈ (p.node k).children, m ∈ nodes)

include hbody hpart

theorem Program.BelowAny.mem {n : NodeId} (h : p.BelowAny funcs n) : n ∈ nodes := by
  obtain ⟨f, hf, b, hb, hn⟩ := h
  induction hn with
  | refl => exact hbody f hf b hb
  | tail _ hm ih => exact hpart _ ih _ hm

theorem Program.Owns.mem {n : NodeId} (h : p.Owns funcs n) :
    n ∈ nodes ++ funcs.flatMap fun f => (p.func f).decls ++ (p.func f).captures := by
  rw [List.mem_append, List.mem_flatMap]
  obtain ⟨f, hf, hn | hn | hn⟩ := h
  · exact Or.inl (Program.BelowAny.mem nodes hbody hpart ⟨f, hf, hn⟩)
  · exact Or.inr ⟨f, hf, List.mem_append_left _ hn⟩
  · exact Or.inr ⟨f, hf, List.mem_append_right _ hn⟩

theorem Program.keepsClosures_of_nodes
    (hclosures : ∀ n ∈ nodes, (p.node n).op = .closure → (p.node n).func.all (· ∈ funcs) = true)
    (hcaptured : ∀ n ∈ nodes ++ funcs.flatMap fun f => (p.func f).decls ++ (p.func f).captures,
      (p.node n).origin.all (fun var => funcs.any fun f => var ∈ (p.func f).decls ++ (p.func f).captures) = true) :
    p.KeepsClosures funcs := by
  refine ⟨fun n hn hop f hf => ?_, fun n hn var hvar => ?_⟩
  · simpa [hf] using hclosures n (hn.mem nodes hbody hpart) hop
  · have hany := hcaptured n (hn.mem nodes hbody hpart)
    rw [hvar, Option.all_some, List.any_eq_true] at hany
    obtain ⟨f, hf, hmem⟩ := hany
    exact ⟨f, hf, Or.inr (List.mem_append.1 (of_decide_eq_true hmem))⟩

end Lists

/-- What the analysis of a group leaves, whether it stops or not. -/
def Run.after (run : Run) (group : Group) : Run :=
  match analyzeGroup group run with
  | .ok _ run' => run'
  | .error _ run' => run'

def lendStart (lent : Bool) : Run := { program := (lendSession lent).program }

def lendFirst (lent : Bool) : Run := (lendStart lent).after ⟨[⟨2⟩, ⟨0⟩], false⟩

def lendSecond (lent : Bool) : Run := (lendFirst lent).after ⟨[⟨1⟩], false⟩

/-- The analysis of the groups comes to its end. -/
def Run.completes (run : Run) (groups : List Group) : Bool :=
  match groups.forM analyzeGroup run with
  | .ok _ _ => true
  | .error _ _ => false

theorem Run.exists_of_completes {run : Run} {groups : List Group} (h : run.completes groups = true) :
    ∃ run', groups.forM analyzeGroup run = .ok () run' := by
  unfold completes at h
  cases hrun : groups.forM analyzeGroup run with
  | ok u run' => exact ⟨run', rfl⟩
  | error e run' =>
    rw [hrun] at h
    cases h

theorem groups_lendSession (lent : Bool) :
    (lendSession lent).program.groups = [⟨[⟨2⟩, ⟨0⟩], false⟩, ⟨[⟨1⟩], false⟩] := by
  cases lent <;> decide +kernel

theorem analyzeGroup_lend (lent : Bool) :
    analyzeGroup ⟨[⟨2⟩, ⟨0⟩], false⟩ (lendStart lent) = .ok () (lendFirst lent) ∧
    [⟨[⟨2⟩, ⟨0⟩], false⟩].forM analyzeGroup (lendStart lent) = .ok () (lendFirst lent) ∧
    analyzeGroup ⟨[⟨1⟩], false⟩ (lendFirst lent) = .ok () (lendSecond lent) := by
  have hok : (lendStart lent).completes [⟨[⟨2⟩, ⟨0⟩], false⟩, ⟨[⟨1⟩], false⟩] = true := by cases lent <;> decide +kernel
  obtain ⟨_, hrun⟩ := Run.exists_of_completes hok
  obtain ⟨mid, hfirst, hrun⟩ := forM_cons_eq_ok hrun
  obtain ⟨last, hsecond, hrun⟩ := forM_cons_eq_ok hrun
  have hmid : lendFirst lent = mid := by rw [lendFirst, Run.after, hfirst]
  have hlast : lendSecond lent = last := by rw [lendSecond, hmid, Run.after, hsecond]
  rw [hmid, hlast]
  refine ⟨hfirst, ?_, hsecond⟩
  rw [Flow.forM_cons_eq, hfirst]
  rfl

/-- The nodes below the bodies of `o` and its closure, or below the body of `g`. -/
def lendNodes (lent ofG : Bool) : List NodeId :=
  match lent, ofG with
  | false, false => [⟨0⟩, ⟨2⟩, ⟨3⟩, ⟨4⟩, ⟨5⟩, ⟨6⟩, ⟨7⟩, ⟨8⟩, ⟨9⟩, ⟨10⟩]
  | false, true => [⟨1⟩, ⟨11⟩, ⟨12⟩, ⟨13⟩, ⟨14⟩]
  | true, false => [⟨2⟩, ⟨3⟩, ⟨4⟩, ⟨5⟩, ⟨6⟩, ⟨8⟩, ⟨9⟩]
  | true, true => [⟨0⟩, ⟨1⟩, ⟨7⟩, ⟨10⟩, ⟨11⟩, ⟨12⟩, ⟨13⟩, ⟨14⟩]

def lendFuncs (ofG : Bool) : List FuncId := if ofG then [⟨1⟩] else [⟨2⟩, ⟨0⟩]

theorem body_lendNodes (lent ofG : Bool) :
    ∀ f ∈ lendFuncs ofG, ∀ m ∈ ((lendSession lent).program.func f).body.getD [], m ∈ lendNodes lent ofG := by
  cases lent <;> cases ofG <;> decide +kernel

theorem part_lendNodes (lent ofG : Bool) :
    ∀ k ∈ lendNodes lent ofG, ∀ m ∈ ((lendSession lent).program.node k).children, m ∈ lendNodes lent ofG := by
  cases lent <;> cases ofG <;> decide +kernel

theorem not_owns_lend (lent ofG : Bool) {n : NodeId} (hn : n ∉ lendNodes lent ofG ++ (lendFuncs ofG).flatMap fun f =>
    ((lendSession lent).program.func f).decls ++ ((lendSession lent).program.func f).captures) :
    ¬ (lendSession lent).program.Owns (lendFuncs ofG) n :=
  fun h => hn (h.mem _ (body_lendNodes lent ofG) (part_lendNodes lent ofG))

theorem disjoint_lend {lent : Bool} {n : NodeId} (ho : (lendSession lent).program.BelowAny (lendFuncs false) n)
    (hg : (lendSession lent).program.BelowAny (lendFuncs true) n) : ((lendSession lent).program.node n).isShared = true := by
  have hshared : ∀ m ∈ lendNodes lent false, m ∈ lendNodes lent true →
      ((lendSession lent).program.node m).isShared = true := by cases lent <;> decide +kernel
  exact hshared n (ho.mem _ (body_lendNodes lent false) (part_lendNodes lent false))
    (hg.mem _ (body_lendNodes lent true) (part_lendNodes lent true))

theorem keepsClosures_lend (ofG : Bool) : (lendSession false).program.KeepsClosures (lendFuncs ofG) := by
  refine Program.keepsClosures_of_nodes (lendNodes false ofG) (body_lendNodes false ofG) (part_lendNodes false ofG) ?_ ?_
  all_goals cases ofG <;> decide +kernel

/-- The groups leave the variables of each other alone: `o` moves `v` and not `x`, and `v` stays as it is while `g` moves
`x`. -/
theorem spares_lendSession :
    (⟨2⟩ : NodeId) ∈ (lendFirst false).info.moved ∧ (⟨11⟩ : NodeId) ∉ (lendFirst false).info.moved ∧
    (⟨2⟩ : NodeId) ∈ (lendSecond false).info.moved ∧ (⟨11⟩ : NodeId) ∈ (lendSecond false).info.moved := by
  have hmoved : (⟨2⟩ : NodeId) ∈ (lendFirst false).info.moved := by decide +kernel
  obtain ⟨hfirst, hfirst', hsecond⟩ := analyzeGroup_lend false
  have ho := (group_keeps_to_itself (run_lendSteps false) default .silent (groups_lendSession false)
    (show [].forM analyzeGroup _ = .ok () _ from rfl) (Or.inl hfirst)).2 (fun G hG => absurd hG List.not_mem_nil)
    (keepsClosures_lend false)
  have hg := (group_keeps_to_itself (run_lendSteps false) default .silent (groups_lendSession false)
    hfirst' (Or.inl hsecond)).2 (fun G hG n ho hg => ?_) (keepsClosures_lend true)
  · refine ⟨hmoved, ?_, ?_, by decide +kernel⟩
    · rw [(ho.info ⟨11⟩ (by decide +kernel) (not_owns_lend false false (by decide +kernel))).2.2]
      exact Array.not_mem_empty _
    · exact (hg.info ⟨2⟩ (by decide +kernel) (not_owns_lend false true (by decide +kernel))).2.2.2 hmoved
  · rw [List.mem_singleton.1 hG] at ho
    exact disjoint_lend ho hg

/-- If `g` has the closure of `o`, then `v` is moved when `g` is analyzed, although it is not in the body of `g`, the groups
share no nodes and the closure is in the group of `o`. -/
theorem lent_closure_moves_variable :
    (∀ G ∈ (lendSession true).program.groups, ∀ H ∈ (lendSession true).program.groups, G ≠ H →
      ∀ n, (lendSession true).program.BelowAny G.funcs n → (lendSession true).program.BelowAny H.funcs n →
        ((lendSession true).program.node n).isShared = true) ∧
    (∀ f o, ((lendSession true).program.func f).outer = some o →
      ∀ G ∈ (lendSession true).program.groups, f ∈ G.funcs ↔ o ∈ G.funcs) ∧
    ∃ before group after run run' n, (lendSession true).program.groups = before ++ group :: after ∧
      before.forM analyzeGroup { program := (lendSession true).program } = .ok () run ∧
      analyzeGroup group run = .ok () run' ∧ n.index < run.program.nodes.size ∧
      ¬ (lendSession true).program.Owns group.funcs n ∧ n ∉ run.info.moved ∧ n ∈ run'.info.moved := by
  obtain ⟨_, hfirst, hsecond⟩ := analyzeGroup_lend true
  refine ⟨fun G hG H hH hne n hn hn' => ?_, fun f o houter G hG => ?_, [⟨[⟨2⟩, ⟨0⟩], false⟩], ⟨[⟨1⟩], false⟩, [],
    lendFirst true, lendSecond true, ⟨2⟩, groups_lendSession true, hfirst, hsecond, by decide +kernel,
    not_owns_lend true true (by decide +kernel), by decide +kernel, by decide +kernel⟩
  · rw [groups_lendSession, List.mem_pair] at hG hH
    rcases hG with rfl | rfl <;> rcases hH with rfl | rfl
    · exact absurd rfl hne
    · exact disjoint_lend hn hn'
    · exact disjoint_lend hn' hn
    · exact absurd rfl hne
  · have hall : ∀ i < (lendSession true).program.funcs.size, ((lendSession true).program.func ⟨i⟩).outer.all (fun o =>
        (lendSession true).program.groups.all fun G => decide (⟨i⟩ ∈ G.funcs) == decide (o ∈ G.funcs)) = true := by
      decide +kernel
    have hlt : f.index < (lendSession true).program.funcs.size := by
      refine Nat.lt_of_not_le fun hle => ?_
      rw [Program.func_of_size_le _ hle] at houter
      cases houter
    have hf := hall f.index hlt
    rw [houter, Option.all_some, List.all_eq_true] at hf
    simpa using hf G hG

end EscapeAnalysis

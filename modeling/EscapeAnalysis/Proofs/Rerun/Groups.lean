import EscapeAnalysis.Proofs.Analysis.Progress
import EscapeAnalysis.Proofs.Rerun.Floods

/-!
# Groups a second time

The second analysis starts a group with the nodes that the first one had by then, and then those that the first one made
in all. It records the same flows, floods them the same way and writes the same notes: a note that it does not write is
the one that the first analysis left, or found.

* `Func.noted` : what the notes of a group make of a function;
* `Rerun.Echoes R run run'` : the second analysis is between the groups where the first one was;
* `Rerun.Mirrors.conclude` : the end of a group;
* `Rerun.Mirrors.func_conclude` : the notes of a function of the group;
* `Rerun.Between R last rest run run'` : the same, with the notes that the second analysis finds in `last`;
* `Rerun.Between.groups` : one group after the other.
-/

namespace EscapeAnalysis

/-! ## Notes -/

/-- The function with the notes that `note?` gives its inputs; one without a body has those of `promise?` for its
parameters, if it promises not to let them escape. -/
def Func.noted (note? promise? : Param → Option String) (x : Func) : Func :=
  if x.hasBody then { x with recv := x.recv.map (Flow.renote note?), params := x.params.map (Flow.renote note?) }
  else if x.noEscape then { x with params := x.params.map (Flow.renote promise?) } else x

namespace Flow

theorem func_noteFunc (s : Flow) (f : FuncId) :
    (s.noteFunc f).program.func f = (s.program.func f).noted s.noteFor? s.promise? := by
  unfold Func.noted
  cases hbody : (s.program.func f).hasBody with
  | true => exact (rewrites_noteFunc hbody).self
  | false =>
    rw [(rewrites_promise hbody).self, if_neg Bool.false_ne_true]
    by_cases hpromise : (s.program.func f).noEscape = true
    · rw [if_pos hpromise, if_pos hpromise]
    · rw [if_neg hpromise, if_neg hpromise]

theorem func_foldl_noteFunc (s : Flow) {funcs : List FuncId} (hnodup : funcs.Nodup) {f : FuncId} (hf : f ∈ funcs) :
    (funcs.foldl noteFunc s).program.func f = (s.program.func f).noted s.noteFor? s.promise? := by
  induction funcs generalizing s with
  | nil => cases hf
  | cons g funcs ih =>
    rw [List.nodup_cons] at hnodup
    rw [List.foldl_cons]
    rcases List.mem_cons.1 hf with rfl | hf
    · rw [func_foldl_noteFunc_of_not_mem _ hnodup.1, func_noteFunc]
    · have hne : f ≠ g := fun e => hnodup.1 (e ▸ hf)
      obtain ⟨_, hw⟩ := exists_rewrites_noteFunc s g
      rw [ih _ hnodup.2 hf, hw.other f hne, funext hw.noted.noteFor?, funext hw.noted.promise?]

/-- Writing notes leaves the graph alone, and adds no function. -/
theorem noteParams_eq (f : FuncId) (note? : Flow → Param → Option String) (i : Nat) (params : List Param) (s : Flow) :
    ∃ program observer, noteParams f note? i params s = { s with program, observer } ∧
      program.funcs.size = s.program.funcs.size := by
  induction params generalizing i s with
  | nil => exact ⟨_, _, rfl, rfl⟩
  | cons param params ih =>
    unfold noteParams
    cases note? s param with
    | none => exact ih (i + 1) s
    | some note =>
      obtain ⟨program, observer, he, hsize⟩ := ih (i + 1) (s.writeNote f param note (setParam f i))
      exact ⟨program, observer, he, hsize.trans (Program.size_modifyFunc ..)⟩

theorem noteRecv_eq (f : FuncId) (recv : Option Param) (s : Flow) :
    ∃ program observer, noteRecv f recv s = { s with program, observer } ∧
      program.funcs.size = s.program.funcs.size := by
  unfold noteRecv
  split
  · split
    · exact ⟨_, _, rfl, Program.size_modifyFunc ..⟩
    · exact ⟨_, _, rfl, rfl⟩
  · exact ⟨_, _, rfl, rfl⟩

theorem noteFunc_eq (s : Flow) (f : FuncId) :
    ∃ program observer, s.noteFunc f = { s with program, observer, info := s.info.setState f .noted } ∧
      program.funcs.size = s.program.funcs.size := by
  unfold noteFunc
  dsimp only
  split
  · obtain ⟨_, _, hrecv, hsize⟩ := noteRecv_eq f (s.program.func f).recv { s with info := s.info.setState f .noted }
    obtain ⟨program, observer, he, hsize'⟩ := noteParams_eq f noteFor? 0 (s.program.func f).params
      (noteRecv f (s.program.func f).recv { s with info := s.info.setState f .noted })
    rw [hrecv] at he hsize' ⊢
    exact ⟨program, observer, he, hsize'.trans hsize⟩
  · split
    · exact noteParams_eq f _ 0 _ _
    · exact ⟨_, _, rfl, rfl⟩

theorem foldl_noteFunc_eq (s : Flow) (funcs : List FuncId) : ∃ program observer states,
    funcs.foldl noteFunc s = { s with program, observer, info := { s.info with states } } ∧
      program.funcs.size = s.program.funcs.size := by
  induction funcs generalizing s with
  | nil => exact ⟨_, _, s.info.states, rfl, rfl⟩
  | cons f funcs ih =>
    obtain ⟨_, _, hf, hsize⟩ := noteFunc_eq s f
    obtain ⟨program, observer, states, he, hsize'⟩ := ih (s.noteFunc f)
    refine ⟨program, observer, states, he.trans ?_, hsize'.trans ?_⟩
    · rw [hf]
      rfl
    · rw [hf]
      exact hsize

theorem renote_renote {note? : Param → Option String} (h : ∀ param note, note? { param with note } = note? param)
    (param : Param) : renote note? (renote note? param) = renote note? param := by
  cases hn : note? param with
  | none => simp only [renote, hn]
  | some note => simp only [renote, hn, h]

end Flow

namespace Func

variable {note? promise? note?' promise?' : Param → Option String} {x : Func}

/-- Notes that are written again are the same. -/
theorem noted_noted (hnote : ∀ param note, note? { param with note } = note? param)
    (hpromise : ∀ param note, promise? { param with note } = promise? param) :
    (x.noted note? promise?).noted note? promise? = x.noted note? promise? := by
  have hmap {note? : Param → Option String} (h : ∀ param note, note? { param with note } = note? param) :
      Flow.renote note? ∘ Flow.renote note? = Flow.renote note? := funext (Flow.renote_renote h)
  unfold noted
  cases hbody : x.hasBody with
  | true =>
    have hbody' : x.body.isSome = true := hbody
    simp [hasBody, hbody', hmap hnote]
  | false =>
    have hbody' : x.body.isSome = false := hbody
    cases hpr : x.noEscape <;> simp [hasBody, hbody', hpr, hmap hpromise]

theorem noted_congr (h : ∀ param ∈ x.inputs, note?' param = note? param ∧ promise?' param = promise? param) :
    x.noted note?' promise?' = x.noted note? promise? := by
  have hrenote {param : Param} (hparam : param ∈ x.inputs) : Flow.renote note?' param = Flow.renote note? param ∧
      Flow.renote promise?' param = Flow.renote promise? param := by
    unfold Flow.renote
    rw [(h param hparam).1, (h param hparam).2]
    exact ⟨rfl, rfl⟩
  have hrecv : x.recv.map (Flow.renote note?') = x.recv.map (Flow.renote note?) := by
    cases hr : x.recv with
    | none => rfl
    | some recv => rw [Option.map_some, Option.map_some, (hrenote (by simp [inputs, hr])).1]
  have hparams : x.params.map (Flow.renote note?') = x.params.map (Flow.renote note?) ∧
      x.params.map (Flow.renote promise?') = x.params.map (Flow.renote promise?) :=
    ⟨List.map_congr_left fun param hparam => (hrenote (List.mem_append_right _ hparam)).1,
      List.map_congr_left fun param hparam => (hrenote (List.mem_append_right _ hparam)).2⟩
  unfold noted
  rw [hrecv, hparams.1, hparams.2]

end Func

namespace Rerun

variable {R : Rerun} {s t : Flow}

open EscapeAnalysis.Flow

/-- Notes do not count. -/
theorem Copies.renote {a b a' b' : Program} (h : R.Copies a b) (hnodes : a'.nodes = a.nodes) (htypes : a'.types = a.types)
    (hnodes' : b'.nodes = b.nodes) (htypes' : b'.types = b.types) (hfunc : ∀ f, (a.func f).Renoted (a'.func f))
    (hfunc' : ∀ f, (b.func f).Renoted (b'.func f)) : R.Copies a' b' := by
  have hfuncs (f : FuncId) : (a'.func f).Renoted (b'.func f) :=
    (hfunc f).symm.trans ((h.func' f).trans (hfunc' f))
  obtain ⟨⟩ := a
  obtain ⟨⟩ := b
  obtain ⟨⟩ := a'
  obtain ⟨⟩ := b'
  subst hnodes htypes hnodes' htypes'
  exact ⟨h.size, h.nodes.trans (.of_nodes_eq rfl), h.grows, h.grows', h.sound, h.sound', h.node, h.ty, h.right, h.made, h.rights,
    fun f => (h.func f).trans (hfunc f), hfuncs⟩

section Notes

variable (h : R.Mirrors s t)
include h

/-- An input of a function from the start has a name from the start, if any. -/
theorem Mirrors.noteFor? {f : FuncId} {y : Func} (hy : (R.base.func f).Renoted y) {param : Param}
    (hparam : param ∈ y.inputs) :
    t.noteFor? param = s.noteFor? param ∧ t.promise? param = s.promise? param := by
  obtain ⟨old, hold, he⟩ := exists_bare hy.inputs hparam
  have hty : old.bare.ty = param.bare.ty := congrArg Param.ty he
  have hname : old.bare.name = param.bare.name := congrArg Param.name he
  have hpointers : t.program.hasPointers param.ty = s.program.hasPointers param.ty := by
    refine h.program.hasPointers (likes_old ?_ _ _)
    exact fun ty ht => R.drafted.typed.params f old (List.mem_append_left _ hold) ty (hty.trans ht)
  refine ⟨?_, by unfold Flow.promise?; rw [hpointers]⟩
  unfold Flow.noteFor?
  rw [hpointers]
  cases hn : param.name with
  | none => rfl
  | some n =>
    have hword := h.word n
    rw [R.shift_old (R.closed n (Or.inr ⟨f, Func.mem_refs_name (List.mem_append_left _ hold) (hname.trans hn)⟩))] at hword
    dsimp only
    rw [hword]

/-- The second analysis writes the notes of a function again, over those that the first one found or left. -/
theorem Mirrors.func_foldl_noteFunc {funcs : List FuncId} (hnodup : funcs.Nodup) {f : FuncId} (hf : f ∈ funcs)
    (hfunc : t.program.func f = s.program.func f ∨ t.program.func f = (funcs.foldl noteFunc s).program.func f) :
    (funcs.foldl noteFunc t).program.func f = (funcs.foldl noteFunc s).program.func f := by
  have hy := (h.program.func f).trans (h.program.func' f)
  rw [Flow.func_foldl_noteFunc s hnodup hf] at hfunc ⊢
  rw [Flow.func_foldl_noteFunc t hnodup hf, Func.noted_congr fun param hparam => h.noteFor? hy hparam]
  rcases hfunc with hfunc | hfunc
  · rw [hfunc]
  · rw [hfunc]
    exact Func.noted_noted (fun _ _ => rfl) fun _ _ => rfl

/-- The notes of both analyses differ at most in what they were before. -/
theorem Mirrors.foldl_noteFunc (funcs : List FuncId) :
    R.Mirrors (funcs.foldl noteFunc s) (funcs.foldl noteFunc t) := by
  have hs := noted_foldl_noteFunc s funcs
  have ht := noted_foldl_noteFunc t funcs
  have hstates : (funcs.foldl noteFunc t).info.states = (funcs.foldl noteFunc s).info.states := by
    rw [info_foldl_noteFunc, info_foldl_noteFunc, Info.states_foldl_setState, Info.states_foldl_setState, h.states]
  obtain ⟨program, _, states, he, _⟩ := foldl_noteFunc_eq s funcs
  obtain ⟨program', _, states', he', _⟩ := foldl_noteFunc_eq t funcs
  rw [he] at hs hstates ⊢
  rw [he'] at ht hstates ⊢
  exact { h with
    program := h.program.renote hs.nodes hs.types ht.nodes ht.types hs.funcs ht.funcs
    states := hstates }

/-! ## The end of a group -/

theorem Mirrors.findStays (hordered : s.program.Ordered) : R.Mirrors s.findStays t.findStays := by
  unfold Flow.findStays
  rw [h.config]
  split
  · rw [h.pending, ← Array.foldl_toList, ← Array.foldl_toList, Array.toList_map, List.foldl_map]
    generalize s.pending.toList = pending
    induction pending generalizing s t with
    | nil => exact h
    | cons x pending ih =>
      rw [List.foldl_cons, List.foldl_cons]
      dsimp only
      rw [h.word]
      split
      · exact ih (h.found hordered (.stays x.1 x.2)) hordered (by assumption)
      · exact ih h hordered (by assumption)
  · exact h

/-- The second analysis comes to the end of a group as the first does. -/
theorem Mirrors.conclude (hordered : s.program.Ordered) (group : Group) :
    R.Mirrors (s.conclude group) (t.conclude group) := by
  have hnoted := (h.flood hordered).foldl_noteFunc group.funcs
  refine hnoted.findStays fun n m hm => hordered n m ?_
  have hnodes : (group.funcs.foldl noteFunc (s.dsts.foldl Flow.flood s)).program.nodes = s.program.nodes := by
    rw [(noted_foldl_noteFunc _ group.funcs).nodes, (marked_foldl_flood s).program]
  unfold Program.node at hm ⊢
  rwa [hnodes] at hm

theorem Mirrors.func_conclude (hordered : s.program.Ordered) {group : Group} (hnodup : group.funcs.Nodup) {f : FuncId}
    (hf : f ∈ group.funcs)
    (hfunc : t.program.func f = s.program.func f ∨ t.program.func f = (s.conclude group).program.func f) :
    (t.conclude group).program.func f = (s.conclude group).program.func f := by
  rw [(conclude_eq s group).1] at hfunc ⊢
  rw [(conclude_eq t group).1]
  refine (h.flood hordered).func_foldl_noteFunc hnodup hf ?_
  rwa [(marked_foldl_flood s).program, (marked_foldl_flood t).program]

end Notes

/-! ## The start of a group -/

/-- Between groups, the second analysis is where the first one was. -/
structure Echoes (R : Rerun) (run run' : Run) : Prop where
  program : R.Copies run.program run'.program
  word : ∀ n, run'.info.word (R.shift n) = run.info.word n
  depthOf : ∀ n, run'.info.depth (R.shift n) = run.info.depth n
  moved : run'.info.moved = run.info.moved
  old : ∀ n ∈ run.info.moved, n.index < R.base.nodes.size
  states : run'.info.states = run.info.states
  report : run'.info.report = run.info.report
  config : run'.config = run.config

theorem Mirrors.echoes (h : R.Mirrors s t) : R.Echoes s.toRun t.toRun :=
  ⟨h.program, h.word, h.depthOf, h.moved, h.old, h.states, h.report, h.config⟩

theorem Echoes.mirrors_start {run run' : Run} (h : R.Echoes run run') (group : Group) :
    R.Mirrors (start run group) (start run' group) := by
  have hsink : (start run' group).sink = R.shift (start run group).sink := by
    rw [sink_start, sink_start]
    exact h.program.shift_size.symm
  obtain ⟨states, hinfo⟩ := info_start run group
  obtain ⟨states', hinfo'⟩ := info_start run' group
  refine ⟨?_, hsink, rfl, Array.map_empty.symm, fun n => ?_, fun n => ?_, Array.map_empty.symm, rfl, rfl, rfl, fun n => ?_,
    fun n => ?_, ?_, ?_, ?_, ?_, h.config⟩
  · rw [program_start, program_start]
    exact h.program.addNode (.made rfl rfl) .none (Program.made_of_op (by simp)) rfl
  · rw [show (start run group).sources = .empty from rfl, show (start run' group).sources = .empty from rfl,
      Table.get_empty, Table.get_empty]
    exact Array.map_empty.symm
  · rw [show (start run group).results = .empty from rfl, show (start run' group).results = .empty from rfl,
      Table.get_empty, Table.get_empty]
    rfl
  · rw [hinfo, hinfo']
    exact h.word n
  · rw [hinfo, hinfo']
    change (run'.info.depths.set run'.program.nodes.size (-1)).get _ = _
    rw [← show (R.shift ⟨run.program.nodes.size⟩).index = run'.program.nodes.size by rw [h.program.shift_size]]
    exact get_set_shift (f := fun d => d) h.depthOf ⟨run.program.nodes.size⟩ (-1) n
  · rw [hinfo, hinfo']
    exact h.moved
  · rw [hinfo]
    exact h.old
  · rw [states_start, states_start, h.states]
  · rw [hinfo, hinfo']
    exact h.report

end Rerun

/-! ## The order of the parts of expressions -/

namespace Flow

/-- A new expression has parts that are there. -/
theorem ordered_change {A : Area} (hclosed : A.closed) {s t : Flow} (h : Change A s t) (hs : s.program.Ordered) :
    t.program.Ordered := by
  -- A change of a node that is there leaves its parts, as the slice of a call is none of them.
  have hmodify (n : NodeId) (g : Node → Node) (hg : (g (s.program.node n)).inner = (s.program.node n).inner) :
      (s.program.modifyNode n g).Ordered := by
    intro k m hm
    rw [Program.node_modifyNode] at hm
    split at hm
    · rename_i hk
      rw [hg] at hm
      exact hk.1 ▸ hs n m hm
    · exact hs k m hm
  cases h with
  | node x hrefs _ _ =>
    intro k m hm
    rw [Program.node_addNode] at hm
    split at hm
    · rename_i hk
      exact hk ▸ (hrefs m (Node.mem_refs_of_mem_inner hm)).2 hclosed
    · exact hs k m hm
  | right _ hcall _ _ _ => exact hmodify _ _ (by simp [Node.inner, hcall])
  | noEscape => exact hmodify _ _ rfl
  | _ => exact hs

theorem Steps.ordered {A : Area} (hclosed : A.closed) {s t : Flow} (h : Steps A s t) (hs : s.program.Ordered) :
    t.program.Ordered := by
  induction h with
  | refl => exact hs
  | tail _ h ih =>
    cases h with
    | change h => exact ordered_change hclosed h ih
    | start _ | leave _ _ => exact ih

theorem ordered_start {run : Run} (h : run.program.Ordered) (group : Group) : (start run group).program.Ordered := by
  intro k m hm
  rw [program_start, Program.node_addNode] at hm
  split at hm
  · cases hm
  · exact h k m hm

theorem ordered_recorded {run : Run} {group : Group} {s : Flow} (hclosed : run.program.Closed)
    (hordered : run.program.Ordered) (hs : group.funcs.forM recordFunc (start run group) = .ok () s) :
    s.program.Ordered :=
  (starts_recorded_all hs hclosed).steps.ordered trivial (ordered_start hordered group)

theorem ordered_conclude {s : Flow} (hs : s.program.Ordered) (group : Group) : (s.conclude group).program.Ordered := by
  intro k m hm
  have hnode : (s.conclude group).program.node k = s.program.node k := by
    unfold Program.node
    rw [nodes_conclude]
  exact hs k m (hnode ▸ hm)

end Flow

namespace Rerun

variable {R : Rerun}

open EscapeAnalysis.Flow

/-! ## From group to group -/

/-- The second analysis works on `last`, the program that the first one left. Before the groups `rest` it is where the
first one was, but functions of these groups may have their notes already. -/
structure Between (R : Rerun) (last : Program) (rest : List Group) (run run' : Run) : Prop where
  echoes : R.Echoes run run'
  ordered : run.program.Ordered
  noted : ∀ f, run'.program.func f = run.program.func f ∨ run'.program.func f = last.func f
  func : ∀ f, (∀ G ∈ rest, f ∉ G.funcs) → run'.program.func f = run.program.func f

section Step

variable {last : Program} {before after : List Group} {group : Group} {run run' : Run}
  (h : R.Between last (group :: after) run run') (hrun : run.Follows R.base before)
  (hgroups : R.base.groups = before ++ group :: after)
  (hclosures : ∀ f, (R.base.func f).isClosure = true → (R.base.func f).hasBody = true)
include h hrun hgroups hclosures

/-- A callee is in the group and has a body, or both analyses know it by the same notes. -/
theorem Between.knows_start : R.Knows (fun n => ∃ f ∈ group.funcs, R.base.Below f n) (Flow.start run group)
    (Flow.start run' group) := by
  refine ⟨(Program.confines_below R.closed group.funcs).extends (hrun.nodes.trans (extends_start run group)),
    fun n ⟨f, _, hn⟩ => R.closed.below hn, fun n ⟨g, hg, hn⟩ f hf => ?_⟩
  by_cases hlater : ∀ G ∈ group :: after, f ∉ G.funcs
  · exact Or.inr (h.func f hlater)
  · left
    push Not at hlater
    obtain ⟨G, hG, hfG⟩ := hlater
    have hmem : group ∈ R.base.groups := by simp [hgroups]
    have hGgroups : G ∈ R.base.groups := by
      rw [hgroups]
      exact List.mem_append_right _ hG
    have hdecl := Program.mem_decls_of_mem_groups hGgroups hfG
    have hcalls := Program.calls_of_target R.closed (Program.mem_decls_of_mem_groups hmem hg) hn
      (Program.target_of_calleeOf hf) hdecl
    have hbuilt := CallGraph.built_groups (CallGraph.closed_ofProgram R.base R.base.decls)
    rw [show (CallGraph.ofProgram R.base R.base.decls).groups = _ from hgroups] at hbuilt
    obtain ⟨_, _, hcloses⟩ := hbuilt.closes
    have hfgroup : f ∈ group.funcs := by
      refine (hcloses.callees g hg f hcalls).resolve_right fun ⟨K, hK, hfK⟩ => ?_
      obtain ⟨pre, post, rfl⟩ := List.append_of_mem hK
      have hsplit : R.base.groups = pre ++ K :: (post ++ group :: after) := by simp [hgroups]
      exact ((Program.nodup_groups hsplit).2 f hfK).2 G (List.mem_append_right _ hG) hfG
    have hbody : (R.base.func f).hasBody = true := by
      by_contra hnone
      have hnone' : (R.base.func f).body = none := by simpa [Func.hasBody] using hnone
      -- Without a body it calls none, so it is alone in the group and its own caller.
      have hcallees : (CallGraph.ofProgram R.base R.base.decls).callees f = [] := by
        simp [CallGraph.ofProgram, Program.calleesIn_eq, Program.firsts, hnone']
      have hclosure : (CallGraph.ofProgram R.base R.base.decls).isClosure f = false := by
        rw [CallGraph.isClosure_ofProgram hdecl, Bool.eq_false_iff]
        exact fun hcl => hnone (hclosures f hcl)
      have hself := hcloses.eq_of_callees_eq_nil hfgroup hg hcallees hclosure
      rw [CallGraph.Calls, hself, hcallees] at hcalls
      cases hcalls
    have himported : (R.base.func f).imported = false := by
      simpa using (List.mem_filter.1 hdecl).2
    have hrest := (hrun.funcs f).rest
    refine ⟨?_, by rw [state_start, if_pos hfgroup]; simp⟩
    change (!(run.program.func f).imported && (run.program.func f).hasBody) = true
    unfold Func.hasBody at hbody ⊢
    rw [hrest, himported, hbody]
    rfl

theorem Between.analyzeGroup {next : Run} (hnext : analyzeGroup group run = .ok () next)
    (hlast : ∀ f ∈ group.funcs, last.func f = next.program.func f) :
    ∃ next', EscapeAnalysis.analyzeGroup group run' = .ok () next' ∧ R.Between last after next next' ∧
      ∀ f ∈ group.funcs, ∀ m ∈ (R.base.func f).body.getD [], ∃ k, R.base.Nests k m := by
  obtain ⟨s, hs, rfl⟩ := analyzeGroup_eq_ok hnext
  have hbody (f : FuncId) : ((Flow.start run group).program.func f).body = (R.base.func f).body := by
    rw [show (Flow.start run group).program.func f = run.program.func f from rfl, (hrun.funcs f).rest]
  obtain ⟨t, ht, hst, hfuncs, hfuncs', hnests⟩ := repeats_recordFuncs (h.echoes.mirrors_start group)
    (h.knows_start hrun hgroups hclosures) (fun f hf m hm => ⟨f, hf, m, hbody f ▸ hm, .refl⟩) hs
  have hordered := ordered_recorded hrun.closed h.ordered hs
  have hfunc (f : FuncId) : s.program.func f = run.program.func f := by
    unfold Program.func
    rw [hfuncs]
    rfl
  have hfunc' (f : FuncId) : t.program.func f = run'.program.func f := by
    unfold Program.func
    rw [hfuncs']
    rfl
  have hmember {f : FuncId} (hf : f ∈ group.funcs) :
      (t.conclude group).program.func f = (s.conclude group).program.func f := by
    refine hst.func_conclude hordered (Program.nodup_groups hgroups).1 hf ?_
    rw [hfunc, hfunc']
    exact (h.noted f).imp_right fun he => he.trans (hlast f hf)
  have hother {f : FuncId} (hf : f ∉ group.funcs) : (s.conclude group).program.func f = run.program.func f ∧
      (t.conclude group).program.func f = run'.program.func f := by
    rw [Flow.func_conclude s hf, Flow.func_conclude t hf, hfunc, hfunc']
    exact ⟨rfl, rfl⟩
  refine ⟨(t.conclude group).toRun, ?_, ⟨(hst.conclude hordered group).echoes, ordered_conclude hordered group,
    fun f => ?_, fun f hf => ?_⟩, fun f hf m hm => hnests f hf m (hbody f ▸ hm)⟩
  · unfold EscapeAnalysis.analyzeGroup
    rw [ht]
  · by_cases hf : f ∈ group.funcs
    · exact Or.inl (hmember hf)
    · rw [(hother hf).1, (hother hf).2]
      exact h.noted f
  · by_cases hmem : f ∈ group.funcs
    · exact hmember hmem
    · rw [(hother hmem).1, (hother hmem).2]
      exact h.func f (List.forall_mem_cons.2 ⟨hmem, hf⟩)

end Step

/-- The second analysis gets through the groups as the first did. -/
theorem Between.groups {before rest : List Group} {run run' final : Run} (h : R.Between final.program rest run run')
    (hrun : run.Follows R.base before) (hgroups : R.base.groups = before ++ rest)
    (hclosures : ∀ f, (R.base.func f).isClosure = true → (R.base.func f).hasBody = true)
    (hfinal : rest.forM EscapeAnalysis.analyzeGroup run = .ok () final) :
    ∃ final', rest.forM EscapeAnalysis.analyzeGroup run' = .ok () final' ∧ R.Between final.program [] final final' ∧
      ∀ G ∈ rest, ∀ f ∈ G.funcs, ∀ m ∈ (R.base.func f).body.getD [], ∃ k, R.base.Nests k m := by
  induction rest generalizing before run run' with
  | nil =>
    cases hfinal
    exact ⟨run', rfl, h, fun G hG => by cases hG⟩
  | cons group rest ih =>
    obtain ⟨next, hnext, hrest⟩ := forM_cons_eq_ok hfinal
    obtain ⟨next', hnext', hbetween, hnests⟩ := h.analyzeGroup hrun hgroups hclosures hnext fun f hf =>
      func_of_not_mem_groups hrest ((Program.nodup_groups hgroups).2 f hf).2
    obtain ⟨final', hfinal', hend, hnests'⟩ := ih hbetween (hrun.analyzeGroup hnext)
      (hgroups.trans (List.append_cons ..)) hrest
    refine ⟨final', ?_, hend, List.forall_mem_cons.2 ⟨hnests, hnests'⟩⟩
    rw [forM_cons_eq, hnext']
    exact hfinal'

end Rerun

end EscapeAnalysis

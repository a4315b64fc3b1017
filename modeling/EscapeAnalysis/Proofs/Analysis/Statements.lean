import EscapeAnalysis.Proofs.Analysis.Progress
import EscapeAnalysis.Proofs.Analysis.Summaries
import EscapeAnalysis.Proofs.Recording.Edges

/-!
# From statements to notes

After an analysis every group has a graph, and what the visits of the statements of its functions leave is in it. So an
assignment of a body is an edge of the graph, and a path that starts from such an edge is told by the notes.

* `Program.exists_hasGraph` : the graph of a group;
* `Program.Recording p s funcs f t` : where the recording of the graph `s` is when it is in the body of `f`;
* `HasGraph.holds` : what a visit leaves is in the graph;
* `HasGraph.edge_of_assigns`, `HasGraph.edge_sink_of_assigns`, `HasGraph.edge_of_returns` : the edges of statements;
* `HasGraph.ofNote_of_sink`, `HasGraph.ofNote_of_output` : the notes of the inputs that paths come to;
* `HasGraph.callee` : what the graph of a group knows of a callee outside the group.
-/

namespace EscapeAnalysis

theorem Info.state_of_states {i j : Info} {fs : List FuncId} {a : FuncState}
    (h : i.states = fs.map (·, a) ++ j.states) (f : FuncId) : i.state f = if f ∈ fs then a else j.state f := by
  unfold Info.state
  rw [h]
  clear h
  induction fs with
  | nil => rfl
  | cons g fs ih =>
    by_cases hg : f = g
    · simp [hg]
    · rw [List.map_cons, List.cons_append, List.lookup_cons, beq_false_of_ne hg]
      simpa [hg] using ih

theorem Run.Follows.over_start {p : Program} {done : List Group} {run : Run} (hrun : run.Follows p done) (group : Group) :
    (Flow.start run group).Over p :=
  ⟨Flow.refs_start_any run group, hrun.nodes.trans (Flow.extends_start run group), hrun.types⟩

/-- Paths go along the edges into nodes that are no calls. -/
theorem Flow.Path.along {s : Flow} {root dst src : NodeId} {l : Level} (h : s.Path root l dst)
    (hcall : (s.program.node dst).op.isCall = false) (hedge : s.Edge dst src) : s.Path root l.copy src := by
  refine h.flow ?_
  rw [Flow.sourceNode, hcall]
  exact hedge

namespace Program

/-- After an analysis every group has a graph. -/
theorem exists_hasGraph {p : Program} {c : Config} {o : Observer} {info : Info}
    (hinfo : (escapesWith c o p).result = .ok info) {group : Group}
    (hgroup : group ∈ p.groups) : ∃ s, p.HasGraph c o group s := by
  obtain ⟨last, hlast, _⟩ := escapesWith_eq_ok hinfo
  obtain ⟨before, after, hgroups⟩ := List.append_of_mem hgroup
  rw [hgroups] at hlast
  obtain ⟨run, hrun, hrest⟩ := forM_append_eq_ok hlast
  obtain ⟨mid, hmid, _⟩ := forM_cons_eq_ok hrest
  obtain ⟨s, hs, _⟩ := analyzeGroup_eq_ok hmid
  exact ⟨s, before, after, run, hgroups, hrun, hs⟩

/-- Where the recording of the graph `s` of the functions `funcs` is when it is in the body of `f`. -/
structure Recording (p : Program) (s : Flow) (funcs : List FuncId) (f : FuncId) (t : Flow) : Prop where
  belongs : t.Over p
  curfn : t.curfn = some f
  sink : t.sink = s.sink
  isName : (t.program.node t.sink).op = .name
  func : ∀ g, t.program.func g = s.program.func g
  group : ∀ g ∈ funcs, t.info.state g ≠ .noted
  other : ∀ g, g ∉ funcs → t.info.state g = s.info.state g

namespace HasGraph

variable {p : Program} {c : Config} {o : Observer} {group : Group} {s : Flow} (hp : p.WellFormed)
  (h : p.HasGraph c o group s)
include hp h

/-! ## The graph -/

omit hp in
theorem mem_groups : group ∈ p.groups := by
  obtain ⟨before, after, run, hgroups, _⟩ := h
  simp [hgroups]

theorem belongs : s.Over p := by
  obtain ⟨before, after, run, _, hrun, hs⟩ := h
  have hstart := (follows_groups (follows_nil hp.refs _ _) hrun).over_start group
  exact hstart.steps (Flow.starts_recorded hs).steps

omit hp in
theorem listed : s.Listed := by
  obtain ⟨before, after, run, _, _, hs⟩ := h
  refine Flow.lasting_listed _ _ (Flow.starts_recorded hs).steps fun dst src hedge => ?_
  change src ∈ (Table.empty : Table (Array NodeId)).get dst.index at hedge
  rw [Table.get_empty] at hedge
  exact absurd hedge (Array.not_mem_empty src)

omit hp in
theorem sink_isName : (s.program.node s.sink).op = .name := by
  obtain ⟨before, after, run, _, _, hs⟩ := h
  have hframe := Flow.frame_recorded hs
  rw [hframe.sink, hframe.op (by simp [Flow.node_sink_start]), Flow.node_sink_start]

/-- The sink is no node of the program. -/
theorem sink_ne {n : NodeId} (hn : n.index < p.nodes.size) : s.sink ≠ n := by
  obtain ⟨before, after, run, _, hrun, hs⟩ := h
  have hsize := (follows_groups (follows_nil hp.refs _ _) hrun).nodes.size_le
  rw [(Flow.frame_recorded hs).sink, Flow.sink_start]
  rintro rfl
  exact absurd hn (Nat.not_lt.2 hsize)

theorem isRoot {dst src : NodeId} (hop : (p.node dst).op = .name) (hedge : s.Edge dst src) : s.IsRoot dst :=
  ⟨h.listed dst src hedge, Or.inl ((h.belongs hp).op hop (by simp))⟩

omit hp in
theorem isRoot_sink {src : NodeId} (hedge : s.Edge s.sink src) : s.IsRoot s.sink :=
  ⟨h.listed s.sink src hedge, Or.inl h.sink_isName⟩

/-! ## Statements -/

/-- What the visit of a node of a body of the group leaves is in the graph. -/
theorem holds (hd : p.Drafted) {P : Flow → Prop} (hP : Flow.Lasting P) {f : FuncId} (hf : f ∈ group.funcs) {m : NodeId}
    (hm : p.Below f m)
    (hvisit : ∀ t up, p.Recording s group.funcs f t → Flow.Records .any t (Flow.visit m up) fun _ u => P u) : P s := by
  have hself := h.func hf
  obtain ⟨before, after, run, _, hrun, hs⟩ := h
  have hstart := (follows_groups (follows_nil hp.refs _ _) hrun).over_start group
  have hstarts := Flow.starts_recorded hs
  refine Flow.holds_of_recorded hd hP hstart ?_ hm hf (fun t up ht => hvisit t up ?_) hs
  · rw [← hstarts.frame.func, hself]
  · have hframe := ht.steps.frame
    obtain ⟨fs, hfs, hstates⟩ := ht.states
    refine ⟨ht.belongs, ht.curfn, hframe.sink.trans hstarts.frame.sink.symm, ?_, fun g => ?_, fun g hg => ?_, fun g hg => ?_⟩
    · rw [hframe.sink, hframe.op (by simp [Flow.node_sink_start]), Flow.node_sink_start]
    · rw [hframe.func, hstarts.frame.func]
    · rw [Info.state_of_states hstates]
      split
      · simp
      · rw [Flow.state_start, if_pos hg]
        simp
    · rw [Info.state_of_states hstates, if_neg fun hmem => hg (hfs g hmem), Info.state_of_states hstarts.states,
        if_neg fun hmem => hg (List.mem_reverse.1 hmem)]

variable (hd : p.Drafted) {f : FuncId} (hf : f ∈ group.funcs) {stmt dst src n : NodeId} (hm : p.Below f stmt)
  (hc : p.Carries src n) (hty : p.hasNoPointers (p.node n).ty = false)
include hd hf hm hc hty

theorem edge_of_assigns (hstmt : p.Assigns stmt dst src) (hdst : p.IsLocal dst) (hne : dst ≠ n) : s.Edge dst n :=
  h.holds hp hd (Flow.lasting_edge dst n) hf hm fun _ up ht =>
    Flow.records_visit_assigns (Flow.lasting_edge dst n) ht.belongs
      (fun _ hu => Flow.records_assign_local hd.typed (ht.belongs.changes hu) hdst hc hne hty) hstmt hdst.op up

theorem edge_sink_of_assigns (hstmt : p.Assigns stmt dst src) (hdst : p.IsGlobal dst) : s.Edge s.sink n := by
  have hlt : n.index < p.nodes.size := by
    refine p.lt_size_of_op_ne fun hblock => ?_
    have hsource := hc.isSource
    rw [hblock] at hsource
    cases hsource
  refine h.holds hp hd (Flow.lasting_edge s.sink n) hf hm fun t up ht => ?_
  refine Flow.records_visit_assigns (Flow.lasting_edge s.sink n) ht.belongs (fun u hu => ?_) hstmt hdst.op up
  have hsink : u.sink = s.sink := hu.frame.sink.trans ht.sink
  rw [← hsink]
  exact Flow.records_assign_global hd.typed (ht.belongs.changes hu) hdst hc (hsink ▸ h.sink_ne hp hlt) hty

theorem edge_of_returns (hstmt : p.Returns f stmt dst src) (hdst : p.IsLocal dst) (hne : dst ≠ n) : s.Edge dst n := by
  refine h.holds hp hd (Flow.lasting_edge dst n) hf hm fun t up ht => ?_
  have hfunc : t.program.func f = p.func f := (ht.func f).trans (h.func hf)
  refine Flow.records_visit_returns (Flow.lasting_edge dst n) ht.belongs (fun u hu => ?_) hstmt ht.curfn ?_ ?_ up
  · exact Flow.records_assign_local hd.typed (ht.belongs.changes hu) hdst hc hne hty
  · rw [hfunc]
    refine List.filter_congr fun m hm => ?_
    exact (ht.belongs.nodes.node m (hp.refs m (Or.inr ⟨f, Func.mem_refs_decls hm⟩))).isNameOf .result
  · rw [hfunc]

end HasGraph

/-! ## Notes -/

namespace HasGraph

variable {p : Program} {c : Config} {o : Observer} {group : Group} {s : Flow} (hp : p.WellFormed)
  (h : p.HasGraph c o group s) {info : Info}
  (hinfo : (escapesWith c o p).result = .ok info) {f : FuncId} (hf : f ∈ group.funcs) (hbody : (p.func f).hasBody = true)
  {i : Nat} {param : Param} (hparam : (p.func f).inputs[i]? = some param) {n : NodeId} (hname : param.name = some n)
  (hnote : param.note = none)
include hp h hinfo hf hbody hparam hnote

/-- An input that holds no pointers gets no note. -/
theorem ofNote_of_pointerless (hd : p.Drafted) (hpointers : p.hasPointers param.ty = false) :
    ∃ param', ((escapesWith c o p).program.func f).inputs[i]? = some param' ∧ Word.ofNote param'.note = .plain .unknown := by
  obtain ⟨hinputs, _⟩ := h.inputs hp hinfo hf hbody
  refine ⟨_, by rw [hinputs, List.getElem?_map, hparam]; rfl, ?_⟩
  have hty := hd.typed.params f param (List.mem_append_left _ (List.mem_of_getElem? hparam))
  have hfor : (s.dsts.foldl Flow.flood s).noteFor? param = none := by
    unfold Flow.noteFor?
    rw [(Flow.marked_foldl_flood s).program, (h.belongs hp).hasPointers hd.typed hty, hpointers]
    split <;> rfl
  unfold Flow.renote
  rw [hfor, hnote]
  rfl

include hname

/-- What is so of the word of an input that stays is so of its note, unless it is unknown. -/
theorem exists_ofNote {P : Word → Prop} (hP : ((s.dsts.foldl Flow.flood s).info.word n).cls < .scope →
      P ((s.dsts.foldl Flow.flood s).info.word n)) :
    ∃ param', ((escapesWith c o p).program.func f).inputs[i]? = some param' ∧ (Word.ofNote param'.note = .plain .unknown ∨
      P (Word.ofNote param'.note)) := by
  obtain ⟨hinputs, _⟩ := h.inputs hp hinfo hf hbody
  refine ⟨_, by rw [hinputs, List.getElem?_map, hparam]; rfl,
    ((s.dsts.foldl Flow.flood s).ofNote_renote hname hnote).imp_right fun hw => ?_⟩
  rw [hw.1]
  exact hP hw.2

theorem ofNote_of_sink {l : Level} (hroot : s.IsRoot s.sink) (hpath : s.Path s.sink l n) :
    ∃ param', ((escapesWith c o p).program.func f).inputs[i]? = some param' ∧ (Word.ofNote param'.note = .plain .unknown ∨
      0 < l.suffix ∧ (Word.ofNote param'.note).content = true) := by
  refine h.exists_ofNote hp hinfo hf hbody hparam hname hnote
    (P := fun w => 0 < l.suffix ∧ w.content = true) fun hscope => ?_
  obtain ⟨hresult, hdepth⟩ := h.sink hp
  exact Flow.content_foldl_flood hroot hpath (h.input hp hf (List.mem_of_getElem? hparam) hname).1 hresult hdepth hscope

theorem ofNote_of_output {dst : NodeId} {l : Level} (hroot : s.IsRoot dst) (hpath : s.Path dst l n)
    (hout : dst ∈ p.outputs (p.func f)) (hstays : dst ∉ info.moved) :
    ∃ param', ((escapesWith c o p).program.func f).inputs[i]? = some param' ∧ (Word.ofNote param'.note = .plain .unknown ∨
      (∃ k, 0 < ((Word.ofNote param'.note).outputs.get k).val) ∨ (Word.ofNote param'.note).content = true) := by
  refine h.exists_ofNote hp hinfo hf hbody hparam hname hnote
    (P := fun w => (∃ k, 0 < (w.outputs.get k).val) ∨ w.content = true) fun hscope => ?_
  obtain ⟨hn, hcurfn⟩ := h.input hp hf (List.mem_of_getElem? hparam) hname
  obtain ⟨hresult, hcurfn', _⟩ := h.output hp hf hout
  have hboth : s.program.isOutputAndInput dst n = true := by
    simp [Program.isOutputAndInput, hresult, hn, hcurfn, hcurfn']
  have hmoved := (h.inputs hp hinfo hf hbody).2
  have htells := Flow.tells_foldl_flood hroot hpath hboth (h.sound hp).1.moved (fun hdst => hstays (hmoved dst hdst))
    hscope
  rcases htells with ⟨_, k, _, hk, _⟩ | ⟨_, hcontent⟩
  · exact Or.inl ⟨k, hk⟩
  · exact Or.inr hcontent

end HasGraph

/-! ## Functions after an analysis -/

variable {p : Program} {c : Config} {o : Observer} {group : Group} {s : Flow} {info : Info}

theorem Below.hasBody {f : FuncId} {n : NodeId} (h : p.Below f n) : (p.func f).hasBody = true := by
  obtain ⟨b, hb, _⟩ := h
  unfold Func.hasBody
  cases hbody : (p.func f).body with
  | none =>
    rw [hbody] at hb
    cases hb
  | some _ => rfl

/-- The name of an input that holds pointers. -/
theorem input_name (hp : p.WellFormed) (htyped : p.InputsTyped) {f : FuncId} {param : Param}
    (hparam : param ∈ (p.func f).inputs) {n : NodeId} (hname : param.name = some n)
    (hpointers : p.hasPointers param.ty = true) :
    (p.node n).op = .name ∧ (p.node n).cls = .param ∧ p.hasNoPointers (p.node n).ty = false := by
  obtain ⟨hdecl, hcls⟩ := hp.inputs f param hparam n hname
  refine ⟨(hp.decls f n hdecl).1, hcls, ?_⟩
  rw [htyped f param hparam n hname]
  cases hty : param.ty with
  | none => rfl
  | some t =>
    rw [hty] at hpointers
    have htrue : p.types.hasPointers t = true := hpointers
    simp [hasNoPointers, htrue]

/-- A callee outside the group has the notes that it has at the end, and calls of it go by these notes. -/
theorem HasGraph.callee (hp : p.WellFormed) (h : p.HasGraph c o group s) (hinfo : (escapesWith c o p).result = .ok info)
    {g f : FuncId} (hg : g ∈ group.funcs) {call : NodeId} (hcall : p.Below g call) (hcallee : p.calleeOf call = some f)
    (hf : f ∉ group.funcs) :
    s.program.func f = (escapesWith c o p).program.func f ∧
      ¬ (s.program.isGroupCandidate f = true ∧ s.info.state f ≠ .noted) := by
  obtain ⟨before, after, run, hgroups, hrun, hs⟩ := h
  have hfollows := follows_groups (follows_nil hp.refs _ _) hrun
  have hearlier (hdecl : f ∈ p.decls) : ∃ G ∈ before, f ∈ G.funcs :=
    (grouped_of_calleeOf hp.refs hgroups hg hcall hcallee hdecl).resolve_left hf
  have hfunc := func_recorded hs f
  constructor
  · have hlater : ∀ G ∈ after, f ∉ G.funcs := by
      intro G hG hmem
      obtain ⟨K, hK, hfK⟩ := hearlier (mem_decls_of_mem_groups (by rw [hgroups]; simp [hG]) hmem)
      obtain ⟨pre, post, rfl⟩ := List.append_of_mem hK
      have hsplit : p.groups = pre ++ K :: (post ++ group :: after) := by simp [hgroups]
      exact ((nodup_groups hsplit).2 f hfK).2 G (by simp [hG]) hmem
    obtain ⟨last, hlast, hprogram, _⟩ := escapesWith_eq_ok hinfo
    rw [hgroups] at hlast
    obtain ⟨run', hrun', hrest⟩ := forM_append_eq_ok hlast
    cases hrun.symm.trans hrun'
    obtain ⟨mid, hmid, hafter⟩ := forM_cons_eq_ok hrest
    rw [hprogram, func_of_not_mem_groups hafter hlater, func_analyzeGroup hmid hf, hfunc]
  · rintro ⟨hcand, hstate⟩
    have hdecl : f ∈ p.decls := by
      refine mem_decls_of_isGroupCandidate ?_
      rw [isGroupCandidate, hfunc, (hfollows.funcs f).rest] at hcand
      exact hcand
    obtain ⟨G, hG, hfG⟩ := hearlier hdecl
    refine hstate ?_
    have hhistory := history_of_mem hfollows hgroups hG hfG
    rw [Info.state_of_states (Flow.starts_recorded hs).states, if_neg fun hmem => hf (List.mem_reverse.1 hmem),
      Flow.state_start, if_neg hf, Info.state_eq_getLast, hhistory]
    rfl

/-- An analysis changes nothing of a function but its notes. -/
theorem renoted_escapes (hp : p.Closed) (hinfo : (escapesWith c o p).result = .ok info) (f : FuncId) :
    (p.func f).Renoted ((escapesWith c o p).program.func f) := by
  obtain ⟨last, hlast, hprogram, _⟩ := escapesWith_eq_ok hinfo
  rw [hprogram]
  exact (follows_groups (follows_nil hp _ _) hlast).funcs f

/-- A function in no group is left as it is. -/
theorem func_escapes_of_not_mem (hinfo : (escapesWith c o p).result = .ok info) {f : FuncId} (hf : ∀ G ∈ p.groups, f ∉ G.funcs) :
    (escapesWith c o p).program.func f = p.func f := by
  obtain ⟨last, hlast, hprogram, _⟩ := escapesWith_eq_ok hinfo
  rw [hprogram, func_of_not_mem_groups hlast hf]

end Program

end EscapeAnalysis

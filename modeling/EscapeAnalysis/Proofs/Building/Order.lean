import EscapeAnalysis.Proofs.Building.Names

/-!
# The order in which a program is built

Nodes and functions are numbered as they are made, so what a change refers to has a smaller number than what it makes.
A change adds at most one node, and of the nodes that are there it touches only operators, blocks and clauses. What
follows for the parts of nodes, the variables of functions and the labels of bodies is kept by every change.

* `Node.earlier` : the parts that a node has from the start;
* `Program.NodeLaid`, `Program.FuncLaid`, `Program.Laid` : what holds of a node, of a function and of all of them;
* `Program.InputsTyped` : inputs have the types of their names;
* `Program.Edits.laid` : edits keep it.
-/

namespace EscapeAnalysis

namespace Node

/-- The parts that are given to a node when it is made, whatever the node is. -/
def earlier (x : Node) : List NodeId :=
  x.left.toList ++ x.right.toList ++ x.test.toList ++ x.origin.toList ++ x.rlist

theorem mem_refs_of_mem_earlier {x : Node} {m : NodeId} (h : m ∈ x.earlier) : m ∈ x.refs := by
  simp only [earlier, refs, children, List.mem_append] at h ⊢
  grind

/-- The second node differs from the first in what changes may replace. -/
structure Keeps (x y : Node) : Prop where
  earlier : y.earlier = x.earlier
  ty : y.ty = x.ty
  cls : y.cls = x.cls
  ordinal : y.ordinal = x.ordinal
  origin : y.origin = x.origin
  label : y.label = x.label
  home : y.home = x.home

theorem Keeps.refl (x : Node) : x.Keeps x := ⟨rfl, rfl, rfl, rfl, rfl, rfl, rfl⟩

theorem Keeps.of_eq {x y : Node} (h : y = x) : x.Keeps y := by
  rw [h]
  exact refl x

end Node

namespace Program

structure NodeLaid (p : Program) (n : NodeId) : Prop where
  earlier : ∀ m ∈ (p.node n).earlier, m.index < n.index
  label : ∀ l, (p.node n).label = some l → ∃ b, (p.node n).home = some b ∧ p.LabelIn l b
  home : ∀ b, (p.node n).home = some b → p.Begun b

/-- The outputs among the names that a function declares. -/
def outputNames (p : Program) (x : Func) : List NodeId := x.decls.filter fun n => (p.node n).cls = .result

structure FuncLaid (p : Program) (f : FuncId) (x : Func) : Prop where
  decls : x.decls.Pairwise fun m n => m.index < n.index
  results : x.results.map (·.name) = (p.outputNames x).map some
  ordinals : (p.outputNames x).map (fun n => (p.node n).ordinal) = List.range' 1 x.results.length
  captures : ∀ n ∈ x.captures, (p.node n).origin ≠ none
  outer : ∀ g, x.outer = some g → g.index < f.index

/-- The name of an input has the type of the input. -/
def InputsTyped (p : Program) : Prop :=
  ∀ f, ∀ param ∈ (p.func f).inputs, ∀ n, param.name = some n → (p.node n).ty = param.ty

structure Laid (p : Program) : Prop where
  node : ∀ n, p.NodeLaid n
  func : ∀ f, p.FuncLaid f (p.func f)
  inputs : p.InputsTyped

/-! ## Nodes -/

theorem nodeLaid_of_node_eq_default {p : Program} {n : NodeId} (h : p.node n = default) : p.NodeLaid n := by
  refine ⟨?_, ?_, ?_⟩ <;> rw [h]
  · exact fun m hm => absurd hm List.not_mem_nil
  · exact nofun
  · exact nofun

theorem Edit.keeps {p q : Program} (hq : p.Edit q) {n : NodeId} (hn : p.HasNode n) :
    (p.node n).Keeps (q.node n) := by
  cases hq with
  | types | label | beginBody | func | recv | param | funcBody | notes | imported | promised => exact .refl _
  | node x | declare _ x | output _ x | capture _ x =>
    exact .of_eq (node_addNode_of_lt p _ hn)
  | stmtBody k | stmtAlt k | clauses k | assertOk k =>
    exact rel_modifyNode Node.Keeps.refl n ⟨rfl, rfl, rfl, rfl, rfl, rfl, rfl⟩

/-- A new node has its place right after the others. -/
theorem nodeLaid_addNode {p q : Program} (hq : p.Edit q) {x : Node} (hnodes : q.nodes = (p.addNode x).2.nodes)
    (hrefs : ∀ m ∈ x.refs, p.HasNode m) (hlabel : ∀ l, x.label = some l → ∃ b, x.home = some b ∧ p.LabelIn l b)
    (hhome : ∀ b, x.home = some b → p.Begun b) {n : NodeId} (hn : ¬ p.HasNode n) : q.NodeLaid n := by
  have hnode : q.node n = (p.addNode x).2.node n := by
    unfold node
    rw [hnodes]
  rw [node_addNode] at hnode
  by_cases he : n.index = p.nodes.size
  · rw [if_pos he] at hnode
    refine ⟨fun m hm => ?_, fun l hl => ?_, fun b hb => ?_⟩
    · rw [hnode] at hm
      rw [he]
      exact hrefs m (Node.mem_refs_of_mem_earlier hm)
    · rw [hnode] at hl ⊢
      obtain ⟨b, hb, hin⟩ := hlabel l hl
      exact ⟨b, hb, hq.labelIn hin⟩
    · rw [hnode] at hb
      exact hq.edits.begun (hhome b hb)
  · rw [if_neg he, node_of_size_le p (Nat.le_of_not_lt hn)] at hnode
    exact nodeLaid_of_node_eq_default hnode

theorem Edit.nodeLaid_new {p q : Program} (hq : p.Edit q) {n : NodeId} (hn : ¬ p.HasNode n) : q.NodeLaid n := by
  have hedit := hq
  have hdefault := node_of_size_le p (Nat.le_of_not_lt hn)
  have hnone {x : Node} (h : x.refs = []) : ∀ m ∈ x.refs, p.HasNode m := by
    rw [h]
    exact fun m hm => absurd hm List.not_mem_nil
  have hplain {x : Node} (h : x.label = none) : ∀ l, x.label = some l → ∃ b, x.home = some b ∧ p.LabelIn l b := by
    rw [h]
    exact nofun
  cases hq with
  | types | label | beginBody | func | recv | param | funcBody | notes | imported | promised =>
    exact nodeLaid_of_node_eq_default hdefault
  | stmtBody k | stmtAlt k | clauses k | assertOk k =>
    refine nodeLaid_of_node_eq_default ?_
    rw [node_modifyNode, if_neg, hdefault]
    rintro ⟨rfl, hk⟩
    exact hn hk
  | node x _ hparts _ _ hhome => exact nodeLaid_addNode hedit rfl hparts.refs hparts.2.1 hhome hn
  | declare f x _ _ hrefs _ hlabel hhome =>
    exact nodeLaid_addNode (x := { x with op := .name, curfn := some f }) hedit rfl (hnone hrefs) (hplain hlabel) hhome hn
  | output f x _ _ hrefs _ _ hlabel hhome =>
    refine nodeLaid_addNode (x := { x with op := .name, curfn := some f }) hedit rfl (hnone hrefs) (hplain hlabel) ?_ hn
    intro b hb
    rw [show ({ x with op := .name, curfn := some f } : Node).home = x.home from rfl, hhome] at hb
    cases hb
  | capture f x _ _ hrefs _ _ _ _ hlabel hhome => exact nodeLaid_addNode hedit rfl hrefs (hplain hlabel) hhome hn

theorem Edit.nodeLaid {p q : Program} (hq : p.Edit q) {n : NodeId} (h : p.NodeLaid n) : q.NodeLaid n := by
  by_cases hn : p.HasNode n
  · have hkeeps := hq.keeps hn
    refine ⟨?_, ?_, ?_⟩
    · rw [hkeeps.earlier]
      exact h.earlier
    · rw [hkeeps.label, hkeeps.home]
      intro l hl
      obtain ⟨b, hb, hin⟩ := h.label l hl
      exact ⟨b, hb, hq.labelIn hin⟩
    · rw [hkeeps.home]
      exact fun b hb => hq.edits.begun (h.home b hb)
  · exact hq.nodeLaid_new hn

/-! ## Functions -/

section Func

variable {p q : Program} {f : FuncId} {x y : Func}

theorem outputNames_congr (hnode : ∀ n ∈ x.decls, (p.node n).Keeps (q.node n)) (hdecls : y.decls = x.decls) :
    q.outputNames y = p.outputNames x := by
  unfold outputNames
  rw [hdecls]
  refine List.filter_congr fun n hn => ?_
  rw [(hnode n hn).cls]

theorem ordinals_congr (hnode : ∀ n ∈ x.decls, (p.node n).Keeps (q.node n)) :
    (p.outputNames x).map (fun n => (q.node n).ordinal) = (p.outputNames x).map fun n => (p.node n).ordinal := by
  refine List.map_congr_left fun n hn => ?_
  exact (hnode n (List.mem_filter.1 hn).1).ordinal

/-- A function may change in what are no variables of it, and its variables in what is not fixed. -/
theorem FuncLaid.congr (h : p.FuncLaid f x) (hnode : ∀ n ∈ x.refs, (p.node n).Keeps (q.node n))
    (hdecls : y.decls = x.decls) (hresults : y.results = x.results) (hcaptures : y.captures = x.captures)
    (houter : y.outer = x.outer) : q.FuncLaid f y := by
  have hnames (n : NodeId) (hn : n ∈ x.decls) := hnode n (Func.mem_refs_decls hn)
  have hnew : q.outputNames y = p.outputNames x := outputNames_congr hnames hdecls
  refine ⟨?_, ?_, ?_, ?_, ?_⟩
  · rw [hdecls]
    exact h.decls
  · rw [hresults, hnew]
    exact h.results
  · rw [hresults, hnew, ordinals_congr hnames]
    exact h.ordinals
  · rw [hcaptures]
    intro n hn
    rw [(hnode n (Func.mem_refs_captures hn)).origin]
    exact h.captures n hn
  · rw [houter]
    exact h.outer

/-- One more name of a function is the last of them, and if it is an output also the last output. -/
theorem FuncLaid.declare {n : NodeId} (h : p.FuncLaid f x) (hnode : ∀ m ∈ x.refs, (p.node m).Keeps (q.node m))
    (hlast : ∀ m ∈ x.decls, m.index < n.index) (hdecls : y.decls = x.decls ++ [n]) (hcaptures : y.captures = x.captures)
    (houter : y.outer = x.outer)
    (hresults : (q.node n).cls ≠ .result ∧ y.results = x.results ∨
      (q.node n).cls = .result ∧ (q.node n).ordinal = x.results.length + 1 ∧
        ∃ param : Param, param.name = some n ∧ y.results = x.results ++ [param]) : q.FuncLaid f y := by
  have hnames (m : NodeId) (hm : m ∈ x.decls) := hnode m (Func.mem_refs_decls hm)
  have hnew : q.outputNames y = p.outputNames x ++ [n].filter fun n => (q.node n).cls = .result := by
    rw [← outputNames_congr hnames rfl]
    unfold outputNames
    rw [hdecls, List.filter_append]
  refine ⟨?_, ?_, ?_, ?_, ?_⟩
  · rw [hdecls]
    refine List.pairwise_append.2 ⟨h.decls, List.pairwise_singleton .., fun m hm k hk => ?_⟩
    rw [List.mem_singleton.1 hk]
    exact hlast m hm
  · rw [hnew]
    rcases hresults with ⟨hcls, hresults⟩ | ⟨hcls, _, param, hparam, hresults⟩
    · simp [hresults, h.results, hcls]
    · simp [hresults, h.results, hcls, hparam]
  · rw [hnew, List.map_append, ordinals_congr hnames, h.ordinals]
    rcases hresults with ⟨hcls, hresults⟩ | ⟨hcls, hordinal, param, _, hresults⟩
    · simp [hresults, hcls]
    · rw [hresults, List.length_append, List.length_singleton, List.range'_concat]
      simp [hcls, hordinal, Nat.add_comm]
  · rw [hcaptures]
    intro m hm
    rw [(hnode m (Func.mem_refs_captures hm)).origin]
    exact h.captures m hm
  · rw [houter]
    exact h.outer

theorem FuncLaid.capture {n : NodeId} (h : p.FuncLaid f x) (hnode : ∀ m ∈ x.refs, (p.node m).Keeps (q.node m))
    (hn : (q.node n).origin ≠ none) : q.FuncLaid f { x with captures := x.captures ++ [n] } := by
  have hold : q.FuncLaid f x := h.congr hnode rfl rfl rfl rfl
  refine ⟨hold.decls, hold.results, hold.ordinals, fun m hm => ?_, hold.outer⟩
  rcases List.mem_append.1 hm with hm | hm
  · exact hold.captures m hm
  · rw [List.mem_singleton.1 hm]
    exact hn

end Func

theorem Edit.funcLaid {p q : Program} (hq : p.Edit q) (hwf : p.WellFormed) (h : ∀ f, p.FuncLaid f (p.func f))
    (k : FuncId) : q.FuncLaid k (q.func k) := by
  have hnode (f : FuncId) (m : NodeId) (hm : m ∈ (p.func f).refs) := hq.keeps (hwf.hasNode_of_mem_refs hm)
  have hlast (f : FuncId) (m : NodeId) (hm : m ∈ (p.func f).decls) : m.index < p.nodes.size :=
    hwf.hasNode_of_mem_refs (Func.mem_refs_decls hm)
  have hsame : q.FuncLaid k (p.func k) := (h k).congr (hnode k) rfl rfl rfl rfl
  cases hq with
  | types | label | beginBody | node | stmtBody | stmtAlt | clauses | assertOk => exact hsame
  | func name outer ty line _ houter =>
    rw [func_addFunc]
    split
    · rename_i hk
      refine ⟨.nil, rfl, rfl, fun n hn => absurd hn List.not_mem_nil, fun g hg => ?_⟩
      rw [hk]
      exact houter g hg
    · exact hsame
  | declare f x _ hf _ hcls =>
    rw [func_declareName_eq hf]
    split
    · rename_i hk
      rw [hk]
      refine (h f).declare (hnode f) (hlast f) rfl rfl rfl (Or.inl ⟨?_, rfl⟩)
      have hnew := congrArg Node.cls (p.node_declareName f x)
      intro hresult
      rw [hnew.symm.trans hresult] at hcls
      simp at hcls
    · exact hsame
  | output f x _ hf _ hcls hordinal =>
    rw [func_output hf]
    split
    · rename_i hk
      rw [hk]
      refine (h f).declare (hnode f) (hlast f) rfl rfl rfl (Or.inr ?_)
      have hnew := p.node_declareName f x
      refine ⟨?_, ?_, _, rfl, rfl⟩
      · exact (congrArg Node.cls hnew).trans hcls
      · exact (congrArg Node.ordinal hnew).trans hordinal
    · exact hsame
  | capture f x _ hf _ _ _ _ horigin =>
    rw [func_capture hf]
    split
    · rename_i hk
      rw [hk]
      refine (h f).capture (hnode f) ?_
      exact fun e => horigin ((congrArg Node.origin (p.node_addNode_self x)).symm.trans e)
    · exact hsame
  | recv f | param f | funcBody f | imported f | promised f =>
    rw [func_modifyFunc]
    split
    · rename_i hk
      rw [hk.1]
      exact (h f).congr (hnode f) rfl rfl rfl rfl
    · exact hsame
  | notes f g hg =>
    rw [func_modifyFunc]
    split
    · rename_i hk
      rw [hk.1, (hg _).rest]
      exact (h f).congr (hnode f) rfl rfl rfl rfl
    · exact hsame

/-! ## Inputs -/

theorem Edit.inputsTyped {p q : Program} (hq : p.Edit q) (hwf : p.WellFormed) (h : p.InputsTyped) : q.InputsTyped := by
  have hold {f : FuncId} {param : Param} (hparam : param ∈ (p.func f).inputs) {n : NodeId} (hn : param.name = some n) :
      (q.node n).ty = param.ty := by
    rw [(hq.keeps (hwf.hasNode_of_mem_refs (Func.mem_refs_name (List.mem_append_left _ hparam) hn))).ty]
    exact h f param hparam n hn
  intro k param hparam n hn
  cases hq with
  | types | label | beginBody | node | stmtBody | stmtAlt | clauses | assertOk => exact hold hparam hn
  | func name outer ty line _ _ =>
    rw [func_addFunc] at hparam
    split at hparam
    · cases hparam
    · exact hold hparam hn
  | declare f x _ hf =>
    rw [func_declareName_eq hf] at hparam
    split at hparam
    · exact hold hparam hn
    · exact hold hparam hn
  | output f x _ hf =>
    rw [func_output hf] at hparam
    split at hparam
    · exact hold hparam hn
    · exact hold hparam hn
  | capture f x _ hf =>
    rw [func_capture hf] at hparam
    split at hparam
    · exact hold hparam hn
    · exact hold hparam hn
  | recv f recv _ _ hrecv =>
    rw [func_modifyFunc] at hparam
    split at hparam
    · rcases List.mem_append.1 hparam with hparam | hparam
      · cases Option.mem_toList.1 hparam
        exact (hrecv n hn).2.2
      · exact hold (List.mem_append_right _ hparam) hn
    · exact hold hparam hn
  | param f new _ _ hnew =>
    rw [func_modifyFunc] at hparam
    split at hparam
    · rw [Func.inputs, ← List.append_assoc] at hparam
      rcases List.mem_append.1 hparam with hparam | hparam
      · exact hold hparam hn
      · cases List.mem_singleton.1 hparam
        exact (hnew n hn).2.2
    · exact hold hparam hn
  | funcBody f | imported f | promised f =>
    rw [func_modifyFunc] at hparam
    split at hparam
    · exact hold hparam hn
    · exact hold hparam hn
  | notes f g hg =>
    rw [func_modifyFunc] at hparam
    split at hparam
    · -- A note changes neither the name nor the type of an input.
      have hmem : param.bare ∈ (p.func f).inputs.map Param.bare := by
        rw [← (hg (p.func f)).inputs]
        exact List.mem_map_of_mem hparam
      obtain ⟨old, hmem, he⟩ := List.mem_map.1 hmem
      have hname : old.name = some n := (congrArg Param.name he).trans hn
      have hty : old.bare.ty = param.bare.ty := by rw [he]
      exact (hold hmem hname).trans hty
    · exact hold hparam hn

theorem Edit.laid {p q : Program} (hq : p.Edit q) (hwf : p.WellFormed) (h : p.Laid) : q.Laid :=
  ⟨fun n => hq.nodeLaid (h.node n), hq.funcLaid hwf h.func, hq.inputsTyped hwf h.inputs⟩

theorem Edits.laid {p q : Program} (hq : Edits p q) (hwf : p.WellFormed) (h : p.Laid) : q.Laid := by
  induction hq with
  | refl => exact h
  | tail hr hq ih => exact hq.laid (Edits.wellFormed hr hwf) ih

theorem Laid.of_globals {p : Program} (h : p.Laid) (globals : List (String × NodeId)) : Laid { p with globals } := by
  refine ⟨fun n => ?_, fun f => ?_, h.inputs⟩
  · obtain ⟨hearlier, hlabel, hhome⟩ := h.node n
    exact ⟨hearlier, hlabel, hhome⟩
  · obtain ⟨hdecls, hresults, hordinals, hcaptures, houter⟩ := h.func f
    exact ⟨hdecls, hresults, hordinals, hcaptures, houter⟩

theorem laid_empty : ({} : Program).Laid := by
  refine ⟨fun n => nodeLaid_of_node_eq_default (node_empty n), fun f => ?_, fun f param hparam => ?_⟩
  · rw [func_empty]
    exact ⟨.nil, rfl, rfl, fun n hn => absurd hn List.not_mem_nil, nofun⟩
  · rw [func_empty] at hparam
    cases hparam

end Program

end EscapeAnalysis

import EscapeAnalysis.Program

/-!
# References

The nodes that the nodes and functions of a program refer to. In a well-formed program they are all there, and the
declarations of a function are names of that function.

* `Program.Refers p m` : a node or a function of `p` refers to `m`;
* `Func.Renoted x y` : the functions differ at most in the notes of their inputs;
* `Program.Closed` : there is a node for every reference;
* `Program.WellFormed` : what holds of every program that was built, and is kept by its analysis;
* `Program.refers_addNode`, `Program.refers_modifyNode`, `Program.refers_modifyFunc` : where new references
  come from.
-/

namespace EscapeAnalysis

/-- The nodes that a node refers to. -/
def Node.refs (x : Node) : List NodeId := x.children ++ x.origin.toList

/-- The nodes that a function refers to. -/
def Func.refs (f : Func) : List NodeId :=
  (f.inputs ++ f.results).filterMap (·.name) ++ f.body.getD [] ++ f.decls ++ f.captures

namespace Node

variable {x : Node} {m : NodeId}

theorem mem_refs_left (h : x.left = some m) : m ∈ x.refs := by simp [refs, children, h]

theorem mem_refs_right (h : x.right = some m) : m ∈ x.refs := by simp [refs, children, h]

theorem mem_refs_list (h : m ∈ x.list) : m ∈ x.refs := by simp [refs, children, h]

theorem mem_refs_rlist (h : m ∈ x.rlist) : m ∈ x.refs := by simp [refs, children, h]

theorem mem_refs_origin (h : x.origin = some m) : m ∈ x.refs := by simp [refs, h]

theorem mem_refs_children (h : m ∈ x.children) : m ∈ x.refs := by simp [refs, h]

end Node

namespace Func

variable {f : Func} {m : NodeId}

theorem mem_refs : m ∈ f.refs ↔ (∃ param ∈ f.inputs ++ f.results, param.name = some m) ∨ m ∈ f.body.getD [] ∨
    m ∈ f.decls ∨ m ∈ f.captures := by
  simp only [refs, List.mem_append, List.mem_filterMap, or_assoc]

theorem mem_refs_name {param : Param} (h : param ∈ f.inputs ++ f.results) (hm : param.name = some m) : m ∈ f.refs :=
  mem_refs.2 (Or.inl ⟨param, h, hm⟩)

theorem mem_refs_body (h : m ∈ f.body.getD []) : m ∈ f.refs := mem_refs.2 (Or.inr (Or.inl h))

theorem mem_refs_decls (h : m ∈ f.decls) : m ∈ f.refs := mem_refs.2 (Or.inr (Or.inr (Or.inl h)))

theorem mem_refs_captures (h : m ∈ f.captures) : m ∈ f.refs := mem_refs.2 (Or.inr (Or.inr (Or.inr h)))

end Func

/-! ## Functions up to their notes -/

/-- The parameter without its note. -/
def Param.bare (param : Param) : Param := { param with note := none }

structure Func.Renoted (x y : Func) : Prop where
  rest : y = { x with recv := y.recv, params := y.params }
  recv : y.recv.map Param.bare = x.recv.map Param.bare
  params : y.params.map Param.bare = x.params.map Param.bare

namespace Func.Renoted

variable {x y z : Func}

theorem refl (x : Func) : x.Renoted x := ⟨rfl, rfl, rfl⟩

theorem trans (h₁ : x.Renoted y) (h₂ : y.Renoted z) : x.Renoted z := by
  refine ⟨?_, h₂.recv.trans h₁.recv, h₂.params.trans h₁.params⟩
  rw [h₂.rest, h₁.rest]

theorem symm (h : x.Renoted y) : y.Renoted x := ⟨by rw [h.rest], h.recv.symm, h.params.symm⟩

theorem decls (h : x.Renoted y) : y.decls = x.decls := by rw [h.rest]

theorem results (h : x.Renoted y) : y.results = x.results := by rw [h.rest]

theorem body (h : x.Renoted y) : y.body = x.body := by rw [h.rest]

theorem inputs (h : x.Renoted y) : y.inputs.map Param.bare = x.inputs.map Param.bare := by
  simp only [Func.inputs, List.map_append, ← Option.toList_map, h.recv, h.params]

theorem names (h : x.Renoted y) : y.inputs.map (·.name) = x.inputs.map (·.name) := by
  have hbare (params : List Param) : params.map (·.name) = (params.map Param.bare).map (·.name) := by
    rw [List.map_map]
    rfl
  rw [hbare, hbare x.inputs, h.inputs]

theorem refs (h : x.Renoted y) : y.refs = x.refs := by
  have hcaptures : y.captures = x.captures := by rw [h.rest]
  have hnames (params : List Param) : params.filterMap (·.name) = (params.map (·.name)).filterMap id := by
    rw [List.filterMap_map]
    rfl
  simp only [Func.refs, List.filterMap_append, hnames y.inputs, hnames x.inputs, h.names, h.decls, h.results, h.body,
    hcaptures]

end Func.Renoted

theorem Func.renoted_modifyParam (x : Func) (i : Nat) (note : String) :
    x.Renoted { x with params := x.params.modify i fun param => { param with note := some note } } := by
  refine ⟨rfl, rfl, List.ext_getElem? fun j => ?_⟩
  rw [List.getElem?_map, List.getElem?_map, List.getElem?_modify]
  cases x.params[j]? with
  | none => rfl
  | some param =>
    simp only [Option.map_eq_map, Option.map_some]
    split <;> rfl

theorem Func.renoted_mapRecv (x : Func) (note : String) :
    x.Renoted { x with recv := x.recv.map fun param => { param with note := some note } } :=
  ⟨rfl, by cases x.recv <;> rfl, rfl⟩

namespace Program

/-! ## Reading after writing -/

theorem node_addNode (p : Program) (x : Node) (n : NodeId) :
    (p.addNode x).2.node n = if n.index = p.nodes.size then x else p.node n := by
  simp only [node, addNode, Array.getD_eq_getD_getElem?, Array.getElem?_push]
  split <;> rfl

theorem node_modifyNode (p : Program) (n m : NodeId) (f : Node → Node) :
    (p.modifyNode n f).node m = if m = n ∧ n.index < p.nodes.size then f (p.node n) else p.node m := by
  by_cases hm : m = n
  · subst hm
    by_cases hn : m.index < p.nodes.size
    · rw [if_pos ⟨rfl, hn⟩, node_modifyNode_self p f hn]
    · rw [if_neg fun h => hn h.2]
      simp [node, modifyNode, Array.getD_eq_getD_getElem?, hn]
  · rw [if_neg fun h => hm h.1, node_modifyNode_of_ne p f hm]

/-- What holds of a node and itself, and of the node that is changed and what it becomes, holds of each node. -/
theorem rel_modifyNode {R : Node → Node → Prop} (hrefl : ∀ x, R x x) {p : Program} {n : NodeId} {f : Node → Node} (m : NodeId)
    (h : R (p.node n) (f (p.node n))) : R (p.node m) ((p.modifyNode n f).node m) := by
  rw [node_modifyNode]
  split
  · rename_i hm
    rw [hm.1]
    exact h
  · exact hrefl _

theorem size_modifyNode (p : Program) (n : NodeId) (f : Node → Node) : (p.modifyNode n f).nodes.size = p.nodes.size :=
  Array.size_modify ..

theorem func_addFunc (p : Program) (x : Func) (f : FuncId) :
    (p.addFunc x).2.func f = if f.index = p.funcs.size then x else p.func f := by
  simp only [func, addFunc, Array.getD_eq_getD_getElem?, Array.getElem?_push]
  split <;> rfl

theorem func_modifyFunc (p : Program) (f h : FuncId) (g : Func → Func) :
    (p.modifyFunc f g).func h = if h = f ∧ f.index < p.funcs.size then g (p.func f) else p.func h := by
  by_cases hh : h = f
  · subst hh
    by_cases hf : h.index < p.funcs.size
    · simp [func, modifyFunc, Array.getD_eq_getD_getElem?, Array.getElem_modify, hf]
    · simp [func, modifyFunc, Array.getD_eq_getD_getElem?, hf]
  · have hne : f.index ≠ h.index := fun e => hh (FuncId.ext e.symm)
    simp [func, modifyFunc, Array.getD_eq_getD_getElem?, Array.getElem?_modify, hne, hh]

theorem rel_modifyFunc {R : Func → Func → Prop} (hrefl : ∀ x, R x x) {p : Program} {f : FuncId} {g : Func → Func} (k : FuncId)
    (h : R (p.func f) (g (p.func f))) : R (p.func k) ((p.modifyFunc f g).func k) := by
  rw [func_modifyFunc]
  split
  · rename_i hk
    rw [hk.1]
    exact h
  · exact hrefl _

theorem node_of_size_le (p : Program) {n : NodeId} (h : p.nodes.size ≤ n.index) : p.node n = default := by
  simp [node, Array.getD_eq_getD_getElem?, h]

theorem func_of_size_le (p : Program) {f : FuncId} (h : p.funcs.size ≤ f.index) : p.func f = default := by
  simp [func, Array.getD_eq_getD_getElem?, h]

/-! ## Where references come from -/

/-- A node or a function of the program refers to the node. -/
def Refers (p : Program) (m : NodeId) : Prop := (∃ n, m ∈ (p.node n).refs) ∨ ∃ f, m ∈ (p.func f).refs

theorem refers_addNode {p : Program} {x : Node} {m : NodeId} (h : (p.addNode x).2.Refers m) :
    p.Refers m ∨ m ∈ x.refs := by
  rcases h with ⟨n, hm⟩ | hf
  · rw [node_addNode] at hm
    split at hm
    · exact Or.inr hm
    · exact Or.inl (Or.inl ⟨n, hm⟩)
  · exact Or.inl (Or.inr hf)

theorem refers_modifyNode {p : Program} {n : NodeId} {f : Node → Node} {m : NodeId} (h : (p.modifyNode n f).Refers m) :
    p.Refers m ∨ m ∈ (f (p.node n)).refs := by
  rcases h with ⟨k, hm⟩ | hf
  · rw [node_modifyNode] at hm
    split at hm
    · exact Or.inr hm
    · exact Or.inl (Or.inl ⟨k, hm⟩)
  · exact Or.inl (Or.inr hf)

theorem node_empty (n : NodeId) : ({} : Program).node n = default := node_of_size_le _ (Nat.zero_le _)

theorem func_empty (f : FuncId) : ({} : Program).func f = default := func_of_size_le _ (Nat.zero_le _)

theorem refers_addFunc {p : Program} {x : Func} {m : NodeId} (h : (p.addFunc x).2.Refers m) :
    p.Refers m ∨ m ∈ x.refs := by
  rcases h with hn | ⟨f, hm⟩
  · exact Or.inl (Or.inl hn)
  · rw [func_addFunc] at hm
    split at hm
    · exact Or.inr hm
    · exact Or.inl (Or.inr ⟨f, hm⟩)

theorem refers_modifyFunc {p : Program} {f : FuncId} {g : Func → Func} {m : NodeId} (h : (p.modifyFunc f g).Refers m) :
    p.Refers m ∨ m ∈ (g (p.func f)).refs := by
  rcases h with hn | ⟨k, hm⟩
  · exact Or.inl (Or.inl hn)
  · rw [func_modifyFunc] at hm
    split at hm
    · exact Or.inr hm
    · exact Or.inl (Or.inr ⟨k, hm⟩)

/-! ## Well-formed programs -/

/-- Every reference is to a node of the program. -/
def Closed (p : Program) : Prop := ∀ m, p.Refers m → m.index < p.nodes.size

theorem Closed.renoted {p q : Program} (h : p.Closed) (hnodes : q.nodes = p.nodes)
    (hfuncs : ∀ f, (p.func f).Renoted (q.func f)) : q.Closed := by
  rintro m (⟨n, hm⟩ | ⟨f, hm⟩)
  · rw [node, hnodes] at hm
    rw [hnodes]
    exact h m (Or.inl ⟨n, hm⟩)
  · rw [(hfuncs f).refs] at hm
    rw [hnodes]
    exact h m (Or.inr ⟨f, hm⟩)

/-- References lead to nodes of the program, and what a function declares are names of that function, its inputs
among them. -/
structure WellFormed (p : Program) : Prop where
  refs : p.Closed
  decls : ∀ f, ∀ n ∈ (p.func f).decls, (p.node n).op = .name ∧ (p.node n).curfn = some f
  inputs : ∀ f, ∀ param ∈ (p.func f).inputs, ∀ n, param.name = some n →
    n ∈ (p.func f).decls ∧ (p.node n).cls = .param

/-- Nodes may be added, and names keep what is declared. -/
theorem WellFormed.of_funcs_eq {p q : Program} (h : p.WellFormed)
    (hrefs : q.Closed) (hfuncs : q.funcs = p.funcs)
    (hnode : ∀ n, n.index < p.nodes.size → (p.node n).op = .name →
      (q.node n).op = .name ∧ (q.node n).curfn = (p.node n).curfn ∧ (q.node n).cls = (p.node n).cls) :
    q.WellFormed := by
  have hfunc (f : FuncId) : q.func f = p.func f := by
    unfold func
    rw [hfuncs]
  have hdecl {f : FuncId} {n : NodeId} (hn : n ∈ (p.func f).decls) :=
    hnode n (h.refs n (Or.inr ⟨f, Func.mem_refs_decls hn⟩)) (h.decls f n hn).1
  refine ⟨hrefs, ?_, ?_⟩
  · intro f n hn
    rw [hfunc] at hn
    exact ⟨(hdecl hn).1, (hdecl hn).2.1.trans (h.decls f n hn).2⟩
  · intro f param hparam n hn
    rw [hfunc] at hparam ⊢
    obtain ⟨hmem, hcls⟩ := h.inputs f param hparam n hn
    exact ⟨hmem, (hdecl hmem).2.2.trans hcls⟩

/-- Notes on inputs do not make a program less well formed. -/
theorem WellFormed.renoted {p q : Program} (h : p.WellFormed) (hnodes : q.nodes = p.nodes)
    (hfuncs : ∀ f, (p.func f).Renoted (q.func f)) : q.WellFormed := by
  have hnode (n : NodeId) : q.node n = p.node n := by
    unfold node
    rw [hnodes]
  refine ⟨h.refs.renoted hnodes hfuncs, ?_, ?_⟩
  · intro f n hn
    rw [(hfuncs f).decls] at hn
    rw [hnode]
    exact h.decls f n hn
  · intro f param hparam n hn
    have hmem : some n ∈ (p.func f).inputs.map (·.name) := by
      rw [← (hfuncs f).names]
      exact List.mem_map.2 ⟨param, hparam, hn⟩
    obtain ⟨param', hparam', hn'⟩ := List.mem_map.1 hmem
    rw [(hfuncs f).decls, hnode]
    exact h.inputs f param' hparam' n hn'

end Program

end EscapeAnalysis

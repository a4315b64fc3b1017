import EscapeAnalysis.Proofs.Building.Scripts
import EscapeAnalysis.Proofs.Recording.Lasting
import EscapeAnalysis.Proofs.Recording.LoopDepths

/-!
# Arguments that calls keep to themselves

A call of a function whose notes say that an argument does not escape records no flow of that argument, and marks it.
If the argument is used nowhere else, then no flow of the whole recording starts from it, apart from those into the
conversions around it; and these are no variables, and are used nowhere else either.

* `keptArgs` : the arguments that notes let a call keep;
* `Flow.Shelter s` : what a recording that starts from `s` walks over, which arguments it keeps, and why they are used
  nowhere else;
* `Shelter.Free S q n` : nothing that is kept is among the sources of the value of `n`;
* `Shelter.Sound S t` : the flows of `t` come from what is free, or go into a conversion that is kept;
* `Shelter.Guards S t m Q` : the operation keeps that, and `Q` holds of its result if it comes to its end;
* `guards_assign`, `guards_restArg` : assignments, and the slice of the `...` arguments.
-/

namespace EscapeAnalysis

/-- The arguments for the parameters whose notes say that they do not escape, up to the `...` ones. -/
def keptArgs (spread : Bool) : List Param → List NodeId → List NodeId
  | param :: params, arg :: args =>
    if param.variadic && !spread then []
    else (if Word.ofNote param.note = .plain .none then [arg] else []) ++ keptArgs spread params args
  | _, _ => []

theorem mem_of_mem_keptArgs {spread : Bool} {params : List Param} {args : List NodeId} {n : NodeId}
    (h : n ∈ keptArgs spread params args) : n ∈ args := by
  induction params generalizing args with
  | nil => cases h
  | cons param params ih =>
    cases args with
    | nil => cases h
    | cons arg args =>
      unfold keptArgs at h
      split at h
      · cases h
      · rcases List.mem_append.1 h with h | h
        · split at h
          · rw [List.mem_singleton.1 h]
            exact List.mem_cons_self
          · cases h
        · exact List.mem_cons_of_mem arg (ih h)

/-- What the value of a node may be made of: the operands, and the variable that a captured name stands for. The results
of a call are names of their own. -/
def Node.upstream (x : Node) : List NodeId :=
  if x.op = .name then if x.cls = .captured then x.origin.toList else []
  else if x.op.isCall then [] else x.left.toList ++ x.right.toList ++ x.list

namespace Node

variable {x : Node} {m : NodeId} (hname : x.op ≠ .name) (hcall : x.op.isCall = false)
include hname hcall

theorem mem_upstream : m ∈ x.upstream ↔ x.left = some m ∨ x.right = some m ∨ m ∈ x.list := by
  simp [upstream, hname, hcall, Option.mem_toList]

theorem mem_upstream_left (h : x.left = some m) : m ∈ x.upstream := (mem_upstream hname hcall).2 (Or.inl h)

theorem mem_upstream_right (h : x.right = some m) : m ∈ x.upstream := (mem_upstream hname hcall).2 (Or.inr (Or.inl h))

theorem mem_children_of_mem_upstream (h : m ∈ x.upstream) : m ∈ x.children := by
  rw [mem_upstream hname hcall] at h
  simp only [children, List.mem_append, Option.mem_toList]
  tauto

end Node

theorem Program.lt_size_of_noEscape (p : Program) {n : NodeId} (h : (p.node n).noEscape = true) :
    n.index < p.nodes.size := by
  refine Nat.lt_of_not_le fun hn => ?_
  rw [p.node_of_size_le hn] at h
  cases h

namespace Flow

/-- The call is known to call a function of another group, or one without a body: all that is known of it are its
notes. -/
def NotedCallee (s : Flow) (call : NodeId) (f : FuncId) : Prop :=
  s.program.calleeOf call = some f ∧ ¬ (s.program.isGroupCandidate f = true ∧ s.info.state f ≠ .noted)

/-- What was made between `s` and `t` has its marks in `u`. -/
structure Grows (s t u : Flow) : Prop where
  nodes : t.program.Extends u.program
  marks : ∀ n : NodeId, s.program.nodes.size ≤ n.index → n.index < t.program.nodes.size →
    (u.program.node n).noEscape = (t.program.node n).noEscape

/-- The node was made after `s`. -/
structure Made (s : Flow) (q : Program) (n : NodeId) (x : Node) : Prop where
  new : s.program.nodes.size ≤ n.index
  lt_size : n.index < q.nodes.size
  node : q.node n = x

section Grows

variable {s t u v : Flow} {n : NodeId}

theorem Grows.refl (t : Flow) : s.Grows t t := ⟨.refl _, fun _ _ _ => rfl⟩

theorem Grows.trans (h₁ : s.Grows t u) (h₂ : s.Grows u v) : s.Grows t v := by
  refine ⟨h₁.nodes.trans h₂.nodes, fun n hle hlt => ?_⟩
  rw [h₂.marks n hle (Nat.lt_of_lt_of_le hlt h₁.nodes.size_le), h₁.marks n hle hlt]

theorem Grows.op (h : s.Grows t u) (hop : (t.program.node n).op ≠ .block) :
    (u.program.node n).op = (t.program.node n).op :=
  (h.nodes.node n (t.program.lt_size_of_op_ne hop)).op

theorem Grows.name (h : s.Grows t u) (hop : (t.program.node n).op = .name) : (u.program.node n).op = .name := by
  rw [h.op (by simp [hop]), hop]

end Grows

section Hang

variable {s : Flow} {call n : NodeId} (hcall : call.index < s.program.nodes.size) (x : Node)

theorem node_hang_of_ne (hn : n.index < s.program.nodes.size) (hne : n ≠ call) :
    (s.hang call x).program.node n = s.program.node n :=
  (Program.node_modifyNode_of_ne _ _ hne).trans (Program.node_addNode_of_lt _ _ hn)

/-- The slice is the only node that is made. -/
theorem eq_of_lt_size_hang (hn : ¬ n.index < s.program.nodes.size)
    (hlt : n.index < (s.hang call x).program.nodes.size) : n = ⟨s.program.nodes.size⟩ := by
  unfold hang at hlt
  rw [Program.size_modifyNode, Program.size_addNode] at hlt
  exact NodeId.ext (Nat.le_antisymm (Nat.le_of_lt_succ hlt) (Nat.le_of_not_lt hn))

include hcall

theorem node_hang_call : (s.hang call x).program.node call =
    { s.program.node call with right := some ⟨s.program.nodes.size⟩ } := by
  have hlt := Nat.lt_of_lt_of_le hcall (s.program.extends_addNode x).size_le
  unfold hang
  dsimp only
  rw [Program.node_modifyNode_self _ _ hlt, Program.node_addNode_of_lt _ _ hcall]

theorem node_hang_self : (s.hang call x).program.node ⟨s.program.nodes.size⟩ = x := by
  refine (Program.node_modifyNode_of_ne _ _ ?_).trans (Program.node_addNode_self _ _)
  rintro rfl
  exact absurd hcall (Nat.lt_irrefl _)

theorem noEscape_hang (hn : n.index < s.program.nodes.size) :
    ((s.hang call x).program.node n).noEscape = (s.program.node n).noEscape := by
  by_cases he : n = call
  · rw [he, node_hang_call hcall]
  · rw [node_hang_of_ne x hn he]

theorem extends_hang (hop : (s.program.node call).op.isCall = true) (hlist : (s.program.node call).list ≠ [])
    {array : NodeId} (harray : (s.program.node array).op = .arrayLit) (hparts : (s.program.node array).children = [])
    (hx : x.op = .restArg) (hchildren : x.children = [array]) : s.program.Extends (s.hang call x).program := by
  have hold {n : NodeId} (hn : n.index < s.program.nodes.size) : (s.program.addNode x).2.node n = s.program.node n :=
    Program.node_addNode_of_lt _ _ hn
  have hself : (s.program.addNode x).2.node ⟨s.program.nodes.size⟩ = x := Program.node_addNode_self _ _
  have hlt := s.program.lt_size_of_op_ne (n := array) (by simp [harray])
  have hhung : (s.program.addNode x).2.Hung ⟨s.program.nodes.size⟩ := by
    refine ⟨by rw [hself, hx], array, by rw [hself, hchildren], ?_, ?_⟩
    · rw [hold hlt, harray]
    · rw [hold hlt, hparts]
  refine (s.program.extends_addNode x).trans (Program.extends_right ?_ ?_ hhung)
  · rw [hold hcall, hop]
  · rw [hold hcall]
    exact hlist

end Hang

/-- The nodes that a recording from `s` walks over, and what of them is kept: an argument that a call keeps to itself
is no part of any other node, and neither is what is left of it without a conversion. -/
structure Shelter (s : Flow) where
  inside : NodeId → Prop
  kept : NodeId → Prop
  /-- The calls that run on their own, after the statement they are part of. -/
  loud : NodeId → Prop
  closed : s.program.Closed
  lt_size : ∀ n, inside n → n.index < s.program.nodes.size
  part : ∀ n, inside n → ∀ m ∈ (s.program.node n).children, inside m
  alone : ∀ n, inside n → ∀ m ∈ (s.program.node n).children, (s.program.node m).op.isCall = true →
    (loud m ↔ (s.program.node n).op = .deferStmt ∨ (s.program.node n).op = .goStmt)
  within : ∀ n, kept n → inside n
  unnamed : ∀ n, kept n → (s.program.node n).op ≠ .name
  plain : ∀ n, inside n → (s.program.node n).op.isCall = false → ¬ (kept n ∧ (s.program.node n).op = .convNop) →
    ∀ m ∈ (s.program.node n).children, ¬ kept m
  unwraps : ∀ n, kept n → (s.program.node n).op = .convNop → ∀ m, (s.program.node n).left = some m →
    (s.program.node m).op = .name ∨ kept m
  callee : ∀ n, inside n → (s.program.node n).op.isCall = true →
    ∀ m ∈ (s.program.node n).left.toList ++ (s.program.node n).right.toList, ¬ kept m
  arg : ∀ n, inside n → (s.program.node n).op.isCall = true → ∀ m ∈ (s.program.node n).list, kept m →
    ¬ loud n ∧ ∃ f, s.NotedCallee n f ∧
      m ∈ keptArgs (s.program.node n).variadic (s.program.func f).params (s.program.node n).list
  keeps : ∀ n, inside n → (s.program.node n).op.isCall = true → ¬ loud n → ∀ f, s.NotedCallee n f →
    ∀ m ∈ keptArgs (s.program.node n).variadic (s.program.func f).params (s.program.node n).list,
      (s.program.node m).op = .name ∨ kept m
  once : ∀ n, inside n → (s.program.node n).op.isCall = true → ∀ m ∈ (s.program.node n).list,
    (s.program.node m).op = .name ∨ (s.program.node n).list.count m ≤ 1
  entries : ∀ n, inside n → (s.program.node n).op.isComposite = true → ∀ m ∈ (s.program.node n).list,
    (s.program.node m).op = .key
  clauses : ∀ n, inside n → (s.program.node n).op = .switchStmt → ∀ m ∈ (s.program.node n).list,
    (s.program.node m).op = .caseClause
  captured : ∀ n, (s.program.node n).isNameOf .captured = true → ∀ m, (s.program.node n).origin = some m →
    (s.program.node m).op = .name
  captures : ∀ f, ∀ n ∈ (s.program.func f).captures, (s.program.node n).isNameOf .captured = true
  params : ∀ f, ∀ param ∈ (s.program.func f).inputs ++ (s.program.func f).results, ∀ n, param.name = some n →
    (s.program.node n).op = .name

namespace Shelter

variable {s : Flow} (S : s.Shelter)

/-- The node is a conversion that is kept. -/
def Wraps (n : NodeId) : Prop := S.kept n ∧ (s.program.node n).op = .convNop

/-- The node was there before the recording and is a name, or is walked over and not kept. -/
def Open (n : NodeId) : Prop :=
  (s.program.node n).op = .name ∨ S.inside n ∧ ¬ S.kept n

/-- The node is not kept, and neither is anything that its value is made of. -/
inductive Free (q : Program) : NodeId → Prop where
  | old {n : NodeId} (h : S.Open n) : Free q n
  | new {n : NodeId} (hle : s.program.nodes.size ≤ n.index) (hlt : n.index < q.nodes.size)
    (hmark : (q.node n).noEscape = false) (hup : ∀ m ∈ (q.node n).upstream, Free q m) : Free q n

/-- The node may be marked: it is kept, or it is new and no name. -/
def Markable (q : Program) (n : NodeId) : Prop :=
  S.kept n ∨ s.program.nodes.size ≤ n.index ∧ (q.node n).op ≠ .name

/-- Flows come from what is free or go into a conversion that is kept, results are names, and nothing gets marked but
what may be. -/
structure Sound (t : Flow) : Prop where
  nodes : s.program.Extends t.program
  funcs : t.program.funcs = s.program.funcs
  noted : ∀ f, t.info.state f = .noted ↔ s.info.state f = .noted
  edges : ∀ dst src, t.Edge dst src → S.Free t.program src ∨ S.Wraps dst
  results : ∀ n m : NodeId, m ∈ t.results.get n.index → S.Free t.program m ∧ (t.program.node m).op = .name
  slices : ∀ n, S.inside n → (s.program.node n).op.isCall = true → S.loud n → ∀ m, (t.program.node n).right = some m →
    S.Free t.program m
  marks : ∀ n, (t.program.node n).noEscape = true → (s.program.node n).noEscape = true ∨ S.Markable t.program n

variable {S} {t u v : Flow} {n m : NodeId}

/-! ## What is free -/

theorem Open.lt_size (h : S.Open n) : n.index < s.program.nodes.size := by
  rcases h with h | ⟨h, _⟩
  · exact s.program.lt_size_of_op_eq_name h
  · exact S.lt_size n h

/-- The parts of a node are open, unless the node is a call or a conversion that is kept. -/
theorem open_of_part (hn : S.inside n) (hcall : (s.program.node n).op.isCall = false) (hwraps : ¬ S.Wraps n)
    (hm : m ∈ (s.program.node n).children) : S.Open m :=
  Or.inr ⟨S.part n hn m hm, S.plain n hn hcall hwraps m hm⟩

theorem Open.upstream (h : S.Open n) (hm : m ∈ (s.program.node n).upstream) : S.Open m := by
  by_cases hname : (s.program.node n).op = .name
  · rw [Node.upstream, if_pos hname] at hm
    split at hm
    · rename_i hcls
      exact Or.inl (S.captured n (by simp [Node.isNameOf, hname, hcls]) m (Option.mem_toList.1 hm))
    · cases hm
  · cases hcall : (s.program.node n).op.isCall with
    | true => simp [Node.upstream, hname, hcall] at hm
    | false =>
      obtain ⟨hin, hkept⟩ := h.resolve_left hname
      exact open_of_part hin hcall (fun hwraps => hkept hwraps.1) (Node.mem_children_of_mem_upstream hname hcall hm)

theorem upstream_of_extends {p q : Program} (h : p.Extends q) (hn : n.index < p.nodes.size) :
    (q.node n).upstream = (p.node n).upstream := by
  obtain ⟨right, noEscape, he⟩ := h.node n hn
  cases hcall : (p.node n).op.isCall with
  | true =>
    rw [he]
    simp [Node.upstream, hcall]
  | false =>
    have hright : (q.node n).right = (p.node n).right := by
      rcases h.right n hn with hr | ⟨hr, _⟩
      · exact hr
      · rw [hcall] at hr
        cases hr
    rw [he] at hright ⊢
    simp only at hright
    simp only [Node.upstream, hright]

theorem Free.lt_size (h : S.Free t.program n) (ht : S.Sound t) : n.index < t.program.nodes.size := by
  cases h with
  | old h => exact Nat.lt_of_lt_of_le h.lt_size ht.nodes.size_le
  | new _ hlt _ _ => exact hlt

theorem Free.upstream (h : S.Free t.program n) (ht : S.Sound t) (hm : m ∈ (t.program.node n).upstream) :
    S.Free t.program m := by
  cases h with
  | old h =>
    rw [upstream_of_extends ht.nodes h.lt_size] at hm
    exact .old (h.upstream hm)
  | new _ _ _ hup => exact hup m hm

theorem Free.mono (h : S.Free t.program n) (htu : s.Grows t u) : S.Free u.program n := by
  induction h with
  | old h => exact .old h
  | new hle hlt hmark _ ih =>
    refine .new hle (Nat.lt_of_lt_of_le hlt htu.nodes.size_le) ?_ fun m hm => ?_
    · rw [htu.marks _ hle hlt]
      exact hmark
    · rw [upstream_of_extends htu.nodes hlt] at hm
      exact ih m hm

theorem Sound.name (h : S.Sound t) (hop : (s.program.node n).op = .name) : (t.program.node n).op = .name := by
  rw [(h.nodes.node n (s.program.lt_size_of_op_eq_name hop)).op, hop]

theorem Sound.func (h : S.Sound t) (f : FuncId) : t.program.func f = s.program.func f := by
  unfold Program.func
  rw [h.funcs]

/-! ## What keeps a graph sound -/

/-- A graph that grows stays sound, as long as new flows, results and slices are free and new marks are kept. -/
theorem Sound.grow (ht : S.Sound t) (htu : s.Grows t u) (hfuncs : u.program.funcs = t.program.funcs)
    (hnoted : ∀ f, u.info.state f = .noted ↔ t.info.state f = .noted)
    (hedges : ∀ dst src, u.Edge dst src → t.Edge dst src ∨ S.Free u.program src ∨ S.Wraps dst)
    (hresults : ∀ n m : NodeId, m ∈ u.results.get n.index →
      m ∈ t.results.get n.index ∨ S.Free u.program m ∧ (u.program.node m).op = .name)
    (hslices : ∀ n : NodeId, n.index < s.program.nodes.size → S.loud n → ∀ m, (u.program.node n).right = some m →
      (t.program.node n).right = some m ∨ S.Free u.program m)
    (hmarks : ∀ n, (u.program.node n).noEscape = true → (t.program.node n).noEscape = true ∨ S.Markable u.program n) :
    S.Sound u := by
  refine ⟨ht.nodes.trans htu.nodes, hfuncs.trans ht.funcs, fun f => (hnoted f).trans (ht.noted f),
    fun dst src hsrc => ?_, fun n m hm => ?_, fun n hn hcall hloud m hm => ?_, fun n hmark => ?_⟩
  · rcases hedges dst src hsrc with hsrc | h
    · exact (ht.edges dst src hsrc).imp_left fun h => h.mono htu
    · exact h
  · rcases hresults n m hm with hm | h
    · obtain ⟨hfree, hop⟩ := ht.results n m hm
      exact ⟨hfree.mono htu, htu.name hop⟩
    · exact h
  · rcases hslices n (S.lt_size n hn) hloud m hm with hm | h
    · exact (ht.slices n hn hcall hloud m hm).mono htu
    · exact h
  · rcases hmarks n hmark with hmark | h
    · refine (ht.marks n hmark).imp_right fun h => h.imp_right fun ⟨hle, hop⟩ => ⟨hle, ?_⟩
      rwa [(htu.nodes.node n (t.program.lt_size_of_noEscape hmark)).op]
    · exact Or.inr h

/-- A change that touches no node, no edge and no result. -/
theorem Sound.of_nodes_eq (ht : S.Sound t) (hnodes : u.program.nodes = t.program.nodes)
    (hfuncs : u.program.funcs = t.program.funcs) (hstates : u.info.states = t.info.states)
    (hsources : u.sources = t.sources) (hresults : u.results = t.results) : s.Grows t u ∧ S.Sound u := by
  have hnode (n : NodeId) : u.program.node n = t.program.node n := by
    unfold Program.node
    rw [hnodes]
  have htu : s.Grows t u := ⟨.of_nodes_eq hnodes, fun n _ _ => by rw [hnode]⟩
  refine ⟨htu, ht.grow htu hfuncs (fun f => ?_) (fun dst src h => ?_) (fun n m h => ?_) (fun n _ _ m h => ?_)
    fun n h => ?_⟩
  · unfold Info.state
    rw [hstates]
  · unfold Edge at h ⊢
    rw [hsources] at h
    exact Or.inl h
  · exact Or.inl (hresults ▸ h)
  · exact Or.inl (hnode n ▸ h)
  · exact Or.inl (hnode n ▸ h)

/-- A node that is made and put somewhere. -/
theorem Sound.addNode (ht : S.Sound t) {x : Node} (hx : x.noEscape = false) (d : Int) :
    s.Grows t { t with program := (t.program.addNode x).2, info := t.info.setDepth ⟨t.program.nodes.size⟩ d } ∧
      S.Sound { t with program := (t.program.addNode x).2, info := t.info.setDepth ⟨t.program.nodes.size⟩ d } := by
  have hnode {n : NodeId} (hn : n.index < t.program.nodes.size) :
      (t.program.addNode x).2.node n = t.program.node n := Program.node_addNode_of_lt _ _ hn
  have hle := ht.nodes.size_le
  have htu : s.Grows t { t with
      program := (t.program.addNode x).2, info := t.info.setDepth ⟨t.program.nodes.size⟩ d } :=
    ⟨t.program.extends_addNode x, fun n _ hn => by dsimp only; rw [hnode hn]⟩
  refine ⟨htu, ht.grow htu rfl (fun _ => Iff.rfl) (fun _ _ h => Or.inl h) (fun _ _ h => Or.inl h)
    (fun n hn _ m h => Or.inl ?_) fun n h => Or.inl ?_⟩
  · dsimp only at h
    rwa [hnode (Nat.lt_of_lt_of_le hn hle)] at h
  · by_cases hn : n.index < t.program.nodes.size
    · dsimp only at h
      rwa [hnode hn] at h
    · rw [Program.node_addNode] at h
      split at h
      · rw [hx] at h
        cases h
      · exact h

/-- A node that is made of what is free. -/
theorem free_of_made {q : Program} {x : Node} (h : s.Made q n x) (hmark : x.noEscape = false)
    (hup : ∀ m ∈ x.upstream, S.Free q m) : S.Free q n :=
  .new h.new h.lt_size (by rw [h.node, hmark]) (by rwa [h.node])

/-! ## Rules -/

variable (S) in
def Steps (t u : Flow) : Prop := s.Grows t u ∧ S.Sound u

theorem Sound.rest (ht : S.Sound t) : S.Steps t t := ⟨.refl t, ht⟩

instance : Conduct S.Steps (anyFault (φ := EscapeError × Flow)) where
  trans h₁ h₂ := ⟨h₁.1.trans h₂.1, h₂.2⟩
  stop _ _ := trivial
  rest h := h.2.rest

variable (S) in
/-- If the operation comes to its end, then the graph is sound again, and `Q` holds. -/
abbrev Guards {α : Type} (t : Flow) (m : FlowM α) (Q : α → Flow → Prop) : Prop := Triple S.Steps anyFault t m Q

section Rules

variable {α β : Type} {Q Q' : α → Flow → Prop} {R : β → Flow → Prop} {op : FlowM α}

theorem Guards.bind {f : α → FlowM β} (h : S.Guards t op Q)
    (hf : ∀ a u, s.Grows t u → S.Sound u → Q a u → S.Guards u (f a) R) : S.Guards t (op >>= f) R :=
  Triple.bind h fun a u hu hq => hf a u hu.1 hu.2 hq

theorem guards_forM {f : β → FlowM PUnit} (ht : S.Sound t) (xs : List β)
    (h : ∀ x ∈ xs, ∀ u, s.Grows t u → S.Sound u → S.Guards u (f x) fun _ _ => True) :
    S.Guards t (xs.forM f) fun _ _ => True :=
  triple_forM_of ht.rest xs fun x hx u hu => h x hx u hu.1 hu.2

theorem guards_withTypes (ht : S.Sound t) (f : TypeStore → α × TypeStore) :
    S.Guards t (withTypes f) fun _ _ => True :=
  ⟨ht.of_nodes_eq (u := { t with program := { t.program with types := (f t.program.types).2 } }) rfl rfl rfl rfl rfl,
    trivial⟩

theorem guards_ptrTo (ht : S.Sound t) (ty : Option Ty) : S.Guards t (ptrTo ty) fun _ _ => True := by
  cases ty with
  | none => exact triple_pure_of ht.rest trivial
  | some ty => exact (guards_withTypes ht _).map fun _ _ h => h

theorem guards_setDepth (ht : S.Sound t) (n : NodeId) (d : Int) : S.Guards t (setDepth n d) fun _ _ => True :=
  triple_modify (ht.of_nodes_eq rfl rfl rfl rfl rfl)

theorem guards_markPending (ht : S.Sound t) (n : NodeId) : S.Guards t (markPending n) fun _ _ => True :=
  triple_modify (ht.of_nodes_eq rfl rfl rfl rfl rfl)

/-- A node that is made and put somewhere. -/
theorem guards_place (ht : S.Sound t) {x : Node} (hx : x.noEscape = false) {d : Int} {f : NodeId → FlowM α}
    (h : ∀ n u, s.Grows t u → S.Sound u → s.Made u.program n x → S.Guards u (f n) Q) :
    S.Guards t (do let n ← addNode x; setDepth n d; f n) Q := by
  obtain ⟨hgrows, hsound⟩ := ht.addNode hx d
  refine (h _ _ hgrows hsound ⟨ht.nodes.size_le, ?_, Program.node_addNode_self _ _⟩).after ⟨hgrows, hsound⟩ rfl
  dsimp only
  rw [Program.size_addNode]
  exact Nat.lt_succ_self _

end Rules

/-! ## Assignments -/

theorem guards_link (ht : S.Sound t) {dst src : NodeId} (hsrc : S.Free t.program src ∨ S.Wraps dst) :
    S.Guards t (link dst src) fun _ _ => True := by
  refine triple_modify ?_
  split
  · exact ⟨.refl t, ht⟩
  · have htu : s.Grows t (t.addEdge dst src) := ⟨.refl _, fun _ _ _ => rfl⟩
    refine ⟨htu, ht.grow htu rfl (fun _ => Iff.rfl) (fun d x h => ?_) (fun _ _ h => Or.inl h) (fun _ _ _ _ h => Or.inl h)
      fun _ h => Or.inl h⟩
    rcases edge_addEdge_iff.1 h with h | ⟨rfl, rfl⟩
    · exact Or.inl h
    · exact Or.inr hsrc

theorem guards_closureAddress (ht : S.Sound t) (src : NodeId) (x : Node) :
    S.Guards t (closureAddress src x) fun addr u => S.Free t.program src → S.Free u.program addr := by
  refine (guards_ptrTo ht x.ty).bind fun ty u htu hu _ => ?_
  refine triple_placeAt (guards_place hu rfl fun addr v huv hv hmade => ?_)
  refine triple_pure_of hv.rest fun hsrc => free_of_made hmade rfl fun m hm => ?_
  rw [Node.mem_upstream (by simp) rfl] at hm
  simp only [Option.some.injEq, reduceCtorEq, List.not_mem_nil, or_false] at hm
  rw [← hm]
  exact (hsrc.mono htu).mono huv

/-- The flows of an expression come from what it is made of. -/
theorem guards_carry (ht : S.Sound t) {dst src : NodeId} (hsrc : S.Free t.program src ∨ S.Wraps dst) (fuel : Nat) :
    S.Guards t (carry dst fuel src) fun _ _ => True := by
  induction fuel generalizing t src with
  | zero => exact triple_throw trivial
  | succ fuel ih =>
    rw [carry_succ]
    refine triple_getProgram ?_
    dsimp only
    split
    · exact guards_link ht hsrc
    rename_i hsource
    split
    · refine (guards_closureAddress ht src _).bind fun addr u _ hu haddr => ?_
      exact guards_link hu (hsrc.imp_left haddr)
    split
    · refine triple_resultsOf (guards_forM ht _ fun m hm u htu hu => guards_link hu (Or.inl ?_))
      exact (ht.results src m hm).1.mono htu
    · rename_i hcall
      have hname : (t.program.node src).op ≠ .name := fun hop => hsource (by rw [hop]; rfl)
      refine guards_forM ht _ fun m hm u htu hu => ih hu (hsrc.imp_left fun h => (h.upstream ht ?_).mono htu)
      exact (Node.mem_upstream hname (Bool.eq_false_iff.2 hcall)).2
        (Node.mem_of_mem_operands (Program.mem_operands_of_mem_givers hm))

theorem guards_carryAll (ht : S.Sound t) {dst src : NodeId} (hsrc : S.Free t.program src ∨ S.Wraps dst) :
    S.Guards t (carryAll dst src) fun _ _ => True :=
  triple_getProgram (guards_carry ht hsrc _)

theorem guards_lose (ht : S.Sound t) {src : NodeId} (hsrc : S.Free t.program src) :
    S.Guards t (lose src) fun _ _ => True :=
  triple_get (guards_carryAll ht (Or.inl hsrc))

/-- The key of a destination in a map is part of the destination. -/
theorem free_of_place (ht : S.Sound t) {dst key : NodeId} (hdst : S.Free t.program dst) {fuel : Nat}
    (h : t.program.place fuel dst = .ok (.lost (some key))) : S.Free t.program key := by
  have hwhole {b : NodeId} (hb : Relation.ReflTransGen t.program.PieceOf dst b) : S.Free t.program b := by
    induction hb with
    | refl => exact hdst
    | tail _ hm ih =>
      refine ih.upstream ht ?_
      cases hm with
      | field hop hleft | element hop hleft => exact Node.mem_upstream_left (by simp [hop]) (by rw [hop]; rfl) hleft
  rcases Program.place_eq_ok h with h | ⟨b, hb, ⟨h, _⟩ | ⟨k, h, hkey⟩⟩ <;> cases h
  obtain ⟨hop, hright⟩ := hkey key rfl
  exact (hwhole hb).upstream ht (Node.mem_upstream_right (by simp [hop]) (by rw [hop]; rfl) hright)

theorem guards_assign (ht : S.Sound t) {dst src : NodeId} (hdst : S.Free t.program dst)
    (hsrc : S.Free t.program src) : S.Guards t (assign dst src) fun _ _ => True := by
  unfold assign
  refine triple_getProgram ?_
  split
  · exact triple_throw trivial
  · exact triple_pure_of ht.rest trivial
  · exact guards_carryAll ht (Or.inl hsrc)
  · rename_i key hplace
    have hkey : S.Guards t (key.forM lose) fun _ _ => True := by
      refine triple_optionForM_of ht.rest _ fun m hm => guards_lose ht ?_
      rw [hm] at hplace
      exact free_of_place ht hdst hplace
    exact hkey.bind fun _ u htu hu _ => guards_lose hu (hsrc.mono htu)

/-- An expression that keeps what flows into it is no place for a key. -/
theorem guards_assign_of_keeps (ht : S.Sound t) {dst src : NodeId} (hname : (t.program.node dst).op ≠ .name)
    (hkeeps : (t.program.node dst).keeps = true) (hsrc : S.Free t.program src ∨ S.Wraps dst) :
    S.Guards t (assign dst src) fun _ _ => True := by
  have hplace (fuel : Nat) : t.program.place (fuel + 1) dst = .ok (.tracked dst) := by
    unfold Program.place Node.isBlank
    unfold Node.keeps at hkeeps
    cases hop : (t.program.node dst).op <;> simp_all
  unfold assign
  refine triple_getProgram ?_
  rw [hplace]
  exact guards_carryAll ht hsrc

theorem guards_derefNode (ht : S.Sound t) {n : NodeId} (hn : S.Free t.program n) :
    S.Guards t (derefNode n) fun m u => S.Free u.program m := by
  refine triple_getProgram (triple_placeAt (guards_place ht rfl fun deref u htu hu hmade => ?_))
  refine triple_pure_of hu.rest (free_of_made hmade rfl fun m hm => ?_)
  rw [Node.mem_upstream (by simp) rfl] at hm
  simp only [Option.some.injEq, reduceCtorEq, List.not_mem_nil, or_false] at hm
  rw [← hm]
  exact hn.mono htu

theorem guards_derefTimes (ht : S.Sound t) (k : Nat) {n : NodeId} (hn : S.Free t.program n) :
    S.Guards t (derefTimes k n) fun m u => S.Free u.program m := by
  induction k generalizing t n with
  | zero => exact triple_pure_of ht.rest hn
  | succ k ih => exact (guards_derefNode ht hn).bind fun m _ _ hu hm => ih hu hm

/-! ## Marks and slices -/

variable (S) in
/-- The argument may be marked: it is kept, or it is a name and is not marked at all. -/
def Local (q : Program) (n : NodeId) : Prop := (q.node n).op = .name ∨ S.kept n

theorem Local.unwrap (ht : S.Sound t) (hn : S.Local t.program n) {fuel : Nat}
    (h : t.program.unwrap fuel n = some m) : S.Local t.program m := by
  induction fuel generalizing n with
  | zero => cases h
  | succ fuel ih =>
    unfold Program.unwrap at h
    split at h
    · rename_i hop
      obtain ⟨k, hk, h⟩ := Option.bind_eq_some_iff.1 h
      have hkept : S.kept n := hn.resolve_left (by simp [hop])
      have hsame := ht.nodes.node n (S.lt_size n (S.within n hkept))
      rw [hsame.op] at hop
      rw [hsame.left] at hk
      exact ih ((S.unwraps n hkept hop k hk).imp_left ht.name) h
    · cases h
      exact hn

/-- What is kept may be marked. -/
theorem guards_markStatementLocal (ht : S.Sound t) (hn : S.Local t.program n) :
    S.Guards t (markStatementLocal n) fun _ _ => True := by
  rcases markStatementLocal_eq t n with he | ⟨m, hm, hop, he⟩
  · exact triple_of_eq_ok he ht.rest trivial
  · refine triple_of_eq_ok he ?_ trivial
    have hkept : S.kept m := (hn.unwrap ht hm).resolve_left hop
    have hlt := S.lt_size m (S.within m hkept)
    have hnode (k : NodeId) (hk : k ≠ m) : (t.markNode m).program.node k = t.program.node k :=
      Program.node_modifyNode_of_ne _ _ hk
    have hright (k : NodeId) : ((t.markNode m).program.node k).right = (t.program.node k).right := by
      by_cases hk : k = m
      · rw [hk]
        unfold markNode
        dsimp only
        rw [Program.node_modifyNode_self _ _ (Nat.lt_of_lt_of_le hlt ht.nodes.size_le)]
      · rw [hnode k hk]
    have htu : s.Grows t (t.markNode m) := by
      refine ⟨t.program.extends_noEscape m, fun k hle _ => ?_⟩
      rw [hnode k]
      rintro rfl
      exact absurd hlt (Nat.not_lt.2 hle)
    refine ⟨htu, ht.grow htu rfl (fun _ => Iff.rfl) (fun _ _ h => Or.inl h) (fun _ _ h => Or.inl h)
      (fun k _ _ r h => Or.inl (hright k ▸ h)) fun k h => ?_⟩
    by_cases hk : k = m
    · exact Or.inr (Or.inl (hk ▸ hkept))
    · rw [hnode k hk] at h
      exact Or.inl h

section Slices

variable (ht : S.Sound t) {call : NodeId} (hin : S.inside call) (hcall : (s.program.node call).op.isCall = true)
  (hlist : (s.program.node call).list ≠ [])
include ht hin hcall hlist

/-- The array of the arguments is free, so the slice is, as long as it is not marked. -/
theorem Sound.hang {array : NodeId} (hop : (t.program.node array).op = .arrayLit)
    (hparts : (t.program.node array).children = []) (harray : S.Free t.program array) {x : Node}
    (hx : x.op = .restArg) (hup : x.upstream = [array]) (hchildren : x.children = [array]) (hmark : x.noEscape = false) :
    s.Grows t (t.hang call x) ∧ S.Sound (t.hang call x) ∧ S.Free (t.hang call x).program ⟨t.program.nodes.size⟩ := by
  have hsame := ht.nodes.node call (S.lt_size call hin)
  have hlt := Nat.lt_of_lt_of_le (S.lt_size call hin) ht.nodes.size_le
  have hext := extends_hang hlt x (hsame.op ▸ hcall) (hsame.list ▸ hlist) hop hparts hx hchildren
  have htu : s.Grows t (t.hang call x) := ⟨hext, fun n _ hn => noEscape_hang hlt x hn⟩
  have hfree : S.Free (t.hang call x).program ⟨t.program.nodes.size⟩ := by
    refine .new ht.nodes.size_le ?_ (by rw [node_hang_self hlt, hmark]) fun m hm => ?_
    · refine (t.hang call x).program.lt_size_of_op_ne ?_
      rw [node_hang_self hlt, hx]
      simp
    · rw [node_hang_self hlt, hup, List.mem_singleton] at hm
      rw [hm]
      exact harray.mono htu
  refine ⟨htu, ht.grow htu rfl (fun _ => Iff.rfl) (fun _ _ h => Or.inl h) (fun _ _ h => Or.inl h) (fun n hn _ m h => ?_)
    (fun n h => ?_), hfree⟩
  · by_cases he : n = call
    · rw [he, node_hang_call hlt] at h
      cases h
      exact Or.inr hfree
    · rw [node_hang_of_ne x (Nat.lt_of_lt_of_le hn ht.nodes.size_le) he] at h
      exact Or.inl h
  · by_cases hn : n.index < t.program.nodes.size
    · rw [noEscape_hang hlt x hn] at h
      exact Or.inl h
    · rw [eq_of_lt_size_hang x hn (Program.lt_size_of_noEscape _ h), node_hang_self hlt, hmark] at h
      cases h

/-- The slice may be marked if the call does not run on its own: then nothing takes the slice from the call. -/
theorem Sound.hang_marked {array : NodeId} (hop : (t.program.node array).op = .arrayLit)
    (hparts : (t.program.node array).children = []) {x : Node} (hx : x.op = .restArg) (hchildren : x.children = [array])
    (hloud : ¬ S.loud call) : s.Grows t ((t.hang call x).markNode ⟨t.program.nodes.size⟩) ∧
      S.Sound ((t.hang call x).markNode ⟨t.program.nodes.size⟩) := by
  have hsame := ht.nodes.node call (S.lt_size call hin)
  have hlt := Nat.lt_of_lt_of_le (S.lt_size call hin) ht.nodes.size_le
  have hext := extends_hang hlt x (hsame.op ▸ hcall) (hsame.list ▸ hlist) hop hparts hx hchildren
  have hnode {n : NodeId} (hn : n.index < t.program.nodes.size) :
      ((t.hang call x).markNode ⟨t.program.nodes.size⟩).program.node n = (t.hang call x).program.node n := by
    refine Program.node_modifyNode_of_ne _ _ ?_
    rintro rfl
    exact absurd hn (Nat.lt_irrefl _)
  have htu : s.Grows t ((t.hang call x).markNode ⟨t.program.nodes.size⟩) := by
    refine ⟨hext.trans (Program.extends_noEscape _ _), fun n _ hn => ?_⟩
    rw [hnode hn, noEscape_hang hlt x hn]
  refine ⟨htu, ht.grow htu rfl (fun _ => Iff.rfl) (fun _ _ h => Or.inl h) (fun _ _ h => Or.inl h)
    (fun n hn hl m h => Or.inl ?_) fun n h => ?_⟩
  · have hne : n ≠ call := fun he => hloud (he ▸ hl)
    have hn' := Nat.lt_of_lt_of_le hn ht.nodes.size_le
    rw [hnode hn', node_hang_of_ne x hn' hne] at h
    exact h
  · by_cases hn : n.index < t.program.nodes.size
    · rw [hnode hn, noEscape_hang hlt x hn] at h
      exact Or.inl h
    · have hlt' := Program.lt_size_of_noEscape _ h
      unfold markNode at hlt'
      rw [Program.size_modifyNode] at hlt'
      have hsame := (Program.extends_noEscape (t.hang call x).program ⟨t.program.nodes.size⟩).node n hlt'
      rw [eq_of_lt_size_hang x hn hlt'] at hsame ⊢
      refine Or.inr (Or.inr ⟨ht.nodes.size_le, ?_⟩)
      show ((t.hang call x).program.modifyNode _ _ |>.node _).op ≠ .name
      rw [hsame.op, node_hang_self hlt, hx]
      simp

/-- The slice of free arguments is free, and may be marked if the call does not run on its own. -/
theorem guards_restArg (sliceTy : Option Ty) {args : List NodeId} (hargs : ∀ a ∈ args, S.Free t.program a) :
    S.Guards t (restArg call sliceTy args) fun rest u => S.Free u.program rest ∧
      (¬ S.loud call → ∀ a v, markStatementLocal rest u = .ok a v → s.Grows t v ∧ S.Sound v) := by
  unfold restArg
  refine triple_getProgram ?_
  extract_lets line jp
  have hjp (arrayTy : Option Ty) {u : Flow} (htu : s.Grows t u) (hu : S.Sound u) :
      S.Guards u (jp arrayTy) fun rest v => S.Free v.program rest ∧
        (¬ S.loud call → ∀ a w, markStatementLocal rest v = .ok a w → s.Grows t w ∧ S.Sound w) := by
    refine (guards_ptrTo hu arrayTy).bind fun ty u₁ h₁ hu₁ _ => triple_get ?_
    refine guards_place hu₁ rfl fun array u₂ h₂ hu₂ hmade => ?_
    have harray : S.Free u₂.program array :=
      free_of_made hmade rfl fun m hm => absurd hm (by simp [Node.upstream, Op.isCall])
    have hassign : S.Guards u₂ (args.forM (assign array)) fun _ _ => True := by
      refine guards_forM hu₂ _ fun a ha v hv hsound => guards_assign hsound (harray.mono hv) ?_
      exact (((hargs a ha).mono (htu.trans h₁)).mono h₂).mono hv
    refine hassign.bind fun _ u₃ h₃ hu₃ _ => ?_
    have hop : (u₂.program.node array).op = .arrayLit := by rw [hmade.node]
    have hop₃ : (u₃.program.node array).op = .arrayLit := by rw [h₃.op (by simp [hop]), hop]
    have hparts : (u₃.program.node array).children = [] := by
      rw [h₃.nodes.children hmade.lt_size (by rw [hop]; rfl), hmade.node]
      rfl
    have htu₃ := ((htu.trans h₁).trans h₂).trans h₃
    obtain ⟨hhang, hsound, hfree⟩ := hu₃.hang hin hcall hlist hop₃ hparts (harray.mono h₃)
      (x := { op := .restArg, line, ty, left := some array, curfn := u₁.curfn }) rfl rfl rfl rfl
    refine Triple.after (triple_pure_of hsound.rest ⟨hfree, fun hloud a w hw => ?_⟩) ⟨hhang, hsound⟩ rfl
    have hlt := Nat.lt_of_lt_of_le (S.lt_size call hin) hu₃.nodes.size_le
    rcases markStatementLocal_eq (u₃.hang call _) ⟨u₃.program.nodes.size⟩ with he | ⟨m, hm, _, he⟩
    · rw [he] at hw
      cases hw
      exact ⟨htu₃.trans hhang, hsound⟩
    · rw [he] at hw
      cases hw
      rw [Program.unwrap, node_hang_self hlt, if_neg (by simp)] at hm
      cases hm
      obtain ⟨hgrows, hmarked⟩ := hu₃.hang_marked hin hcall hlist hop₃ hparts
        (x := { op := .restArg, line, ty, left := some array, curfn := u₁.curfn }) rfl rfl hloud
      exact ⟨htu₃.trans hgrows, hmarked⟩
  split
  · exact Guards.bind (Q := fun _ _ => True) ((guards_withTypes ht _).map fun _ _ h => h)
      fun arrayTy u htu hu _ => hjp arrayTy htu hu
  · exact hjp none (.refl t) ht

end Slices

end Shelter

end Flow

end EscapeAnalysis

import Mathlib.Logic.Relation
import EscapeAnalysis.Analysis
import EscapeAnalysis.Proofs.Building.References
import EscapeAnalysis.Proofs.Recording.Values
import EscapeAnalysis.Proofs.Triples
import EscapeAnalysis.Proofs.Types.Growth

/-!
# What recording flows can change

While the flows of a group are recorded, the graph changes by the steps of `Flow.Change` only. What a recording
keeps is shown for one change, and holds for every operation that is shown to make changes only.

* `Program.Extends p q` : what changes do to the nodes of a program;
* `Program.Confines p W` : a walk that starts in `W` stays there, or gets to what a recording hung below a call;
* `Area` : the part of a program that a recording works on, a parameter of all that follows;
* `Flow.Refs A s` : the graph refers to nodes of the area only;
* `Flow.Change`, `Flow.Changes` : one change, and any number of them;
* `Flow.Frame s t` : what changes keep, whatever the area;
* `Flow.Blames A e s` : what a fault tells of the graph at which a recording stops;
* `Flow.Records A s m Q` : the operation `m` makes changes only, whether it stops or not; if it does not stop, `Q`
  holds of its result and the graph it leaves.
-/

namespace EscapeAnalysis

open Relation (ReflTransGen)

/-- The two nodes differ at most in what a recording writes to nodes. -/
def Node.SameBut (x y : Node) : Prop := ∃ right noEscape, y = { x with right, noEscape }

theorem Node.SameBut.refl (x : Node) : x.SameBut x := ⟨x.right, x.noEscape, rfl⟩

theorem Node.SameBut.trans {x y z : Node} (h₁ : x.SameBut y) (h₂ : y.SameBut z) : x.SameBut z := by
  obtain ⟨_, _, rfl⟩ := h₁
  obtain ⟨right, noEscape, rfl⟩ := h₂
  exact ⟨right, noEscape, rfl⟩

theorem Node.SameBut.op {x y : Node} (h : x.SameBut y) : y.op = x.op := by
  obtain ⟨_, _, rfl⟩ := h
  rfl

theorem Node.SameBut.cls {x y : Node} (h : x.SameBut y) : y.cls = x.cls := by
  obtain ⟨_, _, rfl⟩ := h
  rfl

theorem Node.SameBut.curfn {x y : Node} (h : x.SameBut y) : y.curfn = x.curfn := by
  obtain ⟨_, _, rfl⟩ := h
  rfl

theorem Node.SameBut.ordinal {x y : Node} (h : x.SameBut y) : y.ordinal = x.ordinal := by
  obtain ⟨_, _, rfl⟩ := h
  rfl

theorem Node.SameBut.origin {x y : Node} (h : x.SameBut y) : y.origin = x.origin := by
  obtain ⟨_, _, rfl⟩ := h
  rfl

theorem Node.SameBut.func {x y : Node} (h : x.SameBut y) : y.func = x.func := by
  obtain ⟨_, _, rfl⟩ := h
  rfl

theorem Node.SameBut.list {x y : Node} (h : x.SameBut y) : y.list = x.list := by
  obtain ⟨_, _, rfl⟩ := h
  rfl

theorem Node.SameBut.left {x y : Node} (h : x.SameBut y) : y.left = x.left := by
  obtain ⟨_, _, rfl⟩ := h
  rfl

theorem Node.SameBut.isNameOf {x y : Node} (h : x.SameBut y) (cls : NodeClass) : y.isNameOf cls = x.isNameOf cls := by
  obtain ⟨_, _, rfl⟩ := h
  rfl

theorem Program.lt_size_of_op_ne (p : Program) {n : NodeId} (h : (p.node n).op ≠ .block) : n.index < p.nodes.size := by
  refine Nat.lt_of_not_le fun hn => h ?_
  rw [p.node_of_size_le hn]
  rfl

theorem Program.lt_size_of_op_eq_name (p : Program) {n : NodeId} (h : (p.node n).op = .name) :
    n.index < p.nodes.size :=
  p.lt_size_of_op_ne (by simp [h])

/-- The depth of the inputs and outputs of a function when its flows are recorded. -/
def NodeClass.homeDepth : NodeClass → Int
  | .result => 0
  | _ => 1

/-- The names that a node introduces: a declaration its variable, a switch over a type those of its clauses. -/
def Program.introduced (p : Program) (x : Node) : List NodeId :=
  match x.op with
  | .decl => x.left.toList
  | .switchStmt => p.clauseVars x
  | _ => []

/-- The operators of parts of variables: what they are part of is the variable that their operand is part of. -/
def Op.selects : Op → Bool
  | .dot | .index | .convNop => true
  | _ => false

theorem Node.SameBut.keeps {x y : Node} (h : x.SameBut y) : y.keeps = x.keeps := by
  obtain ⟨_, _, rfl⟩ := h
  rfl

/-! ## Programs that grow -/

namespace Program

/-- The node is the slice of the `...` arguments of a call, as a recording makes it: the address of an array
without parts. -/
def Hung (p : Program) (n : NodeId) : Prop :=
  (p.node n).op = .restArg ∧ ∃ array, (p.node n).children = [array] ∧
    (p.node array).op = .arrayLit ∧ (p.node array).children = []

/-- `q` has the nodes of `p`, and calls that have arguments may have got a slice for the `...` ones. -/
structure Extends (p q : Program) : Prop where
  size_le : p.nodes.size ≤ q.nodes.size
  node : ∀ n, n.index < p.nodes.size → (p.node n).SameBut (q.node n)
  right : ∀ n, n.index < p.nodes.size → (q.node n).right = (p.node n).right ∨
    (p.node n).op.isCall = true ∧ (p.node n).list ≠ [] ∧ ∃ rest, (q.node n).right = some rest ∧ q.Hung rest

theorem Extends.of_nodes_eq {p q : Program} (h : q.nodes = p.nodes) : p.Extends q := by
  have hnode (n : NodeId) : q.node n = p.node n := by
    unfold Program.node
    rw [h]
  refine ⟨Nat.le_of_eq (by rw [h]), fun n _ => ?_, fun n _ => Or.inl (by rw [hnode])⟩
  rw [hnode]
  exact .refl _

theorem Extends.refl (p : Program) : p.Extends p := .of_nodes_eq rfl

theorem Extends.children {p q : Program} (h : p.Extends q) {n : NodeId} (hn : n.index < p.nodes.size)
    (hop : (p.node n).op.isCall = false) : (q.node n).children = (p.node n).children := by
  have hright : (q.node n).right = (p.node n).right := by
    rcases h.right n hn with hr | ⟨hcall, _⟩
    · exact hr
    · rw [hop] at hcall
      cases hcall
  obtain ⟨right, noEscape, he⟩ := h.node n hn
  rw [he] at hright ⊢
  simp only at hright
  simp only [Node.children, hright]

theorem Extends.part {p q : Program} (h : p.Extends q) {n m : NodeId} (hn : n.index < p.nodes.size)
    (hm : m ∈ (q.node n).children) : m ∈ (p.node n).children ∨ q.Hung m := by
  obtain ⟨right, noEscape, he⟩ := h.node n hn
  have hmem : m ∈ (p.node n).children ∨ (q.node n).right = some m := by
    rw [he] at hm ⊢
    simp only [Node.children, List.mem_append, Option.mem_toList] at hm ⊢
    grind
  rcases hmem with hm | hright
  · exact Or.inl hm
  · rcases h.right n hn with hsame | ⟨_, _, rest, hrest, hhung⟩
    · refine Or.inl ?_
      rw [hright] at hsame
      simp [Node.children, ← hsame]
    · rw [hright] at hrest
      cases hrest
      exact Or.inr hhung

theorem Extends.calleeOf {p q : Program} (h : p.Extends q) (hp : p.Closed) {n : NodeId} (hn : n.index < p.nodes.size) :
    q.calleeOf n = p.calleeOf n := by
  obtain ⟨right, noEscape, he⟩ := h.node n hn
  have hleft : (q.node n).left = (p.node n).left := by rw [he]
  unfold Program.calleeOf
  dsimp only
  rw [hleft, (h.node n hn).op]
  cases hl : (p.node n).left with
  | none => rfl
  | some callee =>
    have hlt := hp callee (Or.inl ⟨n, Node.mem_refs_left hl⟩)
    obtain ⟨_, _, hcallee⟩ := h.node callee hlt
    simp only [Option.bind_eq_bind, Option.bind_some, hcallee]
    rfl

/-- Conversions are no calls, so what they convert stays. -/
theorem Extends.unwrap {p q : Program} (h : p.Extends q) (hp : p.Closed) {fuel : Nat} {n : NodeId}
    (hn : n.index < p.nodes.size) : q.unwrap fuel n = p.unwrap fuel n := by
  induction fuel generalizing n with
  | zero => rfl
  | succ fuel ih =>
    obtain ⟨right, noEscape, he⟩ := h.node n hn
    simp only [Program.unwrap, he]
    split
    · cases hleft : (p.node n).left with
      | none => rfl
      | some m => exact ih (hp m (Or.inl ⟨n, Node.mem_refs_left hleft⟩))
    · rfl

/-- The node is an argument of the call, without the conversions that do nothing. -/
def IsArgument (p : Program) (call n : NodeId) : Prop := ∃ arg ∈ (p.node call).list, ∃ fuel, p.unwrap fuel arg = some n

/-- What introduces a name goes on doing so. -/
theorem Extends.introduced {p q : Program} (h : p.Extends q) {n m : NodeId} (hn : n ∈ p.introduced (p.node m)) :
    n ∈ q.introduced (q.node m) := by
  have hm : m.index < p.nodes.size := by
    refine p.lt_size_of_op_ne fun hop => ?_
    simp [Program.introduced, hop] at hn
  unfold Program.introduced at hn ⊢
  rw [(h.node m hm).op]
  split at hn
  · rw [(h.node m hm).left]
    exact hn
  · obtain ⟨clause, hclause, hleft⟩ := List.mem_filterMap.1 hn
    have hlt : clause.index < p.nodes.size := Nat.lt_of_not_le fun hle => by
      rw [p.node_of_size_le hle] at hleft
      cases hleft
    refine List.mem_filterMap.2 ⟨clause, by rw [(h.node m hm).list]; exact hclause, ?_⟩
    rw [(h.node clause hlt).left]
    exact hleft
  · exact absurd hn List.not_mem_nil

/-- A node that introduces a name did so before, if it was there. -/
theorem Extends.introduced_of_lt {p q : Program} (h : p.Extends q) (hp : p.Closed) {n m : NodeId}
    (hm : m.index < p.nodes.size) (hn : n ∈ q.introduced (q.node m)) : n ∈ p.introduced (p.node m) := by
  unfold Program.introduced at hn ⊢
  rw [(h.node m hm).op] at hn
  split at hn
  · rw [(h.node m hm).left] at hn
    exact hn
  · obtain ⟨clause, hclause, hleft⟩ := List.mem_filterMap.1 hn
    rw [(h.node m hm).list] at hclause
    have hlt := hp clause (Or.inl ⟨m, Node.mem_refs_list hclause⟩)
    rw [(h.node clause hlt).left] at hleft
    exact List.mem_filterMap.2 ⟨clause, hclause, hleft⟩
  · exact absurd hn List.not_mem_nil

theorem Extends.hung {p q : Program} (h : p.Extends q) {n : NodeId} (hn : p.Hung n) : q.Hung n := by
  obtain ⟨hop, array, hchildren, haop, hachildren⟩ := hn
  have hlt := p.lt_size_of_op_ne (n := n) (by simp [hop])
  have halt := p.lt_size_of_op_ne (n := array) (by simp [haop])
  refine ⟨(h.node n hlt).op.trans hop, array, ?_, (h.node array halt).op.trans haop, ?_⟩
  · rw [h.children hlt (by rw [hop]; rfl), hchildren]
  · rw [h.children halt (by rw [haop]; rfl), hachildren]

theorem Extends.trans {p q r : Program} (h₁ : p.Extends q) (h₂ : q.Extends r) : p.Extends r := by
  have hlt {n : NodeId} (hn : n.index < p.nodes.size) := Nat.lt_of_lt_of_le hn h₁.size_le
  refine ⟨Nat.le_trans h₁.size_le h₂.size_le, fun n hn => (h₁.node n hn).trans (h₂.node n (hlt hn)), fun n hn => ?_⟩
  rcases h₂.right n (hlt hn) with hr | ⟨hcall, hlist, hr⟩
  · rw [hr]
    exact (h₁.right n hn).imp_right fun ⟨hcall, hlist, rest, hrest, hhung⟩ =>
      ⟨hcall, hlist, rest, hrest, h₂.hung hhung⟩
  · rw [(h₁.node n hn).op] at hcall
    rw [(h₁.node n hn).list] at hlist
    exact Or.inr ⟨hcall, hlist, hr⟩

theorem extends_addNode (p : Program) (x : Node) : p.Extends (p.addNode x).2 := by
  refine ⟨by simp [addNode], fun n hn => ?_, fun n hn => Or.inl ?_⟩
  · rw [node_addNode_of_lt _ _ hn]
    exact .refl _
  · rw [node_addNode_of_lt _ _ hn]

theorem extends_noEscape (p : Program) (n : NodeId) :
    p.Extends (p.modifyNode n fun x => { x with noEscape := true }) := by
  refine ⟨Nat.le_of_eq (size_modifyNode ..).symm, fun m _ => rel_modifyNode Node.SameBut.refl m ⟨_, _, rfl⟩, fun m _ =>
    Or.inl (rel_modifyNode (R := fun x y => y.right = x.right) (fun _ => rfl) m rfl)⟩

theorem extends_right {p : Program} {call rest : NodeId} (hcall : (p.node call).op.isCall = true)
    (hlist : (p.node call).list ≠ []) (hrest : p.Hung rest) : p.Extends (p.modifyNode call fun x => { x with right := some rest }) := by
  have hne {m : NodeId} (hm : (p.node m).op.isCall = false) :
      (p.modifyNode call fun x => { x with right := some rest }).node m = p.node m := by
    refine node_modifyNode_of_ne _ _ fun e => ?_
    rw [e, hcall] at hm
    cases hm
  refine ⟨Nat.le_of_eq (size_modifyNode ..).symm, fun m _ => ?_, fun m hm => ?_⟩
  · exact rel_modifyNode Node.SameBut.refl m ⟨_, _, rfl⟩
  · by_cases he : m = call
    · subst he
      refine Or.inr ⟨hcall, hlist, rest, by rw [node_modifyNode_self _ _ hm], ?_⟩
      obtain ⟨hop, array, hchildren, haop, hachildren⟩ := hrest
      refine ⟨?_, array, ?_, ?_, ?_⟩
      · rw [hne (by rw [hop]; rfl), hop]
      · rw [hne (by rw [hop]; rfl), hchildren]
      · rw [hne (by rw [haop]; rfl), haop]
      · rw [hne (by rw [haop]; rfl), hachildren]
    · exact Or.inl (by rw [node_modifyNode_of_ne _ _ he])

end Program

/-! ## Where a walk gets -/

namespace Program

/-- The node is one of `W`, or was hung below a call. -/
def Within (p : Program) (W : NodeId → Prop) (n : NodeId) : Prop :=
  W n ∨ p.Hung n ∨ ((p.node n).op = .arrayLit ∧ (p.node n).children = [])

/-- However the program grows, the parts of the nodes of `W` are in `W` again, or were hung below a call. -/
def Confines (p : Program) (W : NodeId → Prop) : Prop :=
  ∀ q, p.Extends q → ∀ n, W n → ∀ m ∈ (q.node n).children, W m ∨ q.Hung m

variable {p q : Program} {W : NodeId → Prop} {n m : NodeId}

theorem confines_true (p : Program) : p.Confines fun _ => True := fun _ _ _ _ _ _ => Or.inl trivial

theorem Confines.extends (hp : p.Confines W) (h : p.Extends q) : q.Confines W := fun r hr => hp r (h.trans hr)

/-- The nodes of a program have parts among them, whatever is hung below its calls. -/
theorem Closed.confines (hp : p.Closed) (h : p.Extends q) : q.Confines fun n => n.index < p.nodes.size := by
  intro r hr n hn m hm
  refine ((h.trans hr).part hn hm).imp_left fun hpart => ?_
  exact hp m (Or.inl ⟨n, Node.mem_refs_children hpart⟩)

theorem Within.child (hp : p.Confines W) (hn : p.Within W n) (hm : m ∈ (p.node n).children) : p.Within W m := by
  rcases hn with hn | ⟨_, array, hchildren, harray⟩ | ⟨_, hchildren⟩
  · exact (hp p (.refl p) n hn m hm).imp_right Or.inl
  · rw [hchildren, List.mem_singleton] at hm
    exact Or.inr (Or.inr (hm ▸ harray))
  · rw [hchildren] at hm
    cases hm

theorem Within.extends (h : p.Extends q) (hn : p.Within W n) : q.Within W n := by
  rcases hn with hn | hn | ⟨hop, hchildren⟩
  · exact Or.inl hn
  · exact Or.inr (Or.inl (h.hung hn))
  · have hlt := p.lt_size_of_op_ne (n := n) (by simp [hop])
    refine Or.inr (Or.inr ⟨(h.node n hlt).op.trans hop, ?_⟩)
    rw [h.children hlt (by rw [hop]; rfl), hchildren]

theorem Within.of_op (hn : p.Within W n) (hrest : (p.node n).op ≠ .restArg) (harray : (p.node n).op ≠ .arrayLit) :
    W n := by
  rcases hn with hn | ⟨h, _⟩ | ⟨h, _⟩
  · exact hn
  · exact absurd h hrest
  · exact absurd h harray

theorem Within.of_isCall (hn : p.Within W n) (hop : (p.node n).op.isCall = true) : W n :=
  hn.of_op (by rintro h; rw [h] at hop; cases hop) (by rintro h; rw [h] at hop; cases hop)

end Program

/-! ## Areas -/

/-- The part of a program that a recording works on. -/
structure Area where
  /-- The nodes it refers to. -/
  node : NodeId → Prop
  /-- The functions whose names it refers to. -/
  func : FuncId → Prop
  /-- The nodes it walks over, apart from those it hangs below calls. -/
  walk : NodeId → Prop
  /-- The nodes that stand for the results and the `...` arguments of calls. -/
  stand : NodeId → Prop
  /-- Whatever it refers to is there. -/
  closed : Prop

/-- Everything, there or not. -/
def Area.any : Area := ⟨fun _ => True, fun _ => True, fun _ => True, fun _ => True, False⟩

/-- Everything but the sink. -/
def Area.all (sink : NodeId) (walk : NodeId → Prop) : Area := ⟨(· ≠ sink), fun _ => True, walk, fun _ => True, True⟩

namespace Flow

/-- The graph may refer to the node. -/
def Valid (A : Area) (s : Flow) (n : NodeId) : Prop := A.node n ∧ (A.closed → n.index < s.program.nodes.size)

/-- The node may be a result of a call: it is a name, or what a function declares as a result. -/
def IsResult (s : Flow) (n : NodeId) : Prop :=
  (s.program.node n).op = .name ∨ ∃ f, ∃ result ∈ (s.program.func f).results, result.name = some n

theorem IsResult.of_name {s t : Flow} {n : NodeId} (h : s.IsResult n)
    (hname : (s.program.node n).op = .name → (t.program.node n).op = .name)
    (hfunc : ∀ f, t.program.func f = s.program.func f) : t.IsResult n := by
  refine h.imp hname fun ⟨f, hf⟩ => ⟨f, ?_⟩
  rw [hfunc]
  exact hf

/-- What the nodes and functions of the area refer to is in the area again, as is all that the graph refers to, and
only calls that were met have results. -/
structure Refs (A : Area) (s : Flow) : Prop where
  fresh : ∀ n : NodeId, s.program.nodes.size ≤ n.index → A.node n ∧ A.stand n
  node : ∀ n, s.Valid A n → ∀ m ∈ (s.program.node n).refs, s.Valid A m
  func : ∀ f, A.func f → ∀ m ∈ (s.program.func f).refs, s.Valid A m
  captured : ∀ n, s.Valid A n → (s.program.node n).op = .closure → ∀ f, (s.program.node n).func = some f →
    ∀ name ∈ (s.program.func f).captures, ∀ var, (s.program.node name).origin = some var → s.Valid A var
  outputs : ∀ f, A.func f → ∀ result ∈ (s.program.func f).results, ∀ n, result.name = some n → A.stand n
  results : ∀ i, ∀ m ∈ s.results.get i, s.Valid A m ∧ A.stand m ∧ s.IsResult m
  sources : ∀ i, ∀ m ∈ s.sources.get i, s.Valid A m
  dsts : ∀ m ∈ s.dsts, m = s.sink ∨ s.Valid A m
  met : ∀ n : NodeId, s.results.get n.index ≠ [] → n ∈ s.calls
  states : ∀ f, s.info.state f = .planned ∨ s.info.state f = .started → A.func f
  curfn : ∀ f, s.curfn = some f → A.func f

/-! ## Changes -/

/-- Where a recording puts a name: a local variable where a node of the walk introduces it, the inputs and outputs of a
function at depths of their own. -/
def Puts (A : Area) (s : Flow) (n : NodeId) (d : Int) : Prop :=
  (s.program.node n).op = .name → (s.program.node n).cls = .auto ∨
    (∃ m, A.walk m ∧ n ∈ s.program.introduced (s.program.node m)) ∨
      (∃ f, A.func f ∧ n ∈ (s.program.func f).decls) ∧ d = (s.program.node n).cls.homeDepth

theorem puts_of_op {A : Area} {s : Flow} {n : NodeId} (hop : (s.program.node n).op ≠ .name) (d : Int) : s.Puts A n d :=
  fun h => absurd h hop

/-- An edge may go into the node: it is the sink, or keeps what flows into it. -/
def Takes (A : Area) (s : Flow) (n : NodeId) : Prop := n = s.sink ∨ s.Valid A n ∧ (s.program.node n).keeps = true

theorem Takes.valid {A : Area} {s : Flow} {n : NodeId} (h : s.Takes A n) : n = s.sink ∨ s.Valid A n := h.imp_right And.left

/-- An edge may come from the node: values flow from it, or it may be a result of a call. -/
def Gives (A : Area) (s : Flow) (n : NodeId) : Prop :=
  s.Valid A n ∧ ((s.program.node n).op.isSource = true ∨ s.IsResult n)

/-- A change while flows are recorded. -/
inductive Change (A : Area) (s : Flow) : Flow → Prop where
  | node (x : Node) (hrefs : ∀ m ∈ x.refs, s.Valid A m) (hcls : x.op = .name → x.cls = .auto)
    (hop : x.op ≠ .closure ∧ x.op.selects = false) : Change A s { s with program := (s.program.addNode x).2 }
  | types (c : Compound) : Change A s { s with program := { s.program with types := (s.program.types.intern c).2 } }
  | right {call rest : NodeId} (hin : A.walk call) (hcall : (s.program.node call).op.isCall = true)
    (hlist : (s.program.node call).list ≠ []) (hrest : s.Valid A rest) (hhung : s.program.Hung rest) :
    Change A s { s with program := s.program.modifyNode call fun x => { x with right := some rest } }
  /-- An argument, without the conversions that do nothing. -/
  | noEscape {call arg n : NodeId} {fuel : Nat} (hin : A.walk call) (hcall : (s.program.node call).op.isCall = true)
    (harg : arg ∈ (s.program.node call).list ∨ A.stand arg) (hn : s.program.unwrap fuel arg = some n)
    (hop : (s.program.node n).op ≠ .name) :
    Change A s { s with program := s.program.modifyNode n fun x => { x with noEscape := true } }
  | depthOf {n : NodeId} (hn : s.Valid A n) {d : Int} (hd : s.Puts A n d) :
    Change A s { s with info := s.info.setDepth n d }
  /-- An input that is declared, or an allocation that is walked over. -/
  | word {n : NodeId} (hn : s.Valid A n)
    (hname : (s.program.node n).op = .name →
      (s.program.node n).cls = .param ∧ ∃ f, A.func f ∧ n ∈ (s.program.func f).decls)
    {c : EscapeClass} (hc : c = .none ∨ c = .heap)
    (hwalk : (s.program.node n).op ≠ .name → s.program.Within A.walk n ∧ c = .none) :
    Change A s { s with info := s.info.setWord n (.plain c) }
  | pending (n : NodeId) : Change A s { s with pending := s.pending.push (n, s.curfn) }
  | call {n : NodeId} (hn : A.walk n) : Change A s { s with calls := n :: s.calls }
  | results {call : NodeId} (hcall : call ∈ s.calls) {rs : List NodeId}
    (hrs : ∀ m ∈ rs, s.Valid A m ∧ A.stand m ∧ s.IsResult m) :
    Change A s { s with results := s.results.set call.index rs }
  | edge {dst src : NodeId} (hdst : s.Takes A dst) (hsrc : s.Gives A src) (hne : dst ≠ src)
    (hty : s.program.hasNoPointers (s.program.node src).ty = false) : Change A s (s.addEdge dst src)
  | finding (x : Finding) : Change A s (s.find x)
  | position (depth : Int) (labels : List (LabelId × Bool)) : Change A s { s with depth, labels }

abbrev Changes (A : Area) : Flow → Flow → Prop := ReflTransGen (Change A)

variable {A : Area}

theorem Changes.trans {s t u : Flow} (h₁ : Changes A s t) (h₂ : Changes A t u) : Changes A s u :=
  ReflTransGen.trans h₁ h₂

/-! ## What changes keep -/

structure Frame (s t : Flow) : Prop where
  sink : t.sink = s.sink
  nodes : s.program.Extends t.program
  new : ∀ n, s.program.nodes.size ≤ n.index → (t.program.node n).op = .name → (t.program.node n).cls = .auto
  selects : ∀ n, s.program.nodes.size ≤ n.index → (t.program.node n).op.selects = false
  types : s.program.types.Grows t.program.types
  funcs : t.program.funcs = s.program.funcs
  moved : t.info.moved = s.info.moved
  word : ∀ n, (s.program.node n).op = .name → (s.program.node n).cls ≠ .param → t.info.word n = s.info.word n
  plain : ∀ n, t.info.word n = s.info.word n ∨ ∃ c, (c = .none ∨ c = .heap) ∧ t.info.word n = .plain c
  calls : s.calls <:+ t.calls

theorem Frame.size_le {s t : Flow} (h : Frame s t) : s.program.nodes.size ≤ t.program.nodes.size := h.nodes.size_le

theorem Frame.node {s t : Flow} (h : Frame s t) (n : NodeId) (hn : n.index < s.program.nodes.size) :
    (s.program.node n).SameBut (t.program.node n) :=
  h.nodes.node n hn

theorem Frame.func {s t : Flow} (h : Frame s t) (f : FuncId) : t.program.func f = s.program.func f := by
  unfold Program.func
  rw [h.funcs]

theorem Frame.trans {s t u : Flow} (h₁ : Frame s t) (h₂ : Frame t u) : Frame s u := by
  refine ⟨h₂.sink.trans h₁.sink, h₁.nodes.trans h₂.nodes, ?_, ?_, h₁.types.trans h₂.types, h₂.funcs.trans h₁.funcs,
    h₂.moved.trans h₁.moved, ?_, ?_, h₁.calls.trans h₂.calls⟩
  · intro n hn hop
    by_cases ht : n.index < t.program.nodes.size
    · rw [(h₂.node n ht).op] at hop
      rw [(h₂.node n ht).cls]
      exact h₁.new n hn hop
    · exact h₂.new n (Nat.le_of_not_lt ht) hop
  · intro n hn
    by_cases ht : n.index < t.program.nodes.size
    · rw [(h₂.node n ht).op]
      exact h₁.selects n hn
    · exact h₂.selects n (Nat.le_of_not_lt ht)
  · intro n hop hcls
    have hn := s.program.lt_size_of_op_eq_name hop
    rw [h₂.word n ((h₁.node n hn).op.trans hop) (by rw [(h₁.node n hn).cls]; exact hcls), h₁.word n hop hcls]
  · intro n
    rcases h₂.plain n with h | h
    · rw [h]
      exact h₁.plain n
    · exact Or.inr h

/-- A change that does not touch the nodes. -/
theorem frame_of_nodes_eq {s t : Flow} (hsink : t.sink = s.sink) (hnodes : t.program.nodes = s.program.nodes)
    (htypes : s.program.types.Grows t.program.types) (hfuncs : t.program.funcs = s.program.funcs)
    (hmoved : t.info.moved = s.info.moved)
    (hword : ∀ n, (s.program.node n).op = .name → (s.program.node n).cls ≠ .param → t.info.word n = s.info.word n)
    (hplain : ∀ n, t.info.word n = s.info.word n ∨ ∃ c, (c = .none ∨ c = .heap) ∧ t.info.word n = .plain c)
    (hcalls : s.calls <:+ t.calls) : Frame s t := by
  have hnew (n : NodeId) (hn : s.program.nodes.size ≤ n.index) : t.program.node n = default :=
    t.program.node_of_size_le (hnodes ▸ hn)
  refine ⟨hsink, .of_nodes_eq hnodes, fun n hn hop => ?_, fun n hn => ?_, htypes, hfuncs, hmoved, hword, hplain, hcalls⟩
  · rw [hnew n hn] at hop
    cases hop
  · rw [hnew n hn]
    rfl

/-- A change that touches neither nodes nor words. -/
theorem frame_of_words_eq {s t : Flow} (hsink : t.sink = s.sink) (hnodes : t.program.nodes = s.program.nodes)
    (htypes : s.program.types.Grows t.program.types) (hfuncs : t.program.funcs = s.program.funcs)
    (hmoved : t.info.moved = s.info.moved) (hwords : t.info.words = s.info.words) (hcalls : s.calls <:+ t.calls) :
    Frame s t := by
  have hword (n : NodeId) : t.info.word n = s.info.word n := by
    unfold Info.word
    rw [hwords]
  exact frame_of_nodes_eq hsink hnodes htypes hfuncs hmoved (fun n _ _ => hword n) (fun n => Or.inl (hword n)) hcalls

/-- A change of the nodes that are there. -/
theorem frame_of_size_eq {s : Flow} {program : Program} (hfuncs : program.funcs = s.program.funcs)
    (htypes : program.types = s.program.types) (hsize : program.nodes.size = s.program.nodes.size)
    (hnodes : s.program.Extends program) : Frame s { s with program } := by
  have hnew (n : NodeId) (hn : s.program.nodes.size ≤ n.index) : program.node n = default :=
    program.node_of_size_le (hsize ▸ hn)
  refine ⟨rfl, hnodes, fun n hn hop => ?_, fun n hn => ?_, htypes ▸ .refl _, hfuncs, rfl, fun _ _ _ => rfl,
    fun _ => Or.inl rfl, List.suffix_rfl⟩
  · rw [show ({ s with program } : Flow).program.node n = _ from hnew n hn] at hop
    cases hop
  · rw [show ({ s with program } : Flow).program.node n = _ from hnew n hn]
    rfl

theorem frame_change {s t : Flow} (h : Change A s t) : Frame s t := by
  cases h with
  | node x _ hcls hx =>
    -- A node that was not there is the new one, or there is none still.
    have hnew (n : NodeId) (hn : s.program.nodes.size ≤ n.index) :
        (s.program.addNode x).2.node n = x ∨ (s.program.addNode x).2.node n = default := by
      rw [Program.node_addNode]
      split
      · exact Or.inl rfl
      · exact Or.inr (s.program.node_of_size_le hn)
    refine ⟨rfl, s.program.extends_addNode x, fun n hn hop => ?_, fun n hn => ?_, .refl _, rfl, rfl, fun _ _ _ => rfl,
      fun _ => Or.inl rfl, List.suffix_rfl⟩
    · rcases hnew n hn with he | he <;> rw [he] at hop ⊢
      · exact hcls hop
      · cases hop
    · rcases hnew n hn with he | he <;> rw [he]
      · exact hx.2
      · rfl
  | types c => exact frame_of_words_eq rfl rfl (s.program.types.grows_intern c) rfl rfl rfl List.suffix_rfl
  | right _ hcall hlist _ hhung =>
    exact frame_of_size_eq rfl rfl (Program.size_modifyNode ..) (Program.extends_right hcall hlist hhung)
  | @noEscape _ _ n => exact frame_of_size_eq rfl rfl (Program.size_modifyNode ..) (s.program.extends_noEscape n)
  | @word n _ hname c hc _ =>
    refine frame_of_nodes_eq rfl rfl (.refl _) rfl rfl (fun m hop hcls => ?_) (fun m => ?_) List.suffix_rfl
    · refine Table.get_set_of_ne _ _ fun e => hcls ?_
      rw [NodeId.ext e] at hop ⊢
      exact (hname hop).1
    · by_cases hm : m = n
      · rw [hm]
        exact Or.inr ⟨c, hc, Table.get_set_self _ _ _⟩
      · exact Or.inl (Table.get_set_of_ne _ _ fun e => hm (NodeId.ext e))
  | @call n _ => exact frame_of_words_eq rfl rfl (.refl _) rfl rfl rfl (List.suffix_cons n s.calls)
  | _ => exact frame_of_words_eq rfl rfl (.refl _) rfl rfl rfl List.suffix_rfl

theorem Frame.refl (s : Flow) : Frame s s := frame_of_words_eq rfl rfl (.refl _) rfl rfl rfl List.suffix_rfl

theorem Changes.frame {s t : Flow} (h : Changes A s t) : Frame s t := by
  induction h with
  | refl => exact Frame.refl s
  | tail _ hc ih => exact ih.trans (frame_change hc)

/-- Functions make no progress while flows are recorded. -/
theorem Change.states {s t : Flow} (h : Change A s t) : t.info.states = s.info.states := by cases h <;> rfl

theorem Changes.states {s t : Flow} (h : Changes A s t) : t.info.states = s.info.states := by
  induction h with
  | refl => rfl
  | tail _ hc ih => rw [← ih, hc.states]

/-- A function is recorded to its end before the next one is. -/
theorem Changes.curfn {s t : Flow} (h : Changes A s t) : t.curfn = s.curfn := by
  induction h with
  | refl => rfl
  | tail _ hc ih =>
    rw [← ih]
    cases hc <;> rfl

theorem Frame.valid {s t : Flow} (h : Frame s t) {n : NodeId} (hn : s.Valid A n) : t.Valid A n :=
  ⟨hn.1, fun hclosed => Nat.lt_of_lt_of_le (hn.2 hclosed) h.size_le⟩

theorem Frame.op {s t : Flow} (h : Frame s t) {n : NodeId} (hn : (s.program.node n).op ≠ .block) :
    (t.program.node n).op = (s.program.node n).op :=
  (h.node n (s.program.lt_size_of_op_ne hn)).op

theorem Frame.isResult {s t : Flow} (h : Frame s t) {n : NodeId} (hn : s.IsResult n) : t.IsResult n :=
  hn.of_name (fun hop => (h.op (by simp [hop])).trans hop) h.func

theorem Frame.isSource {s t : Flow} (h : Frame s t) {n : NodeId} (hn : (s.program.node n).op.isSource = true) :
    (t.program.node n).op.isSource = true := by
  rw [h.op, hn]
  intro hop
  rw [hop] at hn
  cases hn

theorem Frame.keeps {s t : Flow} (h : Frame s t) {n : NodeId} (hn : (s.program.node n).keeps = true) :
    (t.program.node n).keeps = true := by
  rw [(h.node n (s.program.lt_size_of_op_ne fun hop => ?_)).keeps, hn]
  simp [Node.keeps, hop] at hn

theorem Frame.takes {s t : Flow} (h : Frame s t) {n : NodeId} (hn : s.Takes A n) : t.Takes A n :=
  hn.imp (fun e => e.trans h.sink.symm) fun ⟨hvalid, hkeeps⟩ => ⟨h.valid hvalid, h.keeps hkeeps⟩

theorem Frame.gives {s t : Flow} (h : Frame s t) {n : NodeId} (hn : s.Gives A n) : t.Gives A n :=
  ⟨h.valid hn.1, hn.2.imp h.isSource h.isResult⟩

/-! ## References -/

theorem mem_refs_of_setRight {x : Node} {rest m : NodeId} (h : m ∈ ({ x with right := some rest } : Node).refs) :
    m ∈ x.refs ∨ m = rest := by
  simp only [Node.refs, Node.children, List.mem_append, Option.mem_toList, Option.some.injEq] at h ⊢
  grind

theorem Valid.of_lt {s t : Flow} {n : NodeId} (h : t.Valid A n) (hn : n.index < s.program.nodes.size) : s.Valid A n :=
  ⟨h.1, fun _ => hn⟩

/-- A change of the nodes that are there, which keeps their references in the area. -/
theorem Refs.of_sameBut {s : Flow} (hs : s.Refs A) {program : Program} (hfuncs : program.funcs = s.program.funcs)
    (hsize : program.nodes.size = s.program.nodes.size)
    (hsame : ∀ n, (s.program.node n).SameBut (program.node n))
    (hrefs : ∀ n, s.Valid A n → ∀ m ∈ (program.node n).refs, m ∈ (s.program.node n).refs ∨ s.Valid A m) :
    Refs A { s with program } := by
  have hvalid {n : NodeId} : Valid A { s with program } n ↔ s.Valid A n := by
    unfold Valid
    dsimp only
    rw [hsize]
  have hfunc (f : FuncId) : program.func f = s.program.func f := by
    unfold Program.func
    rw [hfuncs]
  refine ⟨hsize ▸ hs.fresh, fun n hn m hm => ?_, fun f hf m hm => ?_, fun n hn hop f hf name hname var hvar => ?_,
    fun f hf => ?_, fun i m hm => ⟨hvalid.2 (hs.results i m hm).1, (hs.results i m hm).2.1,
      (hs.results i m hm).2.2.of_name (fun hop => (hsame m).op.trans hop) hfunc⟩,
    fun i m hm => hvalid.2 (hs.sources i m hm), fun m hm => (hs.dsts m hm).imp_right hvalid.2, hs.met, hs.states,
    hs.curfn⟩
  · rw [hvalid] at hn ⊢
    exact (hrefs n hn m hm).elim (hs.node n hn m) id
  · rw [hfunc] at hm
    exact hvalid.2 (hs.func f hf m hm)
  · rw [hfunc] at hname
    rw [(hsame name).origin] at hvar
    exact hvalid.2 (hs.captured n (hvalid.1 hn) ((hsame n).op ▸ hop) f ((hsame n).func ▸ hf) name hname var hvar)
  · rw [hfunc]
    exact hs.outputs f hf

theorem Refs.addNode {s : Flow} (hs : s.Refs A) {x : Node} (hrefs : ∀ m ∈ x.refs, s.Valid A m) (hop : x.op ≠ .closure) :
    Refs A { s with program := (s.program.addNode x).2 } := by
  have hle : s.program.nodes.size ≤ (s.program.addNode x).2.nodes.size := (s.program.extends_addNode x).size_le
  have hvalid {n : NodeId} (hn : s.Valid A n) : Valid A { s with program := (s.program.addNode x).2 } n :=
    ⟨hn.1, fun hclosed => Nat.lt_of_lt_of_le (hn.2 hclosed) hle⟩
  -- A node that refers to something is the new one, or was there before.
  have hold {n : NodeId} (hn : Valid A { s with program := (s.program.addNode x).2 } n)
      (hnew : n.index ≠ s.program.nodes.size) (hx : (s.program.node n).refs ≠ [] ∨ (s.program.node n).op ≠ .block) :
      s.Valid A n := by
    refine hn.of_lt (Nat.lt_of_not_le fun hsize => ?_)
    rw [s.program.node_of_size_le hsize] at hx
    exact hx.elim (fun h => h rfl) fun h => h rfl
  refine ⟨fun n hn => hs.fresh n (Nat.le_trans hle hn), fun n hn m hm => hvalid ?_,
    fun f hf m hm => hvalid (hs.func f hf m hm), fun n hn hclosure f hf name hname var hvar => hvalid ?_, hs.outputs,
    fun i m hm => ⟨hvalid (hs.results i m hm).1, (hs.results i m hm).2.1,
      (hs.results i m hm).2.2.of_name (fun hname => ?_) fun _ => rfl⟩, fun i m hm => hvalid (hs.sources i m hm),
    fun m hm => (hs.dsts m hm).imp_right hvalid, hs.met, hs.states, hs.curfn⟩
  · rw [Program.node_addNode] at hm
    split at hm
    · exact hrefs m hm
    · rename_i hnew
      exact hs.node n (hold hn hnew (Or.inl (List.ne_nil_of_mem hm))) m hm
  · rw [Program.node_addNode] at hclosure hf hvar
    split at hclosure
    · exact absurd hclosure hop
    · rename_i hnew
      rw [if_neg hnew] at hf
      have hn' := hold hn hnew (Or.inr (by rw [hclosure]; simp))
      split at hvar
      · exact hrefs var (Node.mem_refs_origin hvar)
      · exact hs.captured n hn' hclosure f hf name hname var hvar
  · exact ((s.program.extends_addNode x).node m (s.program.lt_size_of_op_eq_name hname)).op.trans hname

theorem Refs.change {s t : Flow} (hs : s.Refs A) (h : Change A s t) : t.Refs A := by
  cases h with
  | node x hrefs _ hop => exact hs.addNode hrefs hop.1
  | @right call rest _ _ _ hrest _ =>
    refine hs.of_sameBut rfl (Program.size_modifyNode ..) (fun n =>
      Program.rel_modifyNode Node.SameBut.refl n ⟨_, _, rfl⟩) fun n _ m hm => ?_
    rw [Program.node_modifyNode] at hm
    split at hm
    · rename_i h
      rw [h.1]
      rcases mem_refs_of_setRight hm with hm | rfl
      · exact Or.inl hm
      · exact Or.inr hrest
    · exact Or.inl hm
  | @noEscape _ _ k _ =>
    refine hs.of_sameBut rfl (Program.size_modifyNode ..) (fun n =>
      Program.rel_modifyNode Node.SameBut.refl n ⟨_, _, rfl⟩) fun n _ m hm => Or.inl ?_
    rw [Program.node_modifyNode] at hm
    split at hm
    · rename_i h
      rw [h.1]
      exact hm
    · exact hm
  | @results call hcall rs hrs =>
    refine ⟨hs.fresh, hs.node, hs.func, hs.captured, hs.outputs, fun i m hm => ?_, hs.sources, hs.dsts, fun n hn => ?_,
      hs.states, hs.curfn⟩
    · by_cases hi : i = call.index
      · rw [hi, Table.get_set_self] at hm
        exact hrs m hm
      · rw [Table.get_set_of_ne _ _ hi] at hm
        exact hs.results i m hm
    · by_cases he : n = call
      · exact he ▸ hcall
      · rw [Table.get_set_of_ne _ _ fun e => he (NodeId.ext e)] at hn
        exact hs.met n hn
  | @edge dst src hdst hsrc _ _ =>
    refine ⟨hs.fresh, hs.node, hs.func, hs.captured, hs.outputs, hs.results, fun i m hm => ?_, fun m hm => ?_, hs.met,
      hs.states, hs.curfn⟩
    · by_cases hi : i = dst.index
      · rw [hi] at hm
        rw [show (s.addEdge dst src).sources.get dst.index = (s.sources.get dst.index).push src from
          Table.get_set_self _ _ _, Array.mem_push] at hm
        exact hm.elim (hs.sources dst.index m) fun e => e ▸ hsrc.1
      · rw [show (s.addEdge dst src).sources.get i = s.sources.get i from Table.get_set_of_ne _ _ hi] at hm
        exact hs.sources i m hm
    · simp only [addEdge] at hm
      split at hm
      · exact (Array.mem_push.1 hm).elim (hs.dsts m) fun e => e ▸ hdst.valid
      · exact hs.dsts m hm
  | call _ =>
    exact ⟨hs.fresh, hs.node, hs.func, hs.captured, hs.outputs, hs.results, hs.sources, hs.dsts,
      fun n hn => List.mem_cons_of_mem _ (hs.met n hn), hs.states, hs.curfn⟩
  | _ =>
    exact ⟨hs.fresh, hs.node, hs.func, hs.captured, hs.outputs, hs.results, hs.sources, hs.dsts, hs.met, hs.states,
      hs.curfn⟩

theorem Refs.changes {s t : Flow} (hs : s.Refs A) (h : Changes A s t) : t.Refs A := by
  induction h with
  | refl => exact hs
  | tail _ hc ih => exact ih.change hc

/-! ## Faults -/

/-- The note is on an input of a function and tells of more outputs than the function has. -/
def Overlong (p : Program) (note : String) : Prop :=
  ∃ f, ∃ param ∈ (p.func f).inputs, param.note = some note ∧
    (p.func f).results.length < (Word.ofNote (some note)).fields.length

/-- What a fault tells when the recording of a body stops there. A call that is bound twice was met twice, unless its
callee was in no group yet. -/
def Blames (A : Area) : EscapeError → Flow → Prop
  | .repeatedFunc _, _ => False
  | .graphInconsistency n, s => A.walk n ∧ (2 ≤ s.calls.count n ∨ ∃ callee, s.program.calleeOf n = some callee ∧
      s.program.isGroupCandidate callee = true ∧ s.info.state callee = .unknown)
  | .corruptNote note, s => Overlong s.program note
  | _, _ => True

/-! ## Operations -/

/-- The fault is met after changes only, and tells what it should. -/
def Faults (A : Area) (s : Flow) (e : EscapeError × Flow) : Prop := Changes A s e.2 ∧ Blames A e.1 e.2

instance : Std.Refl (Changes A) := ⟨fun _ => .refl⟩

instance : Conduct (Changes A) (Faults A) where
  trans := .trans
  stop h he := ⟨h.trans he.1, he.2⟩
  rest _ := .refl

/-- The operation makes changes only, and `Q` holds of its result and the graph it leaves, unless it stops at a fault
that tells what it should. -/
abbrev Records (A : Area) {α : Type} (s : Flow) (m : FlowM α) (Q : α → Flow → Prop) : Prop :=
  Triple (Changes A) (Faults A) s m Q

end Flow

end EscapeAnalysis

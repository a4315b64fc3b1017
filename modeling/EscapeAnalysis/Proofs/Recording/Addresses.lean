import EscapeAnalysis.Proofs.Building.Names
import EscapeAnalysis.Proofs.Recording.Changes

/-!
# Addresses in a program that grows

An address is the address of a variable, or of a part of one. While flows are recorded, a program gets new addresses
and new names, but no new parts of variables: what an address is the address of stays.

* `Program.BaseOf p n x` : the expression is the variable `x`, or a part of it;
* `Program.AddressOf p n x` : the node is an address of `x`;
* `Program.Grown p q` : what recording does to a program, as far as addresses are concerned;
* `Program.Grown.addressOf_iff` : addresses stay;
* `Program.Grown.addressed?_eq_some_iff` : the search for the addressed variable goes deep enough.
-/

namespace EscapeAnalysis.Program

/-- The expression is the variable, or a part of it. A captured name is part of what it stands for, and an element of a
slice is not part of the variable that holds the slice. -/
inductive BaseOf (p : Program) : NodeId → NodeId → Prop where
  | self {n : NodeId} (hop : (p.node n).op = .name) (hcls : (p.node n).cls.isVariable = true) : BaseOf p n n
  | captured {n m x : NodeId} (hn : (p.node n).isNameOf .captured = true) (hm : (p.node n).origin = some m)
    (h : BaseOf p m x) : BaseOf p n x
  | part {n m x : NodeId} (hop : (p.node n).op.selects = true) (hm : (p.node n).left = some m)
    (hslice : p.isSlice (p.node m).ty = false) (h : BaseOf p m x) : BaseOf p n x

/-- The node is an address, and its operand is the variable or a part of it. -/
structure AddressOf (p : Program) (n x : NodeId) : Prop where
  op : (p.node n).op = .addr ∨ (p.node n).op = .ptrLit
  base : ∃ m, (p.node n).left = some m ∧ p.BaseOf m x

theorem BaseOf.isVariable {p : Program} {n x : NodeId} (h : p.BaseOf n x) :
    (p.node x).op = .name ∧ (p.node x).cls.isVariable = true := by
  induction h with
  | self hop hcls => exact ⟨hop, hcls⟩
  | captured _ _ _ ih => exact ih
  | part _ _ _ _ ih => exact ih

/-- A variable is part of nothing but itself. -/
theorem BaseOf.eq_of_isVariable {p : Program} {n x : NodeId} (h : p.BaseOf n x) (hop : (p.node n).op = .name)
    (hcls : (p.node n).cls.isVariable = true) : n = x := by
  cases h with
  | self _ _ => rfl
  | captured hname _ _ =>
    rw [Node.isNameOf_iff] at hname
    rw [hname.2] at hcls
    cases hcls
  | part hselects _ _ _ =>
    rw [hop] at hselects
    cases hselects

theorem baseOf_of_addressed? {p : Program} {fuel : Nat} {n x : NodeId} (h : p.addressed? fuel n = some x) :
    p.BaseOf n x := by
  induction fuel generalizing n with
  | zero => cases h
  | succ fuel ih =>
    have hpart (hop : (p.node n).op.selects = true) (h : ((p.node n).left.bind fun base =>
        if p.isSlice (p.node base).ty then none else p.addressed? fuel base) = some x) : p.BaseOf n x := by
      obtain ⟨m, hm, h⟩ := Option.bind_eq_some_iff.1 h
      split at h
      · cases h
      · rename_i hslice
        exact .part hop hm (Bool.not_eq_true _ ▸ hslice) (ih h)
    simp only [addressed?] at h
    cases hop : (p.node n).op with
    | name =>
      rw [hop] at h
      cases hcls : (p.node n).cls with
      | captured =>
        rw [hcls] at h
        obtain ⟨m, hm, h⟩ := Option.bind_eq_some_iff.1 h
        exact .captured (by simp [Node.isNameOf, hop, hcls]) hm (ih h)
      | param | result | auto =>
        rw [hcls] at h
        cases h
        exact .self hop (by rw [hcls]; rfl)
      | none | global | func =>
        rw [hcls] at h
        cases h
    | dot | index | convNop =>
      rw [hop] at h
      exact hpart (by rw [hop]; rfl) h
    | _ =>
      rw [hop] at h
      cases h

/-! ## Growth -/

/-- `q` has the nodes and types of `p`. Its other nodes are no parts of variables and stand for none. -/
structure Grown (p q : Program) : Prop where
  nodes : p.Extends q
  types : p.types.Grows q.types
  new : ∀ n, p.nodes.size ≤ n.index → (q.node n).op.selects = false ∧ (q.node n).isNameOf .captured = false

namespace Grown

variable {p q r : Program}

theorem of_nodes_eq (hnodes : q.nodes = p.nodes) (htypes : q.types = p.types) : p.Grown q := by
  refine ⟨.of_nodes_eq hnodes, htypes ▸ .refl _, fun n hn => ?_⟩
  rw [q.node_of_size_le (hnodes ▸ hn)]
  exact ⟨rfl, rfl⟩

theorem refl (p : Program) : p.Grown p := .of_nodes_eq rfl rfl

theorem trans (h₁ : p.Grown q) (h₂ : q.Grown r) : p.Grown r := by
  refine ⟨h₁.nodes.trans h₂.nodes, h₁.types.trans h₂.types, fun n hn => ?_⟩
  by_cases hq : n.index < q.nodes.size
  · rw [(h₂.nodes.node n hq).op, (h₂.nodes.node n hq).isNameOf]
    exact h₁.new n hn
  · exact h₂.new n (Nat.le_of_not_lt hq)

theorem of_frame {s t : Flow} (h : Flow.Frame s t) : s.program.Grown t.program := by
  refine ⟨h.nodes, h.types, fun n hn => ⟨h.selects n hn, ?_⟩⟩
  by_cases hop : (t.program.node n).op = .name
  · simp [Node.isNameOf, h.new n hn hop]
  · simp [Node.isNameOf, hop]

theorem addNode (p : Program) {x : Node} (hop : x.op.selects = false) (hcls : x.isNameOf .captured = false) :
    p.Grown (p.addNode x).2 := by
  refine ⟨p.extends_addNode x, .refl _, fun n hn => ?_⟩
  rw [node_addNode]
  split
  · exact ⟨hop, hcls⟩
  · rw [p.node_of_size_le hn]
    exact ⟨rfl, rfl⟩

/-! ## Bases -/

section Old

variable (h : p.Grown q) (hp : p.Closed) (htyped : p.Typed) {n x : NodeId}
include h

/-- A new node is part of nothing but itself. -/
theorem baseOf_of_le (hn : p.nodes.size ≤ n.index) : q.BaseOf n x ↔
    n = x ∧ (q.node n).op = .name ∧ (q.node n).cls.isVariable = true := by
  obtain ⟨hselects, hcaptured⟩ := h.new n hn
  constructor
  · rintro (⟨hop, hcls⟩ | ⟨hname, _, _⟩ | ⟨hop, _, _, _⟩)
    · exact ⟨rfl, hop, hcls⟩
    · rw [hcaptured] at hname
      cases hname
    · rw [hselects] at hop
      cases hop
  · rintro ⟨rfl, hop, hcls⟩
    exact .self hop hcls

include htyped

theorem isSlice_eq {m : NodeId} (hm : m.index < p.nodes.size) :
    q.isSlice (q.node m).ty = p.isSlice (p.node m).ty := by
  have hty : (q.node m).ty = (p.node m).ty := by
    obtain ⟨_, _, he⟩ := h.nodes.node m hm
    rw [he]
  unfold Program.isSlice
  rw [hty]
  cases ht : (p.node m).ty with
  | none => rfl
  | some ty => exact h.types.isSlice (htyped.node m ty ht)

include hp

theorem baseOf_iff_of_lt (hn : n.index < p.nodes.size) : q.BaseOf n x ↔ p.BaseOf n x := by
  have hleft {n : NodeId} (hn : n.index < p.nodes.size) : (q.node n).left = (p.node n).left := by
    obtain ⟨_, _, he⟩ := h.nodes.node n hn
    rw [he]
  have hlt {n m : NodeId} (hm : m ∈ (p.node n).refs) : m.index < p.nodes.size := hp m (Or.inl ⟨n, hm⟩)
  constructor
  · intro hb
    induction hb with
    | self hop hcls =>
      rw [(h.nodes.node _ hn).op] at hop
      rw [(h.nodes.node _ hn).cls] at hcls
      exact .self hop hcls
    | captured hname hm _ ih =>
      rw [(h.nodes.node _ hn).isNameOf] at hname
      rw [(h.nodes.node _ hn).origin] at hm
      exact .captured hname hm (ih (hlt (Node.mem_refs_origin hm)))
    | part hop hm hslice _ ih =>
      rw [(h.nodes.node _ hn).op] at hop
      rw [hleft hn] at hm
      have hmlt := hlt (Node.mem_refs_left hm)
      rw [h.isSlice_eq htyped hmlt] at hslice
      exact .part hop hm hslice (ih hmlt)
  · intro hb
    induction hb with
    | self hop hcls =>
      rw [← (h.nodes.node _ hn).op] at hop
      rw [← (h.nodes.node _ hn).cls] at hcls
      exact .self hop hcls
    | captured hname hm _ ih =>
      have hmlt := hlt (Node.mem_refs_origin hm)
      rw [← (h.nodes.node _ hn).isNameOf] at hname
      rw [← (h.nodes.node _ hn).origin] at hm
      exact .captured hname hm (ih hmlt)
    | part hop hm hslice _ ih =>
      have hmlt := hlt (Node.mem_refs_left hm)
      rw [← h.isSlice_eq htyped hmlt] at hslice
      rw [← (h.nodes.node _ hn).op] at hop
      rw [← hleft hn] at hm
      exact .part hop hm hslice (ih hmlt)

end Old

theorem baseOf_iff (h : p.Grown q) (h' : q.Grown r) (hp : p.Closed) (htyped : p.Typed) {n x : NodeId}
    (hn : n.index < q.nodes.size) : r.BaseOf n x ↔ q.BaseOf n x := by
  by_cases hold : n.index < p.nodes.size
  · rw [(h.trans h').baseOf_iff_of_lt hp htyped hold, h.baseOf_iff_of_lt hp htyped hold]
  · rw [(h.trans h').baseOf_of_le (Nat.le_of_not_lt hold), h.baseOf_of_le (Nat.le_of_not_lt hold),
      (h'.nodes.node n hn).op, (h'.nodes.node n hn).cls]

theorem addressOf_iff (h : p.Grown q) (h' : q.Grown r) (hp : p.Closed) (htyped : p.Typed) (hq : q.Closed) {n x : NodeId}
    (hn : n.index < q.nodes.size) : r.AddressOf n x ↔ q.AddressOf n x := by
  have hleft : (r.node n).left = (q.node n).left := by
    obtain ⟨_, _, he⟩ := h'.nodes.node n hn
    rw [he]
  have hbase {m : NodeId} (hm : (q.node n).left = some m) : r.BaseOf m x ↔ q.BaseOf m x :=
    h.baseOf_iff h' hp htyped (hq m (Or.inl ⟨n, Node.mem_refs_left hm⟩))
  constructor
  · rintro ⟨hop, m, hm, hb⟩
    rw [(h'.nodes.node n hn).op] at hop
    rw [hleft] at hm
    exact ⟨hop, m, hm, (hbase hm).1 hb⟩
  · rintro ⟨hop, m, hm, hb⟩
    have hb := (hbase hm).2 hb
    rw [← (h'.nodes.node n hn).op] at hop
    rw [← hleft] at hm
    exact ⟨hop, m, hm, hb⟩

/-- The way from an expression to its variable goes down in the order in which the nodes were made. -/
theorem addressed?_eq_some_iff (h : p.Grown q) (hp : p.Drafted) {n x : NodeId} :
    q.addressed? (q.nodes.size + 1) n = some x ↔ q.BaseOf n x := by
  refine ⟨baseOf_of_addressed?, fun hb => ?_⟩
  have hold {n : NodeId} (hn : (q.node n).op.selects = true ∨ (q.node n).isNameOf .captured = true) :
      n.index < p.nodes.size := by
    refine Nat.lt_of_not_le fun hle => ?_
    obtain ⟨hselects, hcaptured⟩ := h.new n hle
    rw [hselects, hcaptured] at hn
    exact hn.elim nofun nofun
  have hfuel (fuel : Nat) (hlt : n.index < fuel) : q.addressed? fuel n = some x := by
    induction hb generalizing fuel with
    | @self n hop hcls =>
      obtain ⟨fuel, rfl⟩ := Nat.exists_eq_succ_of_ne_zero (Nat.ne_zero_of_lt hlt)
      simp only [Program.addressed?, hop]
      cases hc : (q.node n).cls with
      | param | result | auto => rfl
      | none | global | func | captured =>
        rw [hc] at hcls
        cases hcls
    | @captured n m x hname hm _ ih =>
      obtain ⟨fuel, rfl⟩ := Nat.exists_eq_succ_of_ne_zero (Nat.ne_zero_of_lt hlt)
      have hm' := hm
      rw [(h.nodes.node n (hold (Or.inr hname))).origin] at hm'
      have hlt' := hp.ordered n m (Node.mem_inner.2 (Or.inr (Or.inl hm')))
      rw [Node.isNameOf_iff] at hname
      simp only [Program.addressed?, hname.1, hname.2, hm, Option.bind_some]
      exact ih fuel (by omega)
    | @part n m x hop hm hslice _ ih =>
      obtain ⟨fuel, rfl⟩ := Nat.exists_eq_succ_of_ne_zero (Nat.ne_zero_of_lt hlt)
      have hm' : (p.node n).left = some m := by
        obtain ⟨_, _, he⟩ := h.nodes.node n (hold (Or.inl hop))
        rw [he] at hm
        exact hm
      have hlt' := hp.ordered n m (Node.mem_inner.2 (Or.inl hm'))
      have hnext := ih fuel (by omega)
      unfold Program.addressed?
      dsimp only
      unfold Op.selects at hop
      split at hop
      · rename_i hdot
        simp only [hdot, hm, Option.bind_some, hslice, hnext]
        rfl
      · rename_i hindex
        simp only [hindex, hm, Option.bind_some, hslice, hnext]
        rfl
      · rename_i hconv
        simp only [hconv, hm, Option.bind_some, hslice, hnext]
        rfl
      · cases hop
  refine hfuel _ ?_
  rcases hb with ⟨hop, _⟩ | ⟨hname, _, _⟩ | ⟨hop, _, _, _⟩
  · exact Nat.lt_succ_of_lt (q.lt_size_of_op_eq_name hop)
  · exact Nat.lt_succ_of_lt (Nat.lt_of_lt_of_le (hold (Or.inr hname)) h.nodes.size_le)
  · exact Nat.lt_succ_of_lt (Nat.lt_of_lt_of_le (hold (Or.inl hop)) h.nodes.size_le)

end Grown

end EscapeAnalysis.Program

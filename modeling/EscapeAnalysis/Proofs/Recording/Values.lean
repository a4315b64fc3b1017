import Mathlib.Logic.Relation
import EscapeAnalysis.Flow.Assign

/-!
# Where values come from and where they are stored

`Flow.carry` follows the value of an expression. There are four kinds of expressions: the value comes from the node
itself, from the address of a closure, from the results of a call, or from some of the operands. `Program.place` follows
a destination to the whole that it is a piece of.

* `Op.isSource` : values flow from nodes with such operators;
* `Program.givers p n` : the operands that the value of the expression comes from;
* `Flow.carry_succ` : what `Flow.carry` does, by the four kinds;
* `Program.PieceOf p n m` : the node is a field of `m`, or an element of the array `m`;
* `Program.place_succ`, `Program.place_eq_ok` : the place of a destination is that of its whole.
-/

namespace EscapeAnalysis

open Relation (ReflTransGen)

/-! ## Values -/

/-- The operators of the nodes that values flow from. -/
def Op.isSource : Op → Bool
  | .addr | .deref | .dotPtr | .name | .restArg | .ptrLit | .arrayLit | .mapLit | .structLit | .makeChan | .makeMap
  | .makeSlice | .runesToString | .bytesToString | .stringToRunes | .stringToBytes | .concat | .new | .methodValue
  | .runeToString | .convIface => true
  | _ => false

/-- The operators that leave the value of their operand as it is. -/
def Op.passes : Op → Bool
  | .conv | .convNop | .dotMethod | .typeAssert | .typeAssertOk | .slice | .slice3 | .sliceArray | .slice3Array
  | .sliceString => true
  | _ => false

/-- The operands that the value of an expression may come from. -/
def Node.operands (x : Node) : List NodeId :=
  if x.op = .append then x.list.head?.toList
  else if x.op.passes || x.op == .dot || x.op == .index then x.left.toList
  else if x.op.isArith then x.left.toList ++ x.right.toList
  else []

theorem Node.mem_of_mem_operands {x : Node} {m : NodeId} (h : m ∈ x.operands) :
    x.left = some m ∨ x.right = some m ∨ m ∈ x.list := by
  unfold operands at h
  split at h
  · exact Or.inr (Or.inr (List.mem_of_mem_head? (Option.mem_toList.1 h)))
  split at h
  · exact Or.inl (Option.mem_toList.1 h)
  split at h
  · rw [List.mem_append, Option.mem_toList, Option.mem_toList] at h
    exact h.imp_right Or.inl
  · cases h

/-- The operands that the value of an expression does come from: a field without pointers has none, and neither has an
element of something else than an array. -/
def Program.givers (p : Program) (n : NodeId) : List NodeId :=
  match (p.node n).op with
  | .dot => if p.hasNoPointers (p.node n).ty then [] else (p.node n).left.toList
  | .index => if p.isArrayNode (p.node n).left then (p.node n).left.toList else []
  | _ => (p.node n).operands

theorem Program.mem_operands_of_mem_givers {p : Program} {n m : NodeId} (h : m ∈ p.givers n) :
    m ∈ (p.node n).operands := by
  unfold givers at h
  unfold Node.operands
  split at h
  · rename_i hop
    split at h
    · cases h
    · rwa [hop]
  · rename_i hop
    split at h
    · rwa [hop]
    · cases h
  · exact h

theorem Program.mem_children_of_mem_givers {p : Program} {n m : NodeId} (h : m ∈ p.givers n) :
    m ∈ (p.node n).children := by
  rcases Node.mem_of_mem_operands (mem_operands_of_mem_givers h) with hm | hm | hm <;> simp [Node.children, hm]

/-! ## Places -/

/-- Values that flow into the node are kept there: it is a variable that is neither blank nor global, or an expression
that is made of them. -/
def Node.keeps (x : Node) : Bool :=
  match x.op with
  | .name => !x.isBlank && x.cls != .global
  | .arrayLit | .closure | .conv | .convIface | .convNop | .mapLit | .structLit | .ptrLit | .methodValue => true
  | _ => false

/-- Something can be stored in the node, or behind it. -/
def Op.stores : Op → Bool
  | .name | .arrayLit | .closure | .conv | .convIface | .convNop | .mapLit | .structLit | .ptrLit | .methodValue | .index
  | .deref | .dotPtr | .indexMap => true
  | _ => false

/-- The node is a field of `m`, or an element of it and `m` is an array. -/
inductive Program.PieceOf (p : Program) (n m : NodeId) : Prop where
  | field (hop : (p.node n).op = .dot) (hleft : (p.node n).left = some m)
  | element (hop : (p.node n).op = .index) (hleft : (p.node n).left = some m) (harray : p.isArrayNode (some m) = true)

/-- What the destination is a piece of. -/
def Program.base? (p : Program) (n : NodeId) : Option NodeId :=
  if (p.node n).op = .dot then (p.node n).left
  else if (p.node n).op = .index ∧ p.isArrayNode (p.node n).left = true then (p.node n).left
  else none

/-- What a whole stands for. -/
def Program.wholePlace (p : Program) (b : NodeId) : Except EscapeError Place :=
  let x := p.node b
  if x.op.stores then
    .ok (if x.isBlank then .nowhere else if x.keeps then .tracked b else .lost (if x.op = .indexMap then x.right else none))
  else .error (.unexpectedDestination b x.op)

namespace Program

variable {p : Program} {n m : NodeId}

theorem pieceOf_iff : p.PieceOf n m ↔ p.base? n = some m := by
  unfold base?
  constructor
  · intro h
    cases h with
    | field hop hleft => rw [if_pos hop, hleft]
    | element hop hleft harray => simp [hop, hleft, harray]
  · intro h
    split at h
    · exact .field ‹_› h
    split at h
    · rename_i hindex
      rw [h] at hindex
      exact .element hindex.1 h hindex.2
    · cases h

theorem PieceOf.left (h : p.PieceOf n m) : (p.node n).left = some m := by
  cases h with
  | field _ hleft | element _ hleft => exact hleft

theorem place_succ (p : Program) (fuel : Nat) (dst : NodeId) : p.place (fuel + 1) dst =
    (p.base? dst).elim (if (p.node dst).op = .dot then .ok .nowhere else p.wholePlace dst) (p.place fuel) := by
  unfold place base? wholePlace
  cases hop : (p.node dst).op with
  | name =>
    cases hblank : (p.node dst).isBlank <;> by_cases hcls : (p.node dst).cls = .global <;>
      simp [Node.keeps, Op.stores, hop, hblank, hcls]
  | dot => cases hleft : (p.node dst).left <;> simp [Node.isBlank, hop, hleft]
  | index =>
    cases hleft : (p.node dst).left with
    | none => simp [Node.isBlank, Node.keeps, Op.stores, hop, hleft, isArrayNode]
    | some m =>
      cases harray : p.isArrayNode (some m) <;> simp [Node.isBlank, Node.keeps, Op.stores, hop, hleft, harray]
  | _ => simp [Node.isBlank, Node.keeps, Op.stores, hop]

/-- The value is stored in the whole that the destination is a piece of, or it is lost, with the key of a map. -/
theorem place_eq_ok {fuel : Nat} {dst : NodeId} {place : Place} (h : p.place fuel dst = .ok place) :
    place = .nowhere ∨ ∃ b, ReflTransGen p.PieceOf dst b ∧
      (place = .tracked b ∧ (p.node b).keeps = true ∨
        ∃ key, place = .lost key ∧ ∀ k, key = some k → (p.node b).op = .indexMap ∧ (p.node b).right = some k) := by
  induction fuel generalizing dst with
  | zero => cases h
  | succ fuel ih =>
    rw [place_succ] at h
    cases hbase : p.base? dst with
    | some m =>
      rw [hbase] at h
      refine (ih h).imp_right ?_
      rintro ⟨b, hb, hplace⟩
      exact ⟨b, .head (pieceOf_iff.2 hbase) hb, hplace⟩
    | none =>
      rw [hbase, Option.elim_none] at h
      split at h
      · cases h
        exact Or.inl rfl
      · unfold wholePlace at h
        grind

end Program

/-! ## Flows -/

namespace Flow

theorem forM_toList {α : Type} (x : Option α) (f : α → FlowM PUnit) : x.toList.forM f = x.forM f := by
  cases x with
  | none => rfl
  | some a =>
    funext s
    change EStateM.bind (f a) (fun _ => pure ⟨⟩) s = f a s
    unfold EStateM.bind
    cases f a s <;> rfl

theorem carry_succ (dst : NodeId) (fuel : Nat) (src : NodeId) : carry dst (fuel + 1) src = (do
    let p ← getProgram
    let x := p.node src
    if x.op.isSource then link dst src
    else if x.op = .closure then link dst (← closureAddress src x)
    else if x.op.isCall then (← resultsOf src).forM (link dst)
    else (p.givers src).forM (carry dst fuel)) := by
  rw [carry]
  congr 1
  funext p
  dsimp only
  cases hop : (p.node src).op with
  | dot | index =>
    simp only [Program.givers, hop]
    split <;> simp_all [Op.isSource, Op.isCall, forM_toList]
  | append => simp [Op.isSource, Op.isCall, Program.givers, Node.operands, hop, forM_toList]
  | conv | convNop | dotMethod | typeAssert | typeAssertOk | slice | slice3 | sliceArray | slice3Array | sliceString =>
    simp [Op.isSource, Op.isCall, Program.givers, Node.operands, Op.passes, hop, forM_toList]
  | _ =>
    first
      | rfl
      | simp [Op.isSource, Op.isCall, Program.givers, Node.operands, Op.passes, Op.isArith, Op.isBinaryArith, hop]

end Flow

end EscapeAnalysis

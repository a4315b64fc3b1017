import EscapeAnalysis.Flow

/-!
# Assignments

`Flow.assign` records that a value is stored. It first finds the place the destination stands for: a
field of a struct and an element of a fixed array are their whole, and whatever is reached through a
pointer, a map or a global variable is lost to the sink. Then it follows the value to the expressions
it is made of.

* `Program.place` : where a destination stores;
* `Flow.carry` : the flows of an expression into a node;
* `Flow.assign` : both.
-/

namespace EscapeAnalysis

/-- Where a destination stores. -/
inductive Place where
  | nowhere
  /-- In a node whose values are tracked. -/
  | tracked (n : NodeId)
  /-- Behind a pointer or in a global variable; a map takes the key along. -/
  | lost (key : Option NodeId)
deriving DecidableEq

/-- The place of a destination whose fields and elements nest no deeper than the fuel. -/
def Program.place (p : Program) : Nat → NodeId → Except EscapeError Place
  | 0, dst => .error (.cyclic dst)
  | fuel + 1, dst =>
    let x := p.node dst
    if x.isBlank then .ok .nowhere
    else match x.op with
      | .arrayLit | .closure | .conv | .convIface | .convNop | .mapLit | .structLit | .ptrLit
      | .methodValue => .ok (.tracked dst)
      | .name => .ok (if x.cls = .global then .lost none else .tracked dst)
      | .dot =>
        match x.left with
        | some base => p.place fuel base
        | none => .ok .nowhere
      | .index =>
        match x.left with
        | some base => if p.isArrayNode base then p.place fuel base else .ok (.lost none)
        | none => .ok (.lost none)
      | .deref | .dotPtr => .ok (.lost none)
      | .indexMap => .ok (.lost x.right)
      | op => .error (.unexpectedDestination dst op)

namespace Flow

/-- A closure is a pointer to its captured variables; the address node that stands for it. -/
def closureAddress (src : NodeId) (x : Node) : FlowM NodeId := do
  let ty ← ptrTo x.ty
  let addr ← addNode { op := .addr, line := x.line, ty, left := some src }
  setDepth addr (← depthOf src)
  return addr

/-- The flows into `dst` of an expression whose parts nest no deeper than the fuel. -/
def carry (dst : NodeId) : Nat → NodeId → FlowM Unit
  | 0, src => throw (.cyclic src)
  | fuel + 1, src => do
    let p ← getProgram
    let x := p.node src
    match x.op with
    | .addr | .deref | .dotPtr | .name | .restArg | .ptrLit | .arrayLit | .mapLit | .structLit
    | .makeChan | .makeMap | .makeSlice | .runesToString | .bytesToString | .stringToRunes
    | .stringToBytes | .concat | .new | .methodValue | .runeToString | .convIface => link dst src
    | .closure => link dst (← closureAddress src x)
    | .callFunc | .callMethod | .callInterface => (← resultsOf src).forM (link dst)
    | .dot => unless p.hasNoPointers x.ty do x.left.forM (carry dst fuel)
    | .conv | .convNop | .dotMethod | .typeAssert | .typeAssertOk | .slice | .slice3 | .sliceArray
    | .slice3Array | .sliceString => x.left.forM (carry dst fuel)
    | .append => x.list.head?.forM (carry dst fuel)
    | .index => if p.isArrayNode x.left then x.left.forM (carry dst fuel)
    | op => if op.isArith then (x.left.toList ++ x.right.toList).forM (carry dst fuel)

/-- The flows into `dst` of an expression that does not contain itself. -/
def carryAll (dst src : NodeId) : FlowM Unit := do carry dst ((← getProgram).nodes.size + 1) src

/-- Records that the value of `src` is lost to the sink. -/
def lose (src : NodeId) : FlowM Unit := do carryAll (← get).sink src

/-- Records that the value of `src` is stored in `dst`. -/
def assign (dst src : NodeId) : FlowM Unit := do
  let p ← getProgram
  match p.place (p.nodes.size + 1) dst with
  | .error e => throw e
  | .ok .nowhere => return
  | .ok (.tracked n) => carryAll n src
  | .ok (.lost key) => do
    key.forM lose
    lose src

/-- A node for what `n` points to, used to count a dereference. What is no pointer keeps its type. -/
def derefNode (n : NodeId) : FlowM NodeId := do
  let p ← getProgram
  let x := p.node n
  let ty := x.ty.map fun t => (p.types.deref? t).getD t
  let deref ← addNode { op := .deref, line := x.line, ty, left := some n }
  setDepth deref (← depthOf n)
  return deref

end Flow

end EscapeAnalysis

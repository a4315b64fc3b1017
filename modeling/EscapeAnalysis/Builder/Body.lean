import EscapeAnalysis.Builder.Signature

/-!
# Bodies under construction

A `Body` builds the statements of one function. Expressions make nodes that stand alone until a
statement takes them; a statement goes to the innermost open block and moves the current line on.

* `Body.make`, `Body.push` : a new node at the current line, a statement for the open block;
* `Body.openBlock`, `Body.closeBlock` : the block that statements go to;
* `Body.enterClosure`, `Body.leaveClosure` : the body of a closure and its expression.
-/

namespace EscapeAnalysis

structure Body where
  program : Program
  id : BodyId
  func : FuncId
  line : UInt32
  /-- The statements of the open blocks, the innermost first. -/
  blocks : List (Array NodeId) := [#[]]
  /-- The labels of this body by name. -/
  labels : List (String × LabelId) := []
  /-- How many closures the body has so far. -/
  closures : Nat := 0

/-- An operation on a body under construction. -/
abbrev BodyM := StateM Body

namespace Body

/-! ## Nodes and statements -/

/-- A new node at the current line. A name that stands for no function belongs to this function. -/
def make (x : Node) : BodyM NodeId := modifyGet fun b =>
  let curfn := if x.op = .name ∧ x.cls ≠ .func then some b.func else x.curfn
  let (n, program) := b.program.addNode { x with line := b.line, curfn, home := some b.id }
  (n, { b with program })

/-- Appends a statement to the open block. -/
def push (stmt : NodeId) : BodyM NodeId := modifyGet fun b =>
  let blocks := match b.blocks with
    | block :: rest => block.push stmt :: rest
    | [] => []
  (stmt, { b with blocks, line := b.line + 1 })

/-- A new node that is a statement at once. -/
def makeStmt (x : Node) : BodyM NodeId := do
  let n ← make x
  push n

def nextLine : BodyM Unit := modify fun b => { b with line := b.line + 1 }

def modifyNode (n : NodeId) (f : Node → Node) : BodyM Unit :=
  modify fun b => { b with program := b.program.modifyNode n f }

def node (n : NodeId) : BodyM Node := return (← get).program.node n

def typeOf (n : NodeId) : BodyM (Option Ty) := return (← node n).ty

def types : BodyM TypeStore := return (← get).program.types

def withTypes {α : Type} (f : TypeStore → α × TypeStore) : BodyM α := modifyGet fun b =>
  let (a, program) := b.program.withTypes f
  (a, { b with program })

/-! ## Blocks -/

def openBlock : BodyM Unit := modify fun b => { b with blocks := #[] :: b.blocks }

/-- The statements of the open block; those to come go to the block around it. -/
def closeBlock : BodyM (List NodeId) := modifyGet fun b =>
  match b.blocks with
  | block :: rest => (block.toList, { b with blocks := rest })
  | [] => ([], b)

/-! ## Whole bodies -/

/-- An empty body for `func`. -/
def start (program : Program) (func : FuncId) (line : UInt32) : Body :=
  let (id, program) := program.beginBody
  { program, id, func, line }

/-- The program with the body in place. -/
def finish (b : Body) : Program :=
  b.program.modifyFunc b.func fun f => { f with body := some (b.blocks.headD #[]).toList }

/-- An empty body for a new closure of `b`. -/
def enterClosure (b : Body) (sig : Signature) : Body :=
  let name := (b.program.func b.func).name ++ ".func" ++ toString (b.closures + 1)
  let (func, program) := b.program.declare { sig with name } (some b.func) b.line
  start program func b.line

/-- The expression for a closure of `b` whose body is finished. It stands at the line where the
closure was entered. -/
def leaveClosure (b inner : Body) : NodeId × Body :=
  let program := inner.finish
  let (n, program) := program.addNode
    { op := .closure, ty := (program.func inner.func).ty, line := b.line,
      func := some inner.func, curfn := some b.func, home := some b.id }
  (n, { b with program, line := inner.line, closures := b.closures + 1 })

end Body

end EscapeAnalysis

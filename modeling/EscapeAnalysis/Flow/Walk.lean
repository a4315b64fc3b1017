import EscapeAnalysis.Flow.Call
import EscapeAnalysis.Flow.Labels

/-!
# Walking a body

`Flow.walk` goes over the statements of a body in order, the parts of a node before the node, and
records the flows of every assignment, call and allocation. It keeps the loop depth: a loop is one
deeper than what surrounds it, apart from the statements that initialize it, and what follows a label
that loops is one deeper than what precedes it.

* `Flow.visit` : what one node records;
* `Flow.walk` : a node with its parts.
-/

namespace EscapeAnalysis

/-- The parts of a node in the order of the walk, after the statements that initialize it. -/
def Node.walked (x : Node) : List NodeId :=
  x.left.toList ++ x.right.toList ++ x.test.toList ++ x.incr.toList ++ x.body ++ x.alt ++ x.list ++ x.rlist

namespace Program

/-- The guard of a switch over a type. -/
def typeGuard? (p : Program) (x : Node) : Option NodeId :=
  if x.op = .switchStmt then x.test.filter fun guard => (p.node guard).op = .typeGuard else none

/-- The variables of the clauses of a switch. -/
def clauseVars (p : Program) (x : Node) : List NodeId := x.list.filterMap fun clause => (p.node clause).left

/-- The values of the entries of a composite literal. -/
def literalValues (p : Program) (x : Node) : List NodeId := x.list.filterMap fun entry => (p.node entry).right

/-- The keys and values of the entries of a map literal. -/
def literalParts (p : Program) (x : Node) : List NodeId :=
  x.list.flatMap fun entry => (p.node entry).left.toList ++ (p.node entry).right.toList

/-- The outputs that a function declares. -/
def outputs (p : Program) (f : Func) : List NodeId := f.decls.filter fun n => (p.node n).isNameOf .result

/-- The name that a dereference or a field through a pointer starts from. -/
def namedBase? (p : Program) (n : NodeId) : Option NodeId :=
  match (p.node n).op with
  | .deref | .dotPtr => (p.node n).left.filter fun base => (p.node base).op = .name
  | _ => none

/-- The assignment is `b.buf = b.buf[i:j]`: it stores no new pointer in `b`. Slicing an array does
store one, to `b` itself. -/
def isSelfReslice (p : Program) (dst src : NodeId) : Bool :=
  match (p.node src).op with
  | .slice | .slice3 | .sliceString =>
    match p.namedBase? dst, (p.node src).left.bind p.namedBase? with
    | some a, some b => a = b
    | _, _ => false
  | _ => false

end Program

namespace Flow

/-! ## Statements -/

/-- Stores the sources in the destinations, one by one. -/
def assignEach : List NodeId → List NodeId → FlowM Unit
  | dst :: dsts, src :: srcs => do
    assign dst src
    assignEach dsts srcs
  | _, _ => return

/-- The function and the arguments of a call that runs on its own are lost. -/
def loseCall (call : Option NodeId) : FlowM Unit := do
  match call with
  | none => return
  | some call =>
    let x := (← getProgram).node call
    (x.left.toList ++ x.right.toList ++ x.list).forM lose

/-- The values of a return statement flow into the outputs. -/
def returnValues (n : NodeId) (x : Node) : FlowM Unit := do
  let s ← get
  match s.curfn with
  | none => return
  | some f =>
    let f := s.program.func f
    let values := match x.list with
      | [value] => if 1 < f.results.length then s.results.get value.index else [value]
      | list => list
    let outs := s.program.outputs f
    if outs.length < values.length then throw (.returnCount n)
    assignEach outs values

/-- The captured variables of a closure, or their addresses, flow into it. -/
def captureVars (n : NodeId) : List NodeId → FlowM Unit
  | [] => return
  | name :: names => do
    let s ← get
    let x := s.program.node name
    match x.origin with
    | none => pure ()
    | some var =>
      if x.byValue then assign n var
      else
        let ty ← ptrTo (s.program.node var).ty
        let addr ← addNode { op := .addr, line := x.line, ty, left := some var, curfn := s.curfn }
        setDepth addr s.depth
        assign n addr
    captureVars n names

/-- The depth of an address is that of the variable. Inputs are at depth 1; outputs are at depth 0 for
what is stored in them, but their addresses are at depth 1, so that storing the address of one output
in another moves it to the heap. -/
def addressDepth (n : NodeId) (var : Option NodeId) : FlowM Unit := do
  match var with
  | none => return
  | some var =>
    let x := (← getProgram).node var
    if x.op = .name then
      match x.cls with
      | .auto =>
        let d ← depthOf var
        if d ≠ 0 then setDepth n d
      | .param | .result => setDepth n 1
      | _ => return

/-- What follows a label that loops is one deeper. -/
def passLabel (l : LabelId) : FlowM Unit := modify fun s =>
  let depth := if s.label? l = some true then s.depth + 1 else s.depth
  { s.dropLabel l with depth }

/-- What a node records once its parts are walked; it is part of `up`. -/
def visit (n : NodeId) (up : Option NodeId) : FlowM Unit := do
  let s ← get
  let p := s.program
  let x := p.node n
  match x.op with
  | .decl => x.left.forM fun var => setDepth var s.depth
  | .label => x.label.forM passLabel
  | .rangeStmt =>
    -- A range over anything but an array reads through a pointer.
    match x.list, x.right with
    | _ :: value :: _, some expr => if p.isArray x.ty then assign value expr
    | _, _ => return
  | .switchStmt =>
    match (p.typeGuard? x).bind fun guard => (p.node guard).right with
    | some subject => (p.clauseVars x).forM (assign · subject)
    | none => return
  | .assign | .assignOp =>
    match x.left, x.right with
    | some dst, some src =>
      if p.isSelfReslice dst src then modify (·.find (.selfAssigns n dst s.curfn))
      else assign dst src
    | _, _ => return
  | .assignMany => if x.list.length = x.rlist.length then assignEach x.list x.rlist
  | .assignRecv | .assignLookup | .assignAssert =>
    match x.list, x.rlist with
    | dst :: _, src :: _ => assign dst src
    | _, _ => return
  | .send => x.right.forM lose
  | .deferStmt =>
    -- A call deferred outside of all loops runs before its arguments are gone.
    if s.depth ≠ 1 then loseCall x.left
  | .goStmt => loseCall x.left
  | .callFunc | .callMethod | .callInterface => call n up
  | .assignCall =>
    match x.rlist with
    | [] => throw (.callResults n)
    | call :: _ =>
      let results := s.results.get call.index
      if x.list.length ≠ results.length then throw (.callResults n)
      assignEach x.list results
  | .returnStmt => returnValues n x
  | .panicStmt => x.left.forM lose
  | .append => unless x.variadic do (x.list.drop 1).forM lose
  | .conv | .convNop => x.left.forM (assign n)
  | .convIface =>
    markPending n
    x.left.forM (assign n)
  | .arrayLit =>
    if p.isSlice x.ty then
      markPending n
      (p.literalValues x).forM lose
    else (p.literalValues x).forM (assign n)
  | .structLit => (p.literalValues x).forM (assign n)
  | .ptrLit =>
    markPending n
    x.left.forM (assign n)
  | .methodValue =>
    markPending n
    x.left.forM lose
  | .mapLit =>
    markPending n
    (p.literalParts x).forM lose
  | .closure =>
    x.func.forM fun f => captureVars n (p.func f).captures
    markPending n
  | .makeChan | .makeMap | .makeSlice | .new | .runesToString | .bytesToString | .stringToRunes
  | .stringToBytes | .runeToString | .concat => markPending n
  | .addr =>
    markPending n
    addressDepth n x.left
  | _ => return

/-! ## Bodies -/

/-- Changes the loop depth at a loop. -/
def deepen (op : Op) (amount : Int) : FlowM Unit :=
  if op.isLoop then modify fun s => { s with depth := s.depth + amount } else return

/-- The variables of a switch over a type have no declaration; they are at the depth of the switch. -/
def placeClauseVars (x : Node) : FlowM Unit := do
  let s ← get
  if (s.program.typeGuard? x).isSome then
    (s.program.clauseVars x).forM fun var => setDepth var s.depth

/-- Walks a node that is part of `up` and whose parts nest no deeper than the fuel. -/
def walk : Nat → Option NodeId → NodeId → FlowM Unit
  | 0, _, n => throw (.cyclic n)
  | fuel + 1, up, n => do
    let x := (← getProgram).node n
    x.init.forM (walk fuel (some n))
    deepen x.op 1
    placeClauseVars ((← getProgram).node n)
    ((← getProgram).node n).walked.forM (walk fuel (some n))
    deepen x.op (-1)
    visit n up

/-- Walks the statements of a body. The nodes of a body that does not contain itself nest no deeper
than their number; the walk hangs at most an array and its address below a call. -/
def walkBody (body : List NodeId) : FlowM Unit := do
  body.forM (walk ((← getProgram).nodes.size + 3) none)

end Flow

end EscapeAnalysis

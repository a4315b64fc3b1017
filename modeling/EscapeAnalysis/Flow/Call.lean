import EscapeAnalysis.Flow.Assign

/-!
# Calls

`Flow.call` binds the arguments and the results of a call. A callee whose body belongs to the group
joins the flow graph: arguments flow into its parameters, and its results are the results of the call.
Any other callee is known by the notes on its parameters, and the results of the call are names made
for it.

* `Flow.callInGroup`, `Flow.callByNotes` : the two kinds of callees;
* `Flow.applyNote` : the flows of an argument that a note tells of;
* `Flow.restArg` : the slice of the `...` arguments.
-/

namespace EscapeAnalysis

/-- What a call knows of its callee: the types of the results, the receiver and the parameters. -/
structure CalleeShape where
  results : List (Option Ty)
  recv : Option Param
  params : List Param

/-- The callee of a call. A function value and a method of an interface carry no notes, and what is
known of them is the type. -/
def Program.calleeShape (p : Program) (call : NodeId) : CalleeShape :=
  let x := p.node call
  match p.calleeOf call with
  | some f =>
    let f := p.func f
    ⟨f.results.map (·.ty), f.recv, f.params⟩
  | none =>
    let callee := x.left.map p.node
    let (params, results, variadic) := ((callee.bind (·.ty)).bind p.types.funcDef?).getD ([], [], false)
    let recv : Param := { ty := ((callee.bind (·.left)).map p.node).bind (·.ty) }
    ⟨results.map some,
      if x.op = .callInterface then some recv else none,
      params.mapIdx fun i ty => { ty := some ty, variadic := variadic && i + 1 = params.length }⟩

/-- The receiver of a method call. -/
def Program.recvExpr (p : Program) (x : Node) : Option NodeId := x.left.bind fun m => (p.node m).left

/-- What is left of a node without the conversions that do nothing. -/
def Program.unwrap (p : Program) : Nat → NodeId → Option NodeId
  | 0, _ => none
  | fuel + 1, n => if (p.node n).op = .convNop then (p.node n).left.bind (p.unwrap fuel) else some n

namespace Flow

/-! ## Arguments -/

/-- The arguments of a call. A call with several results may stand for all of them. -/
def callArgs (x : Node) : FlowM (List NodeId) := do
  match x.list with
  | [arg] =>
    let results ← resultsOf arg
    return if ((← getProgram).node arg).op.isCall ∧ 1 < results.length then results else [arg]
  | list => return list

/-- The slice of the `...` arguments of a call: the address of an array that holds them. -/
def restArg (call : NodeId) (sliceTy : Option Ty) (args : List NodeId) : FlowM NodeId := do
  let p ← getProgram
  let arrayTy ← match sliceTy.bind p.types.elem? with
    | some elem => some <$> withTypes (·.array elem args.length)
    | none => pure none
  let ty ← ptrTo arrayTy
  let line := (p.node call).line
  let s ← get
  let array ← addNode { op := .arrayLit, line, ty := arrayTy, curfn := s.curfn }
  setDepth array s.depth
  args.forM (assign array)
  let rest ← addNode { op := .restArg, line, ty, left := some array, curfn := s.curfn }
  modifyProgram (·.modifyNode call fun x => { x with right := some rest })
  markPending rest
  return rest

/-! ## Callees of the group -/

/-- Stores the arguments in the parameters. -/
def bindParams (call : NodeId) (spread : Bool) : List Param → List NodeId → FlowM Unit
  | _, [] => return
  | [], _ :: _ => throw (.argCount call)
  | param :: params, arg :: args => do
    if param.variadic && !spread then
      let rest ← restArg call param.ty (arg :: args)
      param.name.forM (assign · rest)
    else
      param.name.forM (assign · arg)
      bindParams call spread params args

def callInGroup (call : NodeId) (callee : FuncId) (args : List NodeId) : FlowM Unit := do
  let s ← get
  if s.info.state callee = .unknown ∨ !(s.results.get call.index).isEmpty then
    throw (.graphInconsistency call)
  let f := s.program.func callee
  let x := s.program.node call
  setResults call (f.results.filterMap (·.name))
  if x.op ≠ .callFunc then
    match f.recv.bind (·.name), s.program.recvExpr x with
    | some recv, some expr => assign recv expr
    | _, _ => pure ()
  bindParams call x.variadic f.params args

/-! ## Callees known by their notes -/

/-- The node behind `k` dereferences of `n`. -/
def derefTimes : Nat → NodeId → FlowM NodeId
  | 0, n => return n
  | k + 1, n => do
    let n ← derefNode n
    derefTimes k n

/-- The flows of `src` to the results of a call, by the output fields of a word. -/
def applyFields (note : String) (src : NodeId) : List (Fin 8) → List NodeId → FlowM Unit
  | [], _ => return
  | _ :: _, [] => throw (.corruptNote note)
  | field :: fields, out :: outs => do
    if field ≠ 0 then
      let x ← derefTimes (field.val - 1) src
      assign out x
    applyFields note src fields outs

/-- The flows of an argument for a parameter with this note; returns the word of the note. -/
def applyNote (note : Option String) (outs : List NodeId) (src : NodeId) : FlowM Word := do
  let w := Word.ofNote note
  if w.cls = .unknown then lose src
  else if w ≠ .plain .none then
    if w.content then
      let content ← derefNode src
      lose content
    applyFields (note.getD "") src w.fields outs
  return w

/-- The argument does not outlive the statement of the call. -/
def markStatementLocal (src : NodeId) : FlowM Unit := modifyProgram fun p =>
  match p.unwrap (p.nodes.size + 1) src with
  | none => p
  | some n =>
    match (p.node n).op with
    | .methodValue | .closure | .restArg | .arrayLit | .ptrLit | .structLit =>
      p.modifyNode n fun x => { x with noEscape := true }
    | _ => p

/-- Applies the notes of the parameters to the arguments. -/
def applyNotes (call : NodeId) (spread detached : Bool) (outs : List NodeId) :
    List Param → List NodeId → FlowM Unit
  | _, [] => return
  | [], _ :: _ => throw (.argCount call)
  | param :: params, arg :: args => do
    let takesRest := param.variadic && !spread
    let src ← if takesRest then restArg call param.ty (arg :: args) else pure arg
    if (← getProgram).hasPointers param.ty then
      let w ← applyNote param.note outs src
      if w = .plain .none ∧ !detached then markStatementLocal src
    unless takesRest do applyNotes call spread detached outs params args

/-- Names for the results of a call from position `i` on. -/
def makeOuts (line : UInt32) : Nat → List (Option Ty) → FlowM (List NodeId)
  | _, [] => return []
  | i, ty :: tys => do
    let s ← get
    let out ← addNode
      { op := .name, line, ty, sym := some (".out" ++ toString i), cls := .auto, curfn := s.curfn }
    setDepth out s.depth
    return out :: (← makeOuts line (i + 1) tys)

/-- A call of a callee known by its notes. A call is `detached` if it runs after its statement. -/
def callByNotes (call : NodeId) (detached : Bool) (args : List NodeId) : FlowM Unit := do
  let s ← get
  let x := s.program.node call
  let shape := s.program.calleeShape call
  if !(s.results.get call.index).isEmpty then throw (.graphInconsistency call)
  let outs ← makeOuts x.line 0 shape.results
  setResults call outs
  if x.op ≠ .callFunc then
    match shape.recv, s.program.recvExpr x with
    | some recv, some expr =>
      if s.program.hasPointers recv.ty then
        let _ ← applyNote recv.note outs expr
    | _, _ => pure ()
  applyNotes call x.variadic detached outs shape.params args

/-! ## Calls -/

/-- Binds the arguments and results of a call that is part of `up`. -/
def call (n : NodeId) (up : Option NodeId) : FlowM Unit := do
  modify fun s => { s with calls := n :: s.calls }
  let s ← get
  let p := s.program
  let args ← callArgs (p.node n)
  let detached := up.any fun up => (p.node up).op = .deferStmt ∨ (p.node up).op = .goStmt
  match p.calleeOf n with
  | some callee =>
    if p.isGroupCandidate callee ∧ s.info.state callee ≠ .noted then callInGroup n callee args
    else callByNotes n detached args
  | none => callByNotes n detached args

end Flow

end EscapeAnalysis

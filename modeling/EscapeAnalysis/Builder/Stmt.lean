import EscapeAnalysis.Builder.Expr

/-!
# Statements of a body

Each operation appends a statement to the open block and returns its node. A statement with blocks
comes in parts, one before and one after each block: `beginFor`, the statements of the loop,
`endLoop`.
-/

namespace EscapeAnalysis.Body

/-! ## Simple statements -/

/-- A local variable of this function. -/
def localName (name : String) (ty : Ty) : BodyM NodeId := modifyGet fun b =>
  let (n, program) := b.program.declareName b.func
    { ty := some ty, line := b.line, cls := .auto, sym := some name, home := some b.id }
  (n, { b with program })

/-- Declares a local variable and returns its name. -/
def declare (name : String) (ty : Ty) : BodyM NodeId := do
  let var ← localName name ty
  let _ ← makeStmt { op := .decl, left := some var }
  return var

def assign (dst src : NodeId) : BodyM NodeId :=
  makeStmt { op := .assign, left := some dst, right := some src }

def assignOp (dst : NodeId) (op : Op) (src : NodeId) : BodyM NodeId :=
  makeStmt { op := .assignOp, left := some dst, right := some src, sym := some op.symbol }

def assignMany (dsts srcs : List NodeId) : BodyM NodeId :=
  makeStmt { op := .assignMany, list := dsts, rlist := srcs }

def assignCall (dsts : List NodeId) (call : NodeId) : BodyM NodeId :=
  makeStmt { op := .assignCall, list := dsts, rlist := [call] }

/-- The operator of `value, ok = src` for a source with this operator, if there is such a form. -/
def commaOk? : Op → Option Op
  | .recv => some .assignRecv
  | .indexMap => some .assignLookup
  | .typeAssert | .typeAssertOk => some .assignAssert
  | _ => none

/-- `value, ok = src` by the operator `commaOk?` gives. A type assertion then does not fail. -/
def assignOk (op : Op) (value ok src : NodeId) : BodyM NodeId := do
  if op = .assignAssert then modifyNode src fun x => { x with op := .typeAssertOk }
  makeStmt { op, list := [value, ok], rlist := [src] }

def ret (values : List NodeId) : BodyM NodeId := makeStmt { op := .returnStmt, list := values }

def send (chan value : NodeId) : BodyM NodeId :=
  makeStmt { op := .send, left := some chan, right := some value }

def panicWith (value : NodeId) : BodyM NodeId := makeStmt { op := .panicStmt, left := some value }

def deferCall (call : NodeId) : BodyM NodeId := makeStmt { op := .deferStmt, left := some call }

def goCall (call : NodeId) : BodyM NodeId := makeStmt { op := .goStmt, left := some call }

/-- The label of this name in this body. -/
def labelOf (name : String) : BodyM LabelId := modifyGet fun b =>
  match b.labels.lookup name with
  | some l => (l, b)
  | none =>
    let (l, program) := b.program.addLabel name (some b.id)
    (l, { b with program, labels := (name, l) :: b.labels })

def label (name : String) : BodyM NodeId := do
  let l ← labelOf name
  makeStmt { op := .label, label := some l }

def goto (name : String) : BodyM NodeId := do
  let l ← labelOf name
  makeStmt { op := .goto, label := some l }

/-! ## Loops -/

def beginFor (cond : Option NodeId) : BodyM NodeId := do
  let stmt ← make { op := .forStmt, test := cond }
  nextLine
  openBlock
  return stmt

/-- A loop over `x`. A value variable alone gets a blank key. -/
def beginRange (key value : Option NodeId) (x : NodeId) : BodyM NodeId := do
  let key ← match key, value with
    | none, some _ => some <$> blank
    | _, _ => pure key
  let ty ← typeOf x
  let stmt ← make { op := .rangeStmt, ty, right := some x, list := key.toList ++ value.toList }
  nextLine
  openBlock
  return stmt

def endLoop (stmt : NodeId) : BodyM NodeId := do
  let body ← closeBlock
  modifyNode stmt fun x => { x with body }
  push stmt

/-! ## Branches -/

def beginIf (cond : NodeId) : BodyM NodeId := do
  let stmt ← make { op := .ifStmt, test := some cond }
  nextLine
  openBlock
  return stmt

/-- Ends the block for a true condition and opens the one for a false condition. -/
def beginElse (stmt : NodeId) : BodyM Unit := do
  let body ← closeBlock
  modifyNode stmt fun x => { x with body }
  openBlock

def endIf (stmt : NodeId) : BodyM NodeId := do
  let alt ← closeBlock
  modifyNode stmt fun x => { x with alt }
  push stmt

/-- A switch over the type of `x`. -/
def beginSwitch (x : NodeId) : BodyM NodeId := do
  let guard ← make { op := .typeGuard, right := some x }
  let stmt ← make { op := .switchStmt, test := some guard }
  nextLine
  return stmt

/-- A clause of a switch over `x`, with its variable if it has one. Without a type the clause is the
default one, and its variable has the type of `x`. -/
def beginCase (x : NodeId) (name : Option String) (ty : Option Ty) : BodyM (NodeId × Option NodeId) := do
  let var ← match name with
    | some name => some <$> localName name ((ty.or (← typeOf x)).getD .unit)
    | none => pure none
  let clause ← make { op := .caseClause, ty, left := var }
  nextLine
  openBlock
  return (clause, var)

def endCase (clause : NodeId) : BodyM Unit := do
  let body ← closeBlock
  modifyNode clause fun x => { x with body }

def endSwitch (stmt : NodeId) (clauses : List NodeId) : BodyM NodeId := do
  modifyNode stmt fun x => { x with list := clauses }
  push stmt

end EscapeAnalysis.Body

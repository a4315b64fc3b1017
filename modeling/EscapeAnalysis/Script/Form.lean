import EscapeAnalysis.Program.Text
import EscapeAnalysis.Script.Scope

/-!
# Scripts of bodies

A `Form` describes one expression or statement of a body, the forms of its parts inside it; an
`Action` is a step of a body. Evaluating a form evaluates its parts from left to right and then runs
the operation of the body, and yields the node that operation returns.

* `Form.eval`, `Action.eval` : the evaluation, on a `BodyState`;
* `Action.evalBody` : a sequence of actions.
-/

namespace EscapeAnalysis.Script

mutual

inductive Form where
  | ref (node : NodeRef)
  /-- Names the node of a form. -/
  | bind (key : String) (x : Form)
  /-- Names the type of a form. -/
  | bindType (name : String) (x : Form)
  /-- Records the text of a form. -/
  | record (x : Form)
  | param (i : Nat)
  | result (i : Nat)
  | recv
  | declare (name : String) (ty : String) (key : String)
  | blank
  | funcValue (f : FuncRef)
  /-- A closure, its function named `key`. -/
  | closure (sig : SigExpr) (body : List Action) (key : Option String)
  | capture (x : Form) (byValue : Bool)
  | int (value : Int)
  | str (value : String)
  | nil (ty : String)
  | addr (x : Form)
  | deref (x : Form)
  | dot (x : Form) (field : String)
  | dotPtr (x : Form) (field : String)
  | index (x i : Form)
  | slice (x : Form) (lo hi : Option Form)
  | new (ty : String)
  | makeSlice (ty : String) (len : Form)
  | makeMap (ty : String)
  | makeChan (ty : String)
  | structLit (ty : String) (fields : List (String × Form))
  | arrayLit (ty : String) (elems : List Form)
  | mapLit (ty : String) (pairs : List (Form × Form))
  | ptrLit (x : Form)
  | conv (x : Form) (ty : String)
  | convNop (x : Form) (ty : String)
  | convIface (x : Form) (ty : String)
  | bytesToString (x : Form)
  | stringToBytes (x : Form)
  | concat (parts : List Form)
  | typeAssert (x : Form) (ty : String)
  | recvFrom (x : Form)
  | len (x : Form)
  | binary (op : Op) (x y : Form)
  | append (args : List Form) (spread : Bool)
  | call (f : FuncRef) (args : List Form) (spread : Bool)
  | callMethod (x : Form) (f : FuncRef) (args : List Form)
  | callInterface (x : Form) (method : String) (fnTy : String) (args : List Form)
  | callValue (callee : Form) (args : List Form)
  | methodValue (x : Form) (f : FuncRef)
  | exprStmt (x : Form)
  | assign (dst src : Form)
  | assignOp (dst : Form) (op : Op) (src : Form)
  | assignMany (dsts srcs : List Form)
  | assignCall (dsts : List Form) (call : Form)
  | assignOk (value ok src : Form)
  | ret (values : List Form)
  | send (chan value : Form)
  | panicWith (x : Form)
  | deferCall (x : Form)
  | goCall (x : Form)
  | forStmt (cond : Option Form) (body : List Action)
  | rangeStmt (key value : Option Form) (x : Form) (body : List Action)
  | ifStmt (cond : Form) (body alt : List Action)
  /-- The clauses have a variable, a type and a block each. -/
  | typeSwitch (x : Form) (clauses : List (Option String × Option String × List Action))
  | label (name : String)
  | goto (name : String)

inductive Action where
  | form (x : Form)
  /-- Records the current line. -/
  | line
  | setLine (line : UInt32)
  | times (n : Nat) (body : List Action)

end

/-- What an evaluation records: the text, type and line of a node, or the current line. -/
inductive Shown where
  | node (text : String) (ty : Option String) (line : UInt32)
  | line (line : UInt32)

structure BodyState where
  body : Body
  scope : Scope
  shown : Array Shown := #[]

abbrev FormM := StateT BodyState (Except ScriptError)

namespace FormM

/-- An operation of the body. -/
def build {α : Type} (m : BodyM α) : FormM α := modifyGet fun s =>
  let (a, body) := m.run s.body
  (a, { s with body })

def type (name : String) : FormM Ty := do (← get).scope.type name

def func (f : FuncRef) : FormM FuncId := do
  let s ← get
  s.scope.func s.body.program f

def bindNode (key : String) (n : NodeId) : FormM Unit :=
  modify fun s => { s with scope := s.scope.bindNode key n }

def record (x : Shown) : FormM Unit := modify fun s => { s with shown := s.shown.push x }

/-- The name of one of the parameters or results of the function. -/
def nameOf (params : List Param) (i : Nat) (unnamed : ScriptError) : FormM NodeId :=
  match params[i]? with
  | none => throw .outOfRange
  | some { name := some n, .. } => return n
  | some _ => throw unnamed

def currentFunc : FormM Func := do
  let s ← get
  return s.body.program.func s.body.func

def times (n : Nat) (m : FormM Unit) : FormM Unit :=
  match n with
  | 0 => return
  | n + 1 => do
    m
    times n m

end FormM

open FormM

mutual

def Form.eval : Form → FormM NodeId
  | .ref r => do
    let s ← get
    s.scope.node s.body.program r
  | .bind key x => do
    let n ← x.eval
    bindNode key n
    return n
  | .bindType name x => do
    let n ← x.eval
    match ← build (Body.typeOf n) with
    | some t =>
      modify fun s => { s with scope := s.scope.bindType name t }
      return n
    | none => throw (.unbound name)
  | .record x => do
    let n ← x.eval
    let p := (← get).body.program
    FormM.record (.node (p.text n) ((p.node n).ty.map p.types.text) (p.node n).line)
    return n
  | .param i => do nameOf (← currentFunc).params i (.unnamedParam i)
  | .result i => do nameOf (← currentFunc).results i (.unnamedResult i)
  | .recv => do
    match (← currentFunc).recv.bind (·.name) with
    | some n => return n
    | none => throw .noReceiver
  | .declare name ty key => do
    let n ← build (Body.declare name (← type ty))
    bindNode key n
    return n
  | .blank => build Body.blank
  | .funcValue f => do build (Body.funcValue (← func f))
  | .closure sig body key => do
    let outer := (← get).body
    let inner := outer.enterClosure (← sig.eval (← get).scope)
    modify fun s =>
      { s with
        body := inner
        scope := match key with
          | some key => s.scope.bindFunc key inner.func
          | none => s.scope }
    Action.evalBody body
    let (n, body) := outer.leaveClosure (← get).body
    modify fun s => { s with body }
    return n
  | .capture x byValue => do build (Body.capture (← x.eval) byValue)
  | .int value => build (Body.int value)
  | .str value => build (Body.str value)
  | .nil ty => do build (Body.nil (← type ty))
  | .addr x => do build (Body.addr (← x.eval))
  | .deref x => do build (Body.deref (← x.eval))
  | .dot x field => do build (Body.dot (← x.eval) field)
  | .dotPtr x field => do build (Body.dotPtr (← x.eval) field)
  | .index x i => do
    let x ← x.eval
    let i ← i.eval
    build (Body.index x i)
  | .slice x lo hi => do
    let x ← x.eval
    let lo ← Form.evalOption lo
    let hi ← Form.evalOption hi
    build (Body.slice x lo hi)
  | .new ty => do build (Body.new (← type ty))
  | .makeSlice ty len => do
    let len ← len.eval
    build (Body.makeSlice (← type ty) len)
  | .makeMap ty => do build (Body.makeMap (← type ty))
  | .makeChan ty => do build (Body.makeChan (← type ty))
  | .structLit ty fields => do
    let fields ← Form.evalFields fields
    build (Body.structLit (← type ty) fields)
  | .arrayLit ty elems => do
    let elems ← Form.evalList elems
    build (Body.arrayLit (← type ty) elems)
  | .mapLit ty pairs => do
    let pairs ← Form.evalPairs pairs
    build (Body.mapLit (← type ty) pairs)
  | .ptrLit x => do build (Body.ptrLit (← x.eval))
  | .conv x ty => do
    let x ← x.eval
    build (Body.conv x (← type ty))
  | .convNop x ty => do
    let x ← x.eval
    build (Body.convNop x (← type ty))
  | .convIface x ty => do
    let x ← x.eval
    build (Body.convIface x (← type ty))
  | .bytesToString x => do build (Body.bytesToString (← x.eval))
  | .stringToBytes x => do build (Body.stringToBytes (← x.eval))
  | .concat parts => do build (Body.concat (← Form.evalList parts))
  | .typeAssert x ty => do
    let x ← x.eval
    build (Body.typeAssert x (← type ty))
  | .recvFrom x => do build (Body.recvFrom (← x.eval))
  | .len x => do build (Body.len (← x.eval))
  | .binary op x y => do
    let x ← x.eval
    let y ← y.eval
    if h : op.isBinary = true then build (Body.binary ⟨op, h⟩ x y) else throw (.notBinary op)
  | .append args spread => do build (Body.append (← Form.evalList args) spread)
  | .call f args spread => do
    let args ← Form.evalList args
    build (Body.call (← func f) args spread)
  | .callMethod x f args => do
    let x ← x.eval
    let args ← Form.evalList args
    build (Body.callMethod x (← func f) args)
  | .callInterface x method fnTy args => do
    let x ← x.eval
    let args ← Form.evalList args
    build (Body.callInterface x method (← type fnTy) args)
  | .callValue callee args => do
    let callee ← callee.eval
    let args ← Form.evalList args
    build (Body.callValue callee args)
  | .methodValue x f => do
    let x ← x.eval
    build (Body.methodValue x (← func f))
  | .exprStmt x => do build (Body.push (← x.eval))
  | .assign dst src => do
    let dst ← dst.eval
    let src ← src.eval
    build (Body.assign dst src)
  | .assignOp dst op src => do
    let dst ← dst.eval
    let src ← src.eval
    build (Body.assignOp dst op src)
  | .assignMany dsts srcs => do
    let dsts ← Form.evalList dsts
    let srcs ← Form.evalList srcs
    build (Body.assignMany dsts srcs)
  | .assignCall dsts call => do
    let dsts ← Form.evalList dsts
    let call ← call.eval
    build (Body.assignCall dsts call)
  | .assignOk value ok src => do
    let value ← value.eval
    let ok ← ok.eval
    let src ← src.eval
    let op := (← build (Body.node src)).op
    match Body.commaOk? op with
    | some form => build (Body.assignOk form value ok src)
    | none => throw (.noCommaOk op)
  | .ret values => do build (Body.ret (← Form.evalList values))
  | .send chan value => do
    let chan ← chan.eval
    let value ← value.eval
    build (Body.send chan value)
  | .panicWith x => do build (Body.panicWith (← x.eval))
  | .deferCall x => do build (Body.deferCall (← x.eval))
  | .goCall x => do build (Body.goCall (← x.eval))
  | .forStmt cond body => do
    let cond ← Form.evalOption cond
    let stmt ← build (Body.beginFor cond)
    Action.evalBody body
    build (Body.endLoop stmt)
  | .rangeStmt key value x body => do
    let key ← Form.evalOption key
    let value ← Form.evalOption value
    let x ← x.eval
    let stmt ← build (Body.beginRange key value x)
    Action.evalBody body
    build (Body.endLoop stmt)
  | .ifStmt cond body alt => do
    let cond ← cond.eval
    let stmt ← build (Body.beginIf cond)
    Action.evalBody body
    build (Body.beginElse stmt)
    Action.evalBody alt
    build (Body.endIf stmt)
  | .typeSwitch x clauses => do
    let x ← x.eval
    let tys ← clauses.mapM fun (_, ty, _) => ty.mapM type
    let stmt ← build (Body.beginSwitch x)
    let clauses ← Form.evalClauses x tys clauses
    build (Body.endSwitch stmt clauses)
  | .label name => build (Body.label name)
  | .goto name => build (Body.goto name)

def Form.evalOption : Option Form → FormM (Option NodeId)
  | none => return none
  | some x => do
    let n ← x.eval
    return some n

def Form.evalList : List Form → FormM (List NodeId)
  | [] => return []
  | x :: rest => do
    let n ← x.eval
    return n :: (← Form.evalList rest)

def Form.evalFields : List (String × Form) → FormM (List (String × NodeId))
  | [] => return []
  | (field, x) :: rest => do
    let n ← x.eval
    return (field, n) :: (← Form.evalFields rest)

def Form.evalPairs : List (Form × Form) → FormM (List (NodeId × NodeId))
  | [] => return []
  | (key, value) :: rest => do
    let key ← key.eval
    let value ← value.eval
    return (key, value) :: (← Form.evalPairs rest)

/-- The clauses of a switch over `x`, whose types are `tys`. -/
def Form.evalClauses (x : NodeId) :
    List (Option Ty) → List (Option String × Option String × List Action) → FormM (List NodeId)
  | _, [] => return []
  | tys, (name, _, body) :: rest => do
    let (clause, var) ← build (Body.beginCase x name (tys.headD none))
    match name, var with
    | some name, some var => bindNode name var
    | _, _ => pure ()
    Action.evalBody body
    build (Body.endCase clause)
    return clause :: (← Form.evalClauses x tys.tail rest)

def Action.eval : Action → FormM Unit
  | .form x => do
    let _ ← x.eval
    return
  | .line => do FormM.record (.line (← get).body.line)
  | .setLine line => modify fun s => { s with body := { s.body with line } }
  | .times n body => FormM.times n (Action.evalBody body)

def Action.evalBody : List Action → FormM Unit
  | [] => return
  | a :: rest => do
    a.eval
    Action.evalBody rest

end

end EscapeAnalysis.Script

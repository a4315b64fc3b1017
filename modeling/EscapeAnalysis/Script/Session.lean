import EscapeAnalysis.Script.Form

/-!
# Scripts of programs

A `Step` declares a type, a variable, a function or a body. `Script.run` builds a program from a list
of steps; the programs it gives are those that the building operations can make.

* `Session.step` : one step, with what it answers;
* `Script.run` : all steps from an empty program.
-/

namespace EscapeAnalysis.Script

inductive Step where
  | type (name : String) (e : TypeExpr)
  /-- Names the type of a function. -/
  | funcType (name : String) (f : FuncRef)
  | struct (name : String) (fields : List (String × String))
  | updateStruct (name : String) (fields : List (String × String))
  | global (name : String) (ty : String) (key : String)
  | func (sig : SigExpr) (key : String)
  | importFunc (sig : SigExpr) (key : String)
  | paramNote (f : FuncRef) (i : Nat) (note : String)
  | recvNote (f : FuncRef) (note : String)
  | markNoEscape (f : FuncRef)
  | define (f : FuncRef) (body : List Action)

inductive Answer where
  | type (t : Ty)
  | node (n : NodeId)
  | func (f : FuncId)
  /-- The line after the last action of a body, and what its forms recorded. -/
  | body (line : UInt32) (shown : Array Shown)
  | done

structure Session where
  draft : Draft := {}
  scope : Scope := {}
deriving Inhabited

namespace Session

def program (s : Session) : Program := s.draft.program

def setProgram (s : Session) (program : Program) : Session := { s with draft := { s.draft with program } }

/-- Names a type that an operation of the type store made. -/
def bindType (s : Session) (name : String) (made : Ty × TypeStore) : Answer × Session :=
  let (t, types) := made
  (.type t, { s.setProgram { s.program with types } with scope := s.scope.bindType name t })

def step (s : Session) : Step → Except ScriptError (Answer × Session)
  | .type name e => return s.bindType name (← e.eval s.scope s.program.types)
  | .funcType name f => do
    let f ← s.scope.func s.program f
    match (s.program.func f).ty with
    | some t => return s.bindType name (t, s.program.types)
    | none => throw (.unbound name)
  | .struct name fields => do
    let fields ← s.scope.fields fields
    match s.program.types.struct name fields with
    | .ok made => return s.bindType name made
    | .error e => throw (.type e)
  | .updateStruct name fields => do
    let fields ← s.scope.fields fields
    match s.program.types.updateStruct name fields with
    | .ok types => return (.done, s.setProgram { s.program with types })
    | .error e => throw (.type e)
  | .global name ty key => do
    let (n, program) := s.program.global name (← s.scope.type ty)
    return (.node n, { s.setProgram program with scope := s.scope.bindNode key n })
  | .func sig key => do
    let (f, draft) := s.draft.declareFunc (← sig.eval s.scope)
    return (.func f, { draft, scope := s.scope.bindFunc key f })
  | .importFunc sig key => do
    let (f, draft) := s.draft.importFunc (← sig.eval s.scope)
    return (.func f, { draft, scope := s.scope.bindFunc key f })
  | .paramNote f i note => do
    let f ← s.scope.func s.program f
    if i < (s.program.func f).params.length then
      return (.done, { s with draft := s.draft.setParamNote f i note })
    else throw .outOfRange
  | .recvNote f note => do
    let f ← s.scope.func s.program f
    return (.done, { s with draft := s.draft.setRecvNote f note })
  | .markNoEscape f => do
    let f ← s.scope.func s.program f
    return (.done, { s with draft := s.draft.markNoEscape f })
  | .define f body => do
    let f ← s.scope.func s.program f
    let ((), t) ← (Action.evalBody body).run { body := s.draft.startBody f, scope := s.scope }
    return (.body t.body.line t.shown, { draft := s.draft.finishBody t.body, scope := t.scope })

end Session

/-- The session after all steps, or why they stop. -/
def run (steps : List Step) : Except ScriptError Session :=
  steps.foldlM (fun s step => return (← s.step step).2) {}

end EscapeAnalysis.Script

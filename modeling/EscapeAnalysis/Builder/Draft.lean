import EscapeAnalysis.Builder.Stmt

/-!
# Programs under construction

A `Draft` takes declarations one after the other and gives each the next line. A function is declared
once per name; its body is built as a `Body` between `Draft.startBody` and `Draft.finishBody`.
-/

namespace EscapeAnalysis

structure Draft where
  program : Program := {}
  /-- The declared functions by name. -/
  declared : List (String × FuncId) := []
  /-- The line of the next declaration. -/
  line : UInt32 := 1
deriving Inhabited

namespace Draft

def func? (d : Draft) (name : String) : Option FuncId := d.declared.lookup name

/-- The function of the given name, declared by `sig` if there is none yet. -/
def declareFunc (d : Draft) (sig : Signature) : FuncId × Draft :=
  match d.func? sig.name with
  | some f => (f, d)
  | none =>
    let (f, program) := d.program.declare sig none d.line
    (f, { program, declared := (sig.name, f) :: d.declared, line := d.line + 1 })

/-- A function that is declared elsewhere. -/
def importFunc (d : Draft) (sig : Signature) : FuncId × Draft :=
  let (f, d) := d.declareFunc sig
  (f, { d with program := d.program.modifyFunc f fun x => { x with imported := true } })

def setParamNote (d : Draft) (f : FuncId) (i : Nat) (note : String) : Draft :=
  { d with program := d.program.modifyFunc f fun x =>
      { x with params := x.params.modify i fun param => { param with note := some note } } }

/-- The note of the receiver, if the function has one. -/
def setRecvNote (d : Draft) (f : FuncId) (note : String) : Draft :=
  { d with program := d.program.modifyFunc f fun x =>
      { x with recv := x.recv.map fun param => { param with note := some note } } }

/-- Promises that a function without a body lets no parameter escape. -/
def markNoEscape (d : Draft) (f : FuncId) : Draft :=
  { d with program := d.program.modifyFunc f fun x => { x with noEscape := true } }

def startBody (d : Draft) (f : FuncId) : Body := Body.start d.program f d.line

def finishBody (d : Draft) (b : Body) : Draft :=
  { d with program := b.finish, line := b.line + 1 }

end Draft

end EscapeAnalysis

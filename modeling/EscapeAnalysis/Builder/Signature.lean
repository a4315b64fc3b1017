import EscapeAnalysis.Program

/-!
# Declaring functions

`Program.declare` adds the function a `Signature` describes together with the names of its receiver,
parameters and results. A parameter without a name gets no node. A result without a name is named
`~r` and its position, and the results are numbered from one.
-/

namespace EscapeAnalysis

structure Signature where
  name : String := ""
  recv : Option (String × Ty) := none
  params : List (String × Ty) := []
  /-- The last parameter takes the remaining arguments. -/
  variadic : Bool := false
  results : List (Option String × Ty) := []
deriving Inhabited

namespace Program

/-- A name of `func` that its function lists among its declarations. -/
def declareName (p : Program) (func : FuncId) (x : Node) : NodeId × Program :=
  let (n, p) := p.addNode { x with op := .name, curfn := some func }
  (n, p.modifyFunc func fun f => { f with decls := f.decls ++ [n] })

/-- The receiver or a parameter; an empty name declares nothing. -/
def declareInput (p : Program) (func : FuncId) (name : String) (ty : Ty) (variadic : Bool) (line : UInt32) :
    Param × Program :=
  if name.isEmpty then ({ ty := some ty, variadic }, p)
  else
    let (n, p) := p.declareName func { ty := some ty, line, cls := .param, sym := some name, variadic }
    ({ name := some n, ty := some ty, variadic }, p)

def declareParams (func : FuncId) (variadic : Bool) (line : UInt32) : List (String × Ty) → Program → Program
  | [], p => p
  | (name, ty) :: rest, p =>
    let (param, p) := p.declareInput func name ty (variadic && rest.isEmpty) line
    declareParams func variadic line rest
      (p.modifyFunc func fun f => { f with params := f.params ++ [param] })

/-- The results from position `i` on. -/
def declareResults (func : FuncId) (line : UInt32) : Nat → List (Option String × Ty) → Program → Program
  | _, [], p => p
  | i, (name, ty) :: rest, p =>
    let sym := name.getD ("~r" ++ toString i)
    let (n, p) := p.declareName func
      { ty := some ty, line, cls := .result, sym := some sym, ordinal := i + 1 }
    let param : Param := { name := some n, ty := some ty }
    declareResults func line (i + 1) rest
      (p.modifyFunc func fun f => { f with results := f.results ++ [param] })

def declareRecv (func : FuncId) (line : UInt32) : Option (String × Ty) → Program → Program
  | none, p => p
  | some (name, ty), p =>
    let (param, p) := p.declareInput func name ty false line
    p.modifyFunc func fun f => { f with recv := some param }

/-- Adds the function of a signature at a line, inside `outer` if it is a closure. -/
def declare (p : Program) (sig : Signature) (outer : Option FuncId) (line : UInt32) : FuncId × Program :=
  let (ty, p) := p.withTypes fun s => s.func (sig.params.map (·.2)) (sig.results.map (·.2)) sig.variadic
  let (func, p) := p.addFunc { name := sig.name, outer, ty := some ty, line }
  let p := declareRecv func line sig.recv p
  let p := declareParams func sig.variadic line sig.params p
  (func, declareResults func line 0 sig.results p)

end Program

end EscapeAnalysis

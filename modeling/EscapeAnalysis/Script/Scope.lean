import EscapeAnalysis.Builder.Draft

/-!
# Names of a script

A script names the nodes, functions and types it makes and refers to them by these names. `Scope`
holds what the names stand for; a name given again stands for the last thing. Nodes and functions may
also be given by their number.

* `ScriptError` : why a script stops, with `ScriptError.message?` for the causes that have a text;
* `TypeExpr.eval` : the type an expression describes.
-/

namespace EscapeAnalysis.Script

inductive ScriptError where
  | type (cause : TypeError)
  | unnamedParam (i : Nat)
  | unnamedResult (i : Nat)
  | noReceiver
  | noCommaOk (op : Op)
  /-- The operator does not join two values. -/
  | notBinary (op : Op)
  /-- A number stands for nothing. -/
  | outOfRange
  /-- A name stands for nothing. -/
  | unbound (name : String)
deriving DecidableEq

def ScriptError.message? : ScriptError → Option String
  | type cause => some cause.message
  | unnamedParam i => some ("parameter " ++ toString i ++ " is unnamed")
  | unnamedResult i => some ("result " ++ toString i ++ " is unnamed")
  | noReceiver => some "function has no named receiver"
  | noCommaOk op => some (op.mnemonic ++ " has no comma-ok form")
  | notBinary _ => none
  | outOfRange => none
  | unbound _ => none

inductive NodeRef where
  | key (key : String)
  | index (i : Nat)

inductive FuncRef where
  | key (key : String)
  | index (i : Nat)

structure Scope where
  nodes : List (String × NodeId) := []
  funcs : List (String × FuncId) := []
  types : List (String × Ty) := []
deriving Inhabited

namespace Scope

def bindNode (s : Scope) (key : String) (n : NodeId) : Scope := { s with nodes := (key, n) :: s.nodes }

def bindFunc (s : Scope) (key : String) (f : FuncId) : Scope := { s with funcs := (key, f) :: s.funcs }

def bindType (s : Scope) (name : String) (t : Ty) : Scope := { s with types := (name, t) :: s.types }

def node (s : Scope) (p : Program) : NodeRef → Except ScriptError NodeId
  | .key k => (s.nodes.lookup k).elim (.error (.unbound k)) .ok
  | .index i => if i < p.nodes.size then .ok ⟨i⟩ else .error .outOfRange

def func (s : Scope) (p : Program) : FuncRef → Except ScriptError FuncId
  | .key k => (s.funcs.lookup k).elim (.error (.unbound k)) .ok
  | .index i => if i < p.funcs.size then .ok ⟨i⟩ else .error .outOfRange

/-- The type of a name. The names of the primitive types are taken. -/
def type (s : Scope) (name : String) : Except ScriptError Ty :=
  ((Ty.primitives.lookup name).or (s.types.lookup name)).elim (.error (.unbound name)) .ok

def fields (s : Scope) (fields : List (String × String)) : Except ScriptError (List Field) :=
  fields.mapM fun (name, ty) => return ⟨name, ← s.type ty⟩

end Scope

/-! ## Descriptions of types -/

inductive TypeExpr where
  | named (name : String)
  | ptr (elem : TypeExpr)
  /-- The type behind `n` pointers. -/
  | ptrs (elem : TypeExpr) (n : Nat)
  | slice (elem : TypeExpr)
  | array (elem : TypeExpr) (len : Nat)
  | map (key value : TypeExpr)
  | chan (elem : TypeExpr)
  | interface (name : String)
  | func (args rets : List TypeExpr) (variadic : Bool)
  /-- The struct of a name. -/
  | struct (name : String)

namespace TypeExpr

/-- The type behind `n` more pointers. -/
def wrap : Nat → Ty → TypeStore → Ty × TypeStore
  | 0, t, s => (t, s)
  | n + 1, t, s =>
    let (t, s) := s.ptr t
    wrap n t s

mutual

/-- The type described, its parts made from left to right. -/
def eval (scope : Scope) : TypeExpr → TypeStore → Except ScriptError (Ty × TypeStore)
  | .named name, s => return (← scope.type name, s)
  | .ptr e, s => do
    let (t, s) ← e.eval scope s
    return s.ptr t
  | .ptrs e n, s => do
    let (t, s) ← e.eval scope s
    return wrap n t s
  | .slice e, s => do
    let (t, s) ← e.eval scope s
    return s.slice t
  | .array e len, s => do
    let (t, s) ← e.eval scope s
    return s.array t len
  | .map k v, s => do
    let (k, s) ← k.eval scope s
    let (v, s) ← v.eval scope s
    return s.map k v
  | .chan e, s => do
    let (t, s) ← e.eval scope s
    return s.chan t
  | .interface name, s => return s.interface name
  | .func args rets variadic, s => do
    let (args, s) ← evalList scope args s
    let (rets, s) ← evalList scope rets s
    return s.func args rets variadic
  | .struct name, s =>
    match s.lookupStruct? name with
    | some t => return (t, s)
    | none => throw (.unbound name)

def evalList (scope : Scope) : List TypeExpr → TypeStore → Except ScriptError (List Ty × TypeStore)
  | [], s => return ([], s)
  | e :: rest, s => do
    let (t, s) ← e.eval scope s
    let (ts, s) ← evalList scope rest s
    return (t :: ts, s)

end

end TypeExpr

/-! ## Descriptions of signatures -/

structure ParamExpr where
  name : String
  ty : String
  variadic : Bool := false

structure SigExpr where
  name : String := ""
  recv : Option (String × String) := none
  params : List ParamExpr := []
  results : List (Option String × String) := []

def SigExpr.eval (scope : Scope) (e : SigExpr) : Except ScriptError Signature := do
  let recv ← match e.recv with
    | some (name, ty) => some <$> (return (name, ← scope.type ty))
    | none => pure none
  let params ← e.params.mapM fun param => return (param.name, ← scope.type param.ty)
  let results ← e.results.mapM fun (name, ty) => return (name, ← scope.type ty)
  return { name := e.name, recv, params, variadic := e.params.any (·.variadic), results }

end EscapeAnalysis.Script

import EscapeAnalysis.Node
import EscapeAnalysis.TypeStore.Pointers

/-!
# Programs

A `Program` holds the functions of a program together with the arena of their nodes, the types and
the labels. Whatever is added is numbered in the order of creation.

* `Program.node`, `Program.func` : what a reference stands for, a default if it stands for nothing;
* `Program.addNode`, `Program.modifyNode`, `Program.addFunc`, `Program.modifyFunc`, `Program.addLabel`;
* `Program.global` : the variable of the package with a given name;
* `Program.calleeOf` : the function a call is known to call.
-/

namespace EscapeAnalysis

/-- A formal parameter or result. -/
structure Param where
  /-- The name that declares it, absent if it is not named. -/
  name : Option NodeId := none
  ty : Option Ty := none
  /-- The last parameter of a variadic function. -/
  variadic : Bool := false
  /-- The escape word, as text for the callers. -/
  note : Option String := none
deriving DecidableEq, Inhabited

structure Func where
  name : String := ""
  recv : Option Param := none
  params : List Param := []
  results : List Param := []
  /-- The statements, absent for a function that is only declared. -/
  body : Option (List NodeId) := none
  /-- The names declared in the function: receiver, parameters, results and locals. -/
  decls : List NodeId := []
  /-- The declaration promises that no parameter escapes. -/
  noEscape : Bool := false
  /-- Declared elsewhere and never analyzed. -/
  imported : Bool := false
  /-- The function that encloses a closure. -/
  outer : Option FuncId := none
  /-- The captured variables of a closure. -/
  captures : List NodeId := []
  ty : Option Ty := none
  line : UInt32 := 0
deriving DecidableEq, Inhabited

namespace Func

def hasBody (f : Func) : Bool := f.body.isSome

def isClosure (f : Func) : Bool := f.outer.isSome

def isVariadic (f : Func) : Bool := f.params.getLast?.any (·.variadic)

/-- The receiver and the parameters. -/
def inputs (f : Func) : List Param := f.recv.toList ++ f.params

end Func

/-- A label of a body. -/
structure Label where
  name : String
  home : Option BodyId := none
deriving DecidableEq, Inhabited

structure Program where
  types : TypeStore := {}
  nodes : Array Node := #[]
  funcs : Array Func := #[]
  labels : Array Label := #[]
  globals : List (String × NodeId) := []
  /-- How many bodies were begun. -/
  bodies : Nat := 0
deriving DecidableEq, Inhabited

namespace Program

/-! ## Nodes, functions and labels -/

def node (p : Program) (n : NodeId) : Node := p.nodes.getD n.index default

def addNode (p : Program) (x : Node) : NodeId × Program :=
  (⟨p.nodes.size⟩, { p with nodes := p.nodes.push x })

def modifyNode (p : Program) (n : NodeId) (f : Node → Node) : Program :=
  { p with nodes := p.nodes.modify n.index f }

def func (p : Program) (f : FuncId) : Func := p.funcs.getD f.index default

def addFunc (p : Program) (x : Func) : FuncId × Program :=
  (⟨p.funcs.size⟩, { p with funcs := p.funcs.push x })

def modifyFunc (p : Program) (f : FuncId) (g : Func → Func) : Program :=
  { p with funcs := p.funcs.modify f.index g }

def labelName (p : Program) (l : LabelId) : String := (p.labels.getD l.index default).name

def addLabel (p : Program) (name : String) (home : Option BodyId := none) : LabelId × Program :=
  (⟨p.labels.size⟩, { p with labels := p.labels.push { name, home } })

def beginBody (p : Program) : BodyId × Program := (⟨p.bodies⟩, { p with bodies := p.bodies + 1 })

/-- Runs an operation of the type store. -/
def withTypes {α : Type} (p : Program) (f : TypeStore → α × TypeStore) : α × Program :=
  let (a, types) := f p.types
  (a, { p with types })

def global? (p : Program) (name : String) : Option NodeId := p.globals.lookup name

/-- The variable of the package named `name`, made with type `ty` if there is none yet. -/
def global (p : Program) (name : String) (ty : Ty) : NodeId × Program :=
  match p.global? name with
  | some n => (n, p)
  | none =>
    let (n, p) := p.addNode { op := .name, ty := some ty, sym := some name, cls := .global }
    (n, { p with globals := (name, n) :: p.globals })

/-! ## Questions about a program -/

/-- The functions declared here, in the order of declaration. -/
def decls (p : Program) : List FuncId :=
  ((List.range p.funcs.size).map FuncId.mk).filter fun f => !(p.func f).imported

/-- The function that a call is known to call. -/
def calleeOf (p : Program) (call : NodeId) : Option FuncId := do
  let x := p.node call
  let callee := p.node (← x.left)
  match x.op with
  | .callFunc => if callee.isNameOf .func then callee.func else none
  | .callMethod => if callee.op = .dotMethod then callee.func else none
  | _ => none

/-- The body of the function can take part in the flow graph of a group. -/
def isGroupCandidate (p : Program) (f : FuncId) : Bool :=
  !(p.func f).imported && (p.func f).hasBody

/-- The type is known and holds pointers. -/
def hasPointers (p : Program) (t : Option Ty) : Bool := t.any p.types.hasPointers

/-- The type is known and holds no pointer. -/
def hasNoPointers (p : Program) (t : Option Ty) : Bool := t.any fun t => !p.types.hasPointers t

def isArray (p : Program) (t : Option Ty) : Bool := t.any p.types.isArray

def isSlice (p : Program) (t : Option Ty) : Bool := t.any p.types.isSlice

/-- The node is there and has a fixed array for its type. -/
def isArrayNode (p : Program) (n : Option NodeId) : Bool := n.any fun n => p.isArray (p.node n).ty

/-! ## What the operations do to the nodes -/

@[simp] theorem node_addNode_self (p : Program) (x : Node) : (p.addNode x).2.node (p.addNode x).1 = x := by
  simp [node, addNode, Array.getD_eq_getD_getElem?]

theorem node_addNode_of_lt (p : Program) (x : Node) {n : NodeId} (h : n.index < p.nodes.size) :
    (p.addNode x).2.node n = p.node n := by
  simp [node, addNode, Array.getD_eq_getD_getElem?, Array.getElem?_push, Nat.ne_of_lt h]

theorem node_modifyNode_of_ne (p : Program) {m n : NodeId} (f : Node → Node) (h : n ≠ m) :
    (p.modifyNode m f).node n = p.node n := by
  have : m.index ≠ n.index := fun e => h (by cases m; cases n; simp_all)
  simp [node, modifyNode, Array.getD_eq_getD_getElem?, Array.getElem?_modify, this]

theorem node_modifyNode_self (p : Program) {n : NodeId} (f : Node → Node) (h : n.index < p.nodes.size) :
    (p.modifyNode n f).node n = f (p.node n) := by
  simp [node, modifyNode, Array.getD_eq_getD_getElem?, Array.getElem_modify, h]

end Program

end EscapeAnalysis

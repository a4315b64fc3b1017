import EscapeAnalysis.Op
import EscapeAnalysis.Ty

/-!
# Nodes

The names, expressions and statements of a program are nodes of one arena and refer to each other by
number. One record serves all operators; which parts a node has depends on its operator.

* `Node.children` : the parts in the order of their listing;
* `Node.isBlank` : the blank name `_`.
-/

namespace EscapeAnalysis

@[ext] structure NodeId where
  index : Nat
deriving DecidableEq, Inhabited

@[ext] structure FuncId where
  index : Nat
deriving DecidableEq, Inhabited

structure LabelId where
  index : Nat
deriving DecidableEq, Inhabited

/-- A body under construction, numbered in the order in which bodies are begun. -/
structure BodyId where
  index : Nat
deriving DecidableEq, Inhabited

def NodeId.text (n : NodeId) : String := "n" ++ toString n.index

def FuncId.text (f : FuncId) : String := "func" ++ toString f.index

def LabelId.text (l : LabelId) : String := "label" ++ toString l.index

/-- What a name stands for. -/
inductive NodeClass where
  /-- Not a declared name. -/
  | none
  /-- A variable of the package. -/
  | global
  /-- A local variable. -/
  | auto
  /-- An input of a function, the receiver of a method included. -/
  | param
  /-- An output of a function. -/
  | result
  /-- A variable of an enclosing function, as a closure sees it. -/
  | captured
  | func
deriving DecidableEq, Inhabited

namespace NodeClass

def all : List NodeClass := [none, global, auto, param, result, captured, func]

def name : NodeClass → String
  | none => "None"
  | global => "Extern"
  | auto => "Auto"
  | param => "Param"
  | result => "ParamOut"
  | captured => "ParamRef"
  | func => "Func"

def ofName? (s : String) : Option NodeClass := all.find? (·.name == s)

end NodeClass

structure Node where
  op : Op := .block
  ty : Option Ty := none
  line : UInt32 := 0
  cls : NodeClass := .none
  sym : Option String := none
  left : Option NodeId := none
  right : Option NodeId := none
  test : Option NodeId := none
  incr : Option NodeId := none
  init : List NodeId := []
  list : List NodeId := []
  body : List NodeId := []
  alt : List NodeId := []
  rlist : List NodeId := []
  /-- The function a name stands for, the method of a selection, the function of a closure. -/
  func : Option FuncId := none
  /-- The function that declares this name. -/
  curfn : Option FuncId := none
  /-- The variable of the enclosing function that this captured name stands for. -/
  origin : Option NodeId := none
  label : Option LabelId := none
  /-- The body that this node was made in. -/
  home : Option BodyId := none
  /-- The position of an output among the outputs of its function, from one. -/
  ordinal : Nat := 0
  /-- A call that spreads its last argument, or a parameter that takes the remaining ones. -/
  variadic : Bool := false
  byValue : Bool := false
  /-- The value does not outlive the statement that makes it. -/
  noEscape : Bool := false
deriving DecidableEq

namespace Node

instance : Inhabited Node := ⟨{}⟩

def isName (x : Node) : Bool := x.op == .name

def isBlank (x : Node) : Bool := x.op == .name && x.sym == some "_"

/-- A name of the given class. -/
def isNameOf (x : Node) (cls : NodeClass) : Bool := x.op == .name && x.cls == cls

theorem isNameOf_iff {x : Node} {cls : NodeClass} : x.isNameOf cls = true ↔ x.op = .name ∧ x.cls = cls := by
  simp [isNameOf]

theorem isNameOf_of_op_ne {x : Node} (h : x.op ≠ .name) (cls : NodeClass) : x.isNameOf cls = false := by
  simp [isNameOf, h]

def children (x : Node) : List NodeId :=
  x.init ++ x.left.toList ++ x.right.toList ++ x.list ++ x.test.toList ++ x.incr.toList
    ++ x.body ++ x.alt ++ x.rlist

end Node

end EscapeAnalysis

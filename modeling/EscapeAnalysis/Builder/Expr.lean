import EscapeAnalysis.Builder.Body
import EscapeAnalysis.Text.Quoted

/-!
# Expressions of a body

Each operation makes the node of an expression from the nodes of its parts and gives it the type the
expression has, as far as the types of the parts tell.
-/

namespace EscapeAnalysis.Body

/-! ## Names and literals -/

/-- The blank name `_`. -/
def blank : BodyM NodeId := make { op := .name, sym := some "_" }

def funcValue (f : FuncId) : BodyM NodeId := do
  let decl := (← get).program.func f
  make { op := .name, ty := decl.ty, sym := some decl.name, cls := .func, func := some f }

/-- The variable `var` of the enclosing function, as this closure sees it. -/
def capture (var : NodeId) (byValue : Bool) : BodyM NodeId := modifyGet fun b =>
  let outer := b.program.node var
  let (n, program) := b.program.addNode
    { op := .name, ty := outer.ty, line := b.line, cls := .captured, sym := outer.sym,
      curfn := some b.func, origin := some var, byValue, home := some b.id }
  (n, { b with program := program.modifyFunc b.func fun f => { f with captures := f.captures ++ [n] } })

def int (value : Int) : BodyM NodeId :=
  make { op := .literal, ty := some .int64, sym := some (toString value) }

def str (value : String) : BodyM NodeId :=
  make { op := .literal, ty := some .string, sym := some (Text.quote value) }

def nil (ty : Ty) : BodyM NodeId := make { op := .literal, ty := some ty, sym := some "nil" }

/-! ## Access to memory -/

/-- The pointer type to the type of `x`, if that is known. -/
def ptrTypeTo (x : NodeId) : BodyM (Option Ty) := do
  match ← typeOf x with
  | some ty => return some (← withTypes (·.ptr ty))
  | none => return none

def addr (x : NodeId) : BodyM NodeId := do
  let ty ← ptrTypeTo x
  make { op := .addr, ty, left := some x }

def deref (x : NodeId) : BodyM NodeId := do
  let ty := (← typeOf x).bind (← types).deref?
  make { op := .deref, ty, left := some x }

/-- A field of a struct. -/
def dot (x : NodeId) (field : String) : BodyM NodeId := do
  let types ← types
  let ty := (← typeOf x).bind fun t => types.fieldType? t field
  make { op := .dot, ty, left := some x, sym := some field }

/-- A field through a pointer to a struct. -/
def dotPtr (x : NodeId) (field : String) : BodyM NodeId := do
  let types ← types
  let ty := ((← typeOf x).bind types.deref?).bind fun t => types.fieldType? t field
  make { op := .dotPtr, ty, left := some x, sym := some field }

def index (x i : NodeId) : BodyM NodeId := do
  let types ← types
  let xty ← typeOf x
  let op := if xty.any types.isMap then Op.indexMap else .index
  make { op, ty := xty.bind types.elem?, left := some x, right := some i }

/-- `x[lo:hi]` on a slice, a string or a pointer to an array. An upper bound alone gets `0` for the
lower one. -/
def slice (x : NodeId) (lo hi : Option NodeId) : BodyM NodeId := do
  let lo ← match lo, hi with
    | none, some _ => some <$> int 0
    | _, _ => pure lo
  let types ← types
  let xty ← typeOf x
  let list := lo.toList ++ hi.toList
  match xty, (xty.bind types.deref?).bind types.arrayDef? with
  | some .string, _ => make { op := .sliceString, ty := xty, left := some x, list }
  | _, some (elem, _) =>
    let ty ← withTypes (·.slice elem)
    make { op := .sliceArray, ty := some ty, left := some x, list }
  | _, none => make { op := .slice, ty := xty, left := some x, list }

def typeAssert (x : NodeId) (ty : Ty) : BodyM NodeId := make { op := .typeAssert, ty := some ty, left := some x }

/-- Receives from a channel. -/
def recvFrom (x : NodeId) : BodyM NodeId := do
  let ty := (← typeOf x).bind (← types).elem?
  make { op := .recv, ty, left := some x }

def len (x : NodeId) : BodyM NodeId := make { op := .len, ty := some .int64, left := some x }

/-! ## Allocations -/

def new (ty : Ty) : BodyM NodeId := do
  let ty ← withTypes (·.ptr ty)
  make { op := .new, ty := some ty }

def makeSlice (ty : Ty) (len : NodeId) : BodyM NodeId := make { op := .makeSlice, ty := some ty, list := [len] }

def makeMap (ty : Ty) : BodyM NodeId := make { op := .makeMap, ty := some ty }

def makeChan (ty : Ty) : BodyM NodeId := make { op := .makeChan, ty := some ty }

/-- An entry of a composite literal. -/
def entry (key value : NodeId) : BodyM NodeId := do
  let ty ← typeOf value
  make { op := .key, ty, left := some key, right := some value }

def fieldEntries : List (String × NodeId) → BodyM (List NodeId)
  | [] => return []
  | (field, value) :: rest => do
    let key ← make { op := .literal, sym := some field }
    let e ← entry key value
    return e :: (← fieldEntries rest)

def structLit (ty : Ty) (fields : List (String × NodeId)) : BodyM NodeId := do
  let list ← fieldEntries fields
  make { op := .structLit, ty := some ty, list }

/-- The entries of elements from position `i` on. -/
def elemEntries : Nat → List NodeId → BodyM (List NodeId)
  | _, [] => return []
  | i, value :: rest => do
    let key ← int i
    let e ← entry key value
    return e :: (← elemEntries (i + 1) rest)

/-- A literal of an array or a slice, as `ty` says. -/
def arrayLit (ty : Ty) (elems : List NodeId) : BodyM NodeId := do
  let list ← elemEntries 0 elems
  make { op := .arrayLit, ty := some ty, list }

def pairEntries : List (NodeId × NodeId) → BodyM (List NodeId)
  | [] => return []
  | (key, value) :: rest => do
    let e ← entry key value
    return e :: (← pairEntries rest)

def mapLit (ty : Ty) (pairs : List (NodeId × NodeId)) : BodyM NodeId := do
  let list ← pairEntries pairs
  make { op := .mapLit, ty := some ty, list }

/-- The address of a composite literal. -/
def ptrLit (lit : NodeId) : BodyM NodeId := do
  let ty ← ptrTypeTo lit
  make { op := .ptrLit, ty, left := some lit }

def append (args : List NodeId) (spread : Bool) : BodyM NodeId := do
  let ty ← match args with
    | first :: _ => typeOf first
    | [] => pure none
  make { op := .append, ty, list := args, variadic := spread }

def concat (parts : List NodeId) : BodyM NodeId := make { op := .concat, ty := some .string, list := parts }

/-! ## Conversions and arithmetic -/

def conv (x : NodeId) (ty : Ty) : BodyM NodeId := make { op := .conv, ty := some ty, left := some x }

def convNop (x : NodeId) (ty : Ty) : BodyM NodeId := make { op := .convNop, ty := some ty, left := some x }

/-- Boxes a value into an interface. -/
def convIface (x : NodeId) (ty : Ty) : BodyM NodeId := make { op := .convIface, ty := some ty, left := some x }

def bytesToString (x : NodeId) : BodyM NodeId := make { op := .bytesToString, ty := some .string, left := some x }

def stringToBytes (x : NodeId) : BodyM NodeId := do
  let ty ← withTypes (·.slice .int8)
  make { op := .stringToBytes, ty := some ty, left := some x }

def binary (op : { op : Op // op.isBinary = true }) (x y : NodeId) : BodyM NodeId := do
  let ty ← typeOf x
  make { op := op.val, ty, left := some x, right := some y }

/-! ## Calls -/

/-- The type of a call: that of the only result. -/
def resultType (f : FuncId) : BodyM (Option Ty) := do
  match ((← get).program.func f).results with
  | [result] => return result.ty
  | _ => return none

def resultTypeOf (fnTy : Option Ty) : BodyM (Option Ty) := do
  match fnTy.bind (← types).funcDef? with
  | some (_, [ret], _) => return some ret
  | _ => return none

/-- A call of a declared function; `spread` passes the last argument as the slice of the remaining ones. -/
def call (f : FuncId) (args : List NodeId) (spread : Bool) : BodyM NodeId := do
  let callee ← funcValue f
  let ty ← resultType f
  make { op := .callFunc, ty, left := some callee, list := args, variadic := spread }

def callMethod (recv : NodeId) (f : FuncId) (args : List NodeId) : BodyM NodeId := do
  let decl := (← get).program.func f
  let callee ← make { op := .dotMethod, ty := decl.ty, left := some recv, sym := some decl.name, func := some f }
  let ty ← resultType f
  make { op := .callMethod, ty, left := some callee, list := args }

/-- A call through an interface; `fnTy` is the type of the method without its receiver. -/
def callInterface (recv : NodeId) (method : String) (fnTy : Ty) (args : List NodeId) : BodyM NodeId := do
  let callee ← make { op := .dotInterface, ty := some fnTy, left := some recv, sym := some method }
  let ty ← resultTypeOf (some fnTy)
  make { op := .callInterface, ty, left := some callee, list := args }

/-- A call of a function value. -/
def callValue (callee : NodeId) (args : List NodeId) : BodyM NodeId := do
  let ty ← resultTypeOf (← typeOf callee)
  make { op := .callFunc, ty, left := some callee, list := args }

/-- A method bound to its receiver. -/
def methodValue (recv : NodeId) (f : FuncId) : BodyM NodeId := do
  let decl := (← get).program.func f
  make { op := .methodValue, ty := decl.ty, left := some recv, sym := some decl.name, func := some f }

end EscapeAnalysis.Body

/-!
# Types

A type is primitive or a reference to a compound type kept in a store. Equal compounds have one
reference, so types are compared by reference.

* `Ty` : the types of names and expressions;
* `Compound` : what a reference stands for.
-/

namespace EscapeAnalysis

/-- A reference to a compound type, numbered in the order of creation. -/
structure CompoundId where
  index : Nat
deriving DecidableEq, Inhabited

inductive Ty where
  | bool
  | int8
  | int16
  | int32
  | int64
  | float64
  | string
  /-- A pointer that may point to anything. -/
  | rawPointer
  | unit
  | compound (id : CompoundId)
deriving DecidableEq

namespace Ty

instance : Inhabited Ty := ⟨unit⟩

def isIntegral : Ty → Bool
  | int8 | int16 | int32 | int64 => true
  | _ => false

def isCompound : Ty → Bool
  | compound _ => true
  | _ => false

def isUnit : Ty → Bool
  | unit => true
  | _ => false

/-- The primitive types with their names. -/
def primitives : List (String × Ty) :=
  [("bool", bool), ("int8", int8), ("int16", int16), ("int32", int32), ("int64", int64),
    ("float64", float64), ("string", string), ("unsafe.Pointer", rawPointer), ("()", unit)]

end Ty

structure Field where
  name : String
  ty : Ty
deriving DecidableEq

inductive Compound where
  | ptr (elem : Ty)
  | slice (elem : Ty)
  | array (elem : Ty) (len : Nat)
  | map (key value : Ty)
  | chan (elem : Ty)
  | struct (name : String) (fields : List Field)
  /-- A variadic function takes its last argument as the slice of the remaining ones. -/
  | func (args rets : List Ty) (variadic : Bool)
  | interface (name : String)
deriving DecidableEq

end EscapeAnalysis

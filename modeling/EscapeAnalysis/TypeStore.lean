import EscapeAnalysis.Ty

/-!
# Type stores

A `TypeStore` interns compound types: `intern` returns the reference of an equal compound that is
already there. A struct has one definition per name; `updateStruct` replaces its fields under the
same reference, which is how a struct comes to mention itself.

* `TypeStore.find?` : the reference of a compound;
* `TypeStore.intern`, `TypeStore.struct`, `TypeStore.updateStruct` : the operations that write;
* `TypeStore.elem?`, `deref?`, `fieldType?`, `arrayDef?`, `funcDef?`, `structDef?` : the parts of a type.
-/

namespace EscapeAnalysis

structure TypeStore where
  compounds : Array Compound := #[]
  /-- The reference of each stored compound. -/
  index : List (Compound × CompoundId) := []
  /-- The reference of each struct by its name. -/
  structs : List (String × CompoundId) := []
deriving DecidableEq

inductive TypeError where
  | structDefined (name : String)
  | structMissing (name : String)
deriving DecidableEq

def TypeError.message : TypeError → String
  | structDefined name => "struct " ++ name ++ " is already defined"
  | structMissing name => "struct " ++ name ++ " is not found"

namespace TypeStore

instance : Inhabited TypeStore := ⟨{}⟩

/-! ## Writing -/

def find? (s : TypeStore) (c : Compound) : Option CompoundId := s.index.lookup c

/-- Appends a compound that is not stored yet. -/
def append (s : TypeStore) (c : Compound) : Ty × TypeStore :=
  let id : CompoundId := ⟨s.compounds.size⟩
  let structs := match c with
    | .struct name _ => (name, id) :: s.structs
    | _ => s.structs
  (.compound id, ⟨s.compounds.push c, (c, id) :: s.index, structs⟩)

/-- The reference of `c`, which is appended if it is not stored yet. -/
def intern (s : TypeStore) (c : Compound) : Ty × TypeStore :=
  match s.find? c with
  | some id => (.compound id, s)
  | none => s.append c

def ptr (s : TypeStore) (elem : Ty) : Ty × TypeStore := s.intern (.ptr elem)

def slice (s : TypeStore) (elem : Ty) : Ty × TypeStore := s.intern (.slice elem)

def array (s : TypeStore) (elem : Ty) (len : Nat) : Ty × TypeStore := s.intern (.array elem len)

def map (s : TypeStore) (key value : Ty) : Ty × TypeStore := s.intern (.map key value)

def chan (s : TypeStore) (elem : Ty) : Ty × TypeStore := s.intern (.chan elem)

def interface (s : TypeStore) (name : String) : Ty × TypeStore := s.intern (.interface name)

def func (s : TypeStore) (args rets : List Ty) (variadic : Bool) : Ty × TypeStore :=
  s.intern (.func args rets variadic)

def lookupStruct? (s : TypeStore) (name : String) : Option Ty :=
  (s.structs.lookup name).map .compound

/-- The struct of this name and these fields. A name has one struct, so other fields are refused. -/
def struct (s : TypeStore) (name : String) (fields : List Field) : Except TypeError (Ty × TypeStore) :=
  match s.find? (.struct name fields) with
  | some id => .ok (.compound id, s)
  | none =>
    if (s.structs.lookup name).isSome then .error (.structDefined name)
    else .ok (s.append (.struct name fields))

/-- Replaces the fields of a struct; its reference stays. -/
def updateStruct (s : TypeStore) (name : String) (fields : List Field) : Except TypeError TypeStore :=
  match s.structs.lookup name with
  | none => .error (.structMissing name)
  | some id =>
    match s.compounds[id.index]? with
    | none => .ok s
    | some old =>
      let new := Compound.struct name fields
      .ok { s with
        compounds := s.compounds.setIfInBounds id.index new
        index := (new, id) :: s.index.filter (·.1 ≠ old) }

/-! ## Reading -/

def compound? (s : TypeStore) : Ty → Option Compound
  | .compound id => s.compounds[id.index]?
  | _ => none

def structDef? (s : TypeStore) (t : Ty) : Option (String × List Field) :=
  match s.compound? t with
  | some (.struct name fields) => some (name, fields)
  | _ => none

def fieldType? (s : TypeStore) (t : Ty) (name : String) : Option Ty := do
  let (_, fields) ← s.structDef? t
  let field ← fields.find? (·.name == name)
  return field.ty

def arrayDef? (s : TypeStore) (t : Ty) : Option (Ty × Nat) :=
  match s.compound? t with
  | some (.array elem len) => some (elem, len)
  | _ => none

/-- The arguments and results of a function type, and whether it is variadic. -/
def funcDef? (s : TypeStore) (t : Ty) : Option (List Ty × List Ty × Bool) :=
  match s.compound? t with
  | some (.func args rets variadic) => some (args, rets, variadic)
  | _ => none

def deref? (s : TypeStore) (t : Ty) : Option Ty :=
  match s.compound? t with
  | some (.ptr elem) => some elem
  | _ => none

/-- The type of what a pointer, slice, array, channel or string holds, and of the values of a map. -/
def elem? (s : TypeStore) (t : Ty) : Option Ty :=
  match t, s.compound? t with
  | .string, _ => some .int8
  | _, some (.ptr elem) | _, some (.slice elem) | _, some (.chan elem) | _, some (.array elem _) => some elem
  | _, some (.map _ value) => some value
  | _, _ => none

def isPtr (s : TypeStore) (t : Ty) : Bool := (s.deref? t).isSome

def isSlice (s : TypeStore) (t : Ty) : Bool :=
  match s.compound? t with
  | some (.slice _) => true
  | _ => false

def isArray (s : TypeStore) (t : Ty) : Bool := (s.arrayDef? t).isSome

def isMap (s : TypeStore) (t : Ty) : Bool :=
  match s.compound? t with
  | some (.map _ _) => true
  | _ => false

def isStruct (s : TypeStore) (t : Ty) : Bool := (s.structDef? t).isSome

def isFunc (s : TypeStore) (t : Ty) : Bool := (s.funcDef? t).isSome

def isInterface (s : TypeStore) (t : Ty) : Bool :=
  match s.compound? t with
  | some (.interface _) => true
  | _ => false

end TypeStore

end EscapeAnalysis

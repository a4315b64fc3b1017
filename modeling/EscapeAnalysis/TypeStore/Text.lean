import EscapeAnalysis.TypeStore

/-!
# Text of types

`TypeStore.text` : `*T`, `[]T`, `[3]T`, `map[K]V`, `chan T`, `func(A, B) R`, and for structs and
interfaces their names. The last argument of a variadic function is `...` and the type of its
elements. Only a struct can mention a type made after it, and its fields are not written, so the
nesting is below the number of compounds.
-/

namespace EscapeAnalysis.TypeStore

/-- The text of a type whose parts nest no deeper than the fuel. -/
def textAt (s : TypeStore) : Nat → Ty → String
  | _, .bool => "bool"
  | _, .int8 => "int8"
  | _, .int16 => "int16"
  | _, .int32 => "int32"
  | _, .int64 => "int64"
  | _, .float64 => "float64"
  | _, .string => "string"
  | _, .rawPointer => "unsafe.Pointer"
  | _, .unit => "()"
  | 0, .compound _ => ""
  | fuel + 1, .compound id =>
    let text := s.textAt fuel
    match s.compounds[id.index]? with
    | none => ""
    | some (.ptr elem) => "*" ++ text elem
    | some (.slice elem) => "[]" ++ text elem
    | some (.array elem len) => "[" ++ toString len ++ "]" ++ text elem
    | some (.map key value) => "map[" ++ text key ++ "]" ++ text value
    | some (.chan elem) => "chan " ++ text elem
    | some (.struct name _) => name
    | some (.interface name) => name
    | some (.func args rets variadic) =>
      let last := args.getLast?.map fun arg => "..." ++ text ((s.elem? arg).getD arg)
      let args := match variadic, last with
        | true, some last => args.dropLast.map text ++ [last]
        | _, _ => args.map text
      let rets := match rets with
        | [] => ""
        | [ret] => " " ++ text ret
        | rets => " (" ++ ", ".intercalate (rets.map text) ++ ")"
      "func(" ++ ", ".intercalate args ++ ")" ++ rets

def text (s : TypeStore) (t : Ty) : String := s.textAt (s.compounds.size + 1) t

/-- A type that may be missing is shown as `?`. -/
def optText (s : TypeStore) : Option Ty → String
  | some t => s.text t
  | none => "?"

end EscapeAnalysis.TypeStore

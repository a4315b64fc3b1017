import EscapeAnalysis.TypeStore

/-!
# Types that hold pointers

`TypeStore.hasPointers` : a value of the type may hold a pointer. Strings, raw pointers and every
compound but arrays and structs do; an array that is not empty does if its elements do, and a struct
if one of its fields does. Structs may contain each other through their fields, so the search enters
a compound once.
-/

namespace EscapeAnalysis.TypeStore

/-- The depth-first search, with the compounds entered so far. The fuel bounds the nesting of the
compounds entered, each of which is new. -/
def pointerSearch (s : TypeStore) : Nat → Ty → List CompoundId → Bool × List CompoundId
  | _, .string, entered => (true, entered)
  | _, .rawPointer, entered => (true, entered)
  | fuel + 1, .compound id, entered =>
    if id ∈ entered then (false, entered)
    else match s.compounds[id.index]? with
      | none => (false, id :: entered)
      | some (.array elem len) =>
        if len = 0 then (false, id :: entered) else s.pointerSearch fuel elem (id :: entered)
      | some (.struct _ fields) =>
        fields.foldl
          (fun (found, entered) field =>
            if found then (found, entered) else s.pointerSearch fuel field.ty entered)
          (false, id :: entered)
      | some _ => (true, id :: entered)
  | _, _, entered => (false, entered)

def hasPointers (s : TypeStore) (t : Ty) : Bool :=
  (s.pointerSearch (s.compounds.size + 1) t []).1

end EscapeAnalysis.TypeStore

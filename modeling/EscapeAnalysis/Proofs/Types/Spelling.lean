import EscapeAnalysis.Proofs.Types.Stores
import EscapeAnalysis.TypeStore.Text

/-!
# How texts of types are put together

The text of a compound is made of the texts of other types: of its parts, except that a struct is written by its name and
that a variadic function shows what its last argument holds. These types are older than the compound.

* `TypeStore.asked` : the types whose texts are asked for;
* `TypeStore.spell` : the text of a compound by the texts of other types;
* `textAt_succ`, `spell_congr` : a text is spelled by the texts of the types that are asked for;
* `spell_asked_of_elem?` : how the spelling depends on the store;
* `Ordered.below_asked` : these are older than the compound.
-/

namespace EscapeAnalysis.TypeStore

/-- The arguments of a function as they are shown: what stands before each of them, and its type. -/
def shownArgs (s : TypeStore) (args : List Ty) (variadic : Bool) : List (String × Ty) :=
  if variadic then
    args.dropLast.map (Prod.mk "") ++ (args.getLast?.map fun arg => ("...", (s.elem? arg).getD arg)).toList
  else args.map (Prod.mk "")

/-- The types whose texts are asked for to write a compound. -/
def asked (s : TypeStore) : Compound → List Ty
  | .ptr elem | .slice elem | .array elem _ | .chan elem => [elem]
  | .map key value => [key, value]
  | .struct _ _ | .interface _ => []
  | .func args rets variadic => (s.shownArgs args variadic).map Prod.snd ++ rets

/-- The results of a function, by their texts. -/
def resultText : List String → String
  | [] => ""
  | [ret] => " " ++ ret
  | rets => " (" ++ ", ".intercalate rets ++ ")"

/-- The text of a compound by the texts of other types. -/
def spell (s : TypeStore) (text : Ty → String) : Compound → String
  | .ptr elem => "*" ++ text elem
  | .slice elem => "[]" ++ text elem
  | .array elem len => "[" ++ toString len ++ "]" ++ text elem
  | .map key value => "map[" ++ text key ++ "]" ++ text value
  | .chan elem => "chan " ++ text elem
  | .struct name _ => name
  | .interface name => name
  | .func args rets variadic =>
    "func(" ++ ", ".intercalate ((s.shownArgs args variadic).map fun arg => arg.1 ++ text arg.2) ++ ")" ++
      resultText (rets.map text)

/-- The last argument of a variadic function is written apart, if there is one. -/
theorem map_shownArgs_variadic (s : TypeStore) (text : Ty → String) (args : List Ty) :
    (s.shownArgs args true).map (fun arg => arg.1 ++ text arg.2) =
      args.dropLast.map text ++ (args.getLast?.map fun arg => "..." ++ text ((s.elem? arg).getD arg)).toList := by
  have hinit : (args.dropLast.map (Prod.mk "")).map (fun arg => arg.1 ++ text arg.2) = args.dropLast.map text := by
    rw [List.map_map]
    apply List.map_congr_left
    intro arg _
    exact String.empty_append
  rw [shownArgs, if_pos rfl, List.map_append, hinit]
  cases args.getLast? <;> rfl

theorem map_shownArgs_fixed (s : TypeStore) (text : Ty → String) (args : List Ty) :
    (s.shownArgs args false).map (fun arg => arg.1 ++ text arg.2) = args.map text := by
  rw [shownArgs, if_neg Bool.false_ne_true, List.map_map]
  apply List.map_congr_left
  intro arg _
  exact String.empty_append

/-- A text is spelled by texts that nest less deep. -/
theorem textAt_succ {s : TypeStore} {id : CompoundId} {c : Compound} (hc : s.compounds[id.index]? = some c) (fuel : Nat) :
    s.textAt (fuel + 1) (.compound id) = s.spell (s.textAt fuel) c := by
  rw [textAt, hc]
  cases c with
  | func args rets variadic =>
    rw [spell]
    cases variadic with
    | false =>
      rw [map_shownArgs_fixed]
      rcases rets with _ | ⟨ret, _ | ⟨_, _⟩⟩ <;> rfl
    | true =>
      rw [map_shownArgs_variadic]
      cases hlast : args.getLast? with
      | none =>
        rw [List.getLast?_eq_none_iff] at hlast
        subst hlast
        rcases rets with _ | ⟨ret, _ | ⟨_, _⟩⟩ <;> rfl
      | some arg =>
        simp only [hlast]
        rcases rets with _ | ⟨ret, _ | ⟨_, _⟩⟩ <;> rfl
  | _ => rfl

/-- The text of a compound depends only on the texts that are asked for. -/
theorem spell_congr {s : TypeStore} {text text' : Ty → String} {c : Compound} (h : ∀ t ∈ s.asked c, text t = text' t) :
    s.spell text c = s.spell text' c := by
  cases c with
  | struct | interface => rfl
  | func args rets variadic =>
    have hargs : (s.shownArgs args variadic).map (fun arg => arg.1 ++ text arg.2) =
        (s.shownArgs args variadic).map fun arg => arg.1 ++ text' arg.2 := by
      apply List.map_congr_left
      intro arg harg
      rw [h arg.2 (List.mem_append_left _ (List.mem_map_of_mem harg))]
    have hrets : rets.map text = rets.map text' := by
      apply List.map_congr_left
      intro ret hret
      exact h ret (List.mem_append_right _ hret)
    rw [spell, spell, hargs, hrets]
  | map key value =>
    rw [spell, spell, h key List.mem_cons_self, h value (List.mem_cons_of_mem _ List.mem_cons_self)]
  | ptr elem | slice elem | chan elem | array elem len => rw [spell, spell, h elem List.mem_cons_self]

/-- A store has a say in how a compound is written only by what the parts of the compound hold. -/
theorem spell_asked_of_elem? {s t : TypeStore} {c : Compound} (h : ∀ part ∈ c.parts, t.elem? part = s.elem? part) :
    t.asked c = s.asked c ∧ ∀ text, t.spell text c = s.spell text c := by
  cases c with
  | func args rets variadic =>
    have hlast : (args.getLast?.map fun arg => ("...", (t.elem? arg).getD arg)) =
        args.getLast?.map fun arg => ("...", (s.elem? arg).getD arg) := by
      apply Option.map_congr
      intro arg harg
      rw [h arg (List.mem_append_left _ (List.mem_of_getLast? harg))]
    have hargs : t.shownArgs args variadic = s.shownArgs args variadic := by
      rw [shownArgs, shownArgs, hlast]
    constructor
    · rw [asked, asked, hargs]
    · intro text
      rw [spell, spell, hargs]
  | _ => exact ⟨rfl, fun _ => rfl⟩

/-- The types that are asked for are older than the compound, as its parts are. What the last argument of a variadic
function holds is older than the argument. -/
theorem Ordered.below_asked {s : TypeStore} (hs : s.Ordered) {i : Nat} {c : Compound} (hc : s.compounds[i]? = some c) :
    ∀ t ∈ s.asked c, t.Below i := by
  cases c with
  | struct | interface => exact List.forall_mem_nil _
  | func args rets variadic =>
    have hpart := hs i _ hc rfl
    have harg (t : Ty) (ht : t ∈ args) : t.Below i := hpart t (List.mem_append_left _ ht)
    intro t ht
    rcases List.mem_append.1 ht with ht | ht
    · obtain ⟨shown, hshown, rfl⟩ := List.mem_map.1 ht
      cases variadic with
      | false =>
        obtain ⟨arg, hmem, rfl⟩ := List.mem_map.1 hshown
        exact harg arg hmem
      | true =>
        rcases List.mem_append.1 hshown with hshown | hshown
        · obtain ⟨arg, hmem, rfl⟩ := List.mem_map.1 hshown
          exact harg arg (args.dropLast_subset hmem)
        · obtain ⟨arg, hlast, rfl⟩ := Option.map_eq_some_iff.1 (Option.mem_toList.1 hshown)
          have hmem := harg arg (List.mem_of_getLast? hlast)
          cases he : s.elem? arg with
          | none => simpa [he] using hmem
          | some elem => simpa [he] using hs.below_elem? he hmem
    · exact hpart t (List.mem_append_right _ ht)
  | ptr | slice | array | map | chan => exact hs i _ hc rfl

end EscapeAnalysis.TypeStore

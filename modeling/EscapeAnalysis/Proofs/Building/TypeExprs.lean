import EscapeAnalysis.Builder.Draft
import EscapeAnalysis.Proofs.Building.Edits
import EscapeAnalysis.Script.Scope

/-!
# Types that scripts describe

The type expressions of a script name types of the store, or make new ones of types that are there.

* `Scope.Typed scope s` : the names of the scope stand for types of the store;
* `Typing s made` : a type of a store that has all types of `s`;
* `TypeExpr.typing`, `SigExpr.typed` : what is described is there.
-/

namespace EscapeAnalysis.Script

theorem forall_of_lookup {α : Type} {P : α → Prop} {entries : List (String × α)} (h : ∀ e ∈ entries, P e.2)
    {key : String} {a : α} (ha : entries.lookup key = some a) : P a := by
  obtain ⟨before, after, rfl, _⟩ := List.lookup_eq_some_iff.1 ha
  exact h (key, a) (List.mem_append_right _ List.mem_cons_self)

theorem bind_eq_ok {α β : Type} {x : Except ScriptError α} {f : α → Except ScriptError β} {b : β}
    (h : x >>= f = .ok b) : ∃ a, x = .ok a ∧ f a = .ok b := by
  cases x with
  | error e => cases h
  | ok a => exact ⟨a, rfl, h⟩

/-- The names of the scope stand for types of the store. -/
def Scope.Typed (scope : Scope) (s : TypeStore) : Prop := ∀ e ∈ scope.types, s.Has e.2

/-- More types are there, and the given one. -/
structure Typing (s : TypeStore) (made : Ty × TypeStore) : Prop where
  sound : made.2.Sound
  size_le : s.compounds.size ≤ made.2.compounds.size
  has : made.2.Has made.1

section Types

variable {scope : Scope} {s : TypeStore}

theorem Scope.Typed.has (h : scope.Typed s) {name : String} {t : Ty} (ht : scope.type name = .ok t) : s.Has t := by
  have hprimitives : ∀ e ∈ Ty.primitives, s.Has e.2 := by
    intro e he
    refine s.has_primitive ?_
    revert e
    decide
  simp only [Scope.type] at ht
  cases hname : (Ty.primitives.lookup name).or (scope.types.lookup name) with
  | none =>
    rw [hname] at ht
    cases ht
  | some u =>
    rw [hname] at ht
    cases ht
    rcases Option.or_eq_some_iff.1 hname with hname | ⟨_, hname⟩
    · exact forall_of_lookup hprimitives hname
    · exact forall_of_lookup h hname

theorem Scope.Typed.mono (h : scope.Typed s) {t : TypeStore} (hle : s.compounds.size ≤ t.compounds.size) :
    scope.Typed t :=
  fun e he => (h e he).mono hle

theorem mem_mapM {α β : Type} {f : α → Except ScriptError β} {xs : List α} {ys : List β} (h : xs.mapM f = .ok ys)
    {y : β} (hy : y ∈ ys) : ∃ x ∈ xs, f x = .ok y := by
  induction xs generalizing ys with
  | nil =>
    cases h
    exact absurd hy List.not_mem_nil
  | cons x xs ih =>
    rw [List.mapM_cons] at h
    obtain ⟨z, hz, h⟩ := bind_eq_ok h
    obtain ⟨zs, hzs, h⟩ := bind_eq_ok h
    cases h
    rcases List.mem_cons.1 hy with rfl | hy
    · exact ⟨x, List.mem_cons_self, hz⟩
    · obtain ⟨x', hx', hy⟩ := ih hzs hy
      exact ⟨x', List.mem_cons_of_mem _ hx', hy⟩

theorem Scope.Typed.fields (h : scope.Typed s) {fields : List (String × String)} {made : List Field}
    (hmade : scope.fields fields = .ok made) : ∀ field ∈ made, s.Has field.ty := by
  intro field hfield
  obtain ⟨⟨name, ty⟩, _, hfield⟩ := mem_mapM hmade hfield
  obtain ⟨t, ht, hfield⟩ := bind_eq_ok hfield
  cases hfield
  exact h.has ht

theorem Typing.intern (hs : s.Sound) {c : Compound} (hc : ∀ t ∈ c.parts, s.Has t) : Typing s (s.intern c) :=
  ⟨TypeStore.sound_intern hs hc, s.size_le_intern c, TypeStore.has_intern hs c⟩

theorem Typing.trans {made made' : Ty × TypeStore} (h : Typing s made) (h' : Typing made.2 made') : Typing s made' :=
  ⟨h'.sound, Nat.le_trans h.size_le h'.size_le, h'.has⟩

/-- A type is made of the one that was made. -/
theorem Typing.compound {made : Ty × TypeStore} (h : Typing s made) {c : Compound} (hc : c.parts = [made.1]) :
    Typing s (made.2.intern c) := by
  refine h.trans (.intern h.sound ?_)
  rw [hc, List.forall_mem_singleton]
  exact h.has

theorem typing_wrap (hs : s.Sound) {t : Ty} (ht : s.Has t) (n : Nat) : Typing s (TypeExpr.wrap n t s) := by
  induction n generalizing t s with
  | zero => exact ⟨hs, Nat.le_refl _, ht⟩
  | succ n ih =>
    have hptr : Typing s (s.ptr t) := .intern hs (by simpa [Compound.parts] using ht)
    exact hptr.trans (ih hptr.sound hptr.has)

end Types

mutual

/-- What a type expression describes is there. -/
theorem TypeExpr.typing {scope : Scope} : ∀ (e : TypeExpr) {s : TypeStore}, s.Sound → scope.Typed s →
    ∀ {made}, e.eval scope s = .ok made → Typing s made
  | .named name, s, hs, hscope, made, h => by
    obtain ⟨t, ht, h⟩ := bind_eq_ok h
    cases h
    exact ⟨hs, Nat.le_refl _, hscope.has ht⟩
  | .ptr e, s, hs, hscope, made, h => by
    obtain ⟨elem, helem, h⟩ := bind_eq_ok h
    cases h
    exact (TypeExpr.typing e hs hscope helem).compound rfl
  | .ptrs e n, s, hs, hscope, made, h => by
    obtain ⟨elem, helem, h⟩ := bind_eq_ok h
    cases h
    have hmade := TypeExpr.typing e hs hscope helem
    exact hmade.trans (typing_wrap hmade.sound hmade.has n)
  | .slice e, s, hs, hscope, made, h => by
    obtain ⟨elem, helem, h⟩ := bind_eq_ok h
    cases h
    exact (TypeExpr.typing e hs hscope helem).compound rfl
  | .array e len, s, hs, hscope, made, h => by
    obtain ⟨elem, helem, h⟩ := bind_eq_ok h
    cases h
    exact (TypeExpr.typing e hs hscope helem).compound rfl
  | .map k v, s, hs, hscope, made, h => by
    obtain ⟨key, hkey, h⟩ := bind_eq_ok h
    obtain ⟨value, hvalue, h⟩ := bind_eq_ok h
    cases h
    have hk := TypeExpr.typing k hs hscope hkey
    have hv := TypeExpr.typing v hk.sound (hscope.mono hk.size_le) hvalue
    refine (hk.trans hv).trans (.intern hv.sound ?_)
    exact List.forall_mem_cons.2 ⟨hk.has.mono hv.size_le, List.forall_mem_singleton.2 hv.has⟩
  | .chan e, s, hs, hscope, made, h => by
    obtain ⟨elem, helem, h⟩ := bind_eq_ok h
    cases h
    exact (TypeExpr.typing e hs hscope helem).compound rfl
  | .interface name, s, hs, hscope, made, h => by
    cases h
    exact .intern hs (by simp [Compound.parts])
  | .func args rets variadic, s, hs, hscope, made, h => by
    obtain ⟨args', hargs, h⟩ := bind_eq_ok h
    obtain ⟨rets', hrets, h⟩ := bind_eq_ok h
    cases h
    obtain ⟨hsound, hle, hhas⟩ := TypeExpr.typingList args hs hscope hargs
    obtain ⟨hsound', hle', hhas'⟩ := TypeExpr.typingList rets hsound (hscope.mono hle) hrets
    have hmade : Typing rets'.2 (rets'.2.func args'.1 rets'.1 variadic) := by
      refine .intern hsound' fun t ht => ?_
      rcases List.mem_append.1 ht with ht | ht
      · exact (hhas t ht).mono hle'
      · exact hhas' t ht
    exact ⟨hmade.sound, Nat.le_trans (Nat.le_trans hle hle') hmade.size_le, hmade.has⟩
  | .struct name, s, hs, hscope, made, h => by
    simp only [TypeExpr.eval] at h
    split at h
    · rename_i t ht
      cases h
      refine ⟨hs, Nat.le_refl _, ?_⟩
      obtain ⟨id, hid, rfl⟩ := Option.map_eq_some_iff.1 ht
      obtain ⟨fields, hfields⟩ := hs.structs name id (TypeStore.mem_of_lookup hid)
      exact TypeStore.has_compound.2 (TypeStore.lt_of_getElem? hfields)
    · cases h

theorem TypeExpr.typingList {scope : Scope} : ∀ (es : List TypeExpr) {s : TypeStore}, s.Sound → scope.Typed s →
    ∀ {made}, TypeExpr.evalList scope es s = .ok made →
      made.2.Sound ∧ s.compounds.size ≤ made.2.compounds.size ∧ ∀ t ∈ made.1, made.2.Has t
  | [], s, hs, hscope, made, h => by
    cases h
    exact ⟨hs, Nat.le_refl _, fun t ht => absurd ht List.not_mem_nil⟩
  | e :: rest, s, hs, hscope, made, h => by
    obtain ⟨t, ht, h⟩ := bind_eq_ok h
    obtain ⟨ts, hts, h⟩ := bind_eq_ok h
    cases h
    have he := TypeExpr.typing e hs hscope ht
    obtain ⟨hsound, hle, hhas⟩ := TypeExpr.typingList rest he.sound (hscope.mono he.size_le) hts
    exact ⟨hsound, Nat.le_trans he.size_le hle, List.forall_mem_cons.2 ⟨he.has.mono hle, hhas⟩⟩

end

/-- The types of a signature are there. -/
theorem SigExpr.typed {scope : Scope} {s : TypeStore} (hscope : scope.Typed s) {e : SigExpr} {sig : Signature}
    (h : e.eval scope = .ok sig) : sig.Typed s := by
  unfold SigExpr.eval at h
  extract_lets jp at h
  have hjp (recv : Option (String × Ty)) (hrecv : ∀ r, recv = some r → s.Has r.2) (h : jp recv = .ok sig) :
      sig.Typed s := by
    obtain ⟨params, hparams, h⟩ := bind_eq_ok h
    obtain ⟨results, hresults, h⟩ := bind_eq_ok h
    cases h
    refine ⟨hrecv, fun made hmade => ?_, fun made hmade => ?_⟩
    · obtain ⟨param, _, hmade⟩ := mem_mapM hparams hmade
      obtain ⟨t, ht, hmade⟩ := bind_eq_ok hmade
      cases hmade
      exact hscope.has ht
    · obtain ⟨⟨name, ty⟩, _, hmade⟩ := mem_mapM hresults hmade
      obtain ⟨t, ht, hmade⟩ := bind_eq_ok hmade
      cases hmade
      exact hscope.has ht
  split at h
  · rename_i name ty _
    obtain ⟨recv, hrecv, h⟩ := bind_eq_ok h
    refine hjp recv ?_ h
    rintro r rfl
    cases ht : scope.type ty with
    | error e =>
      rw [ht] at hrecv
      cases hrecv
    | ok t =>
      rw [ht] at hrecv
      cases hrecv
      exact hscope.has ht
  · exact hjp none nofun h

end EscapeAnalysis.Script

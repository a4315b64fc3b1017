import Mathlib.Logic.Relation
import EscapeAnalysis.Trace

/-!
# What observers see

An observer is shown the groups one by one, and between two of them whatever the analysis does with the first: the
flows it records, the nodes it reaches and the notes it writes.

* `Observer.Sees E o o'` : `o'` is `o` after events of the kind `E`;
* `Observer.showAll o shown` : `o` after these events;
* `Observer.groups` : keeps a text for every group, and nothing else.
-/

namespace EscapeAnalysis

/-- The event is a flow or a node that is reached. -/
def Event.IsStep : Event → Prop
  | flow .. | reach .. => True
  | _ => False

def Event.IsGroup (e : Event) : Prop := ∃ g, e = .group g

namespace Observer

open Relation (ReflTransGen)

/-- The observer is shown events of one kind. -/
def Sees (E : Event → Prop) : Observer → Observer → Prop := ReflTransGen fun o o' => ∃ p e, E e ∧ o' = o.watch p e

section Sees

variable {E F : Event → Prop} {o o₁ o₂ o₃ : Observer}

theorem Sees.refl (E : Event → Prop) (o : Observer) : Sees E o o := ReflTransGen.refl

theorem Sees.trans (h₁ : Sees E o₁ o₂) (h₂ : Sees E o₂ o₃) : Sees E o₁ o₃ := ReflTransGen.trans h₁ h₂

theorem sees_watch (o : Observer) (p : Program) {e : Event} (he : E e) : Sees E o (o.watch p e) :=
  .single ⟨p, e, he, rfl⟩

theorem Sees.mono (h : Sees E o₁ o₂) (hEF : ∀ e, E e → F e) : Sees F o₁ o₂ := by
  induction h with
  | refl => exact .refl F o₁
  | tail _ h ih =>
    obtain ⟨p, e, he, rfl⟩ := h
    exact ih.tail ⟨p, e, hEF e he, rfl⟩

theorem Sees.see_eq (h : Sees E o₁ o₂) : o₂.see = o₁.see := by
  induction h with
  | refl => rfl
  | tail _ h ih =>
    obtain ⟨_, _, _, rfl⟩ := h
    exact ih

/-- An observer that keeps nothing of such events keeps what it has. -/
theorem Sees.kept_eq (h : Sees E o₁ o₂) (ho : ∀ p e kept, E e → o₁.see p e kept = kept) : o₂.kept = o₁.kept := by
  induction h with
  | refl => rfl
  | @tail b _ hb h ih =>
    obtain ⟨p, e, he, rfl⟩ := h
    rw [← ih]
    change b.see p e b.kept = b.kept
    rw [Sees.see_eq hb]
    exact ho p e b.kept he

end Sees

/-- The observer after some events, each with the program as it then stood. -/
def showAll (o : Observer) (shown : List (Program × Event)) : Observer := shown.foldl (fun o x => o.watch x.1 x.2) o

theorem Sees.exists_shown {E : Event → Prop} {o o' : Observer} (h : Sees E o o') :
    ∃ shown, o' = o.showAll shown ∧ ∀ x ∈ shown, E x.2 := by
  induction h with
  | refl => exact ⟨[], rfl, nofun⟩
  | tail _ h ih =>
    obtain ⟨shown, rfl, hshown⟩ := ih
    obtain ⟨p, e, he, rfl⟩ := h
    refine ⟨shown ++ [(p, e)], ?_, ?_⟩
    · rw [showAll, showAll, List.foldl_append]
      rfl
    · exact List.forall_mem_append.2 ⟨hshown, List.forall_mem_singleton.2 he⟩

/-- Keeps a text for every group. -/
def groups (text : Group → String) : Observer where
  see _ e kept := match e with
    | .group g => kept ++ text g
    | _ => kept

/-- The observer of groups keeps nothing of other events. -/
theorem Sees.kept_groups {text : Group → String} {o o' : Observer} (h : Sees (fun e => ¬ e.IsGroup) o o')
    (ho : o.see = (groups text).see) : o'.kept = o.kept := by
  refine h.kept_eq fun p e kept he => ?_
  rw [ho]
  cases e with
  | group g => exact absurd ⟨g, rfl⟩ he
  | _ => rfl

end Observer

theorem Event.IsStep.not_group {e : Event} (h : e.IsStep) : ¬ e.IsGroup := by
  rintro ⟨g, rfl⟩
  exact h

end EscapeAnalysis

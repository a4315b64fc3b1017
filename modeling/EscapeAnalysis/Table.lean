/-!
# Tables with a default

`Table α` maps every natural number to a value of `α`, and to `default` where nothing was written.

* `get_empty`, `get_set_self`, `get_set_of_ne` : what a read gives after each operation.
-/

namespace EscapeAnalysis

structure Table (α : Type) where
  cells : Array α

namespace Table

variable {α : Type} [Inhabited α]

def empty : Table α := ⟨#[]⟩

instance : Inhabited (Table α) := ⟨empty⟩

def get (t : Table α) (i : Nat) : α := t.cells.getD i default

def set (t : Table α) (i : Nat) (a : α) : Table α :=
  if i < t.cells.size then ⟨t.cells.setIfInBounds i a⟩
  else ⟨(t.cells ++ Array.replicate (i - t.cells.size) default).push a⟩

def modify (t : Table α) (i : Nat) (f : α → α) : Table α := t.set i (f (t.get i))

@[simp] theorem get_empty (i : Nat) : (empty : Table α).get i = default := by
  simp [get, empty]

@[simp] theorem get_set_self (t : Table α) (i : Nat) (a : α) : (t.set i a).get i = a := by
  unfold get set
  split
  · simp [*]
  · have : i = (t.cells ++ Array.replicate (i - t.cells.size) default).size := by simp; omega
    simp only [Array.getD_eq_getD_getElem?, Array.getElem?_push, if_pos this, Option.getD_some]

theorem get_set_of_ne (t : Table α) {i j : Nat} (a : α) (h : j ≠ i) : (t.set i a).get j = t.get j := by
  unfold get set
  split
  · simp [Array.getD_eq_getD_getElem?, h.symm]
  · simp only [Array.getD_eq_getD_getElem?, Array.getElem?_push, Array.getElem?_append]
    split
    · simp at *; omega
    · split
      · rfl
      · by_cases hj : j - t.cells.size < i - t.cells.size
        · simp_all
        · simp_all

end Table

end EscapeAnalysis

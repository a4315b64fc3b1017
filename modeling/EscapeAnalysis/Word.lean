import EscapeAnalysis.Level

/-!
# Escape words

The escape word of a node says how far its value gets: an escape class, whether what it points to
reaches the heap, and for each of the first four outputs of the function the least number of
dereferences at which it flows there. A word has sixteen bits; `Word.toNat` packs the class into the
lowest three, the content flag into the next and a field of three bits per output above them.

* `Word.raise` : the class becomes at least the given one;
* `Word.flowTo` : a flow to an output is recorded;
* `Word.fields` : the output fields up to the last one that is set;
* `Word.toNat`, `Word.ofNat` : words and the numbers below `2 ^ 16`.
-/

namespace EscapeAnalysis

/-- How far a value gets, in the order of the escape lattice. -/
inductive EscapeClass where
  /-- Not analyzed, or no information. -/
  | unknown
  /-- Reaches neither the heap nor a result nor a parameter. -/
  | none
  /-- Reaches a result, see the output fields. -/
  | result
  /-- Reaches something that outlives its scope. -/
  | scope
  /-- Reaches the heap. -/
  | heap
  /-- May not escape at all. -/
  | never
deriving DecidableEq, Inhabited

namespace EscapeClass

/-- The three class bits of a word. -/
def bits : EscapeClass → Fin 8
  | unknown => 0
  | none => 1
  | result => 2
  | scope => 3
  | heap => 4
  | never => 5

def ofBits (b : Fin 8) : EscapeClass :=
  match b.val with
  | 0 => unknown
  | 1 => none
  | 2 => result
  | 3 => scope
  | 4 => heap
  | _ => never

def name : EscapeClass → String
  | unknown => "EscUnknown"
  | none => "EscNone"
  | result => "EscReturn"
  | scope => "EscScope"
  | heap => "EscHeap"
  | never => "EscNever"

def all : List EscapeClass := [unknown, none, result, scope, heap, never]

def ofName? (s : String) : Option EscapeClass := all.find? (·.name == s)

instance : LT EscapeClass := ⟨fun a b => a.bits < b.bits⟩

instance (a b : EscapeClass) : Decidable (a < b) := inferInstanceAs (Decidable (a.bits < b.bits))

theorem ofBits_bits (c : EscapeClass) : ofBits c.bits = c := by cases c <;> rfl

end EscapeClass

structure Word where
  /-- The class bits; several of their values stand for `EscapeClass.never`. -/
  bits : Fin 8
  /-- What the value points to, through at least one dereference, reaches the heap. -/
  content : Bool
  /-- Per output, one more than the dereferences of the flow to it, or zero without such a flow. -/
  outputs : Vector (Fin 8) 4
deriving DecidableEq

namespace Word

/-- The word of a class with nothing else set. -/
def plain (c : EscapeClass) : Word := ⟨c.bits, false, Vector.replicate 4 0⟩

instance : Inhabited Word := ⟨plain .unknown⟩

def cls (w : Word) : EscapeClass := .ofBits w.bits

theorem cls_plain (c : EscapeClass) : (plain c).cls = c := EscapeClass.ofBits_bits c

/-- The class becomes at least `c`. The content flag and the output fields survive only while the
class is `none` or `result`. -/
def raise (w : Word) (c : EscapeClass) : Word :=
  if c.bits < w.bits then w
  else match c with
    | .none | .result => { w with bits := c.bits }
    | _ => plain c

/-- What the value points to reaches the heap. -/
def raiseContent (w : Word) : Word := { w with content := true }.raise .none

/-- The value reaches a result. A word that does so for the first time has no output field set. -/
def asResult (w : Word) : Word :=
  if w.cls = .result then w else { plain .result with content := w.content }

/-- The most dereferences that an output field tells apart. -/
def maxLevel : Nat := 6

/-- The field of the `ordinal`-th output, counted from one. -/
def slot? (ordinal : Nat) : Option (Fin 4) :=
  if h : 1 ≤ ordinal ∧ ordinal ≤ 4 then some ⟨ordinal - 1, by omega⟩ else none

/-- Records a flow at `level` to the `ordinal`-th output. A flow that fits no field makes the value
reach the heap. -/
def flowTo (w : Word) (ordinal : Nat) (level : Level) : Word :=
  if level.value ≤ 0 && 0 < level.suffix then w.raiseContent
  else if level.value < 0 then plain .heap
  else match slot? ordinal with
    | .none => plain .heap
    | some i =>
      let field := Fin.ofNat 8 (min level.value.toNat maxLevel + 1)
      if w.outputs[i] = 0 ∨ field < w.outputs[i] then
        { w with outputs := w.outputs.set i field }
      else w

/-- The output fields up to the last one that is set. -/
def fields (w : Word) : List (Fin 8) :=
  (w.outputs.toList.reverse.dropWhile (· = 0)).reverse

def toNat (w : Word) : Nat :=
  w.bits.val + 8 * w.content.toNat
    + 16 * w.outputs[0].val + 128 * w.outputs[1].val + 1024 * w.outputs[2].val + 8192 * w.outputs[3].val

/-- The word of a number below `2 ^ 16`. -/
def ofNat (n : Nat) : Word where
  bits := Fin.ofNat 8 n
  content := n / 8 % 2 = 1
  outputs := #v[Fin.ofNat 8 (n / 16), Fin.ofNat 8 (n / 128), Fin.ofNat 8 (n / 1024), Fin.ofNat 8 (n / 8192)]

theorem toNat_lt (w : Word) : w.toNat < 65536 := by
  have := w.bits.isLt
  have := w.outputs[0].isLt
  have := w.outputs[1].isLt
  have := w.outputs[2].isLt
  have := w.outputs[3].isLt
  have : w.content.toNat ≤ 1 := by cases w.content <;> decide
  unfold toNat
  omega

theorem toNat_ofNat (n : Nat) (h : n < 65536) : (ofNat n).toNat = n := by
  have hc : (decide (n / 8 % 2 = 1)).toNat = n / 8 % 2 := by
    rcases Nat.mod_two_eq_zero_or_one (n / 8) with hb | hb <;> simp [hb]
  simp only [toNat, ofNat, Fin.ofNat, hc]
  simp
  omega

end Word

end EscapeAnalysis

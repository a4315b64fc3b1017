/-!
# Indirection levels

A walk from a destination back to a source passes dereferences and addresses. Its `Level` keeps two
sums of them, `*` counting `1` and `&` counting `-1`: over the whole walk, and the largest over the
suffixes that start where a value was copied. In `sink = &T{f: *p}` the level of `p` is `{0 1}`: the
sums cancel, but `p` was dereferenced before the copy, so only what it points to reaches the sink.

* `Level.inc`, `Level.dec`, `Level.copy` : the effect of `*`, of `&` and of a copy;
* `Level.min` : what two walks to one node have in common;
* `Level.leaks` : memory reached at this level outlives the scope that allocated it.
-/

namespace EscapeAnalysis

structure Level where
  /-- Dereferences minus addresses along the walk. -/
  value : Int
  /-- The largest such sum over a suffix of the walk that starts at a copy. -/
  suffix : Int
deriving DecidableEq, Inhabited

namespace Level

/-- The lowest tracked value. It is sticky: a walk that reached it stays there, which cuts the loops
of a flow graph that would go on to deeper and deeper addresses. -/
def floor : Int := -2

/-- The component where counting up stops. -/
def top : Int := 127

/-- The component where counting down stops. -/
def bottom : Int := -128

def zero : Level := ⟨0, 0⟩

/-- The level of a walk of `i` dereferences. -/
def ofInt (i : Int) : Level :=
  if i ≤ floor then ⟨floor, 0⟩ else ⟨Min.min i top, 0⟩

/-- The effect of a dereference. -/
def inc (l : Level) : Level :=
  if l.value ≤ floor then ⟨floor, 0⟩
  else ⟨Min.min top (l.value + 1), Min.min top (l.suffix + 1)⟩

/-- The effect of taking an address. -/
def dec (l : Level) : Level :=
  if l.value ≤ floor then ⟨floor, 0⟩
  else ⟨Max.max bottom (l.value - 1), Max.max bottom (l.suffix - 1)⟩

/-- The level of a copy: the suffix that starts here is empty, so its sum is at least zero. -/
def copy (l : Level) : Level :=
  ⟨l.value, Max.max l.suffix 0⟩

/-- The componentwise minimum. -/
def min (l m : Level) : Level :=
  ⟨Min.min l.value m.value, Min.min l.suffix m.suffix⟩

/-- Memory reached at this level and allocated at loop depth `src` outlives its scope when it is
stored at loop depth `dst`. -/
def leaks (l : Level) (dst src : Int) : Bool :=
  l.value ≤ 0 && l.suffix ≤ 0 && dst < src

def text (l : Level) : String :=
  "\x7b" ++ toString l.value ++ " " ++ toString l.suffix ++ "\x7d"

end Level

end EscapeAnalysis

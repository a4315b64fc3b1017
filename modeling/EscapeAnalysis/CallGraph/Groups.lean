import EscapeAnalysis.CallGraph
import EscapeAnalysis.Table

/-!
# Groups of a call graph

`CallGraph.groups` lists the functions in groups such that the callees of a function are in its own
group or in an earlier one. Functions that call each other share a group, and so do a function and
the closures it defines.

A function gets two numbers when it is entered, `id` for itself and `id + 1` for what lies below it.
The least number seen below it is then `id` if it reaches itself, and `id + 1` if it reaches nothing
entered before it. In both cases it ends a group, which is everything entered since; but a closure
never ends one, so that it stays with the function that defines it.
-/

namespace EscapeAnalysis

structure Group where
  /-- The functions, last the one that ended the group. -/
  funcs : List FuncId
  /-- The function that ended the group reaches itself. -/
  recursive : Bool
deriving DecidableEq

namespace CallGraph

/-- How far the search is with a function. -/
inductive Mark where
  | fresh
  /-- Entered under this number, and not in a group yet. -/
  | entered (id : Nat)
  | grouped
deriving DecidableEq, Inhabited

structure Search where
  marks : Table Mark := .empty
  /-- The last number given. -/
  last : Nat := 0
  /-- The functions entered and not in a group yet, the last one first. -/
  stack : List FuncId := []
  /-- The groups found, in order. -/
  groups : Array Group := #[]

namespace Search

/-- Enters a function, which gets the next two numbers. -/
def enter (s : Search) (f : FuncId) : Search :=
  { s with marks := s.marks.set f.index (.entered (s.last + 1)), last := s.last + 2, stack := f :: s.stack }

/-- Ends a group with `f`: what was entered since `f`, and `f` itself. -/
def close (s : Search) (f : FuncId) (recursive : Bool) : Search :=
  let funcs := s.stack.takeWhile (· ≠ f) ++ [f]
  { s with
    marks := funcs.foldl (fun marks g => marks.set g.index .grouped) s.marks
    stack := s.stack.drop funcs.length
    groups := s.groups.push ⟨funcs, recursive⟩ }

end Search

/-- Visits `f` and what it calls. Returns the least number seen, none if `f` is in a group already.
The fuel bounds the number of functions entered one below the other. -/
def visit (g : CallGraph) : Nat → FuncId → Search → Option Nat × Search
  | 0, _, s => (none, s)
  | fuel + 1, f, s =>
    match s.marks.get f.index with
    | .grouped => (none, s)
    | .entered id => (some id, s)
    | .fresh =>
      let id := s.last + 1
      let (low, s) := (g.callees f).foldl
        (fun (low, s) callee =>
          let (seen, s) := g.visit fuel callee s
          (min low (seen.getD low), s))
        (id + 1, s.enter f)
      if (low = id ∨ low = id + 1) ∧ !g.isClosure f then (some low, s.close f (low = id))
      else (some low, s)

/-- The groups of the functions that are reached from those that are no closures. -/
def groups (g : CallGraph) : List Group :=
  let roots := g.funcs.filter fun f => !g.isClosure f
  (roots.foldl (fun s f => (g.visit (g.funcs.length + 1) f s).2) {}).groups.toList

end CallGraph

end EscapeAnalysis

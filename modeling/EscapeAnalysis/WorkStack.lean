/-!
# Work stacks

A traversal keeps what it still has to do on a stack. It takes off the entry on top and does it; what this asks for goes
on the stack in its place, on top what is to be done first.

* `drain` : works off a stack.
-/

namespace EscapeAnalysis

/-- Works off a stack, at most `fuel` entries of it. Doing an entry gives the entries to be done before the others. -/
def drain {m : Type → Type} [Monad m] {Entry : Type} (run : Entry → m (List Entry)) : Nat → List Entry → m Unit
  | _, [] => return
  | 0, _ :: _ => return
  | fuel + 1, x :: stack => do
    let asked ← run x
    drain run fuel (asked ++ stack)

end EscapeAnalysis

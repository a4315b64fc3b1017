import EscapeAnalysis.Program
import EscapeAnalysis.WorkStack

/-!
# Call graphs

The call graph of some functions of a program: which of them each one calls or, as a closure,
defines.

* `CallVisit.run` : the search for calls, which comes to a node before and after its parts;
* `Program.calleesIn` : the functions that a body calls, in the order of the calls;
* `CallGraph.ofProgram` : the call graph of a list of functions.
-/

namespace EscapeAnalysis

/-- The functions of a call graph and, for each function, what it calls and whether it is a closure. -/
structure CallGraph where
  funcs : List FuncId
  callees : FuncId → List FuncId
  isClosure : FuncId → Bool

namespace Program

/-- The function that a node calls or defines by itself. -/
def target (p : Program) (n : NodeId) : Option FuncId :=
  match (p.node n).op with
  | .callFunc | .callMethod => p.calleeOf n
  | .closure => (p.node n).func
  | _ => none

end Program

/-- What the search for calls has on its stack. -/
inductive CallVisit where
  /-- A node whose parts are still to be searched, to a depth of `room`. -/
  | enter (room : Nat) (n : NodeId)
  /-- A node whose parts are done. -/
  | leave (n : NodeId)

/-- Comes to a node. At first it goes back on the stack below its parts; when its parts are done, the function that it
calls is listed if it is a member and not listed yet. -/
def CallVisit.run (p : Program) (members : List FuncId) : CallVisit → StateM (List FuncId) (List CallVisit)
  | .enter 0 _ => return []
  | .enter (room + 1) n => return (p.node n).children.map (.enter room) ++ [.leave n]
  | .leave n => do
    match p.target n with
    | some g => modify fun found => if g ∈ members ∧ g ∉ found then found ++ [g] else found
    | none => pure ()
    return []

/-- The functions listed once the stack is worked off, of which at most `fuel` entries are taken. -/
def CallVisit.search (p : Program) (members : List FuncId) (fuel : Nat) (stack : List CallVisit)
    (found : List FuncId) : List FuncId :=
  ((drain (run p members) fuel stack).run found).2

namespace Program

/-- How many entries the search for calls takes off its stack for a node and its parts. -/
def callVisits (p : Program) : (room : Nat) → NodeId → Nat
  | 0, _ => 1
  | room + 1, n => (p.node n).children.foldr (fun m k => p.callVisits room m + k) 1 + 1

/-- The functions of `members` that the body of `f` calls, each at its first call. The parts of a node that does not
contain itself nest no deeper than there are nodes. -/
def calleesIn (p : Program) (members : List FuncId) (f : FuncId) : List FuncId :=
  let body := (p.func f).body.getD []
  let room := p.nodes.size + 1
  let fuel := body.foldr (fun n k => p.callVisits room n + k) 0
  CallVisit.search p members fuel (body.map (.enter room)) []

end Program

namespace CallGraph

/-- The call graph of `funcs`. Calls of other functions are left out, and nothing is known of them. -/
def ofProgram (p : Program) (funcs : List FuncId) : CallGraph where
  funcs
  callees f := if f ∈ funcs then p.calleesIn funcs f else []
  isClosure f := f ∈ funcs && (p.func f).isClosure

end CallGraph

end EscapeAnalysis

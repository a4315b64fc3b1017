import EscapeAnalysis.Flow

/-!
# Labels that loop

`Flow.scanLabels` finds the labels that a later jump goes back to. Only these start a loop; a label
that is reached by jumps forward alone does not.
-/

namespace EscapeAnalysis

/-- The parts of a node that the scan visits after the node. -/
def Node.scanned (x : Node) : List NodeId :=
  x.left.toList ++ x.right.toList ++ x.list ++ x.test.toList ++ x.incr.toList ++ x.body ++ x.alt ++ x.rlist

namespace Flow

/-- Whether a label loops, if it was met. -/
def label? (s : Flow) (l : LabelId) : Option Bool := s.labels.lookup l

def setLabel (s : Flow) (l : LabelId) (loops : Bool) : Flow :=
  { s with labels := (l, loops) :: s.labels.filter (·.1 ≠ l) }

def dropLabel (s : Flow) (l : LabelId) : Flow := { s with labels := s.labels.filter (·.1 ≠ l) }

/-- A label is met, or a jump to a label met before. -/
def scanNode (n : NodeId) (x : Node) : FlowM Unit :=
  match x.op, x.label with
  | .label, some l => modify (·.setLabel l false)
  | .goto, some l => modify fun s => if (s.label? l).isSome then s.setLabel l true else s
  | .label, none | .goto, none => throw (.labelWithoutSymbol n)
  | _, _ => return

/-- Scans a node whose parts nest no deeper than the fuel. -/
def scanLabels : Nat → NodeId → FlowM Unit
  | 0, n => throw (.cyclic n)
  | fuel + 1, n => do
    let x := (← getProgram).node n
    x.init.forM (scanLabels fuel)
    scanNode n x
    x.scanned.forM (scanLabels fuel)

/-- Scans the statements of a body. -/
def scanBody (body : List NodeId) : FlowM Unit := do
  body.forM (scanLabels ((← getProgram).nodes.size + 1))

end Flow

end EscapeAnalysis

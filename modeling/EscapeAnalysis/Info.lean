import EscapeAnalysis.Finding
import EscapeAnalysis.Table
import EscapeAnalysis.Word.Note

/-!
# What an analysis knows

`Info` holds the result of an analysis, or of the part of it done so far: the escape word and the loop
depth of every node, the variables that moved to the heap, the progress of every function, and the
report.
-/

namespace EscapeAnalysis

/-- The progress of a function through the analysis of its group. -/
inductive FuncState where
  /-- In no group so far. -/
  | unknown
  /-- Its group is being analyzed. -/
  | planned
  /-- The flows of its body are being recorded. -/
  | started
  /-- Its notes are written. -/
  | noted
deriving DecidableEq, Inhabited

structure Info where
  words : Table Word := .empty
  depths : Table Int := .empty
  /-- The variables on the heap, in the order they were found. -/
  moved : Array NodeId := #[]
  /-- The steps of the functions through the analysis, the last one first. -/
  states : List (FuncId × FuncState) := []
  report : Report := {}
deriving Inhabited

namespace Info

def word (i : Info) (n : NodeId) : Word := i.words.get n.index

def setWord (i : Info) (n : NodeId) (w : Word) : Info := { i with words := i.words.set n.index w }

def depth (i : Info) (n : NodeId) : Int := i.depths.get n.index

def setDepth (i : Info) (n : NodeId) (d : Int) : Info := { i with depths := i.depths.set n.index d }

def state (i : Info) (f : FuncId) : FuncState := (i.states.lookup f).getD .unknown

def setState (i : Info) (f : FuncId) (s : FuncState) : Info := { i with states := (f, s) :: i.states }

/-- The states that a function went through, in their order. -/
def history (i : Info) (f : FuncId) : List FuncState := ((i.states.filter (·.1 = f)).map (·.2)).reverse

/-- The allocation of the node has to be on the heap. -/
def escapesToHeap (i : Info) (n : NodeId) : Bool := (i.word n).cls = .heap

def isMoved (i : Info) (n : NodeId) : Bool := i.moved.contains n

/-! ## What is known of a function after a step -/

@[simp] theorem state_setState_self (i : Info) (f : FuncId) (s : FuncState) : (i.setState f s).state f = s := by
  simp [state, setState]

theorem state_setState_of_ne (i : Info) {f g : FuncId} (s : FuncState) (h : g ≠ f) :
    (i.setState f s).state g = i.state g := by
  simp [state, setState, List.lookup_cons, beq_false_of_ne h]

@[simp] theorem history_setState_self (i : Info) (f : FuncId) (s : FuncState) :
    (i.setState f s).history f = i.history f ++ [s] := by
  simp [history, setState]

end Info

end EscapeAnalysis

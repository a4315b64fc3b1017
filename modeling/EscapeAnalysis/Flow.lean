import EscapeAnalysis.Error
import EscapeAnalysis.Info
import EscapeAnalysis.Trace

/-!
# Flow graphs

The flow graph of a group says which values flow into which nodes. It is recorded while the bodies of
the group are walked, and dropped with the group; words, depths and the report go to the `Info` that all
groups share. One node, the sink, stands for the heap, the globals and everything else that outlives
the group.

* `Run` : what outlives the analysis of a group;
* `Flow` : the graph of a group and the position of the walk;
* `FlowM` : an operation on the graph, which keeps what it did when it stops;
* `Flow.link` : a new edge.
-/

namespace EscapeAnalysis

structure Run where
  program : Program
  info : Info := {}
  config : Config := default
  observer : Observer := .silent
deriving Inhabited

structure Flow extends Run where
  sink : NodeId
  /-- Results of a recursive group are not tracked. -/
  recursive : Bool
  /-- The nodes with a source, in the order of their first edge. -/
  dsts : Array NodeId := #[]
  /-- The nodes whose value flows into a node, in the order of the edges. -/
  sources : Table (Array NodeId) := .empty
  /-- The nodes that stand for the results of a call. -/
  results : Table (List NodeId) := .empty
  /-- Allocations and inputs that escape only if a walk reaches them, with their function. -/
  pending : Array (NodeId × Option FuncId) := #[]
  /-- The loop depth of the statement being walked. -/
  depth : Int := 0
  curfn : Option FuncId := none
  /-- The calls met, the last one first. -/
  calls : List NodeId := []
  /-- The labels met, and whether a later jump goes back to them. -/
  labels : List (LabelId × Bool) := []

abbrev FlowM := EStateM EscapeError Flow

namespace Flow

/-! ## Reading and writing parts -/

def getProgram : FlowM Program := return (← get).program

def modifyProgram (f : Program → Program) : FlowM Unit :=
  modify fun s => { s with program := f s.program }

def modifyInfo (f : Info → Info) : FlowM Unit := modify fun s => { s with info := f s.info }

def addNode (x : Node) : FlowM NodeId := modifyGet fun s =>
  let (n, program) := s.program.addNode x
  (n, { s with program })

def withTypes {α : Type} (f : TypeStore → α × TypeStore) : FlowM α := modifyGet fun s =>
  let (a, program) := s.program.withTypes f
  (a, { s with program })

/-- The pointer type to a type, if that is known. -/
def ptrTo (ty : Option Ty) : FlowM (Option Ty) :=
  match ty with
  | some ty => some <$> withTypes (·.ptr ty)
  | none => return none

def depthOf (n : NodeId) : FlowM Int := return (← get).info.depth n

def setDepth (n : NodeId) (d : Int) : FlowM Unit := modifyInfo (·.setDepth n d)

def resultsOf (n : NodeId) : FlowM (List NodeId) := return (← get).results.get n.index

def setResults (n : NodeId) (results : List NodeId) : FlowM Unit :=
  modify fun s => { s with results := s.results.set n.index results }

def emit (s : Flow) (e : Event) : Flow := { s with observer := s.observer.watch s.program e }

/-- Reports a finding. -/
def find (s : Flow) (x : Finding) : Flow :=
  { s with info := { s.info with report := s.config.record s.program x s.info.report } }

/-! ## Edges -/

/-- The edge from `src` into `dst`. -/
def addEdge (s : Flow) (dst src : NodeId) : Flow :=
  let sources := s.sources.get dst.index
  { s with
    dsts := if sources.isEmpty then s.dsts.push dst else s.dsts
    sources := s.sources.set dst.index (sources.push src)
    observer := s.observer.watch s.program (.flow dst src) }

/-- Records that the value of `src` flows into `dst`. Values without pointers are not tracked. -/
def link (dst src : NodeId) : FlowM Unit := modify fun s =>
  if dst = src ∨ s.program.hasNoPointers (s.program.node src).ty then s else s.addEdge dst src

/-- The node is an allocation at the current loop depth that stays until a walk finds otherwise. -/
def markPending (n : NodeId) : FlowM Unit := modify fun s =>
  { s with
    info := (s.info.setWord n (.plain .none)).setDepth n s.depth
    pending := s.pending.push (n, s.curfn) }

end Flow

end EscapeAnalysis

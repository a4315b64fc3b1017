import EscapeAnalysis.Flood
import EscapeAnalysis.Flow.Walk

/-!
# The analysis

Decides for every allocation and every input of a program whether it may outlive the function that
makes it or takes it. The groups of the call graph are analyzed callees first; every analyzed function
leaves notes on its parameters for the callers in later groups.

* `Flow.recordFunc`, `Flow.noteFunc` : the flows of a function, the notes it leaves;
* `analyzeGroup` : one group;
* `escapes`, `escapesWith` : all groups of a program.
-/

namespace EscapeAnalysis

namespace Flow

/-! ## The flows of a function -/

/-- The depth of a declared name, and the word of an input, when the flows of its function are
recorded. -/
def declareWord (w : Word) (n : NodeId) : FlowM Unit := do
  let s ← get
  let x := s.program.node n
  if x.op = .name then
    match x.cls with
    | .result => setDepth n 0
    | .param =>
      setDepth n 1
      unless s.program.hasNoPointers x.ty do
        modifyInfo (·.setWord n w)
        modify fun s => { s with pending := s.pending.push (n, s.curfn) }
    | _ => return

/-- The walk is at the top of a function. -/
def startFunc (s : Flow) (f : FuncId) : Flow :=
  { s with info := s.info.setState f .started, depth := 1, curfn := some f }

/-- Records the flows of the names that a function declares. -/
def declareNames (f : FuncId) : FlowM Unit := do
  let s ← get
  let decl := s.program.func f
  let w := Word.plain (if decl.hasBody || decl.noEscape then .none else .heap)
  decl.decls.forM (declareWord w)
  if s.recursive then (s.program.outputs decl).forM (link s.sink)

/-- What the recording of a function does before it walks over the body. -/
def enterBody (f : FuncId) : FlowM Unit := do
  let body := ((← getProgram).func f).body.getD []
  declareNames f
  scanBody body

/-- Records the flows of the names that a function declares and of its body. -/
def recordBody (f : FuncId) : FlowM Unit := do
  let body := ((← getProgram).func f).body.getD []
  enterBody f
  walkBody body

/-- Records the flows of a function. -/
def recordFunc (f : FuncId) : FlowM Unit := do
  let s ← get
  if s.info.state f ≠ .planned then throw (.repeatedFunc f)
  modify (·.startFunc f)
  recordBody f
  modify fun t => { t with depth := s.depth, curfn := s.curfn }

/-! ## The notes of a function -/

/-- The note for an input: inputs that hold pointers and stay in their scope get one. -/
def noteFor? (s : Flow) (param : Param) : Option String :=
  match param.name with
  | some n => if s.program.hasPointers param.ty then (s.info.word n).note? else none
  | none => none

def setParam (f : FuncId) (i : Nat) (note : String) (p : Program) : Program :=
  p.modifyFunc f fun x => { x with params := x.params.modify i fun param => { param with note := some note } }

def setRecv (f : FuncId) (note : String) (p : Program) : Program :=
  p.modifyFunc f fun x => { x with recv := x.recv.map fun param => { param with note := some note } }

/-- Writes a note by `set`. -/
def writeNote (s : Flow) (f : FuncId) (param : Param) (note : String) (set : String → Program → Program) : Flow :=
  let program := set note s.program
  { s with program, observer := s.observer.watch program (.note f param.name note) }

/-- Writes the note of the receiver. -/
def noteRecv (f : FuncId) (recv : Option Param) (s : Flow) : Flow :=
  match recv with
  | some recv =>
    match s.noteFor? recv with
    | some note => s.writeNote f recv note (setRecv f)
    | none => s
  | none => s

/-- Writes the notes of the parameters from position `i` on. -/
def noteParams (f : FuncId) (note? : Flow → Param → Option String) : Nat → List Param → Flow → Flow
  | _, [], s => s
  | i, param :: params, s =>
    let s := match note? s param with
      | some note => s.writeNote f param note (setParam f i)
      | none => s
    noteParams f note? (i + 1) params s

/-- Writes the notes of a function. One without a body leaks its parameters unless it promises not
to. -/
def noteFunc (s : Flow) (f : FuncId) : Flow :=
  let s := { s with info := s.info.setState f .noted }
  let decl := s.program.func f
  if decl.hasBody then noteParams f noteFor? 0 decl.params (noteRecv f decl.recv s)
  else if decl.noEscape then
    let promised (s : Flow) (param : Param) : Option String :=
      if s.program.hasPointers param.ty then (Word.plain .none).note? else none
    noteParams f promised 0 decl.params s
  else s

/-- Finds what was pending and was reached by no walk. -/
def findStays (s : Flow) : Flow :=
  if s.config.shouldReport then
    s.pending.foldl
      (fun s (n, f) => if s.info.word n = .plain .none then s.find (.stays n f) else s) s
  else s

/-! ## A group -/

/-- The empty graph of a group, with its sink. -/
def start (run : Run) (group : Group) : Flow :=
  let (sink, program) := run.program.addNode { op := .name, sym := some ".sink", cls := .global }
  let info := group.funcs.foldl (fun info f => info.setState f .planned) (run.info.setDepth sink (-1))
  let observer := run.observer.watch run.program (.group group)
  { program, info, config := run.config, observer, sink, recursive := group.recursive }

/-- Floods the graph, writes the notes and finds what stays. -/
def conclude (s : Flow) (group : Group) : Flow :=
  let s := s.dsts.foldl flood s
  let s := group.funcs.foldl noteFunc s
  s.findStays

end Flow

abbrev RunM := EStateM EscapeError Run

/-- Analyzes a group. When it stops at a fault, no note of the group is written. -/
def analyzeGroup (group : Group) : RunM Unit := fun run =>
  match group.funcs.forM Flow.recordFunc (Flow.start run group) with
  | .ok _ s => .ok () (s.conclude group).toRun
  | .error e s => .error e s.toRun

/-! ## A program -/

/-- The result of an analysis: the program with its notes and the nodes made on the way, what the
observer kept, and what is known unless the analysis stopped at a fault. -/
structure Outcome where
  program : Program
  kept : String
  result : Except EscapeError Info

/-- The groups of the functions that a program declares. -/
def Program.groups (p : Program) : List Group := (CallGraph.ofProgram p p.decls).groups

/-- Analyzes all functions that a program declares, and shows what happens to an observer. -/
def escapesWith (config : Config) (observer : Observer) (p : Program) : Outcome :=
  match p.groups.forM analyzeGroup { program := p, config, observer } with
  | .ok _ run => ⟨run.program, run.observer.kept, .ok run.info⟩
  | .error e run => ⟨run.program, run.observer.kept, .error e⟩

/-- Analyzes all functions that a program declares. -/
def escapes (p : Program) (config : Config := default) : Outcome := escapesWith config .silent p

end EscapeAnalysis

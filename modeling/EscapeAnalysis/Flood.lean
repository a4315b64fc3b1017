import EscapeAnalysis.Flow

/-!
# The flood

From every destination of the flow graph a walk goes back along the edges, and from an expression to
its operand, with the level at which it gets there. An allocation that a walk reaches at a level that
leaks is on the heap, and so is a variable whose address does; an input that a walk reaches gets its
word from the destination and the level.

A walk comes to a node again only at a level below the one recorded for it, which bounds its steps.

* `Program.operand?`, `Flow.sourceNode` : where a walk goes from a node;
* `Flow.reach` : what it means for a node to be reached;
* `Flow.walkBack` : a walk;
* `Flow.flood` : all walks from a destination.
-/

namespace EscapeAnalysis

/-! ## Where a walk goes -/

namespace Program

/-- The operand whose value reaches what `src` reaches, and at which level if `src` is at `level`. -/
def operand? (p : Program) (level : Level) (src : NodeId) : Option (Level × NodeId) :=
  let x := p.node src
  match x.op with
  | .name => if x.cls = .captured then x.origin.map (level, ·) else none
  | .ptrLit | .addr | .restArg => x.left.map (level.dec, ·)
  | .append => x.list.head?.map (level, ·)
  | .dot | .slice | .sliceArray | .slice3 | .slice3Array | .sliceString => x.left.map (level, ·)
  | .index => x.left.map (if p.isArrayNode x.left then level else level.inc, ·)
  | .dotPtr | .indexMap | .deref => x.left.map (level.inc, ·)
  | _ => none

/-- The variable that an addressed expression is part of. An element of a slice is not part of the
variable that holds the slice. -/
def addressed? (p : Program) : Nat → NodeId → Option NodeId
  | 0, _ => none
  | fuel + 1, n =>
    let x := p.node n
    match x.op with
    | .name =>
      match x.cls with
      | .captured => x.origin.bind (p.addressed? fuel)
      | .param | .result | .auto => some n
      | _ => none
    | .dot | .index | .convNop =>
      x.left.bind fun base => if p.isSlice (p.node base).ty then none else p.addressed? fuel base
    | _ => none

/-- The two are an output and an input of one function. -/
def isOutputAndInput (p : Program) (dst src : NodeId) : Bool :=
  (p.node dst).isNameOf .result && (p.node src).isNameOf .param && (p.node src).curfn = (p.node dst).curfn

end Program

namespace Flow

/-- The node whose sources a walk follows from `src`: the first result of a call, else `src` itself. -/
def sourceNode (s : Flow) (src : NodeId) : NodeId :=
  if (s.program.node src).op.isCall then (s.results.get src.index).headD src else src

/-- Where a walk goes from `src` at `level`: to the operand first, then to the sources. -/
def nextVisits (s : Flow) (level : Level) (src : NodeId) : List (Level × NodeId) :=
  (s.program.operand? level src).toList
    ++ ((s.sources.get (s.sourceNode src).index).map (level.copy, ·)).toList

/-! ## What it means to be reached -/

def setWord (s : Flow) (n : NodeId) (w : Word) : Flow := { s with info := s.info.setWord n w }

/-- The variable moves to the heap, unless it did already or may not. -/
def moveToHeap (s : Flow) (n : NodeId) : Flow :=
  if (s.program.node n).cls = .auto ∧ (s.info.word n).bits = EscapeClass.never.bits then s
  else if s.info.isMoved n then s
  else
    let s := { s with info := { s.info with moved := s.info.moved.push n } }
    (s.setWord n (.plain .heap)).find (.moved n)

/-- The address of `n` outlives its frame. -/
def addressEscapes (s : Flow) (n : NodeId) : Flow :=
  match s.program.addressed? (s.program.nodes.size + 1) n with
  | some var => s.moveToHeap var
  | none => s

/-- The input flows to an output of its function. -/
def reachOutput (s : Flow) (level : Level) (dst src : NodeId) : Flow :=
  let s := s.find (.leaksToResult src dst level)
  s.setWord src ((s.info.word src).asResult.flowTo (s.program.node dst).ordinal level)

/-- The value of the input, or what it points to, outlives the function. -/
def leakParam (s : Flow) (level : Level) (dst src : NodeId) : Flow :=
  let w := if 0 < level.suffix then (s.info.word src).raiseContent else .plain .scope
  (s.setWord src w).find (.leaks src dst level (s.info.depth dst) (s.info.depth src))

/-- A name is reached. -/
def reachName (s : Flow) (level : Level) (dst src : NodeId) (inScope : Bool) : Flow :=
  let dstDepth := s.info.depth dst
  let leaks := level.leaks dstDepth (s.info.depth src)
  match (s.program.node src).cls with
  | .param => if (leaks || dstDepth < 0) && inScope then s.leakParam level dst src else s
  | .captured => if leaks then s.find (.leaksCaptured src) else s
  | _ => s

/-- An address or the address of a literal is reached. -/
def reachAddress (s : Flow) (level : Level) (dst src : NodeId) : Flow :=
  let dstDepth := s.info.depth dst
  let srcDepth := s.info.depth src
  if level.leaks dstDepth srcDepth then
    let base := (s.program.node src).left
    let shown := (base.filter fun n => (s.program.node n).op = .closure).getD src
    let s := s.setWord src (.plain .heap)
    let s := base.elim s s.addressEscapes
    s.find (.addressEscapes src shown level dstDepth srcDepth)
  else s

/-- An allocation is reached. -/
def reachAlloc (s : Flow) (level : Level) (dst src : NodeId) : Flow :=
  if level.leaks (s.info.depth dst) (s.info.depth src) then
    (s.setWord src (.plain .heap)).find (.allocEscapes src)
  else s

/-- What an input points to reaches a destination that is on the heap. -/
def reachContent (s : Flow) (level : Level) (dst src : NodeId) : Flow :=
  if s.info.word dst = .plain .heap ∧ (s.program.node src).isNameOf .param ∧ (s.info.word src).cls < .scope
      ∧ 0 < level.value then
    (s.setWord src (s.info.word src).raiseContent).find (.contentEscapes src)
  else s

/-- A node is reached, as its operator asks. -/
def reachNode (s : Flow) (level : Level) (dst src : NodeId) (inScope : Bool) : Flow :=
  let x := s.program.node src
  match x.op with
  | .name => s.reachName level dst src inScope
  | .ptrLit | .addr => s.reachAddress level dst src
  -- A fixed array is a value and allocates nothing.
  | .arrayLit => if s.program.isArray x.ty then s else s.reachAlloc level dst src
  | .restArg | .makeChan | .makeMap | .makeSlice | .runesToString | .bytesToString | .stringToRunes
  | .stringToBytes | .concat | .mapLit | .new | .closure | .methodValue | .runeToString
  | .convIface => s.reachAlloc level dst src
  | _ => s

/-- The walk from `dst` reaches `src` at `level`. -/
def reach (s : Flow) (level : Level) (dst src : NodeId) : Flow :=
  let inScope : Bool := (s.info.word src).cls < .scope
  if s.program.isOutputAndInput dst src ∧ inScope ∧ s.info.word dst ≠ .plain .heap then
    s.reachOutput level dst src
  else (s.reachContent level dst src).reachNode level dst src inScope

/-! ## Walks -/

/-- The level at which a walk goes on from a node it comes to at `level`, if that is below the level
recorded for the node. -/
def enter? (memo : Table (Option Level)) (level : Level) (src : NodeId) : Option Level :=
  match memo.get src.index with
  | none => some level
  | some old => if level.min old = old then none else some (level.min old)

/-- A walk from `dst` with the nodes it has still to visit and the levels recorded so far. The fuel
bounds the number of visits. -/
def walkBack (dst : NodeId) : Nat → List (Level × NodeId) → Table (Option Level) → Flow → Flow
  | 0, _, _, s => s
  | _ + 1, [], _, s => s
  | fuel + 1, (level, src) :: rest, memo, s =>
    match enter? memo level src with
    | none => walkBack dst fuel rest memo s
    | some level =>
      let s := (s.emit (.reach level dst src)).reach level dst src
      walkBack dst fuel (s.nextVisits level src ++ rest) (memo.set src.index (some level)) s

/-- The number of edges. -/
def edgeCount (s : Flow) : Nat := s.sources.cells.foldl (fun n sources => n + sources.size) 0

/-- A bound on the visits of a walk. It comes to the node it starts from, to operands, of which a node
has one, and to sources. It enters each of them at falling levels, whose components have 256 values,
and an entry adds at most an operand and the sources of one node to what is still to visit. -/
def walkFuel (s : Flow) : Nat :=
  1 + 512 * (1 + s.program.nodes.size + s.edgeCount) * (s.edgeCount + 2)

/-- The walks from `dst`, one for each of its sources. Only names and closures hold what flows in. -/
def flood (s : Flow) (dst : NodeId) : Flow :=
  match (s.program.node dst).op with
  | .name | .closure =>
    let fuel := s.walkFuel
    (s.sources.get dst.index).foldl (fun s src => walkBack dst fuel [(.zero, src)] .empty s) s
  | _ => s

end Flow

end EscapeAnalysis

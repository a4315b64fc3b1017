import EscapeAnalysis.Proofs.Flood.Visits
import EscapeAnalysis.Proofs.Rerun.Walks

/-!
# Floods a second time

The walks of the second flood come to the nodes of the first, in the same order and at the same levels, and mean the
same for them. What they tell of a node is the text of its parts, so the parts of a node have to be older than the
node.

* `Program.Ordered` : the parts of an expression are older than the expression;
* `Rerun.Mirrors.visits` : the visits of the second flood;
* `Rerun.Mirrors.reach` : what it means to be reached;
* `Rerun.Mirrors.flood` : the whole flood.
-/

namespace EscapeAnalysis

/-- The parts of an expression are older than the expression. -/
def Program.Ordered (p : Program) : Prop := ∀ n, ∀ m ∈ (p.node n).inner, m.index < n.index

namespace Rerun

open EscapeAnalysis.Flow

/-! ## Where a walk goes -/

section Programs

variable {R : Rerun} {a b : Program} (h : R.Copies a b)
include h

theorem Copies.operand? (level : Level) (n : NodeId) :
    b.operand? level (R.shift n) = (a.operand? level n).map fun x => (x.1, R.shift x.2) := by
  have hx := h.node n
  have hleft (l : Level) : ((a.node n).left.map R.shift).map (l, ·) =
      ((a.node n).left.map (l, ·)).map fun x => (x.1, R.shift x.2) := by
    rw [Option.map_map, Option.map_map]
    rfl
  unfold Program.operand?
  dsimp only
  rw [hx.op, hx.cls, hx.left, hx.list, hx.origin, h.isArrayNode]
  cases (a.node n).op with
  | name =>
    dsimp only
    split
    · rw [Option.map_map, Option.map_map]
      rfl
    · rfl
  | append =>
    dsimp only
    rw [List.head?_map, Option.map_map, Option.map_map]
    rfl
  | ptrLit | addr | restArg | dot | slice | sliceArray | slice3 | slice3Array | sliceString | index | dotPtr | indexMap
  | deref => exact hleft _
  | _ => rfl

theorem Copies.isOutputAndInput (dst src : NodeId) :
    b.isOutputAndInput (R.shift dst) (R.shift src) = a.isOutputAndInput dst src := by
  unfold Program.isOutputAndInput
  rw [(h.node dst).isNameOf, (h.node src).isNameOf, (h.node src).curfn, (h.node dst).curfn]

theorem Copies.allocates (n : NodeId) : b.allocates (R.shift n) = a.allocates n := by
  unfold Program.allocates
  rw [(h.node n).op, h.isArray (h.ty n)]

theorem Copies.old_of_mem_inner {n m : NodeId} (hn : n.index < R.base.nodes.size) (hm : m ∈ (a.node n).inner) :
    m.index < R.base.nodes.size :=
  Nat.lt_trans (h.ordered_old hn n (Nat.le_refl _) m hm) hn

/-- The variable of an expression from the start is a variable from the start. -/
theorem Copies.addressed?_old {fuel : Nat} {n var : NodeId} (hn : n.index < R.base.nodes.size)
    (hvar : a.addressed? fuel n = some var) : var.index < R.base.nodes.size := by
  induction fuel generalizing n with
  | zero => cases hvar
  | succ fuel ih =>
    unfold Program.addressed? at hvar
    dsimp only at hvar
    cases hop : (a.node n).op with
    | name =>
      simp only [hop] at hvar
      cases hcls : (a.node n).cls with
      | captured =>
        simp only [hcls] at hvar
        obtain ⟨origin, horigin, hvar⟩ := Option.bind_eq_some_iff.1 hvar
        exact ih (h.old_of_mem_inner hn (Node.mem_inner.2 (Or.inr (Or.inl horigin)))) hvar
      | param | result | auto =>
        simp only [hcls] at hvar
        cases hvar
        exact hn
      | _ => simp [hcls] at hvar
    | dot | index | convNop =>
      simp only [hop] at hvar
      obtain ⟨base, hbase, hvar⟩ := Option.bind_eq_some_iff.1 hvar
      split at hvar
      · cases hvar
      · exact ih (h.old_of_mem_inner hn (Node.mem_inner.2 (Or.inl hbase))) hvar
    | _ => simp [hop] at hvar

theorem Copies.addressed? {fuel fuel' : Nat} {n : NodeId} (hn : n.index < R.base.nodes.size) (hfuel : n.index < fuel)
    (hfuel' : n.index < fuel') : b.addressed? fuel' n = a.addressed? fuel n := by
  induction fuel generalizing fuel' n with
  | zero => exact absurd hfuel (Nat.not_lt_zero _)
  | succ fuel ih =>
    obtain ⟨fuel', rfl⟩ := Nat.exists_eq_add_of_le' (Nat.lt_of_le_of_lt (Nat.zero_le _) hfuel')
    have hx := h.node n
    rw [R.shift_old hn] at hx
    have hpart {m : NodeId} (hm : m ∈ (a.node n).inner) : R.shift m = m ∧ b.addressed? fuel' m = a.addressed? fuel m := by
      have hlt := h.ordered_old hn n (Nat.le_refl _) m hm
      have hm' := Nat.lt_trans hlt hn
      exact ⟨R.shift_old hm', ih hm' (Nat.lt_of_lt_of_le hlt (Nat.le_of_lt_succ hfuel))
        (Nat.lt_of_lt_of_le hlt (Nat.le_of_lt_succ hfuel'))⟩
    have hbase : (b.node n).left.bind (fun base => if b.isSlice (b.node base).ty then none else b.addressed? fuel' base) =
        (a.node n).left.bind fun base => if a.isSlice (a.node base).ty then none else a.addressed? fuel base := by
      rw [hx.left]
      cases hleft : (a.node n).left with
      | none => rfl
      | some base =>
        obtain ⟨hshift, hsame⟩ := hpart (Node.mem_inner.2 (Or.inl hleft))
        have hty := h.ty base
        rw [hshift] at hty
        simp only [Option.map_some, Option.bind_some, hshift, hsame, h.isSlice hty]
    have horigin : (b.node n).origin.bind (b.addressed? fuel') = (a.node n).origin.bind (a.addressed? fuel) := by
      rw [hx.origin]
      cases ho : (a.node n).origin with
      | none => rfl
      | some origin =>
        obtain ⟨hshift, hsame⟩ := hpart (Node.mem_inner.2 (Or.inr (Or.inl ho)))
        rw [Option.map_some, hshift]
        exact hsame
    unfold Program.addressed?
    dsimp only
    rw [hx.op, hx.cls, hbase, horigin]

end Programs

variable {R : Rerun} {s t : Flow}

/-- The node that a walk is at, where the second analysis has it. -/
def move (R : Rerun) (x : Level × NodeId) : Level × NodeId := (x.1, R.shift x.2)

section Walks

variable (h : R.Mirrors s t)
include h

theorem Mirrors.sourceNode (n : NodeId) : t.sourceNode (R.shift n) = R.shift (s.sourceNode n) := by
  unfold Flow.sourceNode
  rw [(h.program.node n).op, h.results, apply_ite R.shift]
  congr 1
  cases s.results.get n.index <;> rfl

theorem Mirrors.nextVisits (level : Level) (n : NodeId) :
    t.nextVisits level (R.shift n) = (s.nextVisits level n).map R.move := by
  unfold Flow.nextVisits
  rw [h.program.operand?, h.sourceNode, h.sources, List.map_append, Option.toList_map, Array.toList_map, Array.toList_map,
    Array.toList_map, List.map_map, List.map_map]
  rfl

omit h in
theorem enter?_shift {memo memo' : Table (Option Level)} (hmemo : ∀ n, memo'.get (R.shift n).index = memo.get n.index)
    (level : Level) (n : NodeId) : enter? memo' level (R.shift n) = enter? memo level n := by
  unfold enter?
  rw [hmemo]

theorem Mirrors.trail (fuel : Nat) (todo : List (Level × NodeId)) {memo memo' : Table (Option Level)}
    (hmemo : ∀ n, memo'.get (R.shift n).index = memo.get n.index) :
    t.trail fuel (todo.map R.move) memo' = (s.trail fuel todo memo).map R.move := by
  induction fuel generalizing todo memo memo' with
  | zero => rfl
  | succ fuel ih =>
    match todo with
    | [] => rfl
    | (level, n) :: rest =>
      simp only [List.map_cons, move, Flow.trail]
      rw [enter?_shift hmemo]
      cases enter? memo level n with
      | none => exact ih rest hmemo
      | some low =>
        dsimp only
        rw [List.map_cons, h.nextVisits, ← List.map_append]
        exact congrArg (R.move (low, n) :: ·) (ih _ (get_set_shift (f := fun x => x) hmemo n (some low)))

theorem Mirrors.trailFrom (src : NodeId) : t.trailFrom (R.shift src) = (s.trailFrom src).map R.move := by
  rw [trailFrom_eq t _ s.walkFuel, trailFrom_eq s src t.walkFuel, Nat.add_comm]
  exact h.trail _ [(.zero, src)] fun n => by rw [Table.get_empty, Table.get_empty]

/-- A visit, where the second analysis makes it. -/
def moveVisit (R : Rerun) (v : Visit) : Visit := ⟨R.shift v.dst, v.level, R.shift v.node⟩

theorem Mirrors.visitsFrom (dst : NodeId) : t.visitsFrom (R.shift dst) = (s.visitsFrom dst).map R.moveVisit := by
  have htrails : ((t.sources.get (R.shift dst).index).toList.flatMap fun src =>
        (t.trailFrom src).map fun b => (⟨R.shift dst, b.1, b.2⟩ : Visit)) =
      ((s.sources.get dst.index).toList.flatMap fun src =>
        (s.trailFrom src).map fun b => (⟨dst, b.1, b.2⟩ : Visit)).map R.moveVisit := by
    rw [h.sources, Array.toList_map, List.flatMap_map, List.map_flatMap]
    refine List.flatMap_congr fun src _ => ?_
    rw [h.trailFrom, List.map_map, List.map_map]
    rfl
  unfold Flow.visitsFrom
  rw [(h.program.node dst).op]
  cases (s.program.node dst).op with
  | name | closure => exact htrails
  | _ => rfl

theorem Mirrors.visits : t.visits = s.visits.map R.moveVisit := by
  unfold Flow.visits
  rw [h.dsts, Array.toList_map, List.flatMap_map, List.map_flatMap]
  exact List.flatMap_congr fun dst _ => h.visitsFrom dst

end Walks

/-! ## What it means to be reached -/

section Reach

variable (h : R.Mirrors s t) (hordered : s.program.Ordered)
include h hordered

theorem Mirrors.found (x : Finding) : R.Mirrors (s.find x) (t.find (x.map R.shift)) :=
  h.find fun _ _ => h.program.text fun k _ => hordered k

theorem Mirrors.moveToHeap {n : NodeId} (hn : n.index < R.base.nodes.size) :
    R.Mirrors (s.moveToHeap n) (t.moveToHeap n) := by
  have hshift := R.shift_old hn
  have hnode := h.program.node n
  have hword := h.word n
  rw [hshift] at hnode hword
  unfold Flow.moveToHeap Info.isMoved
  rw [hnode.cls, hword, h.moved]
  split
  · exact h
  · split
    · exact h
    · have hpush : R.Mirrors { s with info := { s.info with moved := s.info.moved.push n } }
          { t with info := { t.info with moved := s.info.moved.push n } } :=
        { h with
          moved := rfl
          old := fun m hm => (Array.mem_push.1 hm).elim (h.old m) fun e => e ▸ hn }
      have hset := (hpush.setWord n (.plain .heap)).found hordered (.moved n)
      rw [hshift] at hset
      simp only [Finding.map, hshift] at hset
      exact hset

theorem Mirrors.addressEscapes {n : NodeId} (hn : n.index < R.base.nodes.size) :
    R.Mirrors (s.addressEscapes n) (t.addressEscapes n) := by
  have hsize := h.program.size_le
  have hsize' := h.size_le
  have hvars : t.program.addressed? (t.program.nodes.size + 1) n = s.program.addressed? (s.program.nodes.size + 1) n :=
    h.program.addressed? hn (by omega) (by omega)
  unfold Flow.addressEscapes
  rw [hvars]
  split
  · rename_i var hvar
    exact h.moveToHeap hordered (h.program.addressed?_old hn hvar)
  · exact h

omit hordered in
theorem Mirrors.reword {w w' : Word} (hw : w' = w) (n : NodeId) : R.Mirrors (s.setWord n w) (t.setWord (R.shift n) w') :=
  hw ▸ h.setWord n w

theorem Mirrors.reachOutput (level : Level) (dst src : NodeId) :
    R.Mirrors (s.reachOutput level dst src) (t.reachOutput level (R.shift dst) (R.shift src)) := by
  have hfound := h.found hordered (.leaksToResult src dst level)
  refine hfound.reword ?_ src
  change (t.info.word (R.shift src)).asResult.flowTo (t.program.node (R.shift dst)).ordinal level =
    (s.info.word src).asResult.flowTo (s.program.node dst).ordinal level
  rw [h.word, (h.program.node dst).ordinal]

theorem Mirrors.leakParam (level : Level) (dst src : NodeId) :
    R.Mirrors (s.leakParam level dst src) (t.leakParam level (R.shift dst) (R.shift src)) := by
  unfold Flow.leakParam
  dsimp only
  rw [h.word, h.depthOf, h.depthOf]
  exact (h.setWord src _).found hordered (.leaks src dst level _ _)

theorem Mirrors.reachName (level : Level) (dst src : NodeId) (inScope : Bool) :
    R.Mirrors (s.reachName level dst src inScope) (t.reachName level (R.shift dst) (R.shift src) inScope) := by
  unfold Flow.reachName
  dsimp only
  rw [h.depthOf, h.depthOf, (h.program.node src).cls]
  split
  · split
    · exact h.leakParam hordered level dst src
    · exact h
  · split
    · exact h.found hordered (.leaksCaptured src)
    · exact h
  · exact h

/-- The operand of an address is from the start. -/
theorem Mirrors.reachAddress (level : Level) (dst src : NodeId)
    (hop : (s.program.node src).op = .addr ∨ (s.program.node src).op = .ptrLit) :
    R.Mirrors (s.reachAddress level dst src) (t.reachAddress level (R.shift dst) (R.shift src)) := by
  have hold {m : NodeId} (hm : (s.program.node src).left = some m) : m.index < R.base.nodes.size := by
    by_cases hsrc : src.index < R.base.nodes.size
    · exact h.program.old_of_mem_inner hsrc (Node.mem_inner.2 (Or.inl hm))
    · obtain ⟨_, hptr, haddr⟩ := h.program.made src (Nat.le_of_not_lt hsrc)
      exact haddr (hop.resolve_right hptr) m hm
  unfold Flow.reachAddress
  dsimp only
  rw [h.depthOf, h.depthOf, (h.program.node src).left]
  split
  · have hset := h.reword (w := .plain .heap) rfl src
    cases hleft : (s.program.node src).left with
    | none => exact hset.found hordered (.addressEscapes src src level _ _)
    | some m =>
      have hm := hold hleft
      have hordered' : ((s.setWord src (.plain .heap)).addressEscapes m).program.Ordered := by
        rw [(marked_addressEscapes _ m).program]
        exact hordered
      have hescapes := hset.addressEscapes hordered hm
      have hnode := (h.program.node m).op
      rw [R.shift_old hm] at hnode
      simp only [Option.map_some, R.shift_old hm, Option.elim_some, Option.filter_some, hnode]
      split
      · have hfound := hescapes.found hordered' (.addressEscapes src m level (s.info.depth dst) (s.info.depth src))
        simp only [Finding.map, R.shift_old hm] at hfound
        exact hfound
      · exact hescapes.found hordered' (.addressEscapes src src level (s.info.depth dst) (s.info.depth src))
  · exact h

theorem Mirrors.reachAlloc (level : Level) (dst src : NodeId) :
    R.Mirrors (s.reachAlloc level dst src) (t.reachAlloc level (R.shift dst) (R.shift src)) := by
  unfold Flow.reachAlloc
  rw [h.depthOf, h.depthOf]
  split
  · exact (h.reword rfl src).found hordered (.allocEscapes src)
  · exact h

theorem Mirrors.reachContent (level : Level) (dst src : NodeId) :
    R.Mirrors (s.reachContent level dst src) (t.reachContent level (R.shift dst) (R.shift src)) := by
  unfold Flow.reachContent
  rw [h.word, h.word, (h.program.node src).isNameOf]
  split
  · exact (h.reword rfl src).found hordered (.contentEscapes src)
  · exact h

theorem Mirrors.reachNode (level : Level) (dst src : NodeId) (inScope : Bool) :
    R.Mirrors (s.reachNode level dst src inScope) (t.reachNode level (R.shift dst) (R.shift src) inScope) := by
  rw [Flow.reachNode_eq, Flow.reachNode_eq, (h.program.node src).op, h.program.allocates]
  split
  · exact h.reachName hordered level dst src inScope
  split
  · exact h.reachAddress hordered level dst src ‹_›
  split
  · exact h.reachAlloc hordered level dst src
  · exact h

theorem Mirrors.reach (level : Level) (dst src : NodeId) :
    R.Mirrors (s.reach level dst src) (t.reach level (R.shift dst) (R.shift src)) := by
  unfold Flow.reach
  dsimp only
  rw [h.program.isOutputAndInput, h.word, h.word]
  split
  · exact h.reachOutput hordered level dst src
  · refine (h.reachContent hordered level dst src).reachNode ?_ level dst src _
    rw [(marked_reachContent s level dst src).program]
    exact hordered

omit hordered in
theorem Mirrors.emit (e e' : Event) : R.Mirrors (s.emit e) (t.emit e') := { h with }

theorem Mirrors.follow (v : Visit) : R.Mirrors (s.follow v) (t.follow (R.moveVisit v)) :=
  (h.emit _ _).reach hordered v.level v.dst v.node

theorem Mirrors.foldl_follow (visits : List Visit) :
    R.Mirrors (visits.foldl Flow.follow s) ((visits.map R.moveVisit).foldl Flow.follow t) := by
  induction visits generalizing s t with
  | nil => exact h
  | cons v visits ih =>
    refine ih (h.follow hordered v) ?_
    rw [(marked_follow s v).program]
    exact hordered

/-- The second flood leaves the graphs at the same point. -/
theorem Mirrors.flood : R.Mirrors (s.dsts.foldl Flow.flood s) (t.dsts.foldl Flow.flood t) := by
  rw [foldl_flood, foldl_flood, h.visits]
  exact h.foldl_follow hordered s.visits

end Reach

end Rerun

end EscapeAnalysis

import EscapeAnalysis.Proofs.Flood.Words

/-!
# The effects of a visit

What a visit does is a few writes, one after the other: the word of the node it comes to, and the variable whose
address the node is. Whatever each of these writes keeps, every flood keeps.

* `Flow.Mark l dst src s t` : one such write;
* `Flow.marks_follow` : a visit is a few of them;
* `Flow.foldl_flood_induction` : what they keep, a flood keeps.
-/

namespace EscapeAnalysis.Flow

open Relation (ReflTransGen)

/-- One write of a visit from `dst` to `src` at level `l`. -/
inductive Mark (l : Level) (dst src : NodeId) (s : Flow) : Flow → Prop where
  | emit : Mark l dst src s (s.emit (.reach l dst src))
  | find (x : Finding) : Mark l dst src s (s.find x)
  /-- An input flows to an output. -/
  | output (h : s.program.isOutputAndInput dst src = true) (hscope : (s.info.word src).cls < .scope) :
    Mark l dst src s (s.setWord src ((s.info.word src).asResult.flowTo (s.program.node dst).ordinal l))
  /-- An input, or what it points to, outlives its function. -/
  | input (h : (s.program.node src).isNameOf .param = true) (hscope : (s.info.word src).cls < .scope) {w : Word}
      (hw : w = .plain .scope ∨ w = (s.info.word src).raiseContent) : Mark l dst src s (s.setWord src w)
  | alloc (h : s.program.allocates src = true) : Mark l dst src s (s.setWord src (.plain .heap))
  /-- The node is on the heap and is an address; the variable it is an address of moves there. -/
  | move {x var : NodeId} (hop : (s.program.node src).op = .addr ∨ (s.program.node src).op = .ptrLit)
      (hword : s.info.word src = .plain .heap) (hx : (s.program.node src).left = some x)
      (hvar : s.program.addressed? (s.program.nodes.size + 1) x = some var) : Mark l dst src s (s.moveToHeap var)

def Marks (l : Level) (dst src : NodeId) : Flow → Flow → Prop := ReflTransGen (Mark l dst src)

section Marks

variable (s : Flow) (l : Level) (dst src : NodeId)

theorem marks_reachContent : Marks l dst src s (s.reachContent l dst src) := by
  unfold reachContent
  split
  · rename_i h
    exact .tail (.single (.input h.2.1 h.2.2.1 (Or.inr rfl))) (.find _)
  · exact .refl

theorem marks_reachOutput (h : s.program.isOutputAndInput dst src = true) (hscope : (s.info.word src).cls < .scope) :
    Marks l dst src s (s.reachOutput l dst src) :=
  .tail (.single (.find _)) (.output h hscope)

variable {inScope : Bool} (hscope : inScope = true → (s.info.word src).cls < .scope)

include hscope in
theorem marks_reachName (hop : (s.program.node src).op = .name) :
    Marks l dst src s (s.reachName l dst src inScope) := by
  simp only [reachName]
  split
  · rename_i hcls
    have hparam : (s.program.node src).isNameOf .param = true := by simp [Node.isNameOf, hop, hcls]
    split
    · rename_i hleaks
      refine .tail (.single (.input hparam (hscope (Bool.and_eq_true _ _ ▸ hleaks).2) ?_)) (.find _)
      split
      · exact Or.inr rfl
      · exact Or.inl rfl
    · exact .refl
  · split
    · exact .single (.find _)
    · exact .refl
  · exact .refl

theorem marks_reachAlloc (h : s.program.allocates src = true) : Marks l dst src s (s.reachAlloc l dst src) := by
  unfold reachAlloc
  split
  · exact .tail (.single (.alloc h)) (.find _)
  · exact .refl

theorem marks_reachAddress (hop : (s.program.node src).op = .addr ∨ (s.program.node src).op = .ptrLit) :
    Marks l dst src s (s.reachAddress l dst src) := by
  have halloc : s.program.allocates src = true := by
    unfold Program.allocates
    rcases hop with h | h <;> rw [h]
  simp only [reachAddress]
  split
  · refine .tail (.trans (.single (.alloc halloc)) ?_) (.find _)
    cases hx : (s.program.node src).left with
    | none => exact .refl
    | some x =>
      rw [Option.elim_some]
      unfold addressEscapes
      split
      · rename_i var hvar
        exact .single (.move hop (word_setWord_self ..) hx hvar)
      · exact .refl
  · exact .refl

include hscope in
theorem marks_reachNode : Marks l dst src s (s.reachNode l dst src inScope) := by
  rw [reachNode_eq]
  split
  · exact marks_reachName s l dst src hscope ‹_›
  split
  · exact marks_reachAddress s l dst src ‹_›
  split
  · exact marks_reachAlloc s l dst src ‹_›
  · exact .refl

theorem marks_reach : Marks l dst src s (s.reach l dst src) := by
  simp only [reach]
  split
  · rename_i h
    exact marks_reachOutput s l dst src h.1 (of_decide_eq_true h.2.1)
  · refine .trans (marks_reachContent s l dst src) (marks_reachNode _ l dst src fun hscope => ?_)
    have hcls := of_decide_eq_true hscope
    unfold reachContent
    split
    · rw [show ((s.setWord src (s.info.word src).raiseContent).find _).info.word src = _ from word_setWord_self ..]
      exact Word.raiseContent_lt_scope.2 hcls
    · exact hcls

end Marks

theorem marks_follow (s : Flow) (v : Visit) : Marks v.level v.dst v.node s (s.follow v) :=
  .trans (.single .emit) (marks_reach _ v.level v.dst v.node)

theorem Mark.marked {l : Level} {dst src : NodeId} {s t : Flow} (h : Mark l dst src s t) : Marked s t := by
  cases h with
  | emit => exact marked_emit s l dst src
  | find x => exact marked_find s x
  | output | input | alloc => exact marked_setWord s _ _
  | move => exact marked_moveToHeap s _

/-- What every write of every visit keeps, a flood keeps. -/
theorem foldl_flood_induction {s : Flow} {P : Flow → Prop}
    (hstep : ∀ v ∈ s.visits, ∀ {t u : Flow}, Marked s t → Mark v.level v.dst v.node t u → P t → P u) (hs : P s) :
    P (s.dsts.foldl flood s) := by
  have hvisit {v : Visit} (hv : v ∈ s.visits) {t u : Flow} (ht : Marked s t)
      (h : Marks v.level v.dst v.node t u) (hP : P t) : P u ∧ Marked s u := by
    induction h with
    | refl => exact ⟨hP, ht⟩
    | tail _ h ih => exact ⟨hstep v hv ih.2 h ih.1, ih.2.trans h.marked⟩
  have hvisits (visits : List Visit) (hmem : ∀ v ∈ visits, v ∈ s.visits) {t : Flow} (ht : Marked s t) (hP : P t) :
      P (visits.foldl follow t) := by
    induction visits generalizing t with
    | nil => exact hP
    | cons v visits ih =>
      rw [List.forall_mem_cons] at hmem
      obtain ⟨hP', ht'⟩ := hvisit hmem.1 ht (marks_follow t v) hP
      exact ih hmem.2 ht' hP'
  rw [foldl_flood]
  exact hvisits s.visits (fun _ h => h) (.refl s) hs

end EscapeAnalysis.Flow

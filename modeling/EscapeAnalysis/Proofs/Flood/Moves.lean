import EscapeAnalysis.Proofs.Flood.Allocations
import EscapeAnalysis.Proofs.Flood.Marks

/-!
# Which variables a flood moves

A variable is moved exactly if it was before, or if a visit comes to one of its addresses at a level that leaks. A
variable that is moved has the word of the heap and keeps it, and is moved once; the words of local variables and
results that are not moved are never written.

* `Info.Settled p i` : what is known of the variables of `p` agrees with what is moved;
* `Flow.settled_foldl_flood` : a flood keeps this;
* `Flow.LeaksAddress s v x` : the visit comes to an address of `x` at a level that leaks;
* `Flow.mem_moved_foldl_flood` : the variables that a flood moves.
-/

namespace EscapeAnalysis

/-- A variable is moved once and has the word of the heap then; a local variable or result that is not moved has the
word that all nodes start with. -/
structure Info.Settled (p : Program) (i : Info) : Prop where
  nodup : i.moved.toList.Nodup
  heap : ∀ x ∈ i.moved, i.word x = .plain .heap
  unmoved : ∀ x, (p.node x).isNameOf .auto = true ∨ (p.node x).isNameOf .result = true → x ∉ i.moved →
    i.word x = .plain .unknown

namespace Flow

variable {s t : Flow}

/-! ## Words -/

theorem settled_setWord (hs : s.info.Settled s.program) {n : NodeId} {w : Word}
    (hheap : n ∈ s.info.moved → w = .plain .heap)
    (hauto : (s.program.node n).isNameOf .auto = false) (hresult : (s.program.node n).isNameOf .result = false) :
    (s.setWord n w).info.Settled s.program := by
  refine ⟨hs.nodup, fun x hx => ?_, fun x hx hnot => ?_⟩
  · by_cases he : x = n
    · rw [he, word_setWord_self]
      exact hheap (he ▸ hx)
    · rw [word_setWord_of_ne s w he]
      exact hs.heap x hx
  · have he : x ≠ n := by
      rintro rfl
      simp [hauto, hresult] at hx
    rw [word_setWord_of_ne s w he]
    exact hs.unmoved x hx hnot

/-- An input that is moved is not in scope, so only an input that is not moved gets a new word. -/
theorem settled_setWord_param (hs : s.info.Settled s.program) {n : NodeId}
    (hparam : (s.program.node n).isNameOf .param = true) (hscope : (s.info.word n).cls < .scope) (w : Word) :
    (s.setWord n w).info.Settled s.program := by
  rw [Node.isNameOf_iff] at hparam
  refine settled_setWord hs (fun hn => ?_) (by simp [Node.isNameOf, hparam]) (by simp [Node.isNameOf, hparam])
  rw [hs.heap n hn] at hscope
  exact absurd hscope (by decide)

theorem settled_moveToHeap (hs : s.info.Settled s.program) (n : NodeId) :
    (s.moveToHeap n).info.Settled s.program := by
  unfold moveToHeap
  split
  · exact hs
  · split
    · exact hs
    · rename_i hmoved
      have hnot : n ∉ s.info.moved := fun h => hmoved (Array.contains_iff_mem.2 h)
      -- The new word is that of the variable that is added.
      have hword (x : NodeId) : ((({ s with info := { s.info with moved := s.info.moved.push n } } : Flow).setWord n
          (.plain .heap)).find (.moved n)).info.word x = if x = n then .plain .heap else s.info.word x := by
        rw [word_find]
        split
        · rename_i he
          rw [he, word_setWord_self]
        · rename_i he
          rw [word_setWord_of_ne _ _ he]
          rfl
      refine ⟨?_, fun x hx => ?_, fun x hx hx' => ?_⟩
      · change (s.info.moved.push n).toList.Nodup
        rw [Array.toList_push, List.nodup_append]
        refine ⟨hs.nodup, by simp, fun a ha b hb he => hnot ?_⟩
        rw [← List.mem_singleton.1 hb, ← he]
        exact Array.mem_toList_iff.1 ha
      · rw [hword]
        split
        · rfl
        · rename_i he
          exact hs.heap x ((Array.mem_push.1 hx).resolve_right he)
      · have hx' : x ∉ s.info.moved.push n := hx'
        rw [Array.mem_push, not_or] at hx'
        rw [hword, if_neg hx'.2]
        exact hs.unmoved x hx hx'.1

theorem settled_mark {l : Level} {dst src : NodeId} (h : Mark l dst src s t) (hs : s.info.Settled s.program) :
    t.info.Settled s.program := by
  cases h with
  | emit => exact hs
  | find => exact ⟨hs.nodup, hs.heap, hs.unmoved⟩
  | output h hscope =>
    simp only [Program.isOutputAndInput, Bool.and_eq_true] at h
    exact settled_setWord_param hs h.1.2 hscope _
  | input h hscope _ => exact settled_setWord_param hs h hscope _
  | alloc h =>
    have hop := op_ne_name_of_allocates h
    exact settled_setWord hs (fun _ => rfl) (Node.isNameOf_of_op_ne hop _) (Node.isNameOf_of_op_ne hop _)
  | move => exact settled_moveToHeap hs _

theorem settled_marks {l : Level} {dst src : NodeId} (h : Marks l dst src s t) (hs : s.info.Settled s.program) :
    t.info.Settled t.program ∧ Marked s t := by
  induction h with
  | refl => exact ⟨hs, .refl s⟩
  | tail _ h ih =>
    have hmarked := h.marked
    exact ⟨hmarked.program ▸ settled_mark h ih.1, ih.2.trans hmarked⟩

theorem settled_follow (hs : s.info.Settled s.program) (v : Visit) : (s.follow v).info.Settled (s.follow v).program :=
  (settled_marks (marks_follow s v) hs).1

theorem settled_foldl_flood (hs : s.info.Settled s.program) :
    (s.dsts.foldl flood s).info.Settled (s.dsts.foldl flood s).program :=
  foldl_flood_induction (P := fun t => t.info.Settled t.program)
    (fun _ _ _ _ _ h ht => h.marked.program ▸ settled_mark h ht) hs

/-! ## Moved variables -/

/-- No variable has the word that would keep it where it is. -/
theorem mem_moved_moveToHeap (hs : s.info.Settled s.program) {x n : NodeId} (hop : (s.program.node n).op = .name) :
    x ∈ (s.moveToHeap n).info.moved ↔ x ∈ s.info.moved ∨ x = n := by
  unfold moveToHeap
  split
  · rename_i hnever
    exfalso
    have hauto : (s.program.node n).isNameOf .auto = true := by simp [Node.isNameOf, hop, hnever.1]
    by_cases hn : n ∈ s.info.moved
    · rw [hs.heap n hn] at hnever
      exact absurd hnever.2 (by decide)
    · rw [hs.unmoved n (Or.inl hauto) hn] at hnever
      exact absurd hnever.2 (by decide)
  · split
    · rename_i hmoved
      have hn : n ∈ s.info.moved := Array.contains_iff_mem.1 hmoved
      exact ⟨Or.inl, fun h => h.elim id fun he => he ▸ hn⟩
    · exact Array.mem_push

/-- The visit comes to an address of `x`, or of a part of `x`, at a level that leaks. -/
structure LeaksAddress (s : Flow) (v : Visit) (x : NodeId) : Prop where
  op : (s.program.node v.node).op = .addr ∨ (s.program.node v.node).op = .ptrLit
  leaks : v.level.leaks (s.info.depth v.dst) (s.info.depth v.node) = true
  base : ∃ y, (s.program.node v.node).left = some y ∧ s.program.addressed? (s.program.nodes.size + 1) y = some x

theorem mem_moved_reachAddress (hs : s.info.Settled s.program) {v : Visit}
    (hop : (s.program.node v.node).op = .addr ∨ (s.program.node v.node).op = .ptrLit) (x : NodeId) :
    x ∈ (s.reachAddress v.level v.dst v.node).info.moved ↔ x ∈ s.info.moved ∨ s.LeaksAddress v x := by
  have hname : (s.program.node v.node).op ≠ .name := by rcases hop with h | h <;> rw [h] <;> nofun
  simp only [reachAddress]
  split
  · rename_i hleaks
    have hset : (s.setWord v.node (.plain .heap)).info.Settled s.program :=
      settled_setWord hs (fun _ => rfl) (Node.isNameOf_of_op_ne hname _) (Node.isNameOf_of_op_ne hname _)
    rw [moved_find]
    cases hleft : (s.program.node v.node).left with
    | none =>
      refine ⟨Or.inl, ?_⟩
      rintro (h | ⟨_, _, y, hy, _⟩)
      · exact h
      · rw [hleft] at hy
        cases hy
    | some y =>
      rw [Option.elim_some]
      unfold addressEscapes
      split
      · rename_i var hvar
        rw [mem_moved_moveToHeap hset (Program.op_of_addressed? hvar)]
        refine or_congr_right ⟨fun he => ⟨hop, hleaks, y, hleft, he ▸ hvar⟩, ?_⟩
        rintro ⟨_, _, y', hy', hx⟩
        rw [hleft] at hy'
        cases hy'
        exact Option.some.inj (hx.symm.trans hvar)
      · rename_i hvar
        refine ⟨Or.inl, ?_⟩
        rintro (h | ⟨_, _, y', hy', hx⟩)
        · exact h
        · rw [hleft] at hy'
          cases hy'
          cases hx.symm.trans hvar
  · rename_i hleaks
    exact ⟨Or.inl, fun h => h.elim id fun h => absurd h.leaks hleaks⟩

/-- Only addresses move variables. -/
theorem moved_marks {l : Level} {dst src : NodeId} (h : Marks l dst src s t)
    (hop : (s.program.node src).op ≠ .addr ∧ (s.program.node src).op ≠ .ptrLit) : t.info.moved = s.info.moved := by
  have key : t.info.moved = s.info.moved ∧ Marked s t := by
    induction h with
    | refl => exact ⟨rfl, .refl s⟩
    | tail _ h ih =>
      refine ⟨?_, ih.2.trans h.marked⟩
      rw [← ih.1]
      cases h with
      | move haddr =>
        rw [ih.2.program] at haddr
        exact absurd haddr (not_or.2 hop)
      | _ => rfl
  exact key.1

theorem mem_moved_follow (hs : s.info.Settled s.program) (v : Visit) (x : NodeId) :
    x ∈ (s.follow v).info.moved ↔ x ∈ s.info.moved ∨ s.LeaksAddress v x := by
  by_cases hop : (s.program.node v.node).op = .addr ∨ (s.program.node v.node).op = .ptrLit
  · have hname : (s.program.node v.node).op ≠ .name := by rcases hop with h | h <;> rw [h] <;> nofun
    have hreach : s.follow v = (s.emit (.reach v.level v.dst v.node)).reachAddress v.level v.dst v.node := by
      unfold follow
      rw [reach_of_not_param (s := s.emit _) (Node.isNameOf_of_op_ne hname _)]
      rw [reachNode_eq]
      exact (if_neg hname).trans (if_pos hop)
    rw [hreach, mem_moved_reachAddress (s := s.emit _) hs hop]
    exact or_congr_right ⟨fun h => ⟨h.op, h.leaks, h.base⟩, fun h => ⟨h.op, h.leaks, h.base⟩⟩
  · rw [moved_marks (marks_follow s v) (not_or.1 hop)]
    exact ⟨Or.inl, fun h => h.elim id fun h => absurd h.op hop⟩

theorem Marked.leaksAddress (h : Marked s t) {v : Visit} {x : NodeId} : t.LeaksAddress v x ↔ s.LeaksAddress v x := by
  have hprogram := h.program
  constructor
  · rintro ⟨hop, hleaks, hbase⟩
    rw [hprogram] at hop hbase
    rw [h.depth, h.depth] at hleaks
    exact ⟨hop, hleaks, hbase⟩
  · rintro ⟨hop, hleaks, hbase⟩
    rw [← hprogram] at hop hbase
    rw [← h.depth, ← h.depth] at hleaks
    exact ⟨hop, hleaks, hbase⟩

theorem mem_moved_foldl_follow (hs : s.info.Settled s.program) (visits : List Visit) (x : NodeId) :
    x ∈ (visits.foldl follow s).info.moved ↔ x ∈ s.info.moved ∨ ∃ v ∈ visits, s.LeaksAddress v x := by
  induction visits generalizing s with
  | nil => simp
  | cons v visits ih =>
    rw [List.foldl_cons, ih (settled_follow hs v), mem_moved_follow hs]
    simp only [(marked_follow s v).leaksAddress, List.exists_mem_cons_iff, or_assoc]

theorem mem_moved_foldl_flood (hs : s.info.Settled s.program) (x : NodeId) :
    x ∈ (s.dsts.foldl flood s).info.moved ↔ x ∈ s.info.moved ∨ ∃ v ∈ s.visits, s.LeaksAddress v x := by
  rw [foldl_flood]
  exact mem_moved_foldl_follow hs s.visits x

/-- An address is on the heap exactly if it was before, or if a visit comes to it at a level that leaks. -/
theorem heap_address_foldl_flood {n : NodeId}
    (hop : (s.program.node n).op = .addr ∨ (s.program.node n).op = .ptrLit) :
    (s.dsts.foldl flood s).info.word n = .plain .heap ↔ s.info.word n = .plain .heap ∨
      ∃ v ∈ s.visits, v.node = n ∧ v.level.leaks (s.info.depth v.dst) (s.info.depth n) = true := by
  have halloc : s.program.allocates n = true := by
    unfold Program.allocates
    rcases hop with h | h <;> rw [h]
  rw [foldl_flood]
  exact heap_foldl_follow halloc s.visits

end Flow

end EscapeAnalysis

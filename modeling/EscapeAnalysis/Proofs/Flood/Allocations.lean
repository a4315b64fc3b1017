import EscapeAnalysis.Proofs.Flood.Words

/-!
# Which allocations a flood puts on the heap

An allocation is on the heap after the flood exactly if it was before, or if a path from a destination
comes to it at a level that leaks. Paths have no memory, so the answer depends on the edges alone and not
on the order in which they are stored or walked.

* `Flow.heap_foldl_follow` : the allocations on the heap after a list of visits;
* `Flow.SameEdges` : two graphs with the same edges in any order.
-/

namespace EscapeAnalysis.Flow

/-! ## The visits that leak -/

/-- A visit changes the word of an allocation only if it comes to it at a level that leaks. -/
theorem word_follow_of_allocates {s : Flow} {n : NodeId} (hn : s.program.allocates n = true) (v : Visit) :
    (s.follow v).info.word n =
      if v.node = n ∧ v.level.leaks (s.info.depth v.dst) (s.info.depth n) then .plain .heap else s.info.word n := by
  unfold follow
  by_cases h : v.node = n
  · subst h
    rw [word_reach_self_of_allocates (s := s.emit _) hn]
    simp only [true_and]
    rfl
  · rw [if_neg fun hv => h hv.1]
    rcases keptOrMoved_reach_of_ne (s.emit (.reach v.level v.dst v.node)) v.level v.dst (Ne.symm h) with
      hk | ⟨_, _, hop⟩
    · exact hk
    · exact absurd hop (op_ne_name_of_allocates hn)

theorem heap_foldl_follow {s : Flow} {n : NodeId} (hn : s.program.allocates n = true) (visits : List Visit) :
    (visits.foldl follow s).info.word n = .plain .heap ↔ s.info.word n = .plain .heap ∨
      ∃ v ∈ visits, v.node = n ∧ v.level.leaks (s.info.depth v.dst) (s.info.depth n) = true := by
  induction visits generalizing s with
  | nil => simp
  | cons v visits ih =>
    have hm := marked_follow s v
    have hword := word_follow_of_allocates hn v
    rw [List.foldl_cons, ih (by rw [hm.program]; exact hn), hword]
    simp only [hm.depth, List.exists_mem_cons_iff]
    split
    · rename_i hv
      exact ⟨fun _ => Or.inr (Or.inl hv), fun _ => Or.inl rfl⟩
    · rename_i hv
      constructor
      · rintro (h | h)
        · exact Or.inl h
        · exact Or.inr (Or.inr h)
      · rintro (h | h | h)
        · exact Or.inl h
        · exact absurd h hv
        · exact Or.inr h

/-- The level of a visit leaks exactly if the level of a path does. -/
theorem leaking_visit_iff_path (s : Flow) (n : NodeId) :
    (∃ v ∈ s.visits, v.node = n ∧ v.level.leaks (s.info.depth v.dst) (s.info.depth n) = true) ↔
      ∃ dst l, s.IsRoot dst ∧ s.Path dst l n ∧ l.leaks (s.info.depth dst) (s.info.depth n) = true := by
  constructor
  · rintro ⟨v, hv, rfl, hleak⟩
    obtain ⟨hroot, hband, l, hpath, hl⟩ := exists_path_of_mem_visits hv
    exact ⟨v.dst, l, hroot, hpath, by rw [← hl.leaks hband hpath.band]; exact hleak⟩
  · rintro ⟨dst, l, hroot, hpath, hleak⟩
    obtain ⟨m, hm, hband, hcov⟩ := exists_mem_visits_of_path hroot hpath
    exact ⟨⟨dst, m, n⟩, hm, rfl, hcov.leaks hband hleak⟩

/-! ## The order of edges -/

/-- The graphs have the same edges, between the same nodes at the same depths, in any order. -/
structure SameEdges (s t : Flow) : Prop where
  program : t.program = s.program
  results : t.results = s.results
  depths : ∀ n, t.info.depth n = s.info.depth n
  dsts : ∀ n, n ∈ t.dsts ↔ n ∈ s.dsts
  sources : ∀ i n, n ∈ t.sources.get i ↔ n ∈ s.sources.get i

theorem SameEdges.symm {s t : Flow} (h : SameEdges s t) : SameEdges t s :=
  ⟨h.program.symm, h.results.symm, fun n => (h.depths n).symm, fun n => (h.dsts n).symm,
    fun i n => (h.sources i n).symm⟩

theorem SameEdges.path {s t : Flow} (h : SameEdges s t) {dst n : NodeId} {l : Level} (hp : Path s dst l n) :
    Path t dst l n := by
  have hnode (x : NodeId) : t.sourceNode x = s.sourceNode x := by
    unfold sourceNode
    rw [h.program, h.results]
  induction hp with
  | source hsrc => exact .source ((h.sources _ _).2 hsrc)
  | operand _ hx ih => exact ih.operand (by rw [h.program]; exact hx)
  | flow _ hsrc ih => exact ih.flow (by rw [hnode]; exact (h.sources _ _).2 hsrc)

theorem SameEdges.isRoot {s t : Flow} (h : SameEdges s t) {dst : NodeId} (hr : s.IsRoot dst) : t.IsRoot dst :=
  ⟨(h.dsts dst).2 hr.1, by rw [h.program]; exact hr.2⟩

theorem SameEdges.leaking_path {s t : Flow} (h : SameEdges s t) {n : NodeId}
    (hp : ∃ dst l, s.IsRoot dst ∧ s.Path dst l n ∧ l.leaks (s.info.depth dst) (s.info.depth n) = true) :
    ∃ dst l, t.IsRoot dst ∧ t.Path dst l n ∧ l.leaks (t.info.depth dst) (t.info.depth n) = true := by
  obtain ⟨dst, l, hroot, hpath, hleak⟩ := hp
  exact ⟨dst, l, h.isRoot hroot, h.path hpath, by rw [h.depths, h.depths]; exact hleak⟩

/-! ## The heap after a flood -/

theorem heap_foldl_flood {s : Flow} {n : NodeId} (hn : s.program.allocates n = true) :
    (s.dsts.foldl flood s).info.word n = .plain .heap ↔ s.info.word n = .plain .heap ∨
      ∃ dst l, s.IsRoot dst ∧ s.Path dst l n ∧ l.leaks (s.info.depth dst) (s.info.depth n) = true := by
  rw [foldl_flood, heap_foldl_follow hn, leaking_visit_iff_path]

/-- After the walks from all destinations an allocation is on the heap exactly if it was before or a
path comes to it at a level that leaks. So it does not matter in which order the destinations are taken
and the sources of a node are stored. -/
theorem heap_iff_leaking_path {s : Flow} {n : NodeId} (hn : s.program.allocates n = true) :
    ((s.dsts.foldl flood s).info.word n = .plain .heap ↔ s.info.word n = .plain .heap ∨
      ∃ dst l, s.IsRoot dst ∧ s.Path dst l n ∧ l.leaks (s.info.depth dst) (s.info.depth n) = true) ∧
    ∀ t : Flow, s.SameEdges t → (t.info.word n = .plain .heap ↔ s.info.word n = .plain .heap) →
      ((t.dsts.foldl flood t).info.word n = .plain .heap ↔ (s.dsts.foldl flood s).info.word n = .plain .heap) := by
  refine ⟨heap_foldl_flood hn, fun t ht hw => ?_⟩
  have hn' : t.program.allocates n = true := by
    rw [ht.program]
    exact hn
  rw [heap_foldl_flood hn, heap_foldl_flood hn', hw]
  exact or_congr_right ⟨ht.symm.leaking_path, ht.leaking_path⟩

/-- The address of `x` flows into `q`, what `q` points to flows back into `q`, and `q` into the sink:
`for { q = &x; q = *q }; sink = q`. -/
def loopGraph : Flow where
  program :=
    { nodes := #[{ op := .name, cls := .global }, { op := .addr, left := some ⟨2⟩ }, { op := .name, cls := .auto },
        { op := .name, cls := .auto }, { op := .deref, left := some ⟨3⟩ }] }
  info := { depths := ⟨#[-1, 2, 2, 1, 2]⟩ }
  sink := ⟨0⟩
  recursive := false
  dsts := #[⟨3⟩, ⟨0⟩]
  sources := ⟨#[#[⟨3⟩], #[], #[], #[⟨1⟩, ⟨4⟩], #[]]⟩

/-- The address of `x` is on the heap after the flood of the loop. -/
theorem heap_loopGraph : loopGraph.program.allocates ⟨1⟩ = true ∧
    (loopGraph.dsts.foldl flood loopGraph).info.word ⟨1⟩ = .plain .heap := by
  have hroot : loopGraph.IsRoot ⟨0⟩ := ⟨by simp [loopGraph], Or.inl rfl⟩
  have hq : loopGraph.Path ⟨0⟩ .zero ⟨3⟩ := .source (by simp [loopGraph, Table.get])
  have hx : loopGraph.Path ⟨0⟩ (Level.copy .zero) ⟨1⟩ := hq.flow (by decide +kernel)
  exact ⟨rfl, (heap_iff_leaking_path rfl).1.2 (Or.inr ⟨⟨0⟩, _, hroot, hx, by decide⟩)⟩

end EscapeAnalysis.Flow

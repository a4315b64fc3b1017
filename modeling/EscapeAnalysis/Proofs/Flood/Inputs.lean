import EscapeAnalysis.Proofs.Flood.Words

/-!
# What a flood says about inputs

An input that a path comes to has a word after the flood that leaves the scope or tells of that path. A visit writes
such a word at once, and since words only grow, the visits after it keep what it says.

* `Word.Tells w k l` : the word tells of a flow to the `k`-th output at level `l`;
* `Flow.HeapMoved` : outputs on the heap are moved variables;
* `Flow.content_foldl_flood` : the word of an input that flows to a destination outside all functions;
* `Flow.tells_foldl_flood`, `Flow.tells_foldl_flood_of_leaks` : the word of an input that flows to an output of its
  function.
-/

namespace EscapeAnalysis

namespace Word

/-! ## Words that tell of a flow -/

theorem slot?_eq_some {k : Nat} {i : Fin 4} (h : slot? k = some i) : i.val + 1 = k := by
  unfold slot? at h
  split at h
  · cases h
    dsimp only
    omega
  · cases h

/-- The word tells of a flow to the `k`-th output at level `l`: the field of the output counts no more dereferences,
or the flow passes a dereference and what the input points to reaches the heap. -/
def Tells (w : Word) (k : Nat) (l : Level) : Prop :=
  w.cls = .result ∧ (∃ i, i.val + 1 = k ∧ 0 < (w.outputs.get i).val ∧ ((w.outputs.get i).val : Int) - 1 ≤ l.value) ∨
    1 ≤ l.suffix ∧ w.content = true

theorem Tells.kept {w w' : Word} {k : Nat} {l : Level} (h : w.Tells k l) (hs : Says w w') : w'.Tells k l := by
  rcases h with ⟨hcls, i, hk, hi, hle⟩ | ⟨hl, hc⟩
  · obtain ⟨hi', hle'⟩ := hs.outputs hcls i hi
    refine Or.inl ⟨hs.result hcls, i, hk, hi', ?_⟩
    have hval : (w'.outputs.get i).val ≤ (w.outputs.get i).val := hle'
    omega
  · exact Or.inr ⟨hl, hs.content hc⟩

/-- A word that tells of a flow at a level tells of those that the level covers: at the floor there is nothing to
tell. -/
theorem Tells.covers {w : Word} {k : Nat} {l m : Level} (h : w.Tells k m) (hband : m.Band) (hm : m.Covers l) :
    w.Tells k l := by
  rcases h with ⟨hcls, i, hk, hi, hle⟩ | ⟨hl, hc⟩
  · refine Or.inl ⟨hcls, i, hk, hi, ?_⟩
    rcases hm with hfloor | ⟨hval, _⟩
    · simp only [Level.floor] at hfloor
      omega
    · omega
  · refine Or.inr ⟨?_, hc⟩
    rcases hm with hfloor | ⟨_, hsuffix⟩
    · have := hband.suffix_nonpos hfloor
      omega
    · omega

/-- What `flowTo` writes tells of the flow, unless it puts the input on the heap. -/
theorem tells_flowTo {w : Word} (hw : w.cls = .result) (k : Nat) (l : Level)
    (hs : (w.flowTo k l).cls < .scope) : (w.flowTo k l).Tells k l := by
  have hheap : ¬ (plain .heap).cls < .scope := by decide
  unfold flowTo at hs ⊢
  split
  · rename_i hl
    simp only [Bool.and_eq_true, decide_eq_true_eq] at hl
    exact Or.inr ⟨hl.2, w.content_raiseContent⟩
  · rename_i hl
    rw [if_neg hl] at hs
    split
    · rename_i hneg
      rw [if_pos hneg] at hs
      exact absurd hs hheap
    · rename_i hneg
      rw [if_neg hneg] at hs
      have hval := val_field l.value.toNat
      have hmin : Nat.min l.value.toNat maxLevel ≤ l.value.toNat := Nat.min_le_left _ _
      cases hk : slot? k with
      | none =>
        rw [hk] at hs
        exact absurd hs hheap
      | some i =>
        dsimp only
        split
        · refine Or.inl ⟨hw, i, slot?_eq_some hk, ?_⟩
          rw [outputs_set_self]
          refine ⟨?_, ?_⟩
          · rw [hval]
            exact Nat.succ_pos _
          · have : ((Fin.ofNat 8 (Nat.min l.value.toNat maxLevel + 1)).val : Int) - 1 ≤ l.value := by
              rw [hval]
              omega
            exact this
        · rename_i hfield
          obtain ⟨hne, hle⟩ := not_or.1 hfield
          refine Or.inl ⟨hw, i, slot?_eq_some hk, Nat.pos_of_ne_zero fun h0 => hne (Fin.ext h0), ?_⟩
          have hle' : (w.outputs.get i).val ≤ (Fin.ofNat 8 (Nat.min l.value.toNat maxLevel + 1)).val :=
            Nat.le_of_not_lt hle
          omega

end Word

namespace Flow

/-! ## Outputs on the heap -/

/-- Outputs on the heap are moved variables. -/
def HeapMoved (s : Flow) : Prop :=
  ∀ n, (s.program.node n).isNameOf .result = true → s.info.word n = .plain .heap → n ∈ s.info.moved

theorem heapMoved_follow {s : Flow} (hs : s.HeapMoved) (v : Visit) : (s.follow v).HeapMoved := by
  have hmarked := marked_follow s v
  intro n hn hw
  rw [hmarked.program] at hn
  obtain ⟨hop, hcls⟩ := Node.isNameOf_iff.1 hn
  by_cases h : v.node = n
  · subst h
    have hne : (s.program.node v.node).cls ≠ .param := by
      rw [hcls]
      simp
    have hkeep := word_reach_self_of_name (s := s.emit (.reach v.level v.dst v.node)) hop hne v.level v.dst
    exact hmarked.moved (hs v.node hn (by rw [← hw]; exact hkeep.symm))
  · rcases keptOrMoved_reach_of_ne (s.emit (.reach v.level v.dst v.node)) v.level v.dst (Ne.symm h) with hk | ⟨_, hm, _⟩
    · exact hmarked.moved (hs n hn (by rw [← hw]; exact hk.symm))
    · exact hm

theorem heapMoved_foldl_follow {s : Flow} (hs : s.HeapMoved) (visits : List Visit) :
    (visits.foldl follow s).HeapMoved := by
  induction visits generalizing s with
  | nil => exact hs
  | cons v visits ih => exact ih (heapMoved_follow hs v)

theorem heapMoved_foldl_flood {s : Flow} (hs : s.HeapMoved) : (s.dsts.foldl flood s).HeapMoved := by
  rw [foldl_flood]
  exact heapMoved_foldl_follow hs s.visits

/-! ## One visit to an input -/

/-- An input that is visited from a destination outside all functions leaves the scope, or the level passes a
dereference and what the input points to reaches the heap. -/
theorem content_reach {s : Flow} {l : Level} {dst n : NodeId} (hn : (s.program.node n).isNameOf .param = true)
    (hdst : (s.program.node dst).isNameOf .result = false) (hdepth : s.info.depth dst < 0)
    (hs : ((s.reach l dst n).info.word n).cls < .scope) :
    0 < l.suffix ∧ ((s.reach l dst n).info.word n).content = true := by
  obtain ⟨hop, hcls⟩ := Node.isNameOf_iff.1 hn
  have hscope := (grows_word_reach hn l dst n hs).scope
  have hmarked := marked_reachContent s l dst n
  have hreach : s.reach l dst n = (s.reachContent l dst n).leakParam l dst n := by
    simp only [reach]
    rw [if_neg fun h => by simp [Program.isOutputAndInput, hdst] at h]
    simp only [reachNode, reachName, hmarked.program, hop, hcls]
    rw [if_pos (by simp [hmarked.depth, hdepth, hscope])]
  rw [hreach] at hs ⊢
  simp only [leakParam, word_find, word_setWord_self] at hs ⊢
  split
  · rename_i hl
    exact ⟨hl, Word.content_raiseContent _⟩
  · rename_i hl
    rw [if_neg hl] at hs
    exact absurd hs (by decide)

/-- An input that is visited from an output of its function leaves the scope or tells of the flow, unless the output
is on the heap. -/
theorem tells_reach {s : Flow} {l : Level} {dst n : NodeId} (ho : s.program.isOutputAndInput dst n = true)
    (hheap : s.info.word dst ≠ .plain .heap) (hs : ((s.reach l dst n).info.word n).cls < .scope) :
    ((s.reach l dst n).info.word n).Tells (s.program.node dst).ordinal l := by
  have hn : (s.program.node n).isNameOf .param = true := by
    simp only [Program.isOutputAndInput, Bool.and_eq_true] at ho
    exact ho.1.2
  have hscope := (grows_word_reach hn l dst n hs).scope
  have hreach : s.reach l dst n = s.reachOutput l dst n := if_pos ⟨ho, decide_eq_true hscope, hheap⟩
  rw [hreach] at hs ⊢
  simp only [reachOutput, word_setWord_self, word_find] at hs ⊢
  exact Word.tells_flowTo (Word.cls_asResult _) _ _ hs

/-- An input that is visited from a destination on the heap leaves the scope, if the level leaks. -/
theorem cls_reach_of_leaks {s : Flow} {l : Level} {dst n : NodeId} (hn : (s.program.node n).isNameOf .param = true)
    (hheap : s.info.word dst = .plain .heap) (hleaks : l.leaks (s.info.depth dst) (s.info.depth n) = true) :
    ¬ ((s.reach l dst n).info.word n).cls < .scope := by
  intro hs
  obtain ⟨hop, hcls⟩ := Node.isNameOf_iff.1 hn
  have hscope := (grows_word_reach hn l dst n hs).scope
  obtain ⟨hvalue, hsuffix⟩ : l.value ≤ 0 ∧ l.suffix ≤ 0 := by
    simp only [Level.leaks, Bool.and_eq_true, decide_eq_true_eq] at hleaks
    exact hleaks.1
  have hcontent : s.reachContent l dst n = s := if_neg fun h => absurd h.2.2.2 (Int.not_lt.2 hvalue)
  have hreach : s.reach l dst n = s.leakParam l dst n := by
    simp only [reach]
    rw [if_neg fun h => h.2.2 hheap, hcontent]
    simp only [reachNode, reachName, hop, hcls]
    rw [if_pos (by simp [hleaks, hscope])]
  rw [hreach] at hs
  simp only [leakParam, word_find, word_setWord_self, if_neg (Int.not_lt.2 hsuffix)] at hs
  exact absurd hs (by decide)

/-! ## All visits -/

theorem grows_foldl_follow {s : Flow} {n : NodeId} (hn : (s.program.node n).isNameOf .param = true)
    (visits : List Visit) : (s.info.word n).Grows ((visits.foldl follow s).info.word n) := by
  induction visits generalizing s with
  | nil => exact Word.Grows.refl _
  | cons v visits ih =>
    have hv : (s.info.word n).Grows ((s.follow v).info.word n) :=
      grows_word_reach (s := s.emit (.reach v.level v.dst v.node)) hn v.level v.dst v.node
    exact hv.trans (ih (by rw [(marked_follow s v).program]; exact hn))

/-- What the flood says of an input, one of its visits to it says, at the time it is made. -/
theorem exists_grows_foldl_flood {s : Flow} {v : Visit} (hv : v ∈ s.visits)
    (hn : (s.program.node v.node).isNameOf .param = true) :
    ∃ visits : List Visit, (((visits.foldl follow s).follow v).info.word v.node).Grows
        ((s.dsts.foldl flood s).info.word v.node) ∧
      Marked ((visits.foldl follow s).follow v) (s.dsts.foldl flood s) := by
  obtain ⟨before, after, hsplit⟩ := List.append_of_mem hv
  have hflood : s.dsts.foldl flood s = after.foldl follow ((before.foldl follow s).follow v) := by
    rw [foldl_flood, hsplit, List.foldl_append, List.foldl_cons]
  have hprog : ((before.foldl follow s).follow v).program = s.program :=
    ((marked_foldl_follow s before).trans (marked_follow _ v)).program
  rw [hflood]
  exact ⟨before, grows_foldl_follow (by rw [hprog]; exact hn) after, marked_foldl_follow _ after⟩

section Flood

variable {s : Flow} {dst n : NodeId} {l : Level} (hroot : s.IsRoot dst) (hpath : s.Path dst l n)
include hroot hpath

/-- An input that a path from a destination outside all functions comes to leaves the scope, or the path passes a
dereference and what the input points to reaches the heap. -/
theorem content_foldl_flood (hn : (s.program.node n).isNameOf .param = true)
    (hdst : (s.program.node dst).isNameOf .result = false) (hdepth : s.info.depth dst < 0)
    (hs : ((s.dsts.foldl flood s).info.word n).cls < .scope) :
    0 < l.suffix ∧ ((s.dsts.foldl flood s).info.word n).content = true := by
  obtain ⟨m, hv, hband, hcov⟩ := exists_mem_visits_of_path hroot hpath
  obtain ⟨visits, hgrows, _⟩ := exists_grows_foldl_flood hv hn
  have hmarked := (marked_foldl_follow s visits).trans (marked_emit _ m dst n)
  obtain ⟨hm, hc⟩ := content_reach (l := m) (by rw [hmarked.program]; exact hn) (by rw [hmarked.program]; exact hdst)
    (by rw [hmarked.depth]; exact hdepth) (hgrows hs).scope
  refine ⟨?_, (hgrows hs).content hc⟩
  rcases hcov with hfloor | ⟨_, hsuffix⟩
  · exact absurd hm (Int.not_lt.2 (hband.suffix_nonpos hfloor))
  · exact Int.lt_of_lt_of_le hm hsuffix

/-- An input that a path from an output of its function comes to leaves the scope or tells of the path, unless the
output is on the heap when the input is visited. -/
theorem tells_of_visits (ho : s.program.isOutputAndInput dst n = true)
    (hs : ((s.dsts.foldl flood s).info.word n).cls < .scope)
    (hne : ∀ (visits : List Visit) (m : Level), m.Band → m.Covers l →
      (((visits.foldl follow s).follow ⟨dst, m, n⟩).info.word n).cls < .scope →
      Marked (visits.foldl follow s) (s.dsts.foldl flood s) → (visits.foldl follow s).info.word dst ≠ .plain .heap) :
    ((s.dsts.foldl flood s).info.word n).Tells (s.program.node dst).ordinal l := by
  have hn : (s.program.node n).isNameOf .param = true := by
    simp only [Program.isOutputAndInput, Bool.and_eq_true] at ho
    exact ho.1.2
  obtain ⟨m, hv, hband, hcov⟩ := exists_mem_visits_of_path hroot hpath
  obtain ⟨visits, hgrows, hlater⟩ := exists_grows_foldl_flood hv hn
  have hprog := ((marked_foldl_follow s visits).trans (marked_emit _ m dst n)).program
  have htells := tells_reach (s := (visits.foldl follow s).emit (.reach m dst n)) (l := m) (by rw [hprog]; exact ho)
    (hne visits m hband hcov (hgrows hs).scope ((marked_follow _ _).trans hlater)) (hgrows hs).scope
  rw [hprog] at htells
  exact (htells.kept (hgrows hs)).covers hband hcov

/-- An input that a path from an output of its function comes to leaves the scope or tells of the path, unless the
output moves to the heap. -/
theorem tells_foldl_flood (ho : s.program.isOutputAndInput dst n = true) (hheap : s.HeapMoved)
    (hmoved : dst ∉ (s.dsts.foldl flood s).info.moved) (hs : ((s.dsts.foldl flood s).info.word n).cls < .scope) :
    ((s.dsts.foldl flood s).info.word n).Tells (s.program.node dst).ordinal l := by
  refine tells_of_visits hroot hpath ho hs fun visits m _ _ _ hlater hw => hmoved (hlater.moved ?_)
  refine heapMoved_foldl_follow hheap visits dst ?_ hw
  simp only [Program.isOutputAndInput, Bool.and_eq_true] at ho
  rw [(marked_foldl_follow s visits).program]
  exact ho.1.1

/-- At a level that leaks, this holds of outputs that move to the heap as well. -/
theorem tells_foldl_flood_of_leaks (ho : s.program.isOutputAndInput dst n = true)
    (hleaks : l.leaks (s.info.depth dst) (s.info.depth n) = true)
    (hs : ((s.dsts.foldl flood s).info.word n).cls < .scope) :
    ((s.dsts.foldl flood s).info.word n).Tells (s.program.node dst).ordinal l := by
  refine tells_of_visits hroot hpath ho hs fun visits m hband hcov hscope _ hw => ?_
  have hmarked := (marked_foldl_follow s visits).trans (marked_emit _ m dst n)
  simp only [Program.isOutputAndInput, Bool.and_eq_true] at ho
  refine cls_reach_of_leaks (s := (visits.foldl follow s).emit (.reach m dst n)) (l := m) ?_ hw ?_ hscope
  · rw [hmarked.program]
    exact ho.1.2
  · rw [hmarked.depth, hmarked.depth]
    exact hcov.leaks hband hleaks

end Flood

end Flow

end EscapeAnalysis

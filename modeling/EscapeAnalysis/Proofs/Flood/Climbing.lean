import EscapeAnalysis.Proofs.Flood.Marks

/-!
# Words climb

During a flood the class of a word only rises. As long as it is at most `result`, the word keeps its content flag and
the outputs it tells of, at levels that only fall; once the value leaves its scope, the word says nothing else.

* `Word.Proper` : the words that a run has, with output fields in the class `result` only;
* `Word.Climbs w w'` : what a step of a flood does to a word;
* `Flow.climbs_mark` : one write of a visit, with one case for each place that writes words;
* `Flow.stage` : the graph after some of the visits of its flood;
* `Flow.climbs_stage`, `Flow.word_stage_of_heap` : the words along a flood.
-/

namespace EscapeAnalysis

/-! ## Words -/

namespace Word

/-- A word as a run makes it: output fields are set in the class `result` only, and from the class `scope` on nothing
is set but the class. -/
structure Proper (w : Word) : Prop where
  cls : w.cls ≠ .never
  outputs : ∀ i, 0 < (w.outputs.get i).val → w.cls = .result
  plain : ¬ w.cls < .scope → w = .plain w.cls

/-- `w'` is in the class of `w` or in a later one. Up to the class `result` it has the content flag and the output
fields of `w`, none of them raised; from the class `scope` on nothing is set but the class. -/
structure Climbs (w w' : Word) : Prop where
  cls : w.cls.bits ≤ w'.cls.bits
  content : w'.cls < .scope → w.content = true → w'.content = true
  outputs : w'.cls < .scope → ∀ i, 0 < (w.outputs.get i).val →
    0 < (w'.outputs.get i).val ∧ w'.outputs.get i ≤ w.outputs.get i
  plain : ¬ w'.cls < .scope → w' = .plain w'.cls

variable {w w' : Word}

theorem proper_plain {c : EscapeClass} (h : c ≠ .never) : (plain c).Proper := by
  refine ⟨?_, fun i hi => ?_, fun _ => ?_⟩
  · rwa [cls_plain]
  · rw [outputs_plain] at hi
    exact absurd hi (Nat.lt_irrefl 0)
  · rw [cls_plain]

/-- A word that says of an input all that another one says climbs from it. -/
theorem Climbs.of_grows (hw : w.Proper) (hw' : w'.Proper) (hcls : w.cls.bits ≤ w'.cls.bits) (h : Grows w w') :
    Climbs w w' := by
  refine ⟨hcls, fun hscope => (h hscope).content, fun hscope i hi => ?_, hw'.plain⟩
  exact (h hscope).outputs (hw.outputs i hi) i hi

theorem Proper.climbs_refl (h : w.Proper) : Climbs w w := .of_grows h h (Fin.le_refl _) (.refl w)

theorem Climbs.trans {w₁ w₂ w₃ : Word} (h₁ : Climbs w₁ w₂) (h₂ : Climbs w₂ w₃) : Climbs w₁ w₃ := by
  have hscope (h : w₃.cls < .scope) : w₂.cls < .scope := Fin.lt_of_le_of_lt h₂.cls h
  refine ⟨Fin.le_trans h₁.cls h₂.cls, fun h hc => h₂.content h (h₁.content (hscope h) hc), fun h i hi => ?_, h₂.plain⟩
  obtain ⟨hi₂, hle₂⟩ := h₁.outputs (hscope h) i hi
  obtain ⟨hi₃, hle₃⟩ := h₂.outputs h i hi₂
  exact ⟨hi₃, Fin.le_trans hle₃ hle₂⟩

theorem Proper.bits_le_heap (h : w.Proper) : w.cls.bits ≤ EscapeClass.heap.bits := by
  have hcls := h.cls
  revert hcls
  cases w.cls <;> decide

/-- The heap is the last class that a word gets to. -/
theorem Climbs.eq_heap (h : Climbs w w') (hw' : w'.Proper) (hheap : w.cls = .heap) : w' = .plain .heap := by
  have hle := h.cls
  rw [hheap] at hle
  have hcls : w'.cls = .heap := by
    have hnever := hw'.cls
    revert hle hnever
    cases w'.cls <;> decide
  have hplain := h.plain (by rw [hcls]; decide)
  rwa [hcls] at hplain

/-! ## What visits write -/

theorem Proper.raiseContent (h : w.Proper) (hscope : w.cls < .scope) : w.raiseContent.Proper := by
  have hscope' := raiseContent_lt_scope.2 hscope
  refine ⟨fun hnever => ?_, fun i hi => ?_, fun hle => absurd hscope' hle⟩
  · rw [hnever] at hscope'
    exact absurd hscope' (by decide)
  · rw [outputs_raiseContent] at hi
    have hresult := h.outputs i hi
    rcases w.cls_raiseContent with hsame | ⟨hunknown, _⟩
    · rw [hsame, hresult]
    · rw [hresult] at hunknown
      cases hunknown

theorem bits_le_raiseContent (w : Word) : w.cls.bits ≤ w.raiseContent.cls.bits := by
  rcases w.cls_raiseContent with h | ⟨h, h'⟩
  · exact Fin.le_def.2 (Nat.le_of_eq (by rw [h]))
  · rw [h, h']
    decide

theorem climbs_raiseContent (h : w.Proper) (hscope : w.cls < .scope) : Climbs w w.raiseContent :=
  .of_grows h (h.raiseContent hscope) w.bits_le_raiseContent w.grows_raiseContent

theorem climbs_plain {c : EscapeClass} (hc : ¬ c < .scope) (h : w.cls.bits ≤ c.bits) : Climbs w (plain c) := by
  have hcls := cls_plain c
  refine ⟨by rwa [hcls], fun hs => ?_, fun hs => ?_, fun _ => by rw [hcls]⟩
  · rw [hcls] at hs
    exact absurd hs hc
  · rw [hcls] at hs
    exact absurd hs hc

/-- A flow to an output leaves the word in its class, or tells that the value reaches the heap. -/
theorem flowTo_of_result (hcls : w.cls = .result) (ordinal : Nat) (l : Level) :
    (w.flowTo ordinal l).cls = .result ∨ w.flowTo ordinal l = plain .heap := by
  unfold flowTo
  split
  · rcases w.cls_raiseContent with hsame | ⟨hunknown, _⟩
    · exact Or.inl (by rw [hsame, hcls])
    · rw [hcls] at hunknown
      cases hunknown
  · split
    · exact Or.inr rfl
    · split
      · exact Or.inr rfl
      · dsimp only
        split
        · exact Or.inl hcls
        · exact Or.inl hcls

theorem proper_flowTo (hcls : w.cls = .result) (ordinal : Nat) (l : Level) : (w.flowTo ordinal l).Proper := by
  rcases flowTo_of_result hcls ordinal l with h | h
  · refine ⟨by rw [h]; decide, fun _ _ => h, fun hscope => ?_⟩
    rw [h] at hscope
    exact absurd (by decide) hscope
  · rw [h]
    exact proper_plain (by decide)

/-- An input flows to an output, at first or once more. -/
theorem climbs_flowTo_asResult (h : w.Proper) (hscope : w.cls < .scope) (ordinal : Nat) (l : Level) :
    Climbs w (w.asResult.flowTo ordinal l) := by
  have hcls := w.cls_asResult
  refine .of_grows h (proper_flowTo hcls ordinal l) ?_ ((grows_asResult hscope).trans (grows_flowTo _ ordinal l))
  have hresult : w.cls.bits ≤ EscapeClass.result.bits := by
    revert hscope
    cases w.cls <;> decide
  rcases flowTo_of_result hcls ordinal l with h' | h'
  · rwa [h']
  · rw [h', cls_plain]
    exact Fin.le_trans hresult (by decide)

end Word

namespace Flow

variable {s t : Flow}

/-! ## Visits -/

theorem climbs_setWord {w : Word} {m : NodeId} (hs : ∀ n, (s.info.word n).Proper) (hw : w.Proper)
    (h : (s.info.word m).Climbs w) (n : NodeId) :
    ((s.setWord m w).info.word n).Proper ∧ (s.info.word n).Climbs ((s.setWord m w).info.word n) := by
  by_cases hn : n = m
  · subst hn
    rw [word_setWord_self]
    exact ⟨hw, h⟩
  · rw [word_setWord_of_ne s w hn]
    exact ⟨hs n, (hs n).climbs_refl⟩

theorem climbs_moveToHeap (hs : ∀ n, (s.info.word n).Proper) (x n : NodeId) :
    ((s.moveToHeap x).info.word n).Proper ∧ (s.info.word n).Climbs ((s.moveToHeap x).info.word n) := by
  unfold moveToHeap
  split
  · exact ⟨hs n, (hs n).climbs_refl⟩
  · split
    · exact ⟨hs n, (hs n).climbs_refl⟩
    · rw [word_find]
      exact climbs_setWord (s := { s with info := { s.info with moved := s.info.moved.push x } }) hs
        (Word.proper_plain (by decide)) (Word.climbs_plain (by decide) (hs x).bits_le_heap) n

theorem climbs_mark {l : Level} {dst src : NodeId} (h : Mark l dst src s t) (hs : ∀ n, (s.info.word n).Proper)
    (n : NodeId) : (t.info.word n).Proper ∧ (s.info.word n).Climbs (t.info.word n) := by
  cases h with
  | emit | find => exact ⟨hs n, (hs n).climbs_refl⟩
  | output _ hscope =>
    exact climbs_setWord hs (Word.proper_flowTo (Word.cls_asResult _) _ _) (Word.climbs_flowTo_asResult (hs src) hscope _ _) n
  | input _ hscope hw =>
    rcases hw with rfl | rfl
    · have hle : (s.info.word src).cls.bits ≤ EscapeClass.scope.bits := Fin.le_of_lt hscope
      exact climbs_setWord hs (Word.proper_plain (by decide)) (Word.climbs_plain (by decide) hle) n
    · exact climbs_setWord hs ((hs src).raiseContent hscope) (Word.climbs_raiseContent (hs src) hscope) n
  | alloc _ =>
    exact climbs_setWord hs (Word.proper_plain (by decide))
      (Word.climbs_plain (by decide) (hs src).bits_le_heap) n
  | move => exact climbs_moveToHeap hs _ n

theorem climbs_follow (hs : ∀ n, (s.info.word n).Proper) (v : Visit) (n : NodeId) :
    ((s.follow v).info.word n).Proper ∧ (s.info.word n).Climbs ((s.follow v).info.word n) := by
  have hmarks := marks_follow s v
  generalize s.follow v = t at hmarks
  have hall : ∀ n, (t.info.word n).Proper ∧ (s.info.word n).Climbs (t.info.word n) := by
    induction hmarks with
    | refl => exact fun n => ⟨hs n, (hs n).climbs_refl⟩
    | tail _ h ih =>
      intro n
      obtain ⟨hproper, hclimbs⟩ := climbs_mark h (fun n => (ih n).1) n
      exact ⟨hproper, (ih n).2.trans hclimbs⟩
  exact hall n

/-! ## Floods -/

/-- The graph after the first `k` visits of its flood. -/
def stage (s : Flow) (k : Nat) : Flow := (s.visits.take k).foldl follow s

theorem stage_length (s : Flow) : s.stage s.visits.length = s.dsts.foldl flood s := by
  unfold stage
  rw [List.take_length, foldl_flood]

theorem stage_succ (s : Flow) (k : Nat) : s.stage (k + 1) = (s.visits[k]?).elim (s.stage k) (s.stage k).follow := by
  unfold stage
  rw [List.take_add_one, List.foldl_append]
  cases s.visits[k]? <;> rfl

section Proper

variable (hs : ∀ n, (s.info.word n).Proper)
include hs

theorem proper_stage (k : Nat) (n : NodeId) : ((s.stage k).info.word n).Proper := by
  induction k generalizing n with
  | zero => exact hs n
  | succ k ih =>
    rw [stage_succ]
    cases s.visits[k]? with
    | none => exact ih n
    | some v => exact (climbs_follow ih v n).1

/-- What a visit of the flood does to the words. -/
theorem climbs_stage (k : Nat) (n : NodeId) :
    ((s.stage k).info.word n).Climbs ((s.stage (k + 1)).info.word n) := by
  rw [stage_succ]
  cases s.visits[k]? with
  | none => exact (proper_stage hs k n).climbs_refl
  | some v => exact (climbs_follow (proper_stage hs k) v n).2

theorem climbs_stage_of_le {j k : Nat} (hjk : j ≤ k) (n : NodeId) :
    ((s.stage j).info.word n).Climbs ((s.stage k).info.word n) := by
  induction hjk with
  | refl => exact (proper_stage hs j n).climbs_refl
  | step _ ih => exact ih.trans (climbs_stage hs _ n)

theorem word_stage_of_heap {j k : Nat} (hjk : j ≤ k) {n : NodeId} (h : ((s.stage j).info.word n).cls = .heap) :
    (s.stage k).info.word n = .plain .heap :=
  (climbs_stage_of_le hs hjk n).eq_heap (proper_stage hs k n) h

end Proper

end Flow

end EscapeAnalysis

import EscapeAnalysis.Proofs.Flood.Visits

/-!
# What a visit does to words

A visit writes the word of the node it comes to, and the word of a variable whose address leaks. Which
words it can write is said here per kind of node, and nothing later opens `Flow.reach` again.

* `Flow.keptOrMoved_reach_of_ne` : another node keeps its word or is a variable that moves to the heap;
* `Flow.word_reach_self_of_allocates` : an allocation is on the heap once it is reached at a level that leaks;
* `Flow.word_reach_self_of_name` : a name that is no input keeps its word when it is reached itself;
* `Flow.grows_word_reach` : the word of an input only grows, in the sense of `Word.Grows`.
-/

namespace EscapeAnalysis

/-! ## Words that say more -/

namespace Word

/-- `w'` says of an input all that `w` says: the content flag is kept, and no output field of a word of
class `result` is dropped or raised. -/
structure Says (w w' : Word) : Prop where
  scope : w.cls < .scope
  content : w.content = true → w'.content = true
  result : w.cls = .result → w'.cls = .result
  outputs : w.cls = .result → ∀ i, 0 < (w.outputs.get i).val →
    0 < (w'.outputs.get i).val ∧ w'.outputs.get i ≤ w.outputs.get i

/-- `w'` leaves the scope, or says of an input all that `w` says. -/
def Grows (w w' : Word) : Prop := w'.cls < .scope → Says w w'

theorem Grows.refl (w : Word) : Grows w w :=
  fun h => ⟨h, fun h => h, fun h => h, fun _ _ h => ⟨h, Fin.le_refl _⟩⟩

theorem Grows.trans {w₁ w₂ w₃ : Word} (h₁ : Grows w₁ w₂) (h₂ : Grows w₂ w₃) : Grows w₁ w₃ := by
  intro h
  have k₂ := h₂ h
  have k₁ := h₁ k₂.scope
  refine ⟨k₁.scope, fun hc => k₂.content (k₁.content hc), fun hr => k₂.result (k₁.result hr), ?_⟩
  intro hr i hi
  obtain ⟨hi₂, hle₂⟩ := k₁.outputs hr i hi
  obtain ⟨hi₃, hle₃⟩ := k₂.outputs (k₁.result hr) i hi₂
  exact ⟨hi₃, Fin.le_trans hle₃ hle₂⟩

/-- A word of a class from `scope` on has nothing to say. -/
theorem grows_plain (w : Word) {c : EscapeClass} (h : ¬ c < .scope) : Grows w (plain c) :=
  fun h' => absurd (by rw [cls_plain] at h'; exact h') h

/-! ## Operations on words -/

theorem outputs_plain (c : EscapeClass) (i : Fin 4) : ((plain c).outputs.get i).val = 0 :=
  congrArg Fin.val (Vector.getElem_replicate _)

theorem content_raiseContent (w : Word) : w.raiseContent.content = true := by
  unfold raiseContent raise
  split <;> rfl

theorem outputs_raiseContent (w : Word) : w.raiseContent.outputs = w.outputs := by
  unfold raiseContent raise
  split <;> rfl

theorem cls_raiseContent (w : Word) :
    w.raiseContent.cls = w.cls ∨ w.cls = .unknown ∧ w.raiseContent.cls = .none := by
  by_cases h : EscapeClass.none.bits < w.bits
  · have hr : w.raiseContent = { w with content := true } := if_pos h
    exact Or.inl (by rw [hr]; rfl)
  · have hr : w.raiseContent = { w with content := true, bits := EscapeClass.none.bits } := if_neg h
    have hb : w.bits = 0 ∨ w.bits = 1 := by
      have hle : w.bits.val ≤ 1 := Nat.le_of_not_lt h
      simp only [Fin.ext_iff, Fin.val_zero, Fin.val_one]
      omega
    unfold cls
    rw [hr]
    rcases hb with hb | hb
    · exact Or.inr (by rw [hb]; exact ⟨rfl, rfl⟩)
    · exact Or.inl (by rw [hb]; rfl)

theorem raiseContent_lt_scope {w : Word} : w.raiseContent.cls < .scope ↔ w.cls < .scope := by
  rcases w.cls_raiseContent with h | ⟨h, h'⟩
  · rw [h]
  · rw [h, h']
    decide

theorem grows_raiseContent (w : Word) : Grows w w.raiseContent := by
  intro hs
  refine ⟨raiseContent_lt_scope.1 hs, fun _ => w.content_raiseContent, ?_, ?_⟩
  · intro hr
    rcases w.cls_raiseContent with h | ⟨h, _⟩
    · rw [h, hr]
    · rw [hr] at h
      cases h
  · intro _ i hi
    simp only [outputs_raiseContent]
    exact ⟨hi, Fin.le_refl _⟩

theorem cls_asResult (w : Word) : w.asResult.cls = .result := by
  unfold asResult
  split
  · assumption
  · exact cls_plain .result

theorem grows_asResult {w : Word} (h : w.cls < .scope) : Grows w w.asResult := by
  intro _
  unfold asResult
  split
  · exact Grows.refl w h
  · rename_i hr
    exact ⟨h, fun hc => hc, fun hr' => absurd hr' hr, fun hr' => absurd hr' hr⟩

theorem val_field (k : Nat) : (Fin.ofNat 8 (Nat.min k maxLevel + 1)).val = Nat.min k maxLevel + 1 := by
  have h : Nat.min k maxLevel ≤ 6 := Nat.min_le_right k maxLevel
  exact Nat.mod_eq_of_lt (by omega)

theorem outputs_set_self (outputs : Vector (Fin 8) 4) (i : Fin 4) (field : Fin 8) :
    (outputs.set i field i.isLt).get i = field :=
  Vector.getElem_set_self _

theorem outputs_set_of_ne (outputs : Vector (Fin 8) 4) (field : Fin 8) {i j : Fin 4} (h : i ≠ j) :
    (outputs.set i field i.isLt).get j = outputs.get j :=
  Vector.getElem_set_ne _ _ fun hval => h (Fin.ext hval)

theorem grows_flowTo (w : Word) (ordinal : Nat) (l : Level) : Grows w (w.flowTo ordinal l) := by
  have hheap : Grows w (plain .heap) := w.grows_plain (by decide)
  unfold flowTo
  split
  · exact w.grows_raiseContent
  · split
    · exact hheap
    · split
      · exact hheap
      · rename_i i _
        dsimp only
        split
        · rename_i hfield
          refine fun hs => ⟨hs, fun h => h, fun h => h, fun _ j hj => ?_⟩
          by_cases hij : i = j
          · subst hij
            have hlt := hfield.resolve_left fun h0 => absurd (congrArg Fin.val h0) (Nat.ne_of_gt hj)
            rw [outputs_set_self]
            refine ⟨?_, Fin.le_of_lt hlt⟩
            rw [val_field]
            exact Nat.succ_pos _
          · rw [outputs_set_of_ne _ _ hij]
            exact ⟨hj, Fin.le_refl _⟩
        · exact Grows.refl w

end Word

/-! ## The words of other nodes -/

namespace Program

/-- Only variables can be addressed. -/
theorem op_of_addressed? {p : Program} {fuel : Nat} {n x : NodeId} (h : p.addressed? fuel n = some x) :
    (p.node x).op = .name := by
  induction fuel generalizing n with
  | zero => cases h
  | succ fuel ih =>
    simp only [addressed?] at h
    split at h
    · rename_i hop
      split at h
      · obtain ⟨y, _, hy⟩ := Option.bind_eq_some_iff.1 h
        exact ih hy
      · cases h; exact hop
      · cases h; exact hop
      · cases h; exact hop
      · cases h
    · obtain ⟨y, _, hy⟩ := Option.bind_eq_some_iff.1 h
      split at hy
      · cases hy
      · exact ih hy
    · obtain ⟨y, _, hy⟩ := Option.bind_eq_some_iff.1 h
      split at hy
      · cases hy
      · exact ih hy
    · obtain ⟨y, _, hy⟩ := Option.bind_eq_some_iff.1 h
      split at hy
      · cases hy
      · exact ih hy
    · cases h

end Program

namespace Flow

@[simp] theorem moved_setWord (s : Flow) (n : NodeId) (w : Word) : (s.setWord n w).info.moved = s.info.moved := rfl

@[simp] theorem word_setWord_self (s : Flow) (n : NodeId) (w : Word) : (s.setWord n w).info.word n = w :=
  Table.get_set_self _ _ _

theorem word_setWord_of_ne (s : Flow) {m n : NodeId} (w : Word) (h : m ≠ n) :
    (s.setWord n w).info.word m = s.info.word m :=
  Table.get_set_of_ne _ _ fun e => h (NodeId.ext e)

@[simp] theorem word_find (s : Flow) (x : Finding) (n : NodeId) : (s.find x).info.word n = s.info.word n := rfl

@[simp] theorem moved_find (s : Flow) (x : Finding) : (s.find x).info.moved = s.info.moved := rfl

/-- The node has its word still, or it is a variable that is on the heap now. -/
def KeptOrMoved (s t : Flow) (n : NodeId) : Prop :=
  t.info.word n = s.info.word n ∨
    t.info.word n = .plain .heap ∧ n ∈ t.info.moved ∧ (s.program.node n).op = .name

theorem keptOrMoved_moveToHeap (s : Flow) {x : NodeId} (hx : (s.program.node x).op = .name) (n : NodeId) :
    KeptOrMoved s (s.moveToHeap x) n := by
  unfold moveToHeap
  split
  · exact Or.inl rfl
  · split
    · exact Or.inl rfl
    · by_cases hn : n = x
      · subst hn
        refine Or.inr ⟨?_, ?_, hx⟩
        · rw [word_find, word_setWord_self]
        · rw [moved_find, moved_setWord]
          exact Array.mem_push_self
      · refine Or.inl ?_
        rw [word_find, word_setWord_of_ne _ _ hn]
        rfl

theorem keptOrMoved_addressEscapes (s : Flow) (x n : NodeId) : KeptOrMoved s (s.addressEscapes x) n := by
  unfold addressEscapes
  split
  · rename_i h
    exact keptOrMoved_moveToHeap s (Program.op_of_addressed? h) n
  · exact Or.inl rfl

section OtherNodes
variable (s : Flow) (l : Level) (dst : NodeId) {src n : NodeId} (h : n ≠ src)
include h

theorem word_reachOutput_of_ne : (s.reachOutput l dst src).info.word n = s.info.word n :=
  word_setWord_of_ne _ _ h

theorem word_leakParam_of_ne : (s.leakParam l dst src).info.word n = s.info.word n :=
  word_setWord_of_ne s _ h

theorem word_reachName_of_ne (inScope : Bool) : (s.reachName l dst src inScope).info.word n = s.info.word n := by
  simp only [reachName]
  split
  · split
    · exact s.word_leakParam_of_ne l dst h
    · rfl
  · split <;> rfl
  · rfl

theorem word_reachAlloc_of_ne : (s.reachAlloc l dst src).info.word n = s.info.word n := by
  unfold reachAlloc
  split
  · exact word_setWord_of_ne s _ h
  · rfl

theorem word_reachContent_of_ne : (s.reachContent l dst src).info.word n = s.info.word n := by
  unfold reachContent
  split
  · exact word_setWord_of_ne s _ h
  · rfl

theorem keptOrMoved_reachAddress : KeptOrMoved s (s.reachAddress l dst src) n := by
  have hw := s.word_setWord_of_ne (.plain .heap) h
  simp only [reachAddress]
  split
  · cases (s.program.node src).left with
    | none => exact Or.inl hw
    | some x =>
      rcases keptOrMoved_addressEscapes (s.setWord src (.plain .heap)) x n with hk | hk
      · exact Or.inl (hk.trans hw)
      · exact Or.inr hk
  · exact Or.inl rfl

theorem keptOrMoved_reachNode (inScope : Bool) : KeptOrMoved s (s.reachNode l dst src inScope) n := by
  rw [reachNode_eq]
  split
  · exact Or.inl (s.word_reachName_of_ne l dst h inScope)
  split
  · exact s.keptOrMoved_reachAddress l dst h
  split
  · exact Or.inl (s.word_reachAlloc_of_ne l dst h)
  · exact Or.inl rfl

/-- A visit to `src` leaves the word of another node, unless it moves it to the heap. -/
theorem keptOrMoved_reach_of_ne : KeptOrMoved s (s.reach l dst src) n := by
  have hw := s.word_reachContent_of_ne l dst h
  simp only [reach]
  split
  · exact Or.inl (s.word_reachOutput_of_ne l dst h)
  · rcases keptOrMoved_reachNode (s.reachContent l dst src) l dst h _ with hk | ⟨hk, hm, hop⟩
    · exact Or.inl (hk.trans hw)
    · exact Or.inr ⟨hk, hm, by rw [(marked_reachContent s l dst src).program] at hop; exact hop⟩

end OtherNodes

/-! ## The word of the node that is visited -/

theorem reachContent_of_not_param {s : Flow} {src : NodeId} (h : (s.program.node src).isNameOf .param = false)
    (l : Level) (dst : NodeId) : s.reachContent l dst src = s := by
  unfold reachContent
  rw [if_neg]
  rintro ⟨_, hp, _⟩
  rw [h] at hp
  cases hp

/-- Only inputs are told apart before the operator is looked at. -/
theorem reach_of_not_param {s : Flow} {src : NodeId} (h : (s.program.node src).isNameOf .param = false)
    (l : Level) (dst : NodeId) :
    s.reach l dst src = s.reachNode l dst src (decide ((s.info.word src).cls < .scope)) := by
  simp only [reach]
  rw [if_neg, reachContent_of_not_param h]
  rintro ⟨ho, _⟩
  simp [Program.isOutputAndInput, h] at ho

theorem word_reachAlloc_self (s : Flow) (l : Level) (dst src : NodeId) :
    (s.reachAlloc l dst src).info.word src =
      if l.leaks (s.info.depth dst) (s.info.depth src) then .plain .heap else s.info.word src := by
  unfold reachAlloc
  split
  · exact word_setWord_self s src _
  · rfl

theorem word_reachAddress_self (s : Flow) (l : Level) (dst src : NodeId) (h : (s.program.node src).op ≠ .name) :
    (s.reachAddress l dst src).info.word src =
      if l.leaks (s.info.depth dst) (s.info.depth src) then .plain .heap else s.info.word src := by
  simp only [reachAddress]
  split
  · cases (s.program.node src).left with
    | none => exact word_setWord_self s src _
    | some x =>
      rcases keptOrMoved_addressEscapes (s.setWord src (.plain .heap)) x src with hk | ⟨_, _, hop⟩
      · exact hk.trans (word_setWord_self s src _)
      · exact absurd hop h
  · rfl

theorem op_ne_name_of_allocates {p : Program} {n : NodeId} (h : p.allocates n = true) : (p.node n).op ≠ .name := by
  intro hop
  simp [Program.allocates, hop] at h

/-- An allocation that is visited is on the heap if the level leaks. -/
theorem word_reach_self_of_allocates {s : Flow} {n : NodeId} (hn : s.program.allocates n = true) (l : Level)
    (dst : NodeId) : (s.reach l dst n).info.word n =
      if l.leaks (s.info.depth dst) (s.info.depth n) then .plain .heap else s.info.word n := by
  have hop := op_ne_name_of_allocates hn
  rw [reach_of_not_param (Node.isNameOf_of_op_ne hop _)]
  rw [reachNode_eq, if_neg hop, if_pos hn]
  split
  · exact s.word_reachAddress_self l dst n hop
  · exact s.word_reachAlloc_self l dst n

/-- A name that is no input keeps its word when it is visited. -/
theorem word_reach_self_of_name {s : Flow} {n : NodeId} (hop : (s.program.node n).op = .name)
    (hcls : (s.program.node n).cls ≠ .param) (l : Level) (dst : NodeId) :
    (s.reach l dst n).info.word n = s.info.word n := by
  have hp : (s.program.node n).isNameOf .param = false := by simp [Node.isNameOf, hcls]
  rw [reach_of_not_param hp]
  simp only [reachNode, hop, reachName]
  split
  · rename_i h
    exact absurd h hcls
  · split <;> rfl
  · rfl

theorem grows_reachContent (s : Flow) (l : Level) (dst src : NodeId) :
    (s.info.word src).Grows ((s.reachContent l dst src).info.word src) := by
  unfold reachContent
  split
  · rw [word_find, word_setWord_self]
    exact Word.grows_raiseContent _
  · exact Word.Grows.refl _

theorem grows_leakParam (s : Flow) (l : Level) (dst src : NodeId) :
    (s.info.word src).Grows ((s.leakParam l dst src).info.word src) := by
  unfold leakParam
  rw [word_find, word_setWord_self]
  split
  · exact Word.grows_raiseContent _
  · exact Word.grows_plain _ (by decide)

theorem grows_reachOutput {s : Flow} {src : NodeId} (h : (s.info.word src).cls < .scope) (l : Level)
    (dst : NodeId) : (s.info.word src).Grows ((s.reachOutput l dst src).info.word src) := by
  simp only [reachOutput, word_setWord_self, word_find]
  exact (Word.grows_asResult h).trans (Word.grows_flowTo _ _ _)

/-- The word of an input only grows. -/
theorem grows_word_reach {s : Flow} {n : NodeId} (hn : (s.program.node n).isNameOf .param = true) (l : Level)
    (dst src : NodeId) : (s.info.word n).Grows ((s.reach l dst src).info.word n) := by
  by_cases h : n = src
  · subst h
    obtain ⟨hop, hcls⟩ := Node.isNameOf_iff.1 hn
    simp only [reach]
    split
    · rename_i ho
      exact grows_reachOutput (of_decide_eq_true ho.2.1) l dst
    · refine Word.Grows.trans (s.grows_reachContent l dst n) ?_
      have hprog := (marked_reachContent s l dst n).program
      simp only [reachNode, reachName, hprog, hop, hcls]
      split
      · exact grows_leakParam _ l dst n
      · exact Word.Grows.refl _
  · rcases s.keptOrMoved_reach_of_ne l dst h with hk | ⟨hk, _⟩
    · rw [hk]
      exact Word.Grows.refl _
    · rw [hk]
      exact Word.grows_plain _ (by decide)

end Flow

end EscapeAnalysis

import EscapeAnalysis.Flow.Call
import EscapeAnalysis.Proofs.Words.Fields

/-!
# The flows that a note tells of

The note on a parameter stands for flows of the argument: the argument itself or what it points to is lost, or what
lies behind some dereferences of it is stored in a result of the call. An argument without flows is marked.

* `Word.told` : the flows that a word tells of, in the order in which a caller records them;
* `Flow.applyNote_eq` : applying a note records them, and then finds out whether the call has all the results;
* `Flow.markStatementLocal_eq` : the mark of an argument.
-/

namespace EscapeAnalysis

/-- A flow of an argument: what lies behind so many dereferences of it is stored in a result of the call, or lost. -/
structure Told where
  result : Option NodeId
  derefs : Nat
deriving DecidableEq

namespace Word

/-- The flows to the results of a call. A field that is set is one more than the dereferences on the way. -/
def toResults (fields : List (Fin 8)) (outs : List NodeId) : List Told :=
  (fields.zip outs).filterMap fun x => if x.1.val = 0 then none else some ⟨some x.2, x.1.val - 1⟩

/-- The flows of an argument that the word tells of, to a call with these results. -/
def told (w : Word) (outs : List NodeId) : List Told :=
  if w.cls = .unknown then [⟨none, 0⟩]
  else (if w.content then [⟨none, 1⟩] else []) ++ toResults w.outputs.toList outs

theorem toResults_zeros (fields : List (Fin 8)) (k : Nat) (outs : List NodeId) :
    toResults (fields ++ List.replicate k 0) outs = toResults fields outs := by
  induction fields generalizing outs with
  | nil =>
    unfold toResults
    rw [List.nil_append, List.zip_nil_left, List.filterMap_nil, List.filterMap_eq_nil_iff]
    intro x hx
    have hzero : x.1 = 0 := (List.mem_replicate.1 (List.of_mem_zip hx).1).2
    exact if_pos (congrArg Fin.val hzero)
  | cons field fields ih =>
    cases outs with
    | nil => simp only [toResults, List.zip_nil_right]
    | cons out outs =>
      have hrest := ih outs
      unfold toResults at hrest ⊢
      simp only [List.cons_append, List.zip_cons_cons, List.filterMap_cons, hrest]

theorem toResults_outputs (w : Word) (outs : List NodeId) :
    toResults w.outputs.toList outs = toResults w.fields outs := by
  obtain ⟨k, hk⟩ := w.exists_toList_outputs
  rw [hk, toResults_zeros]

theorem mem_of_mem_told {w : Word} {outs : List NodeId} {x : Told} (hx : x ∈ w.told outs) {out : NodeId}
    (hout : x.result = some out) : out ∈ outs := by
  unfold told at hx
  split at hx
  · rw [List.mem_singleton.1 hx] at hout
    cases hout
  · rcases List.mem_append.1 hx with hx | hx
    · split at hx
      · rw [List.mem_singleton.1 hx] at hout
        cases hout
      · cases hx
    · obtain ⟨pair, hpair, he⟩ := List.mem_filterMap.1 hx
      split at he
      · cases he
      · rw [← Option.some.inj he] at hout
        cases hout
        exact (List.of_mem_zip hpair).2

theorem told_map (w : Word) (f : NodeId → NodeId) (outs : List NodeId) :
    w.told (outs.map f) = (w.told outs).map fun x => ⟨x.result.map f, x.derefs⟩ := by
  have hresults (fields : List (Fin 8)) :
      toResults fields (outs.map f) = (toResults fields outs).map fun x => ⟨x.result.map f, x.derefs⟩ := by
    unfold toResults
    rw [List.zip_map_right, List.filterMap_map, List.map_filterMap]
    refine List.filterMap_congr fun x _ => ?_
    by_cases hx : x.1 = 0 <;> simp [hx]
  unfold told
  rw [hresults]
  split
  · rfl
  · rw [List.map_append]
    split <;> rfl

/-- The argument itself is lost exactly if the word is unknown. -/
theorem lost_mem_told {w : Word} {outs : List NodeId} : ⟨none, 0⟩ ∈ w.told outs ↔ w.cls = .unknown := by
  unfold told
  split
  · rename_i hcls
    simp [hcls]
  · rename_i hcls
    refine ⟨fun h => ?_, fun h => absurd h hcls⟩
    rcases List.mem_append.1 h with h | h
    · split at h
      · cases List.mem_singleton.1 h
      · cases h
    · obtain ⟨x, _, hx⟩ := List.mem_filterMap.1 h
      split at hx <;> cases hx

end Word

namespace Flow

/-! ## Applying a note -/

/-- Records that the value is stored in a result, or lost. -/
def storeIn (n : NodeId) : Option NodeId → FlowM Unit
  | some out => assign out n
  | none => lose n

/-- Records a flow of the argument `src`. -/
def perform (src : NodeId) (x : Told) : FlowM Unit := do
  let n ← derefTimes x.derefs src
  storeIn n x.result

theorem applyFields_eq (note : String) (src : NodeId) (fields : List (Fin 8)) (outs : List NodeId) :
    applyFields note src fields outs = (do
      (Word.toResults fields outs).forM (perform src)
      if outs.length < fields.length then throw (.corruptNote note) else return ()) := by
  induction fields generalizing outs with
  | nil => rfl
  | cons field fields ih =>
    cases outs with
    | nil => rfl
    | cons out outs =>
      have hlength : (out :: outs).length < (field :: fields).length ↔ outs.length < fields.length := by
        simp only [List.length_cons]
        omega
      show (do
        if field ≠ 0 then
          let x ← derefTimes (field.val - 1) src
          assign out x
        applyFields note src fields outs) = _
      rw [ih]
      simp only [hlength]
      by_cases hfield : field = 0
      · have hnone : Word.toResults (field :: fields) (out :: outs) = Word.toResults fields outs := by
          simp only [Word.toResults, List.zip_cons_cons, List.filterMap_cons, hfield, Fin.val_zero, if_true]
        rw [hnone, if_neg (not_not_intro hfield)]
      · have hsome : Word.toResults (field :: fields) (out :: outs) =
            ⟨some out, field.val - 1⟩ :: Word.toResults fields outs := by
          simp only [Word.toResults, List.zip_cons_cons, List.filterMap_cons, Fin.val_ne_zero_iff.2 hfield, if_false]
        have hperform : ((⟨some out, field.val - 1⟩ :: Word.toResults fields outs).forM (perform src) : FlowM PUnit) =
            (derefTimes (field.val - 1) src >>= assign out) >>= fun _ =>
              (Word.toResults fields outs).forM (perform src) := rfl
        rw [hsome, if_pos hfield, hperform, bind_assoc, bind_assoc]

/-- A caller records the flows that the note tells of. Then it stops if the note tells of a result that is not
there. -/
theorem applyNote_eq (note : Option String) (outs : List NodeId) (src : NodeId) :
    applyNote note outs src = (do
      ((Word.ofNote note).told outs).forM (perform src)
      if (Word.ofNote note).cls ≠ .unknown ∧ ¬ (Word.ofNote note).TellsFirst outs.length then
        throw (.corruptNote (note.getD ""))
      else return Word.ofNote note) := by
  unfold applyNote Word.told
  extract_lets w done fields
  by_cases hcls : w.cls = .unknown
  · have hlost : ([⟨none, 0⟩].forM (perform src) : FlowM PUnit) = (lose src >>= fun _ => pure ()) := rfl
    rw [if_pos hcls, if_pos hcls, if_neg fun h => h.1 hcls, hlost, bind_assoc]
    rfl
  · have hlength : outs.length < w.fields.length ↔ w.cls ≠ .unknown ∧ ¬ w.TellsFirst outs.length := by
      rw [← Word.length_fields_le_iff, Nat.not_le]
      exact ⟨fun h => ⟨hcls, h⟩, fun h => h.2⟩
    have hfields : fields () = (do
        (Word.toResults w.outputs.toList outs).forM (perform src)
        if w.cls ≠ .unknown ∧ ¬ w.TellsFirst outs.length then throw (.corruptNote (note.getD "")) else return w) := by
      show (applyFields (note.getD "") src w.fields outs >>= fun _ => done ()) = _
      rw [applyFields_eq, Word.toResults_outputs, bind_assoc]
      refine bind_congr fun _ => ?_
      simp only [hlength]
      split <;> rfl
    rw [if_neg hcls, if_neg hcls]
    by_cases hcontent : w.content = true
    · have hne : w ≠ .plain .none := by
        intro h
        rw [h] at hcontent
        cases hcontent
      have hlost : (([Told.mk none 1] ++ Word.toResults w.outputs.toList outs).forM (perform src) : FlowM PUnit) =
          ((derefNode src >>= pure) >>= lose) >>= fun _ => (Word.toResults w.outputs.toList outs).forM (perform src) := rfl
      rw [if_pos hne, if_pos hcontent, if_pos hcontent, hlost]
      simp only [bind_assoc, pure_bind]
      exact bind_congr fun _ => bind_congr fun _ => hfields
    · rw [if_neg hcontent, if_neg hcontent, List.nil_append, ← hfields]
      split
      · rfl
      · rename_i hne
        -- The word of a parameter that does not escape has no fields.
        rw [not_not] at hne
        show _ = applyFields (note.getD "") src w.fields outs >>= fun _ => done ()
        rw [hne]
        rfl

/-! ## Marks -/

/-- The node is marked. -/
def markNode (s : Flow) (n : NodeId) : Flow :=
  { s with program := s.program.modifyNode n fun x => { x with noEscape := true } }

/-- An argument is marked without the conversions that do nothing, unless it is a name or of another kind that is not. -/
theorem markStatementLocal_eq (t : Flow) (n : NodeId) : markStatementLocal n t = .ok () t ∨
    ∃ m, t.program.unwrap (t.program.nodes.size + 1) n = some m ∧ (t.program.node m).op ≠ .name ∧
      markStatementLocal n t = .ok () (t.markNode m) := by
  unfold markStatementLocal modifyProgram
  change EStateM.Result.ok _ _ = _ ∨ _
  cases hm : t.program.unwrap (t.program.nodes.size + 1) n with
  | none =>
    left
    simp only [hm]
  | some m =>
    cases hop : (t.program.node m).op with
    | methodValue | closure | restArg | arrayLit | ptrLit | structLit =>
      refine Or.inr ⟨m, rfl, by simp [hop], ?_⟩
      change EStateM.Result.ok _ _ = _
      simp only [hm, hop]
      rfl
    | _ =>
      left
      simp only [hm, hop]

end Flow

end EscapeAnalysis

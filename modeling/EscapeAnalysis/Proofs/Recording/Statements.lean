import EscapeAnalysis.Flow.Walk

/-!
# Statements and addresses

A statement that stores several values stores them one by one, a closure takes its captured variables one by one, and a
return statement stores its values in the outputs. An address lies as deep as the variable it is taken of.

* `Flow.assignEach_eq` : the assignments of a statement, in pairs;
* `Flow.captureVar`, `Flow.captureVars_eq` : a captured variable, or its address;
* `Flow.returned`, `Flow.returnValues_eq` : the values of a return statement;
* `Flow.addressDepth?`, `Flow.addressDepth_eq` : the depth that the address of a variable gets, if it gets one.
-/

namespace EscapeAnalysis.Flow

theorem assignEach_eq (dsts srcs : List NodeId) :
    assignEach dsts srcs = (dsts.zip srcs).forM fun x => assign x.1 x.2 := by
  induction dsts generalizing srcs with
  | nil => rfl
  | cons dst dsts ih =>
    cases srcs with
    | nil => rfl
    | cons src srcs =>
      rw [assignEach, ih]
      rfl

/-- A captured variable flows into the closure, or its address does. -/
def captureVar (n name : NodeId) : FlowM Unit := do
  let s ← get
  (s.program.node name).origin.forM fun var => do
    if (s.program.node name).byValue then assign n var
    else do
      let ty ← ptrTo (s.program.node var).ty
      let addr ← addNode { op := .addr, line := (s.program.node name).line, ty, left := some var, curfn := s.curfn }
      setDepth addr s.depth
      assign n addr

theorem captureVars_eq (n : NodeId) (names : List NodeId) : captureVars n names = names.forM (captureVar n) := by
  induction names with
  | nil => rfl
  | cons name names ih =>
    have hcons : (name :: names).forM (captureVar n) = (captureVar n name >>= fun _ => names.forM (captureVar n)) := rfl
    rw [captureVars, hcons, captureVar, bind_assoc, ← ih]
    refine bind_congr fun s => ?_
    dsimp only
    cases (s.program.node name).origin with
    | none => rfl
    | some var =>
      dsimp only [Option.forM]
      split
      · rfl
      · simp only [bind_assoc]

/-- The values that a return statement of the function stores: those of the statement, or the results of the call that
stands for all of them. -/
def returned (s : Flow) (f : FuncId) (x : Node) : List NodeId :=
  if x.list.length = 1 ∧ 1 < (s.program.func f).results.length then x.list.flatMap fun value => s.results.get value.index
  else x.list

theorem mem_returned {s : Flow} {f : FuncId} {x : Node} {m : NodeId} (h : m ∈ s.returned f x) :
    m ∈ x.list ∨ ∃ value : NodeId, m ∈ s.results.get value.index := by
  unfold returned at h
  split at h
  · obtain ⟨value, _, hm⟩ := List.mem_flatMap.1 h
    exact Or.inr ⟨value, hm⟩
  · exact Or.inl h

theorem returnValues_eq (n : NodeId) (x : Node) :
    returnValues n x = (do
      let s ← get
      s.curfn.forM fun f =>
        if (s.program.outputs (s.program.func f)).length < (s.returned f x).length then throw (.returnCount n)
        else assignEach (s.program.outputs (s.program.func f)) (s.returned f x)) := by
  unfold returnValues
  refine bind_congr fun s => ?_
  split
  · rename_i hnone
    rw [hnone]
    rfl
  · rename_i f hf
    rw [hf]
    extract_lets _ values outs join
    have hvalues : values = s.returned f x := by
      dsimp only [values]
      unfold returned
      split
      · rename_i value hvalue
        simp only [hvalue, List.length_singleton, true_and, List.flatMap_singleton]
        rfl
      · rename_i hmany
        rw [if_neg fun h => ?_]
        obtain ⟨value, hvalue⟩ := List.length_eq_one_iff.1 h.1
        exact hmany value hvalue
    show _ = if outs.length < (s.returned f x).length then throw (.returnCount n) else assignEach outs (s.returned f x)
    rw [← hvalues]
    split <;> rfl

/-- Inputs and outputs lie at depth 1 as far as their addresses go, and local variables where they were declared. -/
def addressDepth? (s : Flow) (var : NodeId) : Option Int :=
  let x := s.program.node var
  if x.isNameOf .auto then if s.info.depth var ≠ 0 then some (s.info.depth var) else none
  else if x.isNameOf .param || x.isNameOf .result then some 1
  else none

theorem addressDepth_eq (n : NodeId) (var : Option NodeId) :
    addressDepth n var = (do
      let s ← get
      (var.bind s.addressDepth?).forM (setDepth n)) := by
  funext s
  cases var with
  | none => rfl
  | some var =>
    change _ = (s.addressDepth? var).forM (setDepth n) s
    change (if (s.program.node var).op = .name then _ else _ : FlowM Unit) s = _
    unfold addressDepth?
    by_cases hop : (s.program.node var).op = .name
    · cases hcls : (s.program.node var).cls with
      | auto =>
        simp only [hop, hcls, Node.isNameOf]
        change (if s.info.depth var ≠ 0 then _ else _ : FlowM Unit) s = _
        by_cases h : s.info.depth var = 0 <;> simp [h]
      | _ => simp [hop, hcls, Node.isNameOf]
    · simp [hop, Node.isNameOf]

end EscapeAnalysis.Flow

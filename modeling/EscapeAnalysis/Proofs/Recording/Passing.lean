import EscapeAnalysis.Flow.Call

/-!
# Passing arguments

A call goes along the parameters of its callee and the arguments. A parameter takes one argument, or makes a slice of
all that are left; an argument that no parameter takes is one too many. Callees of the group and callees that are known
by their notes do this alike, and differ in what they do with what is passed.

* `Passing` : a parameter, and what is passed for it;
* `passings`, `leftOver` : what is passed to the parameters, and whether an argument is too many;
* `Program.recvPassing` : the receiver of a method;
* `Flow.bindParams_eq`, `Flow.applyNotes_eq` : the arguments are passed one after the other, and then counted;
* `Flow.callInGroup_eq`, `Flow.callByNotes_eq` : the receiver is passed before them.
-/

namespace EscapeAnalysis

/-- A parameter takes an argument as it is, or all that are left as a slice. -/
inductive Passing where
  | one (param : Param) (arg : NodeId)
  | rest (param : Param) (args : List NodeId)

namespace Passing

def param : Passing → Param
  | one param _ => param
  | rest param _ => param

def args : Passing → List NodeId
  | one _ arg => [arg]
  | rest _ args => args

/-- A slice is passed. -/
def isRest : Passing → Bool
  | one .. => false
  | rest .. => true

def map (f : NodeId → NodeId) : Passing → Passing
  | one param arg => one param (f arg)
  | rest param args => rest param (args.map f)

theorem param_map (f : NodeId → NodeId) (x : Passing) : (x.map f).param = x.param := by
  cases x <;> rfl

end Passing

/-- What is passed to the parameters, in their order. -/
def passings (spread : Bool) : List Param → List NodeId → List Passing
  | param :: params, arg :: args =>
    if param.variadic && !spread then [.rest param (arg :: args)] else .one param arg :: passings spread params args
  | _, _ => []

/-- There is an argument that no parameter takes. -/
def leftOver (spread : Bool) : List Param → List NodeId → Bool
  | param :: params, _ :: args => !(param.variadic && !spread) && leftOver spread params args
  | [], _ :: _ => true
  | _, [] => false

section Passings

variable {spread : Bool} {params : List Param} {args : List NodeId} {param : Param} {x : Passing} {k : Nat}

theorem mem_of_mem_passings (hx : x ∈ passings spread params args) :
    x.param ∈ params ∧ ∀ arg ∈ x.args, arg ∈ args := by
  induction params generalizing args with
  | nil => cases hx
  | cons param params ih =>
    cases args with
    | nil => cases hx
    | cons arg args =>
      unfold passings at hx
      split at hx
      · cases List.mem_singleton.1 hx
        exact ⟨List.mem_cons_self, fun _ h => h⟩
      · rcases List.mem_cons.1 hx with rfl | hx
        · exact ⟨List.mem_cons_self, fun a ha => List.mem_singleton.1 ha ▸ List.mem_cons_self⟩
        · obtain ⟨hparam, hargs⟩ := ih hx
          exact ⟨List.mem_cons_of_mem _ hparam, fun a ha => List.mem_cons_of_mem _ (hargs a ha)⟩

theorem args_ne_nil_of_mem_passings (hx : x ∈ passings spread params args) : args ≠ [] := by
  rintro rfl
  cases params <;> cases hx

theorem one_mem_passings {arg : NodeId} (hparam : params[k]? = some param) (harg : args[k]? = some arg)
    (hsingle : ∀ q ∈ params.take (k + 1), (q.variadic && !spread) = false) :
    .one param arg ∈ passings spread params args := by
  induction params generalizing args k with
  | nil => cases hparam
  | cons q params ih =>
    cases args with
    | nil => cases harg
    | cons a args =>
      rw [List.take_succ_cons, List.forall_mem_cons] at hsingle
      rw [passings, hsingle.1]
      cases k with
      | zero =>
        cases hparam
        cases harg
        exact List.mem_cons_self
      | succ k => exact List.mem_cons_of_mem _ (ih hparam harg hsingle.2)

theorem rest_mem_passings (hparam : params[k]? = some param) (hrest : (param.variadic && !spread) = true)
    (hsingle : ∀ q ∈ params.take k, (q.variadic && !spread) = false) (hk : k < args.length) :
    .rest param (args.drop k) ∈ passings spread params args := by
  induction params generalizing args k with
  | nil => cases hparam
  | cons q params ih =>
    cases args with
    | nil => cases hk
    | cons a args =>
      rw [passings]
      cases k with
      | zero =>
        cases hparam
        rw [if_pos hrest]
        exact List.mem_cons_self
      | succ k =>
        rw [List.take_succ_cons, List.forall_mem_cons] at hsingle
        rw [hsingle.1]
        exact List.mem_cons_of_mem _ (ih hparam hsingle.2 (Nat.lt_of_succ_lt_succ hk))

theorem passings_map (f : NodeId → NodeId) :
    passings spread params (args.map f) = (passings spread params args).map (Passing.map f) := by
  induction params generalizing args with
  | nil => rfl
  | cons param params ih =>
    cases args with
    | nil => rfl
    | cons arg args =>
      rw [List.map_cons, passings, passings, ih]
      split <;> rfl

theorem leftOver_map (f : NodeId → NodeId) : leftOver spread params (args.map f) = leftOver spread params args := by
  induction params generalizing args with
  | nil => cases args <;> rfl
  | cons param params ih =>
    cases args with
    | nil => rfl
    | cons arg args => rw [List.map_cons, leftOver, leftOver, ih]

end Passings

/-- The receiver of a call of a method. -/
def Program.recvPassing (p : Program) (call : Node) (recv : Option Param) : Option (Param × NodeId) :=
  if call.op = .callFunc then none else recv.bind fun param => (p.recvExpr call).map fun expr => (param, expr)

theorem recv_of_recvPassing {p : Program} {call : Node} {recv : Option Param} {x : Param × NodeId}
    (hx : p.recvPassing call recv = some x) : recv = some x.1 ∧ p.recvExpr call = some x.2 := by
  unfold Program.recvPassing at hx
  split at hx
  · cases hx
  · obtain ⟨param, hparam, hx⟩ := Option.bind_eq_some_iff.1 hx
    obtain ⟨expr, hexpr, rfl⟩ := Option.map_eq_some_iff.1 hx
    exact ⟨hparam, hexpr⟩

namespace Flow

/-! ## Arguments -/

/-- The argument itself, or the slice of the arguments. -/
def passingValue (call : NodeId) : Passing → FlowM NodeId
  | .one _ arg => return arg
  | .rest param args => restArg call param.ty args

/-- Stores what is passed in the parameter. -/
def bindPassing (call : NodeId) (x : Passing) : FlowM Unit := do
  let src ← passingValue call x
  x.param.name.forM (assign · src)

/-- Applies the note of the parameter to the value. One that does not flow anywhere is marked, unless the call is
detached. -/
def noteValue (p : Program) (detached : Bool) (outs : List NodeId) (param : Param) (src : NodeId) : FlowM Unit := do
  if p.hasPointers param.ty then
    let w ← applyNote param.note outs src
    if w = .plain .none ∧ !detached then markStatementLocal src

/-- Applies the note of the parameter to what is passed. -/
def notePassing (call : NodeId) (detached : Bool) (outs : List NodeId) (x : Passing) : FlowM Unit := do
  let src ← passingValue call x
  noteValue (← getProgram) detached outs x.param src

/-- The first argument is passed, and the others after it if it does not take them along. -/
theorem forM_passings_cons (f : Passing → FlowM Unit) (e : EscapeError) (spread : Bool) (param : Param)
    (params : List Param) (arg : NodeId) (args : List NodeId) :
    (do
      (passings spread (param :: params) (arg :: args)).forM f
      if leftOver spread (param :: params) (arg :: args) then throw e else return ()) =
    if param.variadic && !spread then f (.rest param (arg :: args))
    else do
      f (.one param arg)
      (passings spread params args).forM f
      if leftOver spread params args then throw e else return () := by
  rw [passings, leftOver]
  split
  · rename_i hrest
    simp only [hrest, List.forM, Bool.not_true, Bool.false_and, Bool.false_eq_true, if_false, bind_pure_unit]
  · rename_i hrest
    simp only [hrest, List.forM, Bool.not_false, Bool.true_and, bind_assoc]

theorem bindParams_eq (call : NodeId) (spread : Bool) (params : List Param) (args : List NodeId) :
    bindParams call spread params args = (do
      (passings spread params args).forM (bindPassing call)
      if leftOver spread params args then throw (.argCount call) else return ()) := by
  induction params generalizing args with
  | nil => cases args <;> rfl
  | cons param params ih =>
    cases args with
    | nil => rfl
    | cons arg args =>
      rw [forM_passings_cons, ← ih]
      rfl

theorem applyNotes_eq (call : NodeId) (spread detached : Bool) (outs : List NodeId) (params : List Param)
    (args : List NodeId) :
    applyNotes call spread detached outs params args = (do
      (passings spread params args).forM (notePassing call detached outs)
      if leftOver spread params args then throw (.argCount call) else return ()) := by
  induction params generalizing args with
  | nil => cases args <;> rfl
  | cons param params ih =>
    cases args with
    | nil => rfl
    | cons arg args =>
      rw [forM_passings_cons]
      unfold applyNotes
      extract_lets takesRest next join
      -- Whatever the note tells of the value, the other arguments follow, or nothing does.
      have hjoin (src : NodeId) :
          join src = (getProgram >>= fun p => noteValue p detached outs param src) >>= next := by
        rw [bind_assoc]
        refine bind_congr fun p => ?_
        unfold noteValue
        split
        · rw [bind_assoc]
          refine bind_congr fun w => ?_
          split <;> rfl
        · rfl
      split
      · rename_i hrest
        have hnext : next = pure := funext fun _ => if_pos hrest
        refine bind_congr fun src => ?_
        rw [hjoin, hnext, bind_pure]
        rfl
      · rename_i hrest
        have hnext : next = fun _ => applyNotes call spread detached outs params args :=
          funext fun _ => if_neg hrest
        rw [pure_bind, hjoin, hnext, ih]
        rfl

/-! ## Callees -/

theorem callInGroup_eq (call : NodeId) (callee : FuncId) (args : List NodeId) :
    callInGroup call callee args = (do
      let s ← get
      if s.info.state callee = .unknown ∨ !(s.results.get call.index).isEmpty then throw (.graphInconsistency call)
      else do
        setResults call ((s.program.func callee).results.filterMap (·.name))
        (s.program.recvPassing (s.program.node call) (s.program.func callee).recv).forM fun x =>
          x.1.name.forM (assign · x.2)
        bindParams call (s.program.node call).variadic (s.program.func callee).params args) := by
  unfold callInGroup
  refine bind_congr fun s => ?_
  split
  · rfl
  · refine bind_congr fun _ => ?_
    unfold Program.recvPassing
    by_cases hop : (s.program.node call).op = .callFunc
    · rw [if_pos hop, if_neg (not_not_intro hop)]
      rfl
    · rw [if_pos hop, if_neg hop]
      cases (s.program.func callee).recv with
      | none => rfl
      | some param =>
        cases s.program.recvExpr (s.program.node call) with
        | none =>
          dsimp only [Option.bind]
          cases param.name <;> rfl
        | some expr =>
          dsimp only [Option.bind, Option.map, Option.forM]
          cases param.name <;> rfl

theorem callByNotes_eq (call : NodeId) (detached : Bool) (args : List NodeId) :
    callByNotes call detached args = (do
      let s ← get
      if !(s.results.get call.index).isEmpty then throw (.graphInconsistency call)
      else do
        let outs ← makeOuts (s.program.node call).line 0 (s.program.calleeShape call).results
        setResults call outs
        (s.program.recvPassing (s.program.node call) (s.program.calleeShape call).recv).forM fun x =>
          noteValue s.program true outs x.1 x.2
        applyNotes call (s.program.node call).variadic detached outs (s.program.calleeShape call).params args) := by
  unfold callByNotes
  refine bind_congr fun s => ?_
  extract_lets x shape join
  split
  · rfl
  · refine bind_congr fun outs => bind_congr fun _ => ?_
    extract_lets notes
    unfold Program.recvPassing
    by_cases hop : x.op = .callFunc
    · rw [if_pos hop, if_neg (not_not_intro hop)]
      rfl
    · rw [if_pos hop, if_neg hop]
      cases shape.recv with
      | none => rfl
      | some param =>
        cases s.program.recvExpr x with
        | none => rfl
        | some expr =>
          simp only [Option.bind, Option.map, Option.forM, noteValue]
          split
          · rw [bind_assoc]
            refine bind_congr fun w => ?_
            rw [if_neg fun h => Bool.false_ne_true h.2]
            rfl
          · rfl

end Flow

end EscapeAnalysis

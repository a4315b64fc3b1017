import EscapeAnalysis.Proofs.Recording.Arguments
import EscapeAnalysis.Proofs.Recording.Assignments
import EscapeAnalysis.Proofs.Recording.Stillness

/-!
# The shapes of calls

A call stops if it has too many arguments, whether its callee belongs to the group or is known by its notes, and
otherwise it is bound to as many results as the callee declares. A statement that takes the results of the call asks for
their number only.

* `Overflows params spread k` : `k` arguments are too many;
* `Program.refusal p dst` : why nothing can be stored in a destination;
* `Flow.stop?` : how an operation stops, if it does;
* `Flow.Enlarges s t`, `Flow.Halts` : operations that keep the operands of what is there, and how they end;
* `Flow.callInGroup_shape`, `Flow.callByNotes_shape` : the two kinds of calls;
* `Flow.stop?_assignCall`, `Flow.stop?_returnCall` : statements that take results.
-/

namespace EscapeAnalysis

/-! ## Too many arguments -/

/-- The arguments are more than the parameters, and no `...` parameter takes the rest of them. -/
def Overflows (params : List Param) (spread : Bool) (k : Nat) : Prop :=
  params.length < k ∧ (spread = true ∨ ∀ i < k, ∀ param, params[i]? = some param → param.variadic = false)

section Overflows

variable {param : Param} {params params' : List Param} {spread : Bool} {k : Nat}

theorem not_overflows_zero : ¬ Overflows params spread 0 := fun h => Nat.not_lt_zero _ h.1

theorem overflows_nil : Overflows [] spread (k + 1) :=
  ⟨Nat.succ_pos k, Or.inr fun _ _ _ h => nomatch h⟩

theorem overflows_cons : Overflows (param :: params) spread (k + 1) ↔
    (param.variadic && !spread) = false ∧ Overflows params spread k := by
  have hall : (∀ i < k + 1, ∀ x, (param :: params)[i]? = some x → x.variadic = false) ↔
      param.variadic = false ∧ ∀ i < k, ∀ x, params[i]? = some x → x.variadic = false := by
    refine ⟨fun h => ⟨h 0 (Nat.succ_pos k) param rfl, fun i hi x hx => h (i + 1) (Nat.succ_lt_succ hi) x hx⟩, ?_⟩
    rintro ⟨hparam, hrest⟩ i hi x hx
    cases i with
    | zero => exact Option.some.inj hx ▸ hparam
    | succ i => exact hrest i (Nat.lt_of_succ_lt_succ hi) x hx
  unfold Overflows
  rw [hall, List.length_cons, Nat.add_lt_add_iff_right]
  cases spread <;> cases param.variadic <;> simp

theorem leftOver_iff {args : List NodeId} : leftOver spread params args = true ↔ Overflows params spread args.length := by
  induction params generalizing args with
  | nil =>
    cases args with
    | nil => simp [leftOver, not_overflows_zero]
    | cons arg args => simp [leftOver, overflows_nil]
  | cons param params ih =>
    cases args with
    | nil => simp [leftOver, not_overflows_zero]
    | cons arg args =>
      rw [leftOver, Bool.and_eq_true, Bool.not_eq_true', ih, List.length_cons, overflows_cons]

/-- Only the number of the parameters counts, and which of them take the rest. -/
theorem overflows_congr (h : params'.map (·.variadic) = params.map (·.variadic)) :
    Overflows params' spread k ↔ Overflows params spread k := by
  induction params generalizing params' k with
  | nil =>
    rw [List.map_nil, List.map_eq_nil_iff] at h
    rw [h]
  | cons param params ih =>
    obtain ⟨param', rest, rfl, hparam, hrest⟩ := List.map_eq_cons_iff.1 h
    cases k with
    | zero => simp [not_overflows_zero]
    | succ k => rw [overflows_cons, overflows_cons, hparam, ih hrest]

end Overflows

/-! ## Destinations -/

namespace Program

variable {p q : Program} {dst : NodeId} {e : EscapeError}

/-- Why nothing can be stored in the destination, if so. -/
def refusal (p : Program) (dst : NodeId) : Option EscapeError :=
  match p.place (p.nodes.size + 1) dst with
  | .error e => some e
  | .ok _ => none

theorem refusal_eq_some : p.refusal dst = some e ↔ p.place (p.nodes.size + 1) dst = .error e := by
  unfold refusal
  split <;> rename_i h <;> simp [h]

theorem refusal_of_name (h : (p.node dst).op = .name) : p.refusal dst = none := by
  rw [Option.eq_none_iff_forall_ne_some]
  intro e he
  rw [refusal_eq_some] at he
  simp only [place, h] at he
  split at he <;> cases he

theorem refusal_of_arrayLit (h : (p.node dst).op = .arrayLit) : p.refusal dst = none := by
  rw [Option.eq_none_iff_forall_ne_some]
  intro e he
  rw [refusal_eq_some] at he
  simp [place, Node.isBlank, h] at he

/-- The nodes and the types of `p` are those of `q`, and there may be more. -/
structure Includes (p q : Program) : Prop where
  size_le : p.nodes.size ≤ q.nodes.size
  node : ∀ n : NodeId, n.index < p.nodes.size → (p.node n).SameBut (q.node n)
  types : p.types.Grows q.types

theorem Includes.trans {r : Program} (h₁ : p.Includes q) (h₂ : q.Includes r) : p.Includes r :=
  ⟨Nat.le_trans h₁.size_le h₂.size_le,
    fun n hn => (h₁.node n hn).trans (h₂.node n (Nat.lt_of_lt_of_le hn h₁.size_le)), h₁.types.trans h₂.types⟩

theorem Includes.op (h : p.Includes q) {n : NodeId} {op : Op} (hop : (p.node n).op = op) (hne : op ≠ .block) :
    (q.node n).op = op := by
  rw [(h.node n (p.lt_size_of_op_ne (hop ▸ hne))).op, hop]

theorem Includes.isCall (h : p.Includes q) {n : NodeId} (hop : (p.node n).op.isCall = true) :
    (q.node n).op.isCall = true := by
  rw [h.op rfl fun hblock => by rw [hblock] at hop; cases hop]
  exact hop

theorem Includes.outputs (h : p.Includes q) {f : Func} (hf : ∀ n ∈ f.decls, n.index < p.nodes.size) :
    q.outputs f = p.outputs f := by
  refine List.filter_congr fun n hn => ?_
  obtain ⟨_, _, he⟩ := h.node n (hf n hn)
  rw [he]
  rfl

section Includes

variable (hp : p.Drafted) (h : p.Includes q)
include hp h

theorem Includes.isArrayNode {n : NodeId} (hn : n.index < p.nodes.size) :
    q.isArrayNode (some n) = p.isArrayNode (some n) := by
  obtain ⟨_, _, he⟩ := h.node n hn
  simp only [Program.isArrayNode, Option.any_some]
  rw [he]
  dsimp only
  cases hty : (p.node n).ty with
  | none => rfl
  | some ty => exact h.types.isArray (hp.typed.node n ty hty)

/-- The search for the whole takes the same way. -/
theorem Includes.place_eq_error_iff (hdst : dst.index < p.nodes.size) {fuel fuel' : Nat} (hfuel : dst.index < fuel)
    (hfuel' : dst.index < fuel') : q.place fuel' dst = .error e ↔ p.place fuel dst = .error e := by
  induction fuel generalizing dst fuel' with
  | zero => exact absurd hfuel (Nat.not_lt_zero _)
  | succ fuel ih =>
    cases fuel' with
    | zero => exact absurd hfuel' (Nat.not_lt_zero _)
    | succ fuel' =>
      have hx := h.node dst hdst
      have hlt {m : NodeId} (hm : (p.node dst).left = some m) : m.index < dst.index :=
        hp.ordered dst m (Node.mem_inner.2 (Or.inl hm))
      have hbase : q.base? dst = p.base? dst := by
        have harray : q.isArrayNode (p.node dst).left = p.isArrayNode (p.node dst).left := by
          cases hm : (p.node dst).left with
          | none => rfl
          | some m => exact h.isArrayNode hp (Nat.lt_trans (hlt hm) hdst)
        unfold base?
        rw [hx.op, hx.left, harray]
      rw [place_succ, place_succ, hbase]
      cases hm : p.base? dst with
      | some m =>
        have hlt := hlt (pieceOf_iff.2 hm).left
        exact ih (Nat.lt_trans hlt hdst) (by omega) (by omega)
      | none =>
        simp only [Option.elim_none, wholePlace, hx.op]
        split_ifs <;> simp

theorem Includes.refusal (hdst : dst.index < p.nodes.size) : q.refusal dst = p.refusal dst := by
  have hsize := h.size_le
  refine Option.ext fun e => ?_
  rw [refusal_eq_some, refusal_eq_some]
  exact h.place_eq_error_iff hp hdst (by omega) (by omega)

end Includes

end Program

/-! ## How operations end -/

namespace Flow

variable {s t u : Flow}

/-- How an operation stops, if it does. -/
def stop? {α : Type} (m : FlowM α) (s : Flow) : Option EscapeError :=
  match m s with
  | .ok _ _ => none
  | .error e _ => some e

/-- What was there has its operands, and what is new has none. -/
structure Outgrows (s t : Flow) : Prop extends s.program.Includes t.program where
  operands : ∀ n, (t.program.node n).operands = (s.program.node n).operands
  funcs : t.program.funcs = s.program.funcs
  curfn : t.curfn = s.curfn

/-- And no call is bound. -/
structure Enlarges (s t : Flow) : Prop extends Outgrows s t where
  results : t.results = s.results

theorem Outgrows.trans (h₁ : Outgrows s t) (h₂ : Outgrows t u) : Outgrows s u :=
  ⟨h₁.toIncludes.trans h₂.toIncludes, fun n => (h₂.operands n).trans (h₁.operands n), h₂.funcs.trans h₁.funcs,
    h₂.curfn.trans h₁.curfn⟩

theorem Enlarges.trans (h₁ : Enlarges s t) (h₂ : Enlarges t u) : Enlarges s u :=
  ⟨h₁.toOutgrows.trans h₂.toOutgrows, h₂.results.trans h₁.results⟩

theorem Outgrows.operandsEnd (h : Outgrows s t) (hs : s.program.OperandsEnd) : t.program.OperandsEnd := by
  have hoperand : t.program.Operand = s.program.Operand := by
    funext n m
    rw [Program.Operand, Program.Operand, h.operands]
  unfold Program.OperandsEnd
  rw [hoperand]
  exact hs

theorem Widens.enlarges (h : Widens s t) : Enlarges s t := by
  refine ⟨⟨⟨h.size_le, fun n hn => ?_, h.types⟩, fun n => ?_, h.funcs, h.curfn⟩, h.results⟩
  · rw [h.node hn]
    exact .refl _
  · rcases h.nodes n with hn | ⟨hle, hop⟩
    · rw [hn]
    · rw [s.program.node_of_size_le hle]
      simp [Node.operands, Op.passes, Op.isArith, Op.isBinaryArith, hop]

/-- A change that touches no node. -/
theorem outgrows_of_nodes_eq (hnodes : t.program.nodes = s.program.nodes)
    (htypes : s.program.types.Grows t.program.types) (hfuncs : t.program.funcs = s.program.funcs)
    (hcurfn : t.curfn = s.curfn) : Outgrows s t := by
  have hnode (n : NodeId) : t.program.node n = s.program.node n := by
    unfold Program.node
    rw [hnodes]
  exact ⟨⟨Nat.le_of_eq (by rw [hnodes]), fun n _ => hnode n ▸ .refl _, htypes⟩, fun n => by rw [hnode], hfuncs, hcurfn⟩

theorem Enlarges.refl (s : Flow) : Enlarges s s := ⟨outgrows_of_nodes_eq rfl (.refl _) rfl rfl, rfl⟩

theorem enlarges_addNode (s : Flow) {x : Node} (hx : x.operands = []) (info : Info) :
    Enlarges s { s with program := (s.program.addNode x).2, info } := by
  have hnode := s.program.node_addNode x
  have hextends := s.program.extends_addNode x
  refine ⟨⟨⟨hextends.size_le, hextends.node, .refl _⟩, fun n => ?_, rfl, rfl⟩, rfl⟩
  dsimp only
  rw [hnode]
  split
  · rename_i hn
    rw [s.program.node_of_size_le (Nat.le_of_eq hn.symm), hx]
    rfl
  · rfl

/-- A change of the node that is none of its operands. -/
theorem enlarges_modifyNode (s : Flow) {n : NodeId} {g : Node → Node}
    (hsame : (s.program.node n).SameBut (g (s.program.node n)))
    (hoperands : (g (s.program.node n)).operands = (s.program.node n).operands) :
    Enlarges s { s with program := s.program.modifyNode n g } := by
  have hnodes (m : NodeId) := Program.rel_modifyNode Node.SameBut.refl m hsame
  have hsames (m : NodeId) := Program.rel_modifyNode (R := fun x y => y.operands = x.operands) (fun _ => rfl) m hoperands
  exact ⟨⟨⟨Nat.le_of_eq (Program.size_modifyNode ..).symm, fun m _ => hnodes m, .refl _⟩, hsames, rfl, rfl⟩, rfl⟩

instance : Std.Refl Enlarges := ⟨.refl⟩

variable {α β : Type} {E E' : EscapeError → Prop} {Q Q' : α → Flow → Prop} {R : β → Flow → Prop} {m : FlowM α}

instance : Conduct Enlarges (stopsWith E) where
  trans := .trans
  stop _ h := h
  rest {_ t} _ := .refl t

instance : Conduct (anyStep (σ := Flow)) (stopsWith E) := ⟨fun _ _ => trivial, fun _ h => h, fun _ => trivial⟩

/-- If the operation stops, then with `E`, and otherwise it comes to `Q`. -/
abbrev Comes (s : Flow) (m : FlowM α) (E : EscapeError → Prop) (Q : α → Flow → Prop) : Prop :=
  Triple anyStep (stopsWith E) s m Q

/-- And it keeps the operands of what is there, and binds no call. -/
abbrev Halts (s : Flow) (m : FlowM α) (E : EscapeError → Prop) (Q : α → Flow → Prop) : Prop :=
  Triple Enlarges (stopsWith E) s m Q

section Rules

theorem Comes.stop?_eq {v : Option EscapeError} (h : Comes s m (fun e => v = some e) fun _ _ => v = none) :
    stop? m s = v := by
  unfold stop?
  cases hm : m s with
  | ok a t => exact (h.ok hm).2.symm
  | error e t => exact (h.error hm).symm

/-- An operation that comes to `¬ P` stops under `P`, unless with an error that is excepted. -/
theorem Comes.stop?_of_not {P : Prop} {X : EscapeError → Prop} {e : EscapeError}
    (h : Comes s m (fun e' => X e' ∨ e' = e ∧ P) fun _ _ => ¬ P) :
    (∃ e', X e' ∧ stop? m s = some e') ∨ (P → stop? m s = some e) ∧ (¬ P → stop? m s = none) := by
  unfold stop?
  cases hm : m s with
  | ok a t => exact Or.inr ⟨fun hP => absurd hP (h.ok hm).2, fun _ => rfl⟩
  | error e' t =>
    rcases h.error hm with hX | ⟨rfl, hP⟩
    · exact Or.inl ⟨e', hX, rfl⟩
    · exact Or.inr ⟨fun _ => rfl, fun hnot => absurd hP hnot⟩

theorem Halts.mono (h : Halts s m E Q) (hE : ∀ e, E e → E' e) (hQ : ∀ a t, Q a t → Q' a t) : Halts s m E' Q' :=
  h.imp (fun a t ht hq => ⟨ht, hQ a t hq⟩) fun e he => hE e.1 he

theorem Halts.comes (h : Halts s m E Q) : Comes s m E fun a t => Enlarges s t ∧ Q a t :=
  h.imp (fun _ _ ht hq => ⟨trivial, ht, hq⟩) fun _ he => he

theorem comes_setResults {n : NodeId} {outs : List NodeId} {f : Unit → FlowM α}
    (h : Comes { s with results := s.results.set n.index outs } (f ()) E Q) : Comes s (setResults n outs >>= f) E Q := h

/-- An operation that stops at once under a condition, and else comes to its end. -/
theorem comes_guard {c : Prop} [Decidable c] {e : EscapeError} (h : Comes s m (fun _ => False) fun _ _ => True) :
    Comes s (if c then throw e else m) (fun e' => (if c then some e else none) = some e')
      fun _ _ => (if c then some e else none) = none := by
  by_cases hc : c
  · simp only [hc, if_true]
    exact triple_throw rfl
  · simp only [hc, if_false]
    exact h.imp (fun _ _ _ _ => ⟨trivial, trivial⟩) fun _ he => he.elim

/-- A node that is made and put somewhere. -/
theorem halts_place {x : Node} (hx : x.operands = []) {d : Int} {f : NodeId → FlowM α}
    (h : ∀ t, Enlarges s t → (t.program.node ⟨s.program.nodes.size⟩).op = x.op →
      Halts t (f ⟨s.program.nodes.size⟩) E Q) : Halts s (do let n ← addNode x; setDepth n d; f n) E Q := by
  have hmade := enlarges_addNode s hx (s.info.setDepth ⟨s.program.nodes.size⟩ d)
  refine (h _ hmade ?_).after hmade rfl
  dsimp only
  rw [Program.node_addNode, if_pos rfl]

end Rules

/-! ## Assignments -/

section Assign

variable (hends : s.program.OperandsEnd) {E : EscapeError → Prop}
include hends

theorem halts_lose (src : NodeId) : Halts s (lose src) E fun _ _ => True := by
  obtain ⟨t, ht, hst, _⟩ := carryAll_received hends s.sink src
  exact triple_of_eq_ok ht hst.enlarges trivial

theorem halts_assign (dst src : NodeId) :
    Halts s (assign dst src) (fun e => s.program.refusal dst = some e) fun _ _ => s.program.refusal dst = none := by
  unfold assign Program.refusal
  refine triple_getProgram ?_
  cases s.program.place (s.program.nodes.size + 1) dst with
  | error e => exact triple_throw rfl
  | ok place =>
    cases place with
    | nowhere => exact triple_pure rfl
    | tracked n =>
      obtain ⟨t, ht, hst, _⟩ := carryAll_received hends n src
      exact triple_of_eq_ok ht hst.enlarges rfl
    | lost key =>
      obtain ⟨t, ht, hst, _⟩ := lose_received hends key src
      exact triple_of_eq_ok ht hst.enlarges rfl

/-- Where nothing is refused. -/
theorem halts_assign_of_takes {dst : NodeId} (hdst : s.program.refusal dst = none) (src : NodeId) :
    Halts s (assign dst src) E fun _ _ => True :=
  (halts_assign hends dst src).mono (fun e he => by rw [hdst] at he; cases he) fun _ _ _ => trivial

end Assign

theorem halts_ptrTo {E : EscapeError → Prop} (ty : Option Ty) : Halts s (ptrTo ty) E fun _ _ => True := by
  cases ty with
  | none => exact triple_pure trivial
  | some ty =>
    exact triple_of_eq_ok rfl ⟨outgrows_of_nodes_eq rfl (s.program.types.grows_intern _) rfl rfl, rfl⟩ trivial

theorem halts_derefNode {E : EscapeError → Prop} (n : NodeId) : Halts s (derefNode n) E fun _ _ => True :=
  triple_getProgram (triple_placeAt (halts_place rfl fun _ _ _ => triple_pure trivial))

theorem halts_derefTimes {E : EscapeError → Prop} (k : Nat) (n : NodeId) :
    Halts s (derefTimes k n) E fun _ _ => True := by
  induction k generalizing s n with
  | zero => exact triple_pure trivial
  | succ k ih => exact (halts_derefNode n).bind fun m _ _ _ => ih m

/-! ## Calls -/

section Calls

variable {call : NodeId} {E : EscapeError → Prop}

/-- The slice of the `...` arguments is hung below the call and marked. -/
theorem enlarges_hang (s : Flow) {x : Node} (hx : x.operands = []) (hcall : (s.program.node call).op.isCall = true) :
    Enlarges s (s.hang call x) := by
  have hmade := enlarges_addNode s hx s.info
  have hright := enlarges_modifyNode { s with program := (s.program.addNode x).2 } (n := call)
    (g := fun y => { y with right := some ⟨s.program.nodes.size⟩ }) ⟨_, _, rfl⟩ ?_
  · exact (hmade.trans hright).trans ⟨outgrows_of_nodes_eq rfl (.refl _) rfl rfl, rfl⟩
  · have hop := hmade.isCall hcall
    dsimp only at hop ⊢
    unfold Node.operands
    dsimp only
    cases hop' : ((s.program.addNode x).2.node call).op <;> first
      | rfl
      | simp [Op.isCall, hop'] at hop

theorem halts_restArg (hends : s.program.OperandsEnd) (hcall : (s.program.node call).op.isCall = true)
    (sliceTy : Option Ty) (args : List NodeId) : Halts s (restArg call sliceTy args) E fun _ _ => True := by
  unfold restArg
  refine triple_getProgram ?_
  extract_lets line jp
  have hjp (arrayTy : Option Ty) (t : Flow) (ht : Enlarges s t) : Halts t (jp arrayTy) E fun _ _ => True := by
    refine (halts_ptrTo arrayTy).bind fun ty u hu _ => triple_get (halts_place rfl fun v hv hop => ?_)
    have hsv := (ht.trans hu).trans hv
    have hargs : Halts v (args.forM (assign ⟨u.program.nodes.size⟩)) E fun _ _ => True := triple_forM args fun arg _ w hw =>
      halts_assign_of_takes ((hsv.trans hw).operandsEnd hends)
        (Program.refusal_of_arrayLit (hw.op hop (by simp))) arg
    refine hargs.bind fun _ w hw _ => ?_
    exact Triple.after (triple_pure trivial) (enlarges_hang w rfl ((hsv.trans hw).isCall hcall)) rfl
  split
  · rename_i elem _
    have hty : Halts s (some <$> withTypes (·.array elem args.length)) E fun _ _ => True :=
      triple_of_eq_ok rfl ⟨outgrows_of_nodes_eq rfl (s.program.types.grows_intern _) rfl rfl, rfl⟩ trivial
    exact hty.bind fun arrayTy t ht _ => hjp arrayTy t ht
  · exact hjp none s (.refl s)

/-- The parameters with names take what is stored in them. -/
def Named (s : Flow) (params : List Param) : Prop :=
  ∀ param ∈ params, ∀ n, param.name = some n → (s.program.node n).op = .name

theorem Named.outgrows {params : List Param} (h : Named s params) (ht : Outgrows s t) : Named t params :=
  fun param hparam n hn => ht.op (h param hparam n hn) (by simp)

theorem halts_passingValue (hends : s.program.OperandsEnd) (hcall : (s.program.node call).op.isCall = true) (x : Passing) :
    Halts s (passingValue call x) E fun _ _ => True := by
  cases x with
  | one _ arg => exact triple_pure trivial
  | rest param args => exact halts_restArg hends hcall param.ty args

/-- A loop over what is passed to the parameters ends with a stop if an argument is too many. -/
theorem halts_passings {spread : Bool} {params : List Param} {args : List NodeId} {f : Passing → FlowM PUnit}
    (hf : ∀ x, x.param ∈ params → ∀ t, Enlarges s t → Halts t (f x) E fun _ _ => True)
    (hE : Overflows params spread args.length → E (.argCount call)) :
    Halts s (do
      (passings spread params args).forM f
      if leftOver spread params args then throw (.argCount call) else return ()) E
      fun _ _ => ¬ Overflows params spread args.length := by
  refine (triple_forM _ fun x hx t ht => hf x (mem_of_mem_passings hx).1 t ht).bind fun _ t _ _ => ?_
  split
  · rename_i hover
    exact triple_throw (hE (leftOver_iff.1 hover))
  · rename_i hover
    exact triple_pure (mt leftOver_iff.2 hover)

theorem halts_bindParams (hends : s.program.OperandsEnd) (hcall : (s.program.node call).op.isCall = true)
    {params : List Param} (hnamed : Named s params) (spread : Bool) (args : List NodeId) :
    Halts s (bindParams call spread params args) (fun e => e = .argCount call ∧ Overflows params spread args.length)
      fun _ _ => ¬ Overflows params spread args.length := by
  rw [bindParams_eq]
  refine halts_passings (fun x hx t ht => ?_) fun hover => ⟨rfl, hover⟩
  refine (halts_passingValue (ht.operandsEnd hends) (ht.isCall hcall) x).bind fun src u hu _ => ?_
  have hsu := ht.trans hu
  exact triple_optionForM _ fun n hn => halts_assign_of_takes (hsu.operandsEnd hends)
    (Program.refusal_of_name (hsu.op (hnamed _ hx n hn) (by simp))) src

/-- The names that stand for results take what is stored in them. -/
def Outs (s : Flow) (outs : List NodeId) : Prop := ∀ out ∈ outs, (s.program.node out).op = .name

theorem Outs.outgrows {outs : List NodeId} (h : Outs s outs) (ht : Outgrows s t) : Outs t outs :=
  fun out hout => ht.op (h out hout) (by simp)

theorem halts_perform (hends : s.program.OperandsEnd) {outs : List NodeId} (houts : Outs s outs) (src : NodeId)
    {x : Told} (hx : ∀ out, x.result = some out → out ∈ outs) {E : EscapeError → Prop} :
    Halts s (perform src x) E fun _ _ => True := by
  refine (halts_derefTimes x.derefs src).bind fun n t ht _ => ?_
  cases hresult : x.result with
  | none => exact halts_lose (ht.operandsEnd hends) n
  | some out =>
    have hout := Program.refusal_of_name (ht.op (houts out (hx out hresult)) (by simp))
    exact halts_assign_of_takes (ht.operandsEnd hends) hout n

theorem halts_applyNote (hends : s.program.OperandsEnd) {outs : List NodeId} (houts : Outs s outs)
    (note : Option String) (src : NodeId) :
    Halts s (applyNote note outs src) (fun e => ∃ note, e = .corruptNote note) fun _ _ => True := by
  rw [applyNote_eq]
  refine (triple_forM _ fun x hx t ht => halts_perform (ht.operandsEnd hends) (houts.outgrows ht.toOutgrows) src
    fun _ => Word.mem_of_mem_told hx).bind fun _ t ht _ => ?_
  split
  · exact triple_throw ⟨_, rfl⟩
  · exact triple_pure trivial

theorem halts_markStatementLocal (src : NodeId) : Halts s (markStatementLocal src) E fun _ _ => True := by
  rcases markStatementLocal_eq s src with he | ⟨n, _, _, he⟩
  · exact triple_of_eq_ok he (.refl s) trivial
  · exact triple_of_eq_ok he (enlarges_modifyNode s ⟨_, _, rfl⟩ rfl) trivial

theorem halts_noteValue (hends : s.program.OperandsEnd) {outs : List NodeId} (houts : Outs s outs) (p : Program)
    (detached : Bool) (param : Param) (src : NodeId) :
    Halts s (noteValue p detached outs param src) (fun e => ∃ note, e = .corruptNote note) fun _ _ => True := by
  unfold noteValue
  split
  · refine (halts_applyNote hends houts param.note src).bind fun w t _ _ => ?_
    split
    · exact halts_markStatementLocal src
    · exact triple_pure trivial
  · exact triple_pure trivial

theorem halts_applyNotes (hends : s.program.OperandsEnd) (hcall : (s.program.node call).op.isCall = true)
    {outs : List NodeId} (houts : Outs s outs) (spread detached : Bool) (params : List Param) (args : List NodeId) :
    Halts s (applyNotes call spread detached outs params args)
      (fun e => (∃ note, e = .corruptNote note) ∨ e = .argCount call ∧ Overflows params spread args.length)
      fun _ _ => ¬ Overflows params spread args.length := by
  rw [applyNotes_eq]
  refine halts_passings (fun x _ t ht => ?_) fun hover => Or.inr ⟨rfl, hover⟩
  refine (halts_passingValue (ht.operandsEnd hends) (ht.isCall hcall) x).bind fun src u hu _ => triple_getProgram ?_
  have hsu := ht.trans hu
  exact (halts_noteValue (hsu.operandsEnd hends) (houts.outgrows hsu.toOutgrows) _ detached x.param src).mono
    (fun _ => Or.inl) fun _ _ h => h

theorem halts_makeOuts (line : UInt32) (i : Nat) (tys : List (Option Ty)) :
    Halts s (makeOuts line i tys) E fun outs t => outs.length = tys.length ∧ Outs t outs := by
  induction tys generalizing s i with
  | nil => exact triple_pure ⟨rfl, fun _ h => nomatch h⟩
  | cons ty tys ih =>
    unfold makeOuts
    refine triple_get (halts_place rfl fun t ht hop => ?_)
    refine (ih (i + 1)).bind fun outs u hu houts => triple_pure ⟨by simp [houts.1], ?_⟩
    exact List.forall_mem_cons.2 ⟨hu.op hop (by simp), houts.2⟩

/-- The call is bound to `k` results. -/
structure Bound (s t : Flow) (call : NodeId) (k : Nat) : Prop where
  outgrows : Outgrows s t
  length : (t.results.get call.index).length = k

theorem outgrows_setResults (s : Flow) (call : NodeId) (outs : List NodeId) :
    Outgrows s { s with results := s.results.set call.index outs } :=
  outgrows_of_nodes_eq rfl (.refl _) rfl rfl

/-- What is done after the call is bound leaves it so. -/
theorem Halts.bound {α : Type} {outs : List NodeId} {m : FlowM α} {E : EscapeError → Prop} {P : Prop}
    (hst : Outgrows s t)
    (h : Halts { t with results := t.results.set call.index outs } m E fun _ _ => P) :
    Comes { t with results := t.results.set call.index outs } m E fun _ u => P ∧ Bound s u call outs.length := by
  refine h.comes.mono fun _ u _ hu => ⟨hu.2, ?_, ?_⟩
  · exact (hst.trans (t.outgrows_setResults call outs)).trans hu.1.toOutgrows
  · rw [hu.1.results]
    exact congrArg List.length (Table.get_set_self _ _ _)

section Shapes

variable {callee : FuncId} (hcallee : s.program.calleeOf call = some callee)
  (hends : s.program.OperandsEnd) (hunbound : s.results.get call.index = [])
include hcallee hends hunbound

/-- A callee of the group gives its parameters to the arguments, and its results to the call. -/
theorem callInGroup_shape (hstate : s.info.state callee ≠ .unknown)
    (hnamed : Named s ((s.program.func callee).recv.toList ++ (s.program.func callee).params))
    (hresults : ∀ result ∈ (s.program.func callee).results, result.name ≠ none) (args : List NodeId) :
    Comes s (callInGroup call callee args)
      (fun e => e = .argCount call ∧
        Overflows (s.program.func callee).params (s.program.node call).variadic args.length)
      fun _ t => ¬ Overflows (s.program.func callee).params (s.program.node call).variadic args.length ∧
        Bound s t call (s.program.func callee).results.length := by
  have hlength : ((s.program.func callee).results.filterMap (·.name)).length =
      (s.program.func callee).results.length := by
    rw [List.length_filterMap_eq_countP, List.countP_eq_length]
    exact fun result hresult => Option.isSome_iff_ne_none.2 (hresults result hresult)
  have hst := s.outgrows_setResults call ((s.program.func callee).results.filterMap (·.name))
  have hends' := hst.operandsEnd hends
  have hparams : Named s (s.program.func callee).params := fun param hparam =>
    hnamed param (List.mem_append_right _ hparam)
  rw [callInGroup_eq]
  refine triple_get ?_
  split
  · rename_i hif
    simp [hstate, hunbound] at hif
  · rw [← hlength]
    refine comes_setResults (Halts.bound (Enlarges.refl s).toOutgrows ?_)
    refine (triple_optionForM _ fun (x : Param × NodeId) hx => triple_optionForM x.1.name fun n hn =>
      halts_assign_of_takes hends' (Program.refusal_of_name ?_) x.2).bind fun _ u hu _ => ?_
    · exact hnamed x.1 (List.mem_append_left _ (Option.mem_toList.2 (recv_of_recvPassing hx).1)) n hn
    · exact halts_bindParams (hu.operandsEnd hends') (hu.isCall (hst.isCall (isCall_of_calleeOf hcallee)))
        (hparams.outgrows (hst.trans hu.toOutgrows)) _ args

omit hcallee hends hunbound in
/-- A callee of the group has made a step, or the call stops. -/
theorem state_ne_unknown_of_callInGroup {args : List NodeId} (h : callInGroup call callee args s = .ok () t) :
    s.info.state callee ≠ .unknown := by
  intro hstate
  unfold callInGroup at h
  obtain ⟨_, _, ⟨⟩, h⟩ := bind_eq_ok h
  rw [if_pos (Or.inl hstate)] at h
  cases h

/-- For a callee that is known by its notes, names are made for the results. -/
theorem callByNotes_shape (detached : Bool) (args : List NodeId) :
    Comes s (callByNotes call detached args)
      (fun e => (∃ note, e = .corruptNote note) ∨ e = .argCount call ∧
        Overflows (s.program.func callee).params (s.program.node call).variadic args.length)
      fun _ t => ¬ Overflows (s.program.func callee).params (s.program.node call).variadic args.length ∧
        Bound s t call (s.program.func callee).results.length := by
  have hshape : s.program.calleeShape call = ⟨(s.program.func callee).results.map (·.ty), (s.program.func callee).recv,
      (s.program.func callee).params⟩ := by
    unfold Program.calleeShape
    rw [hcallee]
  rw [callByNotes_eq]
  refine triple_get ?_
  rw [hshape]
  split
  · rename_i hif
    simp [hunbound] at hif
  · refine (halts_makeOuts _ 0 _).comes.bind fun outs t _ hmade => ?_
    obtain ⟨hst, hlength, houts⟩ := hmade
    have hresults : (s.program.func callee).results.length = outs.length := by rw [hlength, List.length_map]
    rw [hresults]
    have htu := t.outgrows_setResults call outs
    have hends' := (hst.toOutgrows.trans htu).operandsEnd hends
    have hcall := (hst.toOutgrows.trans htu).isCall (isCall_of_calleeOf hcallee)
    refine comes_setResults (Halts.bound hst.toOutgrows ?_)
    refine (triple_optionForM _ fun (x : Param × NodeId) _ => (halts_noteValue hends' (houts.outgrows htu) s.program true
      x.1 x.2).mono (fun _ => Or.inl) fun _ _ h => h).bind fun _ u hu _ => ?_
    exact halts_applyNotes (hu.operandsEnd hends') (hu.isCall hcall)
      (Outs.outgrows houts (htu.trans hu.toOutgrows)) _ detached _ args

end Shapes

end Calls

/-! ## Statements that take the results of a call -/

section Takes

variable {p : Program}

theorem comes_assignEach (hp : p.Drafted) (hs : p.Includes s.program) (hends : s.program.OperandsEnd)
    {dsts srcs : List NodeId} (hdsts : ∀ dst ∈ dsts, dst.index < p.nodes.size) (hlength : dsts.length = srcs.length) :
    Comes s (assignEach dsts srcs) (fun e => dsts.findSome? p.refusal = some e)
      fun _ _ => dsts.findSome? p.refusal = none := by
  induction dsts generalizing s srcs with
  | nil => exact triple_pure_of trivial rfl
  | cons dst dsts ih =>
    cases srcs with
    | nil => cases hlength
    | cons src srcs =>
      rw [List.forall_mem_cons] at hdsts
      have hassign := halts_assign hends dst src
      rw [hs.refusal hp hdsts.1] at hassign
      refine (Halts.mono hassign (fun e he => ?_) fun _ _ h => h).comes.bind fun _ t _ ht => ?_
      · rw [List.findSome?_cons, he]
      · rw [List.findSome?_cons, ht.2]
        exact ih (hs.trans ht.1.toIncludes) (ht.1.operandsEnd hends) hdsts.2 (Nat.succ.inj hlength)

/-- Outputs take what is stored in them. -/
theorem halts_assignEach {E : EscapeError → Prop} (hends : s.program.OperandsEnd) {dsts : List NodeId}
    (hdsts : Outs s dsts) (srcs : List NodeId) : Halts s (assignEach dsts srcs) E fun _ _ => True := by
  rw [assignEach_eq]
  refine triple_forM _ fun x hx t ht => halts_assign_of_takes (ht.operandsEnd hends) (Program.refusal_of_name ?_) x.2
  exact hdsts.outgrows ht.toOutgrows x.1 (List.of_mem_zip hx).1

end Takes

end Flow

/-- The statement takes the results of the call: it assigns them, or returns them. -/
inductive Program.TakesResults (p : Program) (stmt call : NodeId) : Prop where
  | assign (hop : (p.node stmt).op = .assignCall) (hcall : (p.node stmt).rlist.head? = some call)
  | ret (hop : (p.node stmt).op = .returnStmt) (hcall : (p.node stmt).list = [call])

namespace Flow

section Statements

variable {p : Program} {s : Flow} {stmt call : NodeId} (up : Option NodeId)

theorem stop?_assignCall (hp : p.Drafted) (hclosed : p.Closed) (hs : p.Includes s.program)
    (hends : s.program.OperandsEnd) (hop : (p.node stmt).op = .assignCall)
    (hcall : (p.node stmt).rlist.head? = some call) :
    stop? (visit stmt up) s = if (p.node stmt).list.length = (s.results.get call.index).length then
      (p.node stmt).list.findSome? p.refusal else some (.callResults stmt) := by
  obtain ⟨_, _, he⟩ := hs.node stmt (p.lt_size_of_op_ne (by simp [hop]))
  refine Comes.stop?_eq ?_
  unfold visit
  refine triple_get ?_
  dsimp only
  rw [he]
  dsimp only
  rw [hop]
  cases hrlist : (p.node stmt).rlist with
  | nil =>
    rw [hrlist] at hcall
    cases hcall
  | cons other rest =>
    obtain rfl : other = call := by
      rw [hrlist] at hcall
      exact Option.some.inj hcall
    by_cases heq : (p.node stmt).list.length = (s.results.get other.index).length
    · rw [if_pos heq]
      dsimp only
      rw [if_neg (not_not.2 heq)]
      refine comes_assignEach hp hs hends (fun dst hdst => hclosed dst (Or.inl ⟨stmt, ?_⟩)) heq
      exact Node.mem_refs_of_mem_inner (Node.mem_inner.2 (Or.inr (Or.inr (Or.inr ⟨by simp [hop], hdst⟩))))
    · rw [if_neg heq]
      dsimp only
      rw [if_pos heq]
      exact triple_throw_bind rfl _

theorem stop?_returnCall (hs : p.Includes s.program) (hends : s.program.OperandsEnd)
    (hop : (p.node stmt).op = .returnStmt) (hcall : (p.node stmt).list = [call]) :
    stop? (visit stmt up) s = s.curfn.bind fun f =>
      if (s.program.outputs (s.program.func f)).length <
        if 1 < (s.program.func f).results.length then (s.results.get call.index).length else 1 then
        some (.returnCount stmt) else none := by
  have hx := hs.node stmt (p.lt_size_of_op_ne (by simp [hop]))
  refine Comes.stop?_eq ?_
  unfold visit
  refine triple_get ?_
  dsimp only
  rw [hx.op, hop, returnValues_eq]
  refine triple_get ?_
  cases s.curfn with
  | none => exact triple_pure_of trivial rfl
  | some f =>
    have hlength : (s.returned f (s.program.node stmt)).length =
        if 1 < (s.program.func f).results.length then (s.results.get call.index).length else 1 := by
      by_cases hmany : 1 < (s.program.func f).results.length <;> simp [returned, hx.list, hcall, hmany]
    dsimp only [Option.bind_some, Option.forM]
    rw [← hlength]
    have houts : Outs s (s.program.outputs (s.program.func f)) := by
      intro out hout
      exact (Node.isNameOf_iff.1 (List.mem_filter.1 hout).2).1
    exact comes_guard (c := _ < _) ((halts_assignEach hends houts _).comes.mono fun _ _ _ _ => trivial)

/-- Only the number of the results counts. -/
theorem stop?_takesResults {t u : Flow} {k : Nat} (hp : p.Drafted) (hclosed : p.Closed) (hs : p.Includes s.program)
    (hends : s.program.OperandsEnd) (hdecls : ∀ f, ∀ n ∈ (s.program.func f).decls, n.index < s.program.nodes.size)
    (ht : Bound s t call k) (hu : Bound s u call k) (hstmt : p.TakesResults stmt call) :
    stop? (visit stmt up) t = stop? (visit stmt up) u := by
  have hpt := hs.trans ht.outgrows.toIncludes
  have hpu := hs.trans hu.outgrows.toIncludes
  have hends' := ht.outgrows.operandsEnd hends
  have hends'' := hu.outgrows.operandsEnd hends
  cases hstmt with
  | assign hop hcall =>
    rw [stop?_assignCall up hp hclosed hpt hends' hop hcall, stop?_assignCall up hp hclosed hpu hends'' hop hcall,
      ht.length, hu.length]
  | ret hop hcall =>
    have hfunc {v : Flow} (hv : Outgrows s v) (f : FuncId) : v.program.func f = s.program.func f := by
      unfold Program.func
      rw [hv.funcs]
    rw [stop?_returnCall up hpt hends' hop hcall, stop?_returnCall up hpu hends'' hop hcall, ht.length, hu.length,
      ht.outgrows.curfn, hu.outgrows.curfn]
    congr 1
    funext f
    rw [hfunc ht.outgrows, hfunc hu.outgrows, ht.outgrows.outputs (hdecls f), hu.outgrows.outputs (hdecls f)]

end Statements

end Flow

end EscapeAnalysis

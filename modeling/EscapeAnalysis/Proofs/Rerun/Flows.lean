import EscapeAnalysis.Proofs.Recording.Passing
import EscapeAnalysis.Proofs.Recording.ToldFlows
import EscapeAnalysis.Proofs.Rerun.Mirrors

/-!
# Assignments and calls a second time

The second analysis records the flows of an assignment as the first does. It binds a call as the first does if its
callee is known by the same notes, or belongs to the group.
-/

namespace EscapeAnalysis

namespace Rerun

open EscapeAnalysis.Flow

variable {R : Rerun} {s t : Flow}

/-! ## Assignments -/

section Assignments

variable (h : R.Mirrors s t)
include h

theorem Mirrors.size_le : s.program.nodes.size ≤ t.program.nodes.size := by
  rw [h.program.size]
  exact Nat.le_add_right _ _

theorem repeats_closureAddress {src : NodeId} (hsrc : src.index < R.base.nodes.size) {x y : Node}
    (hxy : x.Copies R.shift y) (hty : R.Likes s.program t.program x.ty y.ty) :
    R.Repeats s t (closureAddress src x) (closureAddress (R.shift src) y) fun n n' _ _ => n' = R.shift n := by
  unfold closureAddress
  refine (repeats_ptrTo h hty).bind fun ty ty' s₁ t₁ h₁ _ hptr => ?_
  have hmade : R.base.Made { op := .addr, line := x.line, ty, left := some src } :=
    ⟨by simp, by simp, fun _ m hm => Option.some.inj hm ▸ hsrc⟩
  refine (repeats_addNode h₁ (.made hxy.line rfl) hptr hmade rfl rfl).bind fun addr addr' s₂ t₂ h₂ _ haddr => ?_
  obtain ⟨rfl, _⟩ := haddr
  refine repeats_depthOf h₂ ((repeats_setDepth h₂ addr _).bind fun _ _ s₃ t₃ h₃ _ _ => ?_)
  exact repeats_pure h₃ rfl

theorem repeats_carry (dst : NodeId) {fuel fuel' : Nat} (hfuel : fuel ≤ fuel') (src : NodeId) :
    R.Repeats s t (carry dst fuel src) (carry (R.shift dst) fuel' (R.shift src)) fun _ _ _ _ => True := by
  induction fuel generalizing s t fuel' src with
  | zero => exact triple_throw trivial
  | succ fuel ih =>
    obtain ⟨fuel', rfl⟩ := Nat.exists_eq_add_of_le' (Nat.le_trans (Nat.le_add_left 1 fuel) hfuel)
    have hle := Nat.le_of_succ_le_succ hfuel
    have hx := h.program.node src
    rw [carry_succ, carry_succ]
    refine repeats_getProgram ?_
    dsimp only
    rw [hx.op]
    split
    · exact repeats_link h dst src
    split
    · rename_i hop
      have hsrc : src.index < R.base.nodes.size :=
        Nat.lt_of_not_le fun hle => (h.program.made src hle).1 hop
      refine (repeats_closureAddress h hsrc hx (h.program.ty src)).bind fun addr addr' s₁ t₁ h₁ _ haddr => ?_
      subst haddr
      exact repeats_link h₁ dst addr
    split
    · exact repeats_resultsOf h (repeats_forM h _ fun m _ s₁ t₁ h₁ _ => repeats_link h₁ dst m)
    · rename_i hcall
      rw [h.program.givers (Bool.eq_false_iff.2 hcall)]
      exact repeats_forM h _ fun m _ s₁ t₁ h₁ _ => ih h₁ hle m

theorem repeats_carryAll (dst src : NodeId) :
    R.Repeats s t (carryAll dst src) (carryAll (R.shift dst) (R.shift src)) fun _ _ _ _ => True :=
  repeats_getProgram (repeats_carry h dst (Nat.succ_le_succ h.size_le) src)

theorem repeats_lose (src : NodeId) : R.Repeats s t (lose src) (lose (R.shift src)) fun _ _ _ _ => True := by
  unfold lose
  refine repeats_get ?_
  rw [h.sink]
  exact repeats_carryAll h s.sink src

theorem repeats_assign (dst src : NodeId) :
    R.Repeats s t (assign dst src) (assign (R.shift dst) (R.shift src)) fun _ _ _ _ => True := by
  unfold assign
  refine repeats_getProgram ?_
  cases hplace : s.program.place (s.program.nodes.size + 1) dst with
  | error e => exact triple_throw trivial
  | ok place =>
    rw [h.program.place (Nat.succ_le_succ h.size_le) hplace]
    cases place with
    | nowhere => exact repeats_pure h trivial
    | tracked n => exact repeats_carryAll h n src
    | lost key =>
      refine (repeats_optionForM h key fun k _ => repeats_lose h k).bind fun _ _ s₁ t₁ h₁ _ _ => ?_
      exact repeats_lose h₁ src

theorem repeats_assignTo (dst : Option NodeId) (src : NodeId) :
    R.Repeats s t (dst.forM (assign · src)) ((dst.map R.shift).forM (assign · (R.shift src))) fun _ _ _ _ => True :=
  repeats_optionForM h dst fun n _ => repeats_assign h n src

theorem repeats_derefNode (n : NodeId) :
    R.Repeats s t (derefNode n) (derefNode (R.shift n)) fun m m' _ _ => m' = R.shift m := by
  unfold derefNode
  refine repeats_getProgram ?_
  have hx := h.program.node n
  have hty := h.program.likes_target (h.program.ty n)
  refine (repeats_addNode h (.made hx.line rfl) hty (Program.made_of_op (by simp)) rfl rfl).bind
    fun deref deref' s₁ t₁ h₁ _ hderef => ?_
  obtain ⟨rfl, _⟩ := hderef
  refine repeats_depthOf h₁ ((repeats_setDepth h₁ deref _).bind fun _ _ s₂ t₂ h₂ _ _ => ?_)
  exact repeats_pure h₂ rfl

end Assignments

/-! ## Arguments -/

section Arguments

variable (h : R.Mirrors s t)
include h

/-- A call with one argument takes the results of that, if these are many. -/
theorem repeats_callArgs {n : NodeId} (hn : n.index < R.base.nodes.size)
    (hcounted : ∀ arg ∈ (R.base.node n).list, R.Counted s arg) :
    R.Repeats s t (callArgs (s.program.node n)) (callArgs (t.program.node (R.shift n))) fun args args' _ _ =>
      args' = args.map R.shift ∧ args.length = R.base.argCount n := by
  have hlist : (s.program.node n).list = (R.base.node n).list := by
    obtain ⟨_, _, he⟩ := h.program.nodes.node n hn
    rw [he]
  unfold callArgs Program.argCount
  rw [(h.program.node n).list, hlist]
  cases hargs : (R.base.node n).list with
  | nil => exact repeats_pure h ⟨rfl, rfl⟩
  | cons arg args =>
    cases args with
    | cons arg' args => exact repeats_pure h ⟨rfl, rfl⟩
    | nil =>
      have hmem : arg ∈ (R.base.node n).list := by rw [hargs]; exact List.mem_singleton_self arg
      have hlt := R.closed arg (Or.inl ⟨n, Node.mem_refs_list hmem⟩)
      have hop := (h.program.nodes.node arg hlt).op
      refine repeats_resultsOf h (repeats_getProgram (repeats_pure h ?_))
      rw [(h.program.node arg).op, List.length_map, hop]
      dsimp only
      by_cases hcall : (R.base.node arg).op.isCall = true
      · rw [← (hcounted arg hmem hcall).1]
        split
        · exact ⟨rfl, rfl⟩
        · exact ⟨rfl, rfl⟩
      · rw [if_neg fun hc => hcall hc.1, if_neg fun hc => hcall hc.1, if_neg fun hc => hcall hc.1]
        exact ⟨rfl, rfl⟩

/-- Both recordings hang a slice below a call. -/
theorem repeats_setRight {call rest : NodeId} (htakes : R.base.takesRest call = true)
    (hstub : s.program.Stub R.base.nodes.size rest) :
    R.Repeats s t (modifyProgram (·.modifyNode call fun x => { x with right := some rest }))
      (modifyProgram (·.modifyNode (R.shift call) fun x => { x with right := some (R.shift rest) }))
      fun _ _ s' _ => (s'.program.node call).right ≠ none := by
  have hcall := Program.isCall_of_takesRest htakes
  have hlt := Program.lt_size_of_isCall hcall
  have hlt' := Nat.lt_of_lt_of_le hlt h.program.size_le
  have hop : (s.program.node call).op.isCall = true := by rw [(h.program.nodes.node call hlt).op, hcall]
  have hop' : (t.program.node (R.shift call)).op.isCall = true := by rw [(h.program.node call).op, hop]
  have hself : ((s.program.modifyNode call fun x => { x with right := some rest }).node call).right ≠ none := by
    rw [Program.node_modifyNode_self _ _ hlt']
    exact Option.some_ne_none rest
  have hlist := h.program.list_ne_nil htakes
  have hstub' := h.program.stub (Nat.le_refl _) hstub
  refine triple_of_eq_ok rfl trivial ⟨(), _, rfl, { h with program := h.program.setRight htakes hstub },
    ⟨Program.extends_right hop hlist.1 hstub.hung, Program.extends_right hop' hlist.2 hstub'.hung,
      .refl _, .refl _, rfl, rfl, rfl, fun n _ hr => ?_, fun _ _ hr => hr⟩, hself⟩
  by_cases hn : n = call
  · rw [hn]
    exact hself
  · change ((s.program.modifyNode call _).node n).right ≠ none
    rw [Program.node_modifyNode_of_ne _ _ hn]
    exact hr

theorem repeats_restArg {call : NodeId} (htakes : R.base.takesRest call = true) {sliceTy : Option Ty}
    (hty : R.base.HasType sliceTy) (args : List NodeId) :
    R.Repeats s t (restArg call sliceTy args) (restArg (R.shift call) sliceTy (args.map R.shift)) fun rest rest' s' _ =>
      rest' = R.shift rest ∧ (s'.program.node call).right ≠ none := by
  have hline : (t.program.node (R.shift call)).line = (s.program.node call).line := (h.program.node call).line
  have hcall := Program.lt_size_of_isCall (Program.isCall_of_takesRest htakes)
  have helem (types : TypeStore) (hgrows : R.base.types.Grows types) :
      sliceTy.bind types.elem? = sliceTy.bind R.base.types.elem? := by
    cases sliceTy with
    | none => rfl
    | some ty => exact hgrows.elem? (hty ty rfl)
  unfold restArg
  refine repeats_getProgram ?_
  rw [List.length_map, helem _ h.program.grows, helem _ h.program.grows']
  extract_lets line jp line' jp'
  have hjp {arrayTy arrayTy' : Option Ty} {s₁ t₁ : Flow} (h₁ : R.Mirrors s₁ t₁)
      (harrayTy : R.Likes s₁.program t₁.program arrayTy arrayTy')
      (hslice : ∀ a, arrayTy = some a → s₁.program.types.Has a ∧ s₁.program.types.isSlice a = false) :
      R.Repeats s₁ t₁ (jp arrayTy) (jp' arrayTy') fun rest rest' s' _ =>
        rest' = R.shift rest ∧ (s'.program.node call).right ≠ none := by
    refine (repeats_ptrTo h₁ harrayTy).bind fun ty ty' s₂ t₂ h₂ hk₂ hptr => repeats_get ?_
    rw [h₂.depth]
    refine (repeats_addNode h₂ (.made hline h₂.curfn) (harrayTy.keeps hk₂) (Program.made_of_op (by simp)) rfl rfl).bind
      fun array array' s₃ t₃ h₃ hk₃ harray => ?_
    obtain ⟨rfl, harray, hnode⟩ := harray
    refine (repeats_setDepth h₃ array _).bind fun _ _ s₄ t₄ h₄ hk₄ _ => ?_
    refine (repeats_forM h₄ args fun arg _ s' t' h' _ => repeats_assign h' array arg).bind
      fun _ _ s₅ t₅ h₅ hk₅ _ => ?_
    have hk₅ := hk₄.trans hk₅
    refine (repeats_addNode h₅ (.made hline h₂.curfn) (hptr.keeps (hk₃.trans hk₅)) (Program.made_of_op (by simp)) rfl
      rfl).bind
      fun rest rest' s₆ t₆ h₆ hk₆ hrest => ?_
    obtain ⟨rfl, hindex, hrest⟩ := hrest
    have hk₆ := hk₅.trans hk₆
    have hstub : s₆.program.Stub R.base.nodes.size rest := by
      have hlt : array.index < s₃.program.nodes.size := s₃.program.lt_size_of_op_ne (by rw [hnode]; simp)
      have hsame := hk₆.nodes.node array hlt
      refine ⟨by rw [hrest], array, ?_, ?_, by rw [hrest]; rfl, ?_, ?_, fun a ha => ?_⟩
      · rw [harray]
        exact h₂.program.size_le
      · rw [hindex]
        exact Nat.lt_of_lt_of_le hlt hk₅.nodes.size_le
      · rw [hsame.op, hnode]
      · rw [hk₆.nodes.children hlt (by rw [hnode]; rfl), hnode]
        rfl
      · obtain ⟨_, _, he⟩ := hsame
        rw [he, hnode] at ha
        obtain ⟨hhas, hslice⟩ := hslice a ha
        have hgrows := hk₂.grows.trans (hk₃.grows.trans hk₆.grows)
        exact ⟨hgrows.has hhas, by rw [hgrows.isSlice hhas, hslice]⟩
    refine (repeats_setRight h₆ htakes hstub).bind fun _ _ s₇ t₇ h₇ _ hright => ?_
    refine (repeats_markPending h₇ rest).bind fun _ _ s₈ t₈ h₈ hk₈ _ => ?_
    exact repeats_pure h₈ ⟨rfl, hk₈.rests call hcall hright⟩
  cases hpart : sliceTy.bind R.base.types.elem? with
  | none => exact hjp h .none fun a ha => by cases ha
  | some elem =>
    have harray := repeats_array h (R.drafted.typed.hasType_elem? sliceTy elem hpart) args.length
    refine (harray.map (P := fun ty ty' s' t' => R.Likes s'.program t'.program ty ty' ∧ ∀ a, ty = some a →
      s'.program.types.compound? a = some (.array elem args.length)) fun ty ty' s' t' hq => ⟨hq.1, ?_⟩).bind
        fun arrayTy arrayTy' s₁ t₁ h₁ _ hq => hjp h₁ hq.1 fun a ha => ?_
    · rintro _ ⟨⟩
      exact hq.2
    · have hcompound := hq.2 a ha
      exact ⟨TypeStore.has_of_compound? hcompound, by rw [TypeStore.isSlice, hcompound]⟩

end Arguments

/-! ## Callees of the group -/

theorem restAt_congr {params params' : List Param}
    (h : params'.map (·.variadic) = params.map (·.variadic)) (spread : Bool) (k : Nat) :
    Program.restAt spread params' k = Program.restAt spread params k := by
  induction params generalizing params' k with
  | nil =>
    cases params' with
    | nil => rfl
    | cons _ _ => cases h
  | cons param params ih =>
    cases params' with
    | nil => cases h
    | cons param' params' =>
      obtain ⟨hhead, htail⟩ := List.cons.inj h
      have hhead : param'.variadic = param.variadic := hhead
      cases k with
      | zero => rfl
      | succ k => rw [Program.restAt, Program.restAt, hhead, ih htail]

theorem restAt_length (spread : Bool) (params : List Param) (args : List NodeId) :
    Program.restAt spread params args.length = (passings spread params args).any Passing.isRest := by
  induction params generalizing args with
  | nil => rfl
  | cons param params ih =>
    cases args with
    | nil => rfl
    | cons arg args =>
      rw [List.length_cons, Program.restAt, passings, ih]
      cases param.variadic && !spread <;> rfl

/-- A callee of the group is not asked for notes. -/
theorem bindParams_map_bare (call : NodeId) (spread : Bool) (params : List Param) (args : List NodeId) :
    bindParams call spread (params.map Param.bare) args = bindParams call spread params args := by
  induction params generalizing args with
  | nil => rfl
  | cons param params ih =>
    cases args with
    | nil => rfl
    | cons arg args =>
      simp only [List.map_cons, bindParams, ih]
      rfl

section Calls

variable (h : R.Mirrors s t)
include h

theorem repeats_passingValue {call : NodeId} {x : Passing} (htakes : x.isRest = true → R.base.takesRest call = true)
    (hty : R.base.HasType x.param.ty) :
    R.Repeats s t (passingValue call x) (passingValue (R.shift call) (x.map R.shift)) fun src src' s' _ =>
      src' = R.shift src ∧ (x.isRest = true → (s'.program.node call).right ≠ none) := by
  cases x with
  | one _ arg => exact repeats_pure h ⟨rfl, fun hrest => by cases hrest⟩
  | rest param args =>
    exact (repeats_restArg h (htakes rfl) hty args).mono fun _ _ _ _ _ _ hrest => ⟨hrest.1, fun _ => hrest.2⟩

/-- What is passed is passed again, and a call that takes a slice has it after that. -/
theorem repeats_passings {call : NodeId} {spread : Bool} {params : List Param} {args : List NodeId}
    (htakes : Program.restAt spread params args.length = true → R.base.takesRest call = true)
    {f f' : Passing → FlowM PUnit} {e e' : EscapeError}
    (hf : ∀ x, x.param ∈ params → (x.isRest = true → R.base.takesRest call = true) → ∀ s' t', R.Mirrors s' t' →
      R.Repeats s' t' (f x) (f' (x.map R.shift)) fun _ _ u _ => x.isRest = true → (u.program.node call).right ≠ none) :
    R.Repeats s t
      (do
        (passings spread params args).forM f
        if leftOver spread params args then throw e else return ())
      (do
        (passings spread params (args.map R.shift)).forM f'
        if leftOver spread params (args.map R.shift) then throw e' else return ())
      fun _ _ s' _ => Program.restAt spread params args.length = true → (s'.program.node call).right ≠ none := by
  rw [restAt_length] at htakes ⊢
  rw [passings_map, leftOver_map]
  refine (repeats_forM_all (I := fun x u => x.isRest = true → R.base.takesRest call = true →
    (u.program.node call).right ≠ none) h _ (fun x hx s' t' hst _ => ?_) fun x s' t' s'' t'' hI hk hrest htakes => ?_).bind
      fun _ _ s' t' hst _ hall => ?_
  · have hx' (hrest : x.isRest = true) := htakes (List.any_eq_true.2 ⟨x, hx, hrest⟩)
    exact (hf x (mem_of_mem_passings hx).1 hx' s' t' hst).mono fun _ _ u v _ _ hright hrest _ => hright hrest
  · exact hk.rests call (Program.lt_size_of_isCall (Program.isCall_of_takesRest htakes)) (hI hrest htakes)
  · refine repeats_ite Iff.rfl (fun _ => triple_throw trivial) fun _ => repeats_pure hst fun hrest => ?_
    obtain ⟨x, hx, hrest'⟩ := List.any_eq_true.1 hrest
    exact hall x hx hrest' (htakes hrest)

theorem repeats_bindParams {call : NodeId} {spread : Bool} {params params' : List Param}
    (hbare : params'.map Param.bare = params.map Param.bare) (hty : ∀ param ∈ params, R.base.HasType param.ty)
    (hname : ∀ param ∈ params, ∀ n, param.name = some n → n.index < R.base.nodes.size) {args : List NodeId}
    (htakes : Program.restAt spread params args.length = true → R.base.takesRest call = true) :
    R.Repeats s t (bindParams call spread params args)
      (bindParams (R.shift call) spread params' (args.map R.shift)) fun _ _ s' _ =>
        Program.restAt spread params args.length = true → (s'.program.node call).right ≠ none := by
  rw [← bindParams_map_bare _ _ params', hbare, bindParams_map_bare, bindParams_eq, bindParams_eq]
  refine repeats_passings h htakes fun x hparam hrest s' t' hst => ?_
  refine (repeats_passingValue hst hrest (hty _ hparam)).bind fun src src' s₁ t₁ h₁ _ hsrc => ?_
  obtain ⟨rfl, hright⟩ := hsrc
  have hassign := repeats_assignTo h₁ x.param.name src
  rw [map_shift_name (hname _ hparam)] at hassign
  rw [Passing.param_map]
  refine hassign.mono fun _ _ u v _ hk _ hr => ?_
  exact hk.rests call (Program.lt_size_of_isCall (Program.isCall_of_takesRest (hrest hr))) (hright hr)

/-- The receiver is passed again, if it is passed to the same effect. -/
theorem repeats_recvPassing {p q : Program} {x y : Node} (hop : y.op = x.op)
    (hexpr : q.recvExpr y = (p.recvExpr x).map R.shift) {P : Param → Param → Prop} {recv recv' : Option Param}
    (hrecv : Option.Rel P recv recv') {f f' : Param × NodeId → FlowM PUnit}
    (hf : ∀ param param' expr, P param param' →
      R.Repeats s t (f (param, expr)) (f' (param', R.shift expr)) fun _ _ _ _ => True) :
    R.Repeats s t ((p.recvPassing x recv).forM f) ((q.recvPassing y recv').forM f') fun _ _ _ _ => True := by
  unfold Program.recvPassing
  rw [hop, hexpr]
  split
  · exact repeats_pure h trivial
  · cases hrecv with
    | none => exact repeats_pure h trivial
    | some hrecv =>
      cases p.recvExpr x with
      | none => exact repeats_pure h trivial
      | some expr => exact hf _ _ expr hrecv

theorem Mirrors.state (f : FuncId) : t.info.state f = s.info.state f := by
  unfold Info.state
  rw [h.states]

theorem Mirrors.isEmpty_results (n : NodeId) :
    (t.results.get (R.shift n).index).isEmpty = (s.results.get n.index).isEmpty := by
  rw [h.results, List.isEmpty_map]

/-- Whether a call takes a slice can be asked at any time. -/
theorem Mirrors.takesRest {call : NodeId} (hcall : (R.base.node call).op.isCall = true) :
    R.base.takesRest call = Program.restAt (s.program.node call).variadic (s.program.calleeShape call).params
      (R.base.argCount call) := by
  have hold := Program.lt_size_of_isCall hcall
  obtain ⟨_, _, he⟩ := h.program.nodes.node call hold
  rw [Program.takesRest, hcall, Bool.true_and, restAt_congr (h.program.shape_base hold).2, he]

theorem repeats_callInGroup {call : NodeId} (hcall : (R.base.node call).op.isCall = true) {callee : FuncId}
    (hcallee : s.program.calleeOf call = some callee) {args : List NodeId} (hargs : args.length = R.base.argCount call) :
    R.Repeats s t (callInGroup call callee args) (callInGroup (R.shift call) callee (args.map R.shift))
      fun _ _ s' _ => R.Counted s' call := by
  have hold := Program.lt_size_of_isCall hcall
  have hp := h.program
  have hf := hp.func' callee
  have hx := hp.node call
  have hshape : s.program.calleeShape call =
      ⟨(s.program.func callee).results.map (·.ty), (s.program.func callee).recv, (s.program.func callee).params⟩ := by
    unfold Program.calleeShape
    rw [hcallee]
  have htakes := h.takesRest hcall
  rw [hshape, ← hargs] at htakes
  have hcount := (hp.shape_base hold).1
  rw [hshape, List.length_map] at hcount
  rw [← hp.length_resultNames] at hcount
  have hinput {param : Param} (hparam : param ∈ (s.program.func callee).params) :
      param ∈ (s.program.func callee).inputs ++ (s.program.func callee).results := by
    simp [Func.inputs, hparam]
  rw [callInGroup_eq, callInGroup_eq]
  refine repeats_get ?_
  rw [h.state, h.isEmpty_results]
  refine repeats_ite Iff.rfl (fun _ => triple_throw trivial) fun _ => ?_
  rw [hp.resultNames, hx.variadic]
  refine (repeats_setResults h fun _ => hcount).bind fun _ _ s₁ t₁ h₁ _ hset => ?_
  have hlen : (s₁.results.get call.index).length = R.base.resultCount call := by rw [hset, hcount]
  refine (repeats_recvPassing h₁ hx.op (hp.recvExpr hx) (hp.recvName callee) fun param param' expr hname => ?_).bind
    fun _ _ s₂ t₂ h₂ hk₂ _ => ?_
  · rw [hname]
    exact repeats_assignTo h₁ param.name expr
  · refine (repeats_bindParams h₂ hf.params (fun param hparam => hp.hasType_param (hinput hparam))
      (fun param hparam n hn => hp.name_param (hinput hparam) hn) fun hrest => htakes.trans hrest).mono
        fun _ _ s₃ t₃ _ hk₃ hright _ => ⟨?_, fun hrest => hright (htakes.symm.trans hrest)⟩
    exact hk₃.results call hcall (hk₂.results call hcall hlen)

/-! ## Callees known by their notes -/

theorem repeats_derefTimes (k : Nat) (n : NodeId) :
    R.Repeats s t (derefTimes k n) (derefTimes k (R.shift n)) fun m m' _ _ => m' = R.shift m := by
  induction k generalizing s t n with
  | zero => exact repeats_pure h rfl
  | succ k ih =>
    refine (repeats_derefNode h n).bind fun m m' s₁ t₁ h₁ _ hm => ?_
    subst hm
    exact ih h₁ m

theorem repeats_perform (src : NodeId) (x : Told) : R.Repeats s t (perform src x)
    (perform (R.shift src) ⟨x.result.map R.shift, x.derefs⟩) fun _ _ _ _ => True := by
  refine (repeats_derefTimes h x.derefs src).bind fun n n' s₁ t₁ h₁ _ hn => ?_
  subst hn
  cases x.result with
  | none => exact repeats_lose h₁ n
  | some out => exact repeats_assign h₁ out n

theorem repeats_applyNote (note : Option String) (outs : List NodeId) (src : NodeId) :
    R.Repeats s t (applyNote note outs src) (applyNote note (outs.map R.shift) (R.shift src))
      fun w w' _ _ => w' = w := by
  rw [applyNote_eq, applyNote_eq, Word.told_map, List.length_map]
  refine (repeats_forM h _ fun x _ s₁ t₁ h₁ _ => repeats_perform h₁ src x).bind fun _ _ s₁ t₁ h₁ _ _ => ?_
  exact repeats_ite Iff.rfl (fun _ => triple_throw trivial) fun _ => repeats_pure h₁ rfl

omit h in
theorem modifyNode_of_size_le {p : Program} {n : NodeId} (hn : p.nodes.size ≤ n.index) (f : Node → Node) :
    p.modifyNode n f = p := by
  have hnodes : p.nodes.modify n.index f = p.nodes := by
    refine Array.ext_getElem? fun i => ?_
    rw [Array.getElem?_modify]
    split
    · rename_i hi
      rw [← hi, Array.getElem?_eq_none hn]
      rfl
    · rfl
  unfold Program.modifyNode
  rw [hnodes]

omit h in
theorem markStatementLocal_eq (s : Flow) (src : NodeId) : ∃ n, markStatementLocal src s =
    .ok () { s with program := s.program.modifyNode n fun x => { x with noEscape := true } } := by
  -- A node that is not there stands for no change.
  have hself := modifyNode_of_size_le (p := s.program) (n := ⟨s.program.nodes.size⟩) (Nat.le_refl _)
    fun x => { x with noEscape := true }
  rcases Flow.markStatementLocal_eq s src with he | ⟨n, _, _, he⟩
  · exact ⟨⟨s.program.nodes.size⟩, by rw [hself, he]⟩
  · exact ⟨n, he⟩

theorem repeats_markStatementLocal (src : NodeId) :
    R.Repeats s t (markStatementLocal src) (markStatementLocal (R.shift src)) fun _ _ _ _ => True := by
  obtain ⟨n, hn⟩ := markStatementLocal_eq s src
  obtain ⟨n', hn'⟩ := markStatementLocal_eq t (R.shift src)
  refine triple_of_eq_ok hn trivial ⟨(), _, hn', { h with program := h.program.noEscape n n' },
    ⟨s.program.extends_noEscape n, t.program.extends_noEscape n', .refl _, .refl _, rfl, rfl, rfl, fun m _ hr => ?_,
      fun _ _ hr => hr⟩, trivial⟩
  exact Program.rel_modifyNode (R := fun x y => x.right ≠ none → y.right ≠ none) (fun _ h => h) m id hr

theorem repeats_noteValue {p q : Program} {param param' : Param} (hnote : param'.note = param.note)
    (hty : q.hasPointers param'.ty = p.hasPointers param.ty) (detached : Bool) (outs : List NodeId) (src : NodeId) :
    R.Repeats s t (noteValue p detached outs param src)
      (noteValue q detached (outs.map R.shift) param' (R.shift src)) fun _ _ _ _ => True := by
  unfold noteValue
  rw [hnote, hty]
  refine repeats_ite Iff.rfl (fun _ => ?_) fun _ => repeats_pure h trivial
  refine (repeats_applyNote h param.note outs src).bind fun w w' s₁ t₁ h₁ _ hw => ?_
  subst hw
  exact repeats_ite Iff.rfl (fun _ => repeats_markStatementLocal h₁ src) fun _ => repeats_pure h₁ trivial

theorem repeats_applyNotes {call : NodeId} {spread : Bool} (detached : Bool) (outs : List NodeId) {params : List Param}
    (hty : ∀ param ∈ params, R.base.HasType param.ty) {args : List NodeId}
    (htakes : Program.restAt spread params args.length = true → R.base.takesRest call = true) :
    R.Repeats s t (applyNotes call spread detached outs params args)
      (applyNotes (R.shift call) spread detached (outs.map R.shift) params (args.map R.shift)) fun _ _ s' _ =>
        Program.restAt spread params args.length = true → (s'.program.node call).right ≠ none := by
  rw [applyNotes_eq, applyNotes_eq]
  refine repeats_passings h htakes fun x hparam hrest s' t' hst => ?_
  refine (repeats_passingValue hst hrest (hty _ hparam)).bind fun src src' s₁ t₁ h₁ _ hsrc => repeats_getProgram ?_
  obtain ⟨rfl, hright⟩ := hsrc
  have hpointers := h₁.program.hasPointers (likes_old (hty _ hparam) s₁.program t₁.program)
  rw [Passing.param_map]
  refine (repeats_noteValue h₁ rfl hpointers detached outs src).mono fun _ _ u v _ hk _ hr => ?_
  exact hk.rests call (Program.lt_size_of_isCall (Program.isCall_of_takesRest (hrest hr))) (hright hr)

theorem repeats_makeOuts (line : UInt32) (i : Nat) {tys : List (Option Ty)} (htys : ∀ ty ∈ tys, R.base.HasType ty) :
    R.Repeats s t (makeOuts line i tys) (makeOuts line i tys) fun outs outs' _ _ =>
      outs' = outs.map R.shift ∧ outs.length = tys.length := by
  induction tys generalizing s t i with
  | nil => exact repeats_pure h ⟨rfl, rfl⟩
  | cons ty tys ih =>
    unfold makeOuts
    refine repeats_get ?_
    have hty := likes_old (htys ty List.mem_cons_self) s.program t.program
    rw [h.depth]
    refine (repeats_addNode h (.made rfl h.curfn) hty (Program.made_of_op (by simp)) rfl rfl).bind
      fun out out' s₁ t₁ h₁ _ hout => ?_
    obtain ⟨rfl, _⟩ := hout
    refine (repeats_setDepth h₁ out _).bind fun _ _ s₂ t₂ h₂ _ _ => ?_
    refine (ih h₂ (i + 1) fun ty hty => htys ty (List.mem_cons_of_mem _ hty)).bind fun outs outs' s₃ t₃ h₃ _ houts => ?_
    obtain ⟨rfl, hlen⟩ := houts
    exact repeats_pure h₃ ⟨rfl, congrArg (· + 1) hlen⟩

theorem repeats_callByNotes {call : NodeId} (hcall : (R.base.node call).op.isCall = true)
    (hknown : ∀ f, s.program.calleeOf call = some f → t.program.func f = s.program.func f) (detached : Bool)
    {args : List NodeId} (hargs : args.length = R.base.argCount call) :
    R.Repeats s t (callByNotes call detached args) (callByNotes (R.shift call) detached (args.map R.shift))
      fun _ _ s' _ => R.Counted s' call := by
  have hp := h.program
  have hx := hp.node call
  have htakes := h.takesRest hcall
  rw [← hargs] at htakes
  obtain ⟨hresults, hparams, hrecv⟩ := hp.calleeShape hknown
  obtain ⟨hresultTy, hparamTy⟩ := hp.hasType_shape call
  have hcount := (hp.shape_base (Program.lt_size_of_isCall hcall)).1
  rw [callByNotes_eq, callByNotes_eq]
  refine repeats_get ?_
  rw [h.isEmpty_results]
  refine repeats_ite Iff.rfl (fun _ => triple_throw trivial) fun _ => ?_
  rw [hx.line, hx.variadic, hresults, hparams]
  refine (repeats_makeOuts h _ _ hresultTy).bind fun outs outs' s₁ t₁ h₁ hk₁ houts => ?_
  obtain ⟨rfl, hlen⟩ := houts
  refine (repeats_setResults h₁ fun _ => hlen.trans hcount).bind fun _ _ s₂ t₂ h₂ hk₂ hset => ?_
  have hlen : (s₂.results.get call.index).length = R.base.resultCount call := by rw [hset, hlen, hcount]
  refine (repeats_recvPassing h₂ hx.op (hp.recvExpr hx) hrecv fun param param' expr hparam =>
    repeats_noteValue h₂ hparam.1 (hp.hasPointers hparam.2) true outs expr).bind fun _ _ s₃ t₃ h₃ hk₃ _ => ?_
  refine (repeats_applyNotes h₃ detached outs hparamTy fun hrest => htakes.trans hrest).mono
    fun _ _ s₄ t₄ _ hk₄ hright _ => ⟨?_, fun hrest => hright (htakes.symm.trans hrest)⟩
  exact hk₄.results call hcall (hk₃.results call hcall hlen)

/-! ## Calls -/

/-- A call of a function of the group, or of one that is known by the same notes. -/
theorem repeats_call {n : NodeId} (hcall : (R.base.node n).op.isCall = true)
    (hknown : ∀ f, R.base.calleeOf n = some f → s.program.isGroupCandidate f = true ∧ s.info.state f ≠ .noted ∨
      t.program.func f = s.program.func f)
    (hcounted : ∀ arg ∈ (R.base.node n).list, R.Counted s arg) (up : Option NodeId) :
    R.Repeats s t (call n up) (call (R.shift n) (up.map R.shift)) fun _ _ s' _ => R.Counted s' n := by
  have hold := Program.lt_size_of_isCall hcall
  have hp := h.program
  unfold call
  refine repeats_modify_bind (.of_eq rfl rfl rfl rfl) (repeats_get ?_)
  have hmet : R.Mirrors { s with calls := n :: s.calls } { t with calls := R.shift n :: t.calls } := { h with }
  have hdetached : (up.map R.shift).any (fun up =>
      decide ((t.program.node up).op = .deferStmt ∨ (t.program.node up).op = .goStmt)) =
      up.any fun up => decide ((s.program.node up).op = .deferStmt ∨ (s.program.node up).op = .goStmt) := by
    cases up with
    | none => rfl
    | some up => simp only [Option.map_some, Option.any_some, (hp.node up).op]
  dsimp only
  rw [hdetached, hp.calleeOf, hp.calleeOf_base hold]
  refine (repeats_callArgs hmet hold hcounted).bind fun args args' s₁ t₁ h₁ hk₁ hargs => ?_
  obtain ⟨rfl, hargs⟩ := hargs
  have hsame {f : FuncId} (hf : t.program.func f = s.program.func f) : t₁.program.func f = s₁.program.func f := by
    unfold Program.func
    rw [hk₁.funcs, hk₁.funcs']
    exact hf
  have hcallee := h₁.program.calleeOf_base hold
  cases hf : R.base.calleeOf n with
  | none => exact repeats_callByNotes h₁ hcall (fun f hf' => by rw [hcallee, hf] at hf'; cases hf') _ hargs
  | some callee =>
    refine repeats_ite (by rw [hp.isGroupCandidate, h.state]) (fun _ => ?_) fun hgroup => ?_
    · exact repeats_callInGroup h₁ hcall (hcallee.trans hf) hargs
    · refine repeats_callByNotes h₁ hcall (fun f hf' => ?_) _ hargs
      rw [hcallee, hf] at hf'
      cases hf'
      exact hsame ((hknown callee hf).resolve_left hgroup)

end Calls

end Rerun

end EscapeAnalysis

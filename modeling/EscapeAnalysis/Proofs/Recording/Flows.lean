import EscapeAnalysis.Proofs.Recording.Changes
import EscapeAnalysis.Proofs.Recording.Passing
import EscapeAnalysis.Proofs.Recording.ToldFlows

/-!
# Recording assignments and calls

Assignments and calls make changes only (`Flow.Records`), if the nodes they are given are valid. Nodes that they
make for themselves are valid again.
-/

namespace EscapeAnalysis

open Relation (ReflTransGen)

namespace Flow

variable {A : Area} {s : Flow}

/-! ## Parts of the graph -/

theorem records_setDepth {n : NodeId} (hn : s.Valid A n) {d : Int} (hd : s.Puts A n d) :
    Records A s (setDepth n d) fun _ _ => True :=
  triple_modify (.single (.depthOf hn hd))

theorem records_setResults {call : NodeId} (hcall : call ∈ s.calls) {rs : List NodeId}
    (hrs : ∀ m ∈ rs, s.Valid A m ∧ A.stand m ∧ s.IsResult m) : Records A s (setResults call rs) fun _ _ => True :=
  triple_modify (.single (.results hcall hrs))

theorem records_intern (c : Compound) : Records A s (withTypes (·.intern c)) fun _ _ => True :=
  ⟨.single (.types c), trivial⟩

theorem records_ptrTo (ty : Option Ty) : Records A s (ptrTo ty) fun _ _ => True := by
  cases ty with
  | none => exact triple_pure trivial
  | some ty => exact (records_intern (.ptr ty)).map fun _ _ _ => trivial

theorem records_addNode (hs : s.Refs A) {x : Node} (hrefs : ∀ m ∈ x.refs, s.Valid A m)
    (hcls : x.op = .name → x.cls = .auto) (hop : x.op ≠ .closure ∧ x.op.selects = false) :
    Records A s (addNode x) fun n t => t.Valid A n ∧ t.program.node n = x ∧ A.stand n := by
  obtain ⟨hnode, hstand⟩ := hs.fresh ⟨s.program.nodes.size⟩ (Nat.le_refl _)
  have hc : Changes A s _ := .single (.node x hrefs hcls hop)
  exact ⟨hc, ⟨hnode, fun _ => by simp⟩, Program.node_addNode_self _ _, hstand⟩

theorem records_link {dst src : NodeId} (hdst : s.Takes A dst) (hsrc : s.Gives A src) :
    Records A s (link dst src) fun _ _ => True := by
  refine triple_modify ?_
  split
  · exact .refl
  · rename_i hlink
    rw [not_or, Bool.not_eq_true] at hlink
    exact .single (.edge hdst hsrc hlink.1 hlink.2)

theorem records_markPending {n : NodeId} (hn : s.Valid A n) (hop : (s.program.node n).op ≠ .name)
    (hin : s.program.Within A.walk n) : Records A s (markPending n) fun _ _ => True := by
  refine triple_modify ?_
  have hword : Change A s _ := .word hn (fun h => absurd h hop) (Or.inl rfl) fun _ => ⟨hin, rfl⟩
  have hdepth : Change A _ _ := .depthOf ((frame_change hword).valid hn) (puts_of_op hop s.depth)
  exact ((ReflTransGen.single hword).tail hdepth).tail (.pending n)

/-! ## Assignments -/

theorem place_valid (hs : s.Refs A) {fuel : Nat} {dst : NodeId} (hdst : s.Valid A dst) {place : Place}
    (h : s.program.place fuel dst = .ok place) :
    (∀ n, place = .tracked n → s.Valid A n) ∧ ∀ key, place = .lost (some key) → s.Valid A key := by
  have hwhole {b : NodeId} (hb : ReflTransGen s.program.PieceOf dst b) : s.Valid A b := by
    induction hb with
    | refl => exact hdst
    | tail _ hm ih => exact hs.node _ ih _ (Node.mem_refs_left hm.left)
  rcases Program.place_eq_ok h with rfl | ⟨b, hb, ⟨rfl, _⟩ | ⟨key, rfl, hkey⟩⟩
  · exact ⟨nofun, nofun⟩
  · refine ⟨fun n hn => ?_, nofun⟩
    cases hn
    exact hwhole hb
  · refine ⟨nofun, fun k hk => ?_⟩
    exact hs.node b (hwhole hb) _ (Node.mem_refs_right (hkey k (Place.lost.inj hk)).2)

theorem keeps_of_place {p : Program} {fuel : Nat} {dst n : NodeId} (h : p.place fuel dst = .ok (.tracked n)) :
    (p.node n).keeps = true := by
  rcases Program.place_eq_ok h with h | ⟨b, _, ⟨h, hkeeps⟩ | ⟨key, h, _⟩⟩ <;> cases h
  exact hkeeps

theorem blames_place {p : Program} {fuel : Nat} {dst : NodeId} {e : EscapeError} (h : p.place fuel dst = .error e) :
    Blames A e s := by
  induction fuel generalizing dst with
  | zero =>
    cases h
    exact trivial
  | succ fuel ih =>
    rw [Program.place_succ] at h
    cases hbase : p.base? dst with
    | some m =>
      rw [hbase] at h
      exact ih h
    | none =>
      rw [hbase, Option.elim_none] at h
      simp only [Program.wholePlace] at h
      split at h
      · cases h
      split at h
      · cases h
      · cases h
        exact trivial

theorem records_closureAddress (hs : s.Refs A) {src : NodeId} (hsrc : s.Valid A src) (x : Node) :
    Records A s (closureAddress src x) fun n t => t.Gives A n := by
  unfold closureAddress
  refine (records_ptrTo x.ty).bind fun ty t ht _ => ?_
  refine (records_addNode (hs.changes ht) ?_ (by simp) ⟨by simp, rfl⟩).bind fun addr u hu haddr => ?_
  · simp [Node.refs, Node.children, ht.frame.valid hsrc]
  · have hop : (u.program.node addr).op ≠ .name := by simp [haddr.2.1]
    refine triple_depthOf ((records_setDepth haddr.1 (puts_of_op hop _)).bind fun _ v hv _ => triple_pure ?_)
    exact hv.frame.gives ⟨haddr.1, Or.inl (by rw [haddr.2.1]; rfl)⟩

theorem records_carry (hs : s.Refs A) {dst : NodeId} (hdst : s.Takes A dst) (fuel : Nat) {src : NodeId}
    (hsrc : s.Valid A src) : Records A s (carry dst fuel src) fun _ _ => True := by
  induction fuel generalizing s src with
  | zero => exact triple_throw ⟨.refl, trivial⟩
  | succ fuel ih =>
    rw [carry_succ]
    refine triple_getProgram ?_
    dsimp only
    split
    · exact records_link hdst ⟨hsrc, Or.inl ‹_›⟩
    split
    · exact (records_closureAddress hs hsrc _).bind fun addr t ht haddr => records_link (ht.frame.takes hdst) haddr
    split
    · refine triple_resultsOf (triple_forM _ fun m hm t ht => ?_)
      obtain ⟨hvalid, _, hresult⟩ := hs.results _ m hm
      exact records_link (ht.frame.takes hdst) (ht.frame.gives ⟨hvalid, Or.inr hresult⟩)
    · refine triple_forM _ fun m hm t ht => ih (hs.changes ht) (ht.frame.takes hdst) (ht.frame.valid ?_)
      exact hs.node src hsrc m (Node.mem_refs_children (Program.mem_children_of_mem_givers hm))

theorem records_carryAll (hs : s.Refs A) {dst src : NodeId} (hdst : s.Takes A dst) (hsrc : s.Valid A src) :
    Records A s (carryAll dst src) fun _ _ => True :=
  triple_getProgram (records_carry hs hdst _ hsrc)

theorem records_lose (hs : s.Refs A) {src : NodeId} (hsrc : s.Valid A src) : Records A s (lose src) fun _ _ => True :=
  triple_get (records_carryAll hs (Or.inl rfl) hsrc)

theorem records_assign (hs : s.Refs A) {dst src : NodeId} (hdst : s.Valid A dst) (hsrc : s.Valid A src) :
    Records A s (assign dst src) fun _ _ => True := by
  unfold assign
  refine triple_getProgram ?_
  cases hplace : s.program.place (s.program.nodes.size + 1) dst with
  | error e => exact triple_throw ⟨.refl, blames_place hplace⟩
  | ok place =>
    obtain ⟨htracked, hkey⟩ := place_valid hs hdst hplace
    cases place with
    | nowhere => exact triple_pure trivial
    | tracked n => exact records_carryAll hs (Or.inr ⟨htracked n rfl, keeps_of_place hplace⟩) hsrc
    | lost key =>
      refine (triple_optionForM key fun k hk => records_lose hs (hkey k (by rw [hk]))).bind fun _ t ht _ => ?_
      exact records_lose (hs.changes ht) (ht.frame.valid hsrc)

theorem records_derefNode (hs : s.Refs A) {n : NodeId} (hn : s.Valid A n) :
    Records A s (derefNode n) fun m t => t.Valid A m := by
  unfold derefNode
  refine triple_getProgram ?_
  refine (records_addNode hs ?_ (by simp) ⟨by simp, rfl⟩).bind fun deref u hu hderef => ?_
  · simp [Node.refs, Node.children, hn]
  · have hop : (u.program.node deref).op ≠ .name := by simp [hderef.2.1]
    refine triple_depthOf ((records_setDepth hderef.1 (puts_of_op hop _)).bind fun _ v hv _ => triple_pure ?_)
    exact hv.frame.valid hderef.1

/-! ## Arguments -/

theorem Frame.valid_all {s t : Flow} (h : Frame s t) {xs : List NodeId} (hxs : ∀ m ∈ xs, s.Valid A m) :
    ∀ m ∈ xs, t.Valid A m :=
  fun m hm => h.valid (hxs m hm)

/-- The call may pass the node as an argument. -/
def Passes (A : Area) (s : Flow) (call m : NodeId) : Prop :=
  s.Valid A m ∧ (m ∈ (s.program.node call).list ∨ A.stand m)

theorem op_ne_block_of_isCall {x : Node} (h : x.op.isCall = true) : x.op ≠ .block := by
  intro hop
  rw [hop] at h
  cases h

theorem isCall_of_frame {s t : Flow} (h : Frame s t) {n : NodeId} (hn : (s.program.node n).op.isCall = true) :
    (t.program.node n).op.isCall = true := by
  rw [h.op (op_ne_block_of_isCall hn), hn]

theorem list_of_frame {s t : Flow} (h : Frame s t) {n : NodeId} (hn : (s.program.node n).op.isCall = true) :
    (t.program.node n).list = (s.program.node n).list :=
  (h.node n (s.program.lt_size_of_op_ne (op_ne_block_of_isCall hn))).list

/-- The call is walked over, and passes the arguments. -/
structure PassesAll (A : Area) (s : Flow) (call : NodeId) (args : List NodeId) : Prop where
  within : A.walk call
  isCall : (s.program.node call).op.isCall = true
  list : (s.program.node call).list ≠ []
  passes : ∀ m ∈ args, s.Passes A call m

theorem PassesAll.frame {s t : Flow} {call : NodeId} {args : List NodeId} (h : PassesAll A s call args) (ht : Frame s t) :
    PassesAll A t call args := by
  have hlist := list_of_frame ht h.isCall
  refine ⟨h.within, isCall_of_frame ht h.isCall, by rw [hlist]; exact h.list, fun m hm => ?_⟩
  obtain ⟨hvalid, hpass⟩ := h.passes m hm
  exact ⟨ht.valid hvalid, by rw [hlist]; exact hpass⟩

theorem PassesAll.one {call m : NodeId} {args : List NodeId} (h : PassesAll A s call args) (hm : s.Passes A call m) :
    PassesAll A s call [m] :=
  { h with passes := List.forall_mem_singleton.2 hm }

theorem PassesAll.passing {call : NodeId} {args : List NodeId} (h : args ≠ [] → PassesAll A s call args) {spread : Bool}
    {params : List Param} {x : Passing} (hx : x ∈ passings spread params args) : PassesAll A s call x.args :=
  have hargs := h (args_ne_nil_of_mem_passings hx)
  { hargs with passes := fun m hm => hargs.passes m ((mem_of_mem_passings hx).2 m hm) }

theorem records_callArgs (hs : s.Refs A) {call : NodeId} (hcall : s.Valid A call) :
    Records A s (callArgs (s.program.node call)) fun args t =>
      t = s ∧ (args ≠ [] → (s.program.node call).list ≠ []) ∧ ∀ m ∈ args, t.Passes A call m := by
  have hlist : ∀ m ∈ (s.program.node call).list, s.Passes A call m := fun m hm =>
    ⟨hs.node call hcall m (Node.mem_refs_list hm), Or.inl hm⟩
  unfold callArgs
  split
  · rename_i arg harg
    refine triple_resultsOf (triple_getProgram (triple_pure ⟨rfl, fun _ => by simp [harg], ?_⟩))
    split
    · exact fun m hm => ⟨(hs.results _ m hm).1, Or.inr (hs.results _ m hm).2.1⟩
    · rw [← harg]
      exact hlist
  · exact triple_pure ⟨rfl, id, hlist⟩

/-- The address of an array without parts is hung below a call. -/
theorem records_hangRest (hs : s.Refs A) {call array : NodeId} {args : List NodeId} (hargs : PassesAll A s call args)
    (harray : s.Valid A array) (hop : (s.program.node array).op = .arrayLit)
    (hchildren : (s.program.node array).children = []) (line : UInt32) (ty : Option Ty) (curfn : Option FuncId) :
    Records A s (do
        let rest ← addNode { op := .restArg, line, ty, left := some array, curfn }
        modifyProgram (·.modifyNode call fun x => { x with right := some rest })
        markPending rest
        return rest)
      fun rest t => t.Valid A rest ∧ A.stand rest ∧ (t.program.node rest).op = .restArg ∧
        (t.program.node rest).left = some array ∧ (t.program.node rest).ty = ty := by
  refine (records_addNode hs (by simp [Node.refs, Node.children, harray]) (by simp) ⟨by simp, rfl⟩).bind
    fun rest t ht hrest => ?_
  obtain ⟨hvalid, hnode, hstand⟩ := hrest
  have hlt := s.program.lt_size_of_op_ne (n := array) (by rw [hop]; simp)
  have hhung : t.program.Hung rest := by
    refine ⟨by rw [hnode], array, by rw [hnode]; rfl, ?_, ?_⟩
    · rw [(ht.frame.node array hlt).op, hop]
    · rw [ht.frame.nodes.children hlt (by rw [hop]; rfl), hchildren]
  have hargs := hargs.frame ht.frame
  refine (triple_modify (.single (.right hargs.within hargs.isCall hargs.list hvalid hhung))).bind fun _ u hu _ => ?_
  have hrest : (u.program.node rest).op ≠ .name := by
    rw [hu.frame.op (by rw [hnode]; simp), hnode]
    simp
  refine (records_markPending (hu.frame.valid hvalid) hrest (Or.inr (Or.inl (hu.frame.nodes.hung hhung)))).bind
    fun _ v hv _ => triple_pure ⟨(hu.trans hv).frame.valid hvalid, hstand, ?_⟩
  obtain ⟨_, _, he⟩ := (hu.trans hv).frame.node rest (t.program.lt_size_of_op_ne (by rw [hnode]; simp))
  rw [he, hnode]
  exact ⟨rfl, rfl, rfl⟩

theorem records_restArg (hs : s.Refs A) {call : NodeId} (sliceTy : Option Ty) {args : List NodeId}
    (hargs : PassesAll A s call args) : Records A s (restArg call sliceTy args) fun n t => t.Passes A call n := by
  unfold restArg
  refine triple_getProgram ?_
  extract_lets line jp
  have hjp (arrayTy : Option Ty) {t : Flow} (ht : Changes A s t) :
      Records A t (jp arrayTy) fun n t => t.Passes A call n := by
    refine (records_ptrTo arrayTy).bind fun ty t₁ h₁ _ => triple_get ?_
    have hs₁ := (hs.changes ht).changes h₁
    refine (records_addNode hs₁ (by simp [Node.refs, Node.children]) (by simp) ⟨by simp, rfl⟩).bind
      fun array t₂ h₂ harray => ?_
    refine (records_setDepth harray.1 (puts_of_op (by simp [harray.2.1]) _)).bind fun _ t₃ h₃ _ => ?_
    have hargs₃ := hargs.frame (((ht.trans h₁).trans h₂).trans h₃).frame
    have hs₃ := (hs₁.changes h₂).changes h₃
    refine (triple_forM args fun m hm u hu => records_assign (hs₃.changes hu)
      ((h₃.trans hu).frame.valid harray.1) (hu.frame.valid (hargs₃.passes m hm).1)).bind fun _ t₄ h₄ _ => ?_
    -- The array keeps its operator and gets no parts, whatever flows into it.
    have harray₂ : (t₂.program.node array).op = .arrayLit ∧ (t₂.program.node array).children = [] := by
      rw [harray.2.1]
      exact ⟨rfl, rfl⟩
    have hlt := t₂.program.lt_size_of_op_ne (n := array) (by rw [harray₂.1]; simp)
    have hframe := (h₃.trans h₄).frame
    refine (records_hangRest (hs₃.changes h₄) (hargs₃.frame h₄.frame) (hframe.valid harray.1) ?_ ?_ _ _ _).mono
      fun _ _ _ h => ⟨h.1, Or.inr h.2.1⟩
    · rw [(hframe.node array hlt).op, harray₂.1]
    · rw [hframe.nodes.children hlt (by rw [harray₂.1]; rfl), harray₂.2]
  split
  · exact ((records_intern _).map (R := fun _ _ => True) fun _ _ _ => trivial).bind
      fun arrayTy t ht _ => hjp arrayTy ht
  · exact hjp none .refl

theorem records_passingValue (hs : s.Refs A) {call : NodeId} {x : Passing} (hx : PassesAll A s call x.args) :
    Records A s (passingValue call x) fun src t => PassesAll A t call [src] := by
  cases x with
  | one _ arg => exact triple_pure hx
  | rest param args => exact (records_restArg hs param.ty hx).mono fun src t ht hsrc => (hx.frame ht.frame).one hsrc

/-- A loop over what is passed to the parameters is followed by a check of the number of arguments. -/
theorem records_passings {call : NodeId} {args : List NodeId} (hargs : args ≠ [] → PassesAll A s call args)
    {spread : Bool} {params : List Param} {f : Passing → FlowM PUnit}
    (hf : ∀ x, x.param ∈ params → ∀ t, Changes A s t → PassesAll A t call x.args → Records A t (f x) fun _ _ => True) :
    Records A s (do
      (passings spread params args).forM f
      if leftOver spread params args then throw (.argCount call) else return ()) fun _ _ => True := by
  refine (triple_forM _ fun x hx t ht => hf x (mem_of_mem_passings hx).1 t ht
    ((PassesAll.passing hargs hx).frame ht.frame)).bind fun _ t _ _ => ?_
  split
  · exact triple_throw ⟨.refl, trivial⟩
  · exact triple_pure trivial

/-! ## Callees of the group -/

theorem records_bindPassing (hs : s.Refs A) {call : NodeId} {x : Passing} (hx : PassesAll A s call x.args)
    (hname : ∀ n, x.param.name = some n → s.Valid A n) : Records A s (bindPassing call x) fun _ _ => True := by
  refine (records_passingValue hs hx).bind fun src t ht hsrc => triple_optionForM _ fun n hn => ?_
  exact records_assign (hs.changes ht) (ht.frame.valid (hname n hn)) (hsrc.passes src List.mem_cons_self).1

theorem records_bindParams (hs : s.Refs A) {call : NodeId} (spread : Bool) {params : List Param}
    (hparams : ∀ param ∈ params, ∀ n, param.name = some n → s.Valid A n) {args : List NodeId}
    (hargs : args ≠ [] → PassesAll A s call args) : Records A s (bindParams call spread params args) fun _ _ => True := by
  rw [bindParams_eq]
  refine records_passings hargs fun x hparam t ht hx => ?_
  exact records_bindPassing (hs.changes ht) hx fun n hn => ht.frame.valid (hparams _ hparam n hn)

theorem recvExpr_valid (hs : s.Refs A) {call expr : NodeId} (hcall : s.Valid A call)
    (h : s.program.recvExpr (s.program.node call) = some expr) : s.Valid A expr := by
  obtain ⟨m, hm, hexpr⟩ := Option.bind_eq_some_iff.1 h
  exact hs.node m (hs.node call hcall m (Node.mem_refs_left hm)) expr (Node.mem_refs_left hexpr)

/-- The call is being bound. If it has results already, it was met before. -/
structure Binds (A : Area) (s : Flow) (call : NodeId) : Prop where
  valid : s.Valid A call
  within : A.walk call
  isCall : (s.program.node call).op.isCall = true
  met : call ∈ s.calls
  again : s.results.get call.index ≠ [] → 2 ≤ s.calls.count call

section Group

variable (hs : s.Refs A) {call : NodeId} (hcall : Binds A s call) {callee : FuncId}
  (hcallee : s.program.calleeOf call = some callee) (hcand : s.program.isGroupCandidate callee = true)
  (hnoted : s.info.state callee ≠ .noted) {args : List NodeId}
include hs hcall hcallee hcand hnoted

/-- A call of a function of the group leaves what the binding of its arguments leaves. -/
theorem records_callInGroup_bind {Q : Flow → Prop}
    (hbind : A.func callee → ∀ t, Changes A s t → Records A t (bindParams call (s.program.node call).variadic
      (s.program.func callee).params args) fun _ u => Q u) :
    Records A s (callInGroup call callee args) fun _ u => Q u := by
  rw [callInGroup_eq]
  refine triple_get ?_
  split
  · rename_i hfault
    refine triple_throw ⟨.refl, hcall.within, ?_⟩
    rcases hfault with hstate | hresults
    · exact Or.inr ⟨callee, hcallee, hcand, hstate⟩
    · exact Or.inl (hcall.again fun h => by simp [h] at hresults)
  · rename_i hknown
    have hfunc : A.func callee := by
      refine hs.states callee ?_
      cases hstate : s.info.state callee with
      | unknown => exact absurd (Or.inl hstate) hknown
      | noted => exact absurd hstate hnoted
      | planned => exact Or.inl rfl
      | started => exact Or.inr rfl
    have hname {param : Param} (hparam : param ∈ (s.program.func callee).inputs ++ (s.program.func callee).results)
        (n : NodeId) (hn : param.name = some n) : s.Valid A n := hs.func callee hfunc n (Func.mem_refs_name hparam hn)
    refine (records_setResults hcall.met fun m hm => ?_).bind fun _ t ht _ => ?_
    · obtain ⟨param, hparam, hm⟩ := List.mem_filterMap.1 hm
      exact ⟨hname (List.mem_append_right _ hparam) m hm, hs.outputs callee hfunc param hparam m hm,
        Or.inr ⟨callee, param, hparam, hm⟩⟩
    · refine (triple_optionForM _ fun x hx => triple_optionForM x.1.name fun n hn => records_assign (hs.changes ht)
        (ht.frame.valid (hname ?_ n hn)) (ht.frame.valid ?_)).bind fun _ u hu _ => hbind hfunc u (ht.trans hu)
      · simp [Func.inputs, (recv_of_recvPassing hx).1]
      · exact recvExpr_valid hs hcall.valid (recv_of_recvPassing hx).2

theorem records_callInGroup (hargs : args ≠ [] → PassesAll A s call args) :
    Records A s (callInGroup call callee args) fun _ _ => True := by
  refine records_callInGroup_bind hs hcall hcallee hcand hnoted fun hfunc t ht => ?_
  refine records_bindParams (hs.changes ht) _ (fun param hparam n hn => ht.frame.valid ?_)
    fun hne => (hargs hne).frame ht.frame
  refine hs.func callee hfunc n (Func.mem_refs_name ?_ hn)
  simp [Func.inputs, hparam]

end Group

/-! ## Callees known by their notes -/

theorem records_derefTimes (hs : s.Refs A) (k : Nat) {n : NodeId} (hn : s.Valid A n) :
    Records A s (derefTimes k n) fun m t => t.Valid A m := by
  induction k generalizing s n with
  | zero => exact triple_pure hn
  | succ k ih => exact (records_derefNode hs hn).bind fun m t ht hm => ih (hs.changes ht) hm

theorem Frame.overlong {s t : Flow} (h : Frame s t) {note : String} (hnote : Overlong s.program note) :
    Overlong t.program note := by
  obtain ⟨f, hf⟩ := hnote
  exact ⟨f, by rw [h.func]; exact hf⟩

theorem records_perform (hs : s.Refs A) {src : NodeId} (hsrc : s.Valid A src) {x : Told}
    (hx : ∀ out, x.result = some out → s.Valid A out) : Records A s (perform src x) fun _ _ => True := by
  refine (records_derefTimes hs x.derefs hsrc).bind fun n t ht hn => ?_
  cases hresult : x.result with
  | none => exact records_lose (hs.changes ht) hn
  | some out => exact records_assign (hs.changes ht) (ht.frame.valid (hx out hresult)) hn

/-- A note that tells of more outputs than there are is on an input of a function that has as many. -/
def Suits (p : Program) (outs : List NodeId) (note : Option String) : Prop :=
  ∀ text, note = some text → outs.length < (Word.ofNote note).fields.length → Overlong p text

theorem Frame.suits {s t : Flow} (h : Frame s t) {outs : List NodeId} {note : Option String}
    (hnote : Suits s.program outs note) : Suits t.program outs note :=
  fun text htext hlt => h.overlong (hnote text htext hlt)

theorem records_applyNote (hs : s.Refs A) {note : Option String} {outs : List NodeId}
    (houts : ∀ m ∈ outs, s.Valid A m) (hnote : Suits s.program outs note) {src : NodeId} (hsrc : s.Valid A src) :
    Records A s (applyNote note outs src) fun _ _ => True := by
  rw [applyNote_eq]
  refine (triple_forM _ fun x hx t ht => records_perform (hs.changes ht) (ht.frame.valid hsrc) fun out hout =>
    ht.frame.valid (houts out (Word.mem_of_mem_told hx hout))).bind fun _ t ht _ => ?_
  split
  · rename_i hstops
    obtain ⟨text, rfl⟩ : ∃ text, note = some text := by
      cases note with
      | none => exact absurd rfl hstops.1
      | some text => exact ⟨text, rfl⟩
    have hlength := mt Word.length_fields_le_iff.1 hstops.2
    exact triple_throw ⟨.refl, ht.frame.overlong (hnote text rfl (Nat.lt_of_not_le hlength))⟩
  · exact triple_pure trivial

theorem records_markStatementLocal {call src : NodeId} (hsrc : PassesAll A s call [src]) :
    Records A s (markStatementLocal src) fun _ _ => True := by
  rcases markStatementLocal_eq s src with he | ⟨n, hn, hop, he⟩
  · exact triple_of_eq_ok he .refl trivial
  · have hpasses := (hsrc.passes src List.mem_cons_self).2
    exact triple_of_eq_ok he (.single (.noEscape hsrc.within hsrc.isCall hpasses hn hop)) trivial

theorem records_noteValue (hs : s.Refs A) (call : NodeId) (p : Program) (detached : Bool) {outs : List NodeId}
    (houts : ∀ m ∈ outs, s.Valid A m) {param : Param} (hparam : Suits s.program outs param.note) {src : NodeId}
    (hsrc : s.Valid A src) (hpasses : detached = false → PassesAll A s call [src]) :
    Records A s (noteValue p detached outs param src) fun _ _ => True := by
  unfold noteValue
  split
  · refine (records_applyNote hs houts hparam hsrc).bind fun w t ht _ => ?_
    split
    · rename_i hmarks
      rw [Bool.not_eq_true'] at hmarks
      exact records_markStatementLocal ((hpasses hmarks.2).frame ht.frame)
    · exact triple_pure trivial
  · exact triple_pure trivial

theorem records_notePassing (hs : s.Refs A) {call : NodeId} (detached : Bool) {outs : List NodeId}
    (houts : ∀ m ∈ outs, s.Valid A m) {x : Passing} (hx : PassesAll A s call x.args)
    (hparam : Suits s.program outs x.param.note) : Records A s (notePassing call detached outs x) fun _ _ => True := by
  refine (records_passingValue hs hx).bind fun src t ht hsrc => triple_getProgram ?_
  exact records_noteValue (hs.changes ht) call _ detached (ht.frame.valid_all houts) (ht.frame.suits hparam)
    (hsrc.passes src List.mem_cons_self).1 fun _ => hsrc

theorem records_applyNotes (hs : s.Refs A) {call : NodeId} (spread detached : Bool) {outs : List NodeId}
    (houts : ∀ m ∈ outs, s.Valid A m) {params : List Param}
    (hparams : ∀ param ∈ params, Suits s.program outs param.note) {args : List NodeId}
    (hargs : args ≠ [] → PassesAll A s call args) :
    Records A s (applyNotes call spread detached outs params args) fun _ _ => True := by
  rw [applyNotes_eq]
  refine records_passings hargs fun x hparam t ht hx => ?_
  exact records_notePassing (hs.changes ht) detached (ht.frame.valid_all houts) hx (ht.frame.suits (hparams _ hparam))

theorem records_makeOuts (hs : s.Refs A) (line : UInt32) (i : Nat) (tys : List (Option Ty)) :
    Records A s (makeOuts line i tys) fun outs t =>
      (∀ m ∈ outs, t.Valid A m ∧ A.stand m ∧ t.IsResult m) ∧ outs.length = tys.length := by
  induction tys generalizing s i with
  | nil => exact triple_pure (by simp)
  | cons ty tys ih =>
    unfold makeOuts
    refine triple_get ?_
    refine (records_addNode hs (by simp [Node.refs, Node.children]) (by simp) ⟨by simp, rfl⟩).bind fun out t ht hout => ?_
    refine (records_setDepth hout.1 fun _ => Or.inl (by rw [hout.2.1])).bind fun _ u hu _ => ?_
    refine (ih ((hs.changes ht).changes hu) (i + 1)).bind fun outs v hv houts => triple_pure ⟨?_, ?_⟩
    · refine List.forall_mem_cons.2 ⟨⟨(hu.trans hv).frame.valid hout.1, hout.2.2, ?_⟩, houts.1⟩
      exact (hu.trans hv).frame.isResult (Or.inl (by rw [hout.2.1]))
    · rw [List.length_cons, List.length_cons, houts.2]

/-- The notes that a call knows of are on the inputs of a function with as many results. -/
theorem suits_calleeShape (p : Program) (call : NodeId) {outs : List NodeId}
    (houts : outs.length = (p.calleeShape call).results.length) {param : Param}
    (hparam : (p.calleeShape call).recv = some param ∨ param ∈ (p.calleeShape call).params) :
    Suits p outs param.note := by
  intro text htext hlt
  unfold Program.calleeShape at houts hparam
  dsimp only at houts hparam
  cases hcallee : p.calleeOf call with
  | some f =>
    simp only [hcallee, List.length_map] at houts hparam
    refine ⟨f, param, ?_, htext, ?_⟩
    · simpa [Func.inputs] using hparam
    · rw [← houts, ← htext]
      exact hlt
  | none =>
    simp only [hcallee] at hparam
    rcases hparam with hparam | hparam
    · split at hparam
      · cases hparam
        cases htext
      · cases hparam
    · obtain ⟨i, _, rfl⟩ := List.mem_mapIdx.1 hparam
      cases htext

/-- A call of any other function leaves what the notes of its parameters leave. -/
theorem records_callByNotes_apply (hs : s.Refs A) {call : NodeId} (hcall : Binds A s call) (detached : Bool)
    {args : List NodeId} {Q : Flow → Prop}
    (hnotes : ∀ outs t, Changes A s t → (∀ m ∈ outs, t.Valid A m) →
      (∀ param ∈ (s.program.calleeShape call).params, Suits t.program outs param.note) →
      Records A t (applyNotes call (s.program.node call).variadic detached outs (s.program.calleeShape call).params args)
        fun _ u => Q u) :
    Records A s (callByNotes call detached args) fun _ u => Q u := by
  rw [callByNotes_eq]
  refine triple_get ?_
  split
  · rename_i hresults
    exact triple_throw ⟨.refl, hcall.within, Or.inl (hcall.again fun h => by simp [h] at hresults)⟩
  · refine (records_makeOuts hs _ _ _).bind fun outs t ht houts => ?_
    refine (records_setResults (ht.frame.calls.subset hcall.met) houts.1).bind fun _ u hu _ => ?_
    have hu' := ht.trans hu
    have houts' := hu.frame.valid_all fun m hm => (houts.1 m hm).1
    have hsuits {param : Param} (hparam : (s.program.calleeShape call).recv = some param ∨
        param ∈ (s.program.calleeShape call).params) : Suits s.program outs param.note :=
      suits_calleeShape s.program call houts.2 hparam
    refine (triple_optionForM _ fun (x : Param × NodeId) hx => records_noteValue (hs.changes hu') call s.program true
      houts' (hu'.frame.suits (hsuits ?_)) (hu'.frame.valid ?_) (by simp)).bind fun _ v hv _ => ?_
    · exact Or.inl (recv_of_recvPassing hx).1
    · exact recvExpr_valid hs hcall.valid (recv_of_recvPassing hx).2
    · exact hnotes outs v (hu'.trans hv) (hv.frame.valid_all houts')
        fun param hparam => (hu'.trans hv).frame.suits (hsuits (Or.inr hparam))

theorem records_callByNotes (hs : s.Refs A) {call : NodeId} (hcall : Binds A s call) (detached : Bool)
    {args : List NodeId} (hargs : args ≠ [] → PassesAll A s call args) :
    Records A s (callByNotes call detached args) fun _ _ => True := by
  refine records_callByNotes_apply hs hcall detached fun outs t ht houts hsuits => ?_
  exact records_applyNotes (hs.changes ht) _ _ houts hsuits fun hne => (hargs hne).frame ht.frame

/-! ## Calls -/

theorem binds_met (hs : s.Refs A) {n : NodeId} (hn : s.Valid A n) (hin : A.walk n)
    (hop : (s.program.node n).op.isCall = true) : Binds A { s with calls := n :: s.calls } n := by
  refine ⟨hn, hin, hop, List.mem_cons_self, fun h => ?_⟩
  have hbefore := List.count_pos_iff.2 (hs.met n h)
  rw [List.count_cons_self]
  omega

theorem records_call (hs : s.Refs A) {n : NodeId} (hn : s.Valid A n) (hin : A.walk n)
    (hop : (s.program.node n).op.isCall = true) (up : Option NodeId) : Records A s (call n up) fun _ _ => True := by
  unfold call
  have hmet : Change A s { s with calls := n :: s.calls } := .call hin
  have hbinds := binds_met hs hn hin hop
  have hs' := hs.change hmet
  refine triple_modify_bind (.single hmet) (triple_get ?_)
  refine (@records_callArgs A _ hs' n hbinds.valid).bind fun args t _ hargs => ?_
  obtain ⟨rfl, hlist, hpasses⟩ := hargs
  have hargs (hne : args ≠ []) : PassesAll A { s with calls := n :: s.calls } n args := ⟨hin, hop, hlist hne, hpasses⟩
  extract_lets detached
  split
  · rename_i callee hcallee
    split
    · rename_i hcand
      exact records_callInGroup hs' hbinds hcallee hcand.1 hcand.2 hargs
    · exact records_callByNotes hs' hbinds _ hargs
  · exact records_callByNotes hs' hbinds _ hargs

end Flow

end EscapeAnalysis

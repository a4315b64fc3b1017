import EscapeAnalysis.Proofs.Building.Bodies
import EscapeAnalysis.Proofs.Building.Order
import EscapeAnalysis.Proofs.Building.TypeExprs
import EscapeAnalysis.Script.Session

/-!
# Scripts build well-formed programs

A script refers only to nodes, functions and types that were made before. So every step of it changes the program by
edits, and the program it ends with is well formed.

* `Scope.Valid s p` : the names of the scope stand for nodes, functions and types of `p`;
* `FormM.Evals s m Q` : if the evaluation `m` succeeds from `s`, edits lead on and `Q` holds of what it returns;
* `Form.evals`, `Action.evalsBody` : every form and every body is built by edits;
* `wellFormed_of_run`, `drafted_of_run`, `tidy_of_run`, `isFormedIn_of_run`, `hasBody_of_run` : what holds of the
  program of a script.
-/

namespace EscapeAnalysis.Script

open Program (Edit Edits)

/-! ## Scopes -/

structure Scope.Valid (s : Scope) (p : Program) : Prop where
  nodes : ∀ e ∈ s.nodes, p.HasNode e.2
  funcs : ∀ e ∈ s.funcs, p.HasFunc e.2
  types : ∀ e ∈ s.types, p.types.Has e.2

namespace Scope.Valid

variable {s : Scope} {p : Program} (h : s.Valid p)
include h

theorem edits {q : Program} (hq : Edits p q) : s.Valid q :=
  ⟨fun e he => hq.hasNode (h.nodes e he), fun e he => hq.hasFunc (h.funcs e he), fun e he => hq.has (h.types e he)⟩

theorem bindNode {n : NodeId} (hn : p.HasNode n) (key : String) : (s.bindNode key n).Valid p :=
  ⟨List.forall_mem_cons.2 ⟨hn, h.nodes⟩, h.funcs, h.types⟩

theorem bindFunc {f : FuncId} (hf : p.HasFunc f) (key : String) : (s.bindFunc key f).Valid p :=
  ⟨h.nodes, List.forall_mem_cons.2 ⟨hf, h.funcs⟩, h.types⟩

theorem bindType {t : Ty} (ht : p.types.Has t) (name : String) : (s.bindType name t).Valid p :=
  ⟨h.nodes, h.funcs, List.forall_mem_cons.2 ⟨ht, h.types⟩⟩

theorem hasNode {r : NodeRef} {n : NodeId} (hn : s.node p r = .ok n) : p.HasNode n := by
  cases r with
  | key k =>
    simp only [Scope.node] at hn
    cases hk : s.nodes.lookup k with
    | none =>
      rw [hk] at hn
      cases hn
    | some m =>
      rw [hk] at hn
      cases hn
      exact forall_of_lookup h.nodes hk
  | index i =>
    simp only [Scope.node] at hn
    split at hn
    · rename_i hi
      cases hn
      exact hi
    · cases hn

theorem hasFunc {r : FuncRef} {f : FuncId} (hf : s.func p r = .ok f) : p.HasFunc f := by
  cases r with
  | key k =>
    simp only [Scope.func] at hf
    cases hk : s.funcs.lookup k with
    | none =>
      rw [hk] at hf
      cases hf
    | some m =>
      rw [hk] at hf
      cases hf
      exact forall_of_lookup h.funcs hk
  | index i =>
    simp only [Scope.func] at hf
    split at hf
    · rename_i hi
      cases hf
      exact hi
    · cases hf

end Scope.Valid

/-! ## Evaluations -/

structure BodyState.Valid (s : BodyState) : Prop where
  wellFormed : s.body.program.WellFormed
  body : s.body.Valid
  scope : s.scope.Valid s.body.program

structure BodyState.Leads (s t : BodyState) : Prop where
  func : t.body.func = s.body.func
  edits : Edits s.body.program t.body.program
  unfinished : ∀ f, t.body.program.Unfinished f → s.body.program.Unfinished f
  valid : t.Valid

theorem BodyState.Leads.trans {s t u : BodyState} (h₁ : s.Leads t) (h₂ : t.Leads u) : s.Leads u :=
  ⟨h₂.func.trans h₁.func, h₁.edits.trans h₂.edits, fun f hf => h₁.unfinished f (h₂.unfinished f hf), h₂.valid⟩

/-- Nothing but the names of the scope may change. -/
theorem BodyState.leads_of_body {s t : BodyState} (hbody : t.body = s.body) (ht : t.Valid) : s.Leads t := by
  refine ⟨by rw [hbody], ?_, fun f hf => ?_, ht⟩
  · rw [hbody]
    exact .refl _
  · rw [hbody] at hf
    exact hf

theorem BodyState.Valid.refl {s : BodyState} (h : s.Valid) : s.Leads s := leads_of_body rfl h

theorem BodyState.Leads.hasNode {s t : BodyState} (h : s.Leads t) {n : NodeId} (hn : s.body.program.HasNode n) :
    t.body.program.HasNode n := h.edits.hasNode hn

theorem BodyState.Valid.leads {s t : BodyState} (h : s.Valid) (hbody : s.body.Leads t.body)
    (hscope : t.scope = s.scope) : s.Leads t := by
  refine ⟨hbody.func, hbody.edits, hbody.unfinished, hbody.edits.wellFormed h.wellFormed, hbody.valid, ?_⟩
  rw [hscope]
  exact h.scope.edits hbody.edits

namespace FormM

open BodyState (leads_of_body)

instance : Conduct BodyState.Leads (anyFault (φ := ScriptError)) where
  trans := .trans
  stop _ _ := trivial
  rest h := h.valid.refl

abbrev Evals {α : Type} (s : BodyState) (m : FormM α) (Q : α → Program → Prop) : Prop :=
  Triple BodyState.Leads anyFault s m fun a t => Q a t.body.program

section Rules

variable {α β : Type} {s : BodyState} (hs : s.Valid) {Q : α → Program → Prop}

/-- What leaves the body for a while and comes back. -/
theorem evals_detour {g : BodyState → BodyState} {m : FormM Unit} {k : BodyState → α × BodyState}
    {Q : α → BodyState → Prop} (h : Evals (g s) m fun _ _ => True)
    (hback : ∀ t, (g s).Leads t → s.Leads (k t).2 ∧ Q (k t).1 (k t).2) :
    Triple BodyState.Leads anyFault s (do modify g; m; modifyGet k) Q := by
  refine triple_of_run fun a u hu => ?_
  obtain ⟨⟨⟨⟩, t⟩, hm, hu⟩ := bind_eq_ok (x := m.run (g s)) hu
  have hk : k t = (a, u) := Except.ok.inj hu
  have hlead := hback t (h.run hm).1
  rw [hk] at hlead
  exact hlead

include hs

theorem evals_build {m : BodyM α} (h : s.body.Builds m Q) : Evals s (build m) Q :=
  ⟨hs.leads h.1 rfl, h.2⟩

theorem evals_type (name : String) : Evals s (type name) fun t p => p.types.Has t :=
  triple_state (triple_lift hs.refl fun _ ht => Scope.Typed.has hs.scope.types ht)

theorem evals_func (f : FuncRef) : Evals s (func f) fun f p => p.HasFunc f :=
  triple_state (triple_lift hs.refl fun _ hf => hs.scope.hasFunc hf)

theorem evals_bindNode (key : String) {n : NodeId} (hn : s.body.program.HasNode n) :
    Evals s (bindNode key n) fun _ _ => True :=
  ⟨leads_of_body rfl ⟨hs.wellFormed, hs.body, hs.scope.bindNode hn key⟩, trivial⟩

theorem evals_record (x : Shown) : Evals s (record x) fun _ _ => True :=
  ⟨leads_of_body rfl ⟨hs.wellFormed, hs.body, hs.scope⟩, trivial⟩

/-- The name of an input or output of a function is there. -/
theorem evals_nameOf {params : List Param} {f : FuncId}
    (hparams : ∀ param ∈ params, param ∈ (s.body.program.func f).inputs ++ (s.body.program.func f).results) (i : Nat)
    (e : ScriptError) : Evals s (nameOf params i e) fun n p => p.HasNode n := by
  unfold nameOf
  split
  · exact triple_fail trivial
  · rename_i n _ _ _ h
    have hmem := hparams _ (List.mem_of_getElem? h)
    exact triple_pure_of hs.refl (hs.wellFormed.hasNode_of_mem_refs (Func.mem_refs_name hmem rfl))
  · exact triple_fail trivial

end Rules

theorem evals_times {m : FormM Unit} (hm : ∀ {s : BodyState}, s.Valid → Evals s m fun _ _ => True) (n : Nat)
    {s : BodyState} (hs : s.Valid) : Evals s (times n m) fun _ _ => True := by
  induction n generalizing s with
  | zero => exact triple_pure_of hs.refl trivial
  | succ n ih => exact (hm hs).bind fun _ t ht _ => ih ht.valid

theorem evals_mapM {α β : Type} {f : α → FormM β} {P : β → Program → Prop}
    (hP : ∀ {b p q}, Edits p q → P b p → P b q) (hf : ∀ {s : BodyState}, s.Valid → ∀ a, Evals s (f a) P)
    (as : List α) {s : BodyState} (hs : s.Valid) : Evals s (as.mapM f) fun bs p => ∀ b ∈ bs, P b p := by
  induction as generalizing s with
  | nil => exact triple_pure_of hs.refl fun b hb => absurd hb List.not_mem_nil
  | cons a as ih =>
    rw [List.mapM_cons]
    refine (hf hs a).bind fun b t ht hb => (ih ht.valid).bind fun bs u hu hbs => triple_pure_of hu.valid.refl ?_
    exact List.forall_mem_cons.2 ⟨hP hu.edits hb, hbs⟩

end FormM

/-! ## Forms and actions -/

open FormM Body

/-- The body of a closure is built like any other, and the body around it goes on. -/
theorem evals_closure {s : BodyState} (hs : s.Valid) (sig : SigExpr) (key : Option String) {m : FormM Unit}
    (hm : ∀ {t : BodyState}, t.Valid → Evals t m fun _ _ => True) :
    Evals s (do
      let outer := (← get).body
      let inner := outer.enterClosure (← sig.eval (← get).scope)
      modify fun s =>
        { s with
          body := inner
          scope := match key with
            | some key => s.scope.bindFunc key inner.func
            | none => s.scope }
      m
      let (n, body) := outer.leaveClosure (← get).body
      modify fun s => { s with body }
      return n) fun n p => p.HasNode n := by
  refine triple_state (triple_state (triple_lift_bind fun sig hsig => ?_))
  obtain ⟨hedits, hinner, hunfinished⟩ := enterClosure_edits hs.body (SigExpr.typed hs.scope.types hsig)
  have hwf := hedits.wellFormed hs.wellFormed
  have hscope : (match key with
      | some key => s.scope.bindFunc key (s.body.enterClosure sig).func
      | none => s.scope).Valid (s.body.enterClosure sig).program := by
    cases key with
    | none => exact hs.scope.edits hedits
    | some key => exact (hs.scope.edits hedits).bindFunc hinner.func key
  refine Triple.congr_run (evals_detour (g := fun t => { t with body := s.body.enterClosure sig, scope := _ })
    (k := fun t => ((s.body.leaveClosure t.body).1, { t with body := (s.body.leaveClosure t.body).2 }))
    (hm ⟨hwf, hinner, hscope⟩) fun t ht => ?_) rfl
  have hinside (f : FuncId) (hf : t.body.program.Unfinished f) : s.body.program.Unfinished f ∨ f = t.body.func := by
    rw [ht.func]
    exact hunfinished f (ht.unfinished f hf)
  obtain ⟨hlead, hleave, hn⟩ := leads_leaveClosure hs.body (hedits.trans ht.edits) ht.valid.body hinside
  exact ⟨⟨hlead.func, hlead.edits, hlead.unfinished, hlead.edits.wellFormed hs.wellFormed, hlead.valid,
    ht.valid.scope.edits hleave⟩, hn⟩

section Operands

variable {α β γ : Type} {P : β → Program → Prop} {Q : α → Program → Prop} {s : BodyState} {m : FormM β}

/-- An operation on one part. -/
theorem FormM.Evals.build {op : β → BodyM α} (h : Evals s m P)
    (hop : ∀ {b : Body}, b.Valid → ∀ {x}, P x b.program → b.Builds (op x) Q) :
    Evals s (do FormM.build (op (← m))) Q :=
  h.bind fun _ _ ht hx => evals_build ht.valid (hop ht.valid.body hx)

/-- The actions of a loop stand between its two parts. -/
theorem evals_loop (hs : s.Valid) {start : BodyM NodeId} (hstart : s.body.Builds start fun n p => p.HasStmt n)
    {body : FormM Unit} (hbody : ∀ {t : BodyState}, t.Valid → Evals t body fun _ _ => True) :
    Evals s (do let stmt ← FormM.build start; body; FormM.build (endLoop stmt)) fun n p => p.HasNode n :=
  (evals_build hs hstart).bind fun _ _ ht hstmt => (hbody ht.valid).bind fun _ _ hu _ =>
    evals_build hu.valid (builds_endLoop hu.valid.body (hu.edits.hasStmt hstmt))

/-- An operation on two parts, which are evaluated in their order. -/
theorem FormM.Evals.build₂ {R : γ → Program → Prop} {k : FormM γ} {op : β → γ → BodyM α} (h : Evals s m P)
    (hP : ∀ {x p q}, Edits p q → P x p → P x q) (hk : ∀ {t : BodyState}, t.Valid → Evals t k R)
    (hop : ∀ {b : Body}, b.Valid → ∀ {x}, P x b.program → ∀ {y}, R y b.program → b.Builds (op x y) Q) :
    Evals s (do let x ← m; let y ← k; FormM.build (op x y)) Q :=
  h.bind fun _ _ ht hx => (hk ht.valid).bind fun _ _ hu hy =>
    evals_build hu.valid (hop hu.valid.body (hP hu.edits hx) hy)

/-- The node is read off the state. -/
theorem evals_node_bind {f : Node → FormM α} {n : NodeId} {Q : α → BodyState → Prop}
    (h : Triple BodyState.Leads anyFault s (f (s.body.program.node n)) Q) :
    Triple BodyState.Leads anyFault s (FormM.build (Body.node n) >>= f) Q := h

end Operands

theorem evals_clauseType {s : BodyState} (hs : s.Valid) (clause : Option String × Option String × List Action) :
    Evals s (clause.2.1.mapM type) fun ty p => p.HasType ty := by
  obtain ⟨_, ty, _⟩ := clause
  cases ty with
  | none => exact triple_pure_of hs.refl s.body.program.hasType_none
  | some ty =>
    exact (evals_type hs ty).bind fun _ t ht hty => triple_pure_of ht.valid.refl (Program.hasType_some hty)

theorem forall_mem_hasNode {p q : Program} {ns : List NodeId} (h : Edits p q) (hns : ∀ n ∈ ns, p.HasNode n) :
    ∀ n ∈ ns, q.HasNode n := fun n hn => h.hasNode (hns n hn)

theorem forall_eq_hasNode {p q : Program} {x : Option NodeId} (h : Edits p q) (hx : ∀ n, x = some n → p.HasNode n) :
    ∀ n, x = some n → q.HasNode n := fun n hn => h.hasNode (hx n hn)

mutual

/-- What a form yields is there. -/
theorem Form.evals : ∀ (x : Form) {s : BodyState}, s.Valid → Evals s x.eval fun n p => p.HasNode n
  | .ref r, _, hs => triple_state (triple_lift hs.refl fun _ hn => hs.scope.hasNode hn)
  | .bind key x, _, hs =>
    (Form.evals x hs).bind fun n _ ht hn => (evals_bindNode ht.valid key hn).bind fun _ _ hu _ =>
      triple_pure_of hu.valid.refl (hu.hasNode hn)
  | .bindType name x, _, hs => by
    refine (Form.evals x hs).bind fun n _ ht hn =>
      (evals_build ht.valid (builds_typeOf ht.valid.body n)).bind fun ty _ hu hty => ?_
    cases ty with
    | none => exact triple_fail trivial
    | some ty =>
      have hscope := hu.valid.scope.bindType (hty ty rfl) name
      exact ⟨BodyState.leads_of_body rfl ⟨hu.valid.wellFormed, hu.valid.body, hscope⟩, hu.hasNode hn⟩
  | .record x, _, hs =>
    (Form.evals x hs).bind fun n _ ht hn => triple_state ((evals_record ht.valid _).bind fun _ _ hu _ =>
      triple_pure_of hu.valid.refl (hu.hasNode hn))
  | .param i, s, hs =>
    triple_state (evals_nameOf hs (f := s.body.func)
      (fun param h => List.mem_append_left _ (List.mem_append_right _ h)) i _)
  | .result i, s, hs =>
    triple_state (evals_nameOf hs (f := s.body.func) (fun param h => List.mem_append_right _ h) i _)
  | .recv, s, hs => by
    refine triple_state ?_
    split
    · rename_i n h
      obtain ⟨param, hparam, hn⟩ := Option.bind_eq_some_iff.1 h
      have hmem := List.mem_append_left (s.body.program.func s.body.func).params (Option.mem_toList.2 hparam)
      exact triple_pure_of hs.refl (hs.wellFormed.hasNode_of_mem_refs (Func.mem_refs_name (List.mem_append_left _ hmem) hn))
    · exact triple_fail trivial
  | .declare name ty key, _, hs =>
    (evals_type hs ty).bind fun _ _ ht hty =>
      (evals_build ht.valid (builds_declare ht.valid.body name hty)).bind fun n _ hu hn =>
        (evals_bindNode hu.valid key hn).bind fun _ _ hv _ => triple_pure_of hv.valid.refl (hv.hasNode hn)
  | .blank, _, hs => evals_build hs (builds_blank hs.body)
  | .funcValue f, _, hs => (evals_func hs f).build fun hb _ _ => builds_funcValue hb _
  | .closure sig body key, _, hs => evals_closure hs sig key (Action.evalsBody body)
  | .capture x byValue, _, hs => (Form.evals x hs).build fun hb _ hx => builds_capture hb hx byValue
  | .int value, _, hs => evals_build hs (builds_int hs.body value)
  | .str value, _, hs => evals_build hs (builds_str hs.body value)
  | .nil ty, _, hs => (evals_type hs ty).build builds_nil
  | .addr x, _, hs => (Form.evals x hs).build builds_addr
  | .deref x, _, hs => (Form.evals x hs).build builds_deref
  | .dot x field, _, hs => (Form.evals x hs).build fun hb _ hx => builds_dot hb hx field
  | .dotPtr x field, _, hs => (Form.evals x hs).build fun hb _ hx => builds_dotPtr hb hx field
  | .index x i, _, hs => (Form.evals x hs).build₂ Edits.hasNode (Form.evals i) builds_index
  | .slice x lo hi, _, hs =>
    (Form.evals x hs).bind fun _ _ ht hx => (Form.evalsOption lo ht.valid).bind fun _ _ hu hlo =>
      (Form.evalsOption hi hu.valid).bind fun _ _ hv hhi =>
        evals_build hv.valid
          (builds_slice hv.valid.body ((hu.trans hv).hasNode hx) (forall_eq_hasNode hv.edits hlo) hhi)
  | .new ty, _, hs => (evals_type hs ty).build builds_new
  | .makeSlice ty len, _, hs =>
    (Form.evals len hs).build₂ Edits.hasNode (evals_type · ty) fun hb _ hlen _ hty => builds_makeSlice hb hty hlen
  | .makeMap ty, _, hs => (evals_type hs ty).build builds_makeMap
  | .makeChan ty, _, hs => (evals_type hs ty).build builds_makeChan
  | .structLit ty fields, _, hs =>
    (Form.evalsFields fields hs).build₂ (fun h hx e he => h.hasNode (hx e he)) (evals_type · ty)
      fun hb _ hfields _ hty => builds_structLit hb hty hfields
  | .arrayLit ty elems, _, hs =>
    (Form.evalsList elems hs).build₂ forall_mem_hasNode (evals_type · ty) fun hb _ helems _ hty =>
      builds_arrayLit hb hty helems
  | .mapLit ty pairs, _, hs =>
    (Form.evalsPairs pairs hs).build₂ (fun h hx e he => ⟨h.hasNode (hx e he).1, h.hasNode (hx e he).2⟩)
      (evals_type · ty) fun hb _ hpairs _ hty => builds_mapLit hb hty hpairs
  | .ptrLit x, _, hs => (Form.evals x hs).build builds_ptrLit
  | .conv x ty, _, hs =>
    (Form.evals x hs).build₂ Edits.hasNode (evals_type · ty) builds_conv
  | .convNop x ty, _, hs =>
    (Form.evals x hs).build₂ Edits.hasNode (evals_type · ty) builds_convNop
  | .convIface x ty, _, hs =>
    (Form.evals x hs).build₂ Edits.hasNode (evals_type · ty) builds_convIface
  | .bytesToString x, _, hs => (Form.evals x hs).build builds_bytesToString
  | .stringToBytes x, _, hs => (Form.evals x hs).build builds_stringToBytes
  | .concat parts, _, hs => (Form.evalsList parts hs).build builds_concat
  | .typeAssert x ty, _, hs =>
    (Form.evals x hs).build₂ Edits.hasNode (evals_type · ty) builds_typeAssert
  | .recvFrom x, _, hs => (Form.evals x hs).build builds_recvFrom
  | .len x, _, hs => (Form.evals x hs).build builds_len
  | .binary op x y, _, hs => (Form.evals x hs).bind fun _ _ ht hx => (Form.evals y ht.valid).bind fun _ _ hu hy => by
    split
    · exact evals_build hu.valid (builds_binary hu.valid.body (hu.hasNode hx) hy _)
    · exact triple_fail trivial
  | .append args spread, _, hs => (Form.evalsList args hs).build fun hb _ hargs => builds_append hb hargs spread
  | .call f args spread, _, hs =>
    (Form.evalsList args hs).build₂ forall_mem_hasNode (evals_func · f) fun hb _ hargs f _ =>
      builds_call hb hargs f spread
  | .callMethod x f args, _, hs =>
    (Form.evals x hs).bind fun _ _ ht hx => (Form.evalsList args ht.valid).bind fun _ _ hu hargs =>
      (evals_func hu.valid f).bind fun f _ hv _ =>
        evals_build hv.valid (builds_callMethod hv.valid.body (forall_mem_hasNode hv.edits hargs)
          ((hu.trans hv).hasNode hx) f)
  | .callInterface x method fnTy args, _, hs =>
    (Form.evals x hs).bind fun _ _ ht hx => (Form.evalsList args ht.valid).bind fun _ _ hu hargs =>
      (evals_type hu.valid fnTy).bind fun _ _ hv hty =>
        evals_build hv.valid (builds_callInterface hv.valid.body (forall_mem_hasNode hv.edits hargs)
          ((hu.trans hv).hasNode hx) method hty)
  | .callValue callee args, _, hs =>
    (Form.evals callee hs).build₂ Edits.hasNode (Form.evalsList args) fun hb _ hcallee _ hargs =>
      builds_callValue hb hargs hcallee
  | .methodValue x f, _, hs =>
    (Form.evals x hs).build₂ Edits.hasNode (evals_func · f) fun hb _ hx f _ => builds_methodValue hb hx f
  | .exprStmt x, _, hs => (Form.evals x hs).build builds_push
  | .assign dst src, _, hs => (Form.evals dst hs).build₂ Edits.hasNode (Form.evals src) builds_assign
  | .assignOp dst op src, _, hs =>
    (Form.evals dst hs).build₂ Edits.hasNode (Form.evals src) fun hb _ hdst _ hsrc => builds_assignOp hb hdst hsrc op
  | .assignMany dsts srcs, _, hs =>
    (Form.evalsList dsts hs).build₂ forall_mem_hasNode (Form.evalsList srcs) builds_assignMany
  | .assignCall dsts call, _, hs =>
    (Form.evalsList dsts hs).build₂ forall_mem_hasNode (Form.evals call) builds_assignCall
  | .assignOk value ok src, _, hs => by
    refine (Form.evals value hs).bind fun _ _ ht hvalue => (Form.evals ok ht.valid).bind fun _ _ hu hok =>
      (Form.evals src hu.valid).bind fun src _ hv hsrc => evals_node_bind ?_
    dsimp only
    split
    · rename_i form hform
      exact evals_build hv.valid (builds_assignOk hv.valid.body hform ((hu.trans hv).hasNode hvalue) (hv.hasNode hok)
        hsrc)
    · exact triple_fail trivial
  | .ret values, _, hs => (Form.evalsList values hs).build builds_ret
  | .send chan value, _, hs => (Form.evals chan hs).build₂ Edits.hasNode (Form.evals value) builds_send
  | .panicWith x, _, hs => (Form.evals x hs).build builds_panicWith
  | .deferCall x, _, hs => (Form.evals x hs).build builds_deferCall
  | .goCall x, _, hs => (Form.evals x hs).build builds_goCall
  | .forStmt cond body, _, hs =>
    (Form.evalsOption cond hs).bind fun _ _ ht hcond =>
      evals_loop ht.valid (builds_beginFor ht.valid.body hcond) (Action.evalsBody body)
  | .rangeStmt key value x body, _, hs =>
    (Form.evalsOption key hs).bind fun _ _ ht hkey => (Form.evalsOption value ht.valid).bind fun _ _ hu hvalue =>
      (Form.evals x hu.valid).bind fun _ _ hv hx =>
        evals_loop hv.valid (builds_beginRange hv.valid.body (forall_eq_hasNode (hu.trans hv).edits hkey)
          (forall_eq_hasNode hv.edits hvalue) hx) (Action.evalsBody body)
  | .ifStmt cond body alt, _, hs =>
    (Form.evals cond hs).bind fun _ _ ht hcond =>
      (evals_build ht.valid (builds_beginIf ht.valid.body hcond)).bind fun _ _ hu hstmt =>
        (Action.evalsBody body hu.valid).bind fun _ _ hv _ =>
          (evals_build hv.valid (builds_beginElse hv.valid.body (hv.edits.hasStmt hstmt))).bind fun _ _ hw _ =>
            (Action.evalsBody alt hw.valid).bind fun _ _ hz _ =>
              evals_build hz.valid (builds_endIf hz.valid.body ((hv.trans (hw.trans hz)).edits.hasStmt hstmt))
  | .typeSwitch x clauses, _, hs =>
    (Form.evals x hs).bind fun x _ ht hx =>
      (evals_mapM (P := fun ty p => p.HasType ty) (fun h => h.hasType) (evals_clauseType · ·) clauses ht.valid).bind fun tys _ hu htys =>
        (evals_build hu.valid (builds_beginSwitch hu.valid.body (hu.hasNode hx))).bind fun _ _ hv hstmt =>
          (Form.evalsClauses x tys clauses hv.valid fun ty hty => hv.edits.hasType (htys ty hty)).bind
            fun _ _ hw hclauses =>
              evals_build hw.valid (builds_endSwitch hw.valid.body (hw.hasNode hstmt.1)
                (hw.edits.op_eq hstmt nofun nofun).2 hclauses)
  | .label name, _, hs => evals_build hs (builds_label hs.body name)
  | .goto name, s, hs => evals_build hs (builds_goto hs.body name)

/-- What a form yields that may be missing is there. -/
theorem Form.evalsOption : ∀ (x : Option Form) {s : BodyState}, s.Valid →
    Evals s (Form.evalOption x) fun r p => ∀ n, r = some n → p.HasNode n
  | none, _, hs => triple_pure_of hs.refl (by simp)
  | some x, s, hs => (Form.evals x hs).bind fun n _ ht hn => triple_pure_of ht.valid.refl (by rintro _ ⟨⟩; exact hn)

/-- What the forms of a list yield is there. -/
theorem Form.evalsList : ∀ (xs : List Form) {s : BodyState}, s.Valid →
    Evals s (Form.evalList xs) fun ns p => ∀ n ∈ ns, p.HasNode n
  | [], _, hs => triple_pure_of hs.refl (by simp)
  | x :: rest, s, hs =>
    (Form.evals x hs).bind fun n _ ht hn => (Form.evalsList rest ht.valid).bind fun ns _ hu hns =>
      triple_pure_of hu.valid.refl (List.forall_mem_cons.2 ⟨hu.hasNode hn, hns⟩)

theorem Form.evalsFields : ∀ (fields : List (String × Form)) {s : BodyState}, s.Valid →
    Evals s (Form.evalFields fields) fun es p => ∀ e ∈ es, p.HasNode e.2
  | [], _, hs => triple_pure_of hs.refl (by simp)
  | (field, x) :: rest, s, hs =>
    (Form.evals x hs).bind fun n _ ht hn => (Form.evalsFields rest ht.valid).bind fun es _ hu hes =>
      triple_pure_of hu.valid.refl (List.forall_mem_cons.2 ⟨hu.hasNode hn, hes⟩)

theorem Form.evalsPairs : ∀ (pairs : List (Form × Form)) {s : BodyState}, s.Valid →
    Evals s (Form.evalPairs pairs) fun es p => ∀ e ∈ es, p.HasNode e.1 ∧ p.HasNode e.2
  | [], _, hs => triple_pure_of hs.refl (by simp)
  | (key, value) :: rest, s, hs =>
    (Form.evals key hs).bind fun _ _ ht hkey => (Form.evals value ht.valid).bind fun _ _ hu hvalue =>
      (Form.evalsPairs rest hu.valid).bind fun es _ hv hes =>
        triple_pure_of hv.valid.refl (List.forall_mem_cons.2 ⟨⟨(hu.trans hv).hasNode hkey, hv.hasNode hvalue⟩, hes⟩)

theorem Form.evalsClauses (x : NodeId) : ∀ (tys : List (Option Ty))
    (clauses : List (Option String × Option String × List Action)) {s : BodyState}, s.Valid →
    (∀ ty ∈ tys, s.body.program.HasType ty) →
      Evals s (Form.evalClauses x tys clauses) fun ns p => ∀ n ∈ ns, p.HasNode n ∧ (p.node n).op = .caseClause
  | _, [], _, hs, _ => triple_pure_of hs.refl (by simp)
  | tys, (name, _, body) :: rest, s, hs, htys => by
    have hhead : s.body.program.HasType (tys.headD none) := by
      cases tys with
      | nil => exact s.body.program.hasType_none
      | cons ty tys => exact htys ty List.mem_cons_self
    refine (evals_build hs (builds_beginCase hs.body x name hhead)).bind fun r t ht hr => ?_
    obtain ⟨clause, var⟩ := r
    have hstmt : t.body.program.HasStmt clause := ⟨hr.1.1, by rw [hr.1.2]; nofun⟩
    have hrest {u : BodyState} (hu : t.Leads u) : Evals u (do
        Action.evalBody body
        build (endCase clause)
        return clause :: (← Form.evalClauses x tys.tail rest))
          fun ns p => ∀ n ∈ ns, p.HasNode n ∧ (p.node n).op = .caseClause :=
      (Action.evalsBody body hu.valid).bind fun _ _ hv _ =>
        (evals_build hv.valid (builds_endCase hv.valid.body ((hu.trans hv).edits.hasStmt hstmt))).bind fun _ _ hw _ =>
          (Form.evalsClauses x tys.tail rest hw.valid fun ty hty =>
            (ht.trans (hu.trans (hv.trans hw))).edits.hasType (htys ty (List.mem_of_mem_tail hty))).bind
            fun _ _ hz hclauses => triple_pure_of hz.valid.refl
              (List.forall_mem_cons.2
                ⟨(hu.trans (hv.trans (hw.trans hz))).edits.op_eq hr.1 nofun nofun, hclauses⟩)
    dsimp only
    split
    · rename_i name var
      exact (evals_bindNode ht.valid name (hr.2 var rfl)).bind fun _ u hu _ => hrest hu
    · exact hrest ht.valid.refl

theorem Action.evals : ∀ (a : Action) {s : BodyState}, s.Valid → Evals s a.eval fun _ _ => True
  | .form x, _, hs => (Form.evals x hs).bind fun _ _ ht _ => triple_pure_of ht.valid.refl trivial
  | .line, _, hs => triple_state (evals_record hs _)
  | .setLine _, _, hs => ⟨hs.leads (hs.body.leads (.refl _) rfl rfl rfl rfl rfl) rfl, trivial⟩
  | .times n body, _, hs => evals_times (Action.evalsBody body) n hs

theorem Action.evalsBody : ∀ (actions : List Action) {s : BodyState}, s.Valid →
    Evals s (Action.evalBody actions) fun _ _ => True
  | [], _, hs => triple_pure_of hs.refl trivial
  | a :: rest, _, hs => (Action.evals a hs).bind fun _ _ ht _ => Action.evalsBody rest ht.valid

end

/-! ## Steps -/

/-- What holds of a session between its steps. -/
structure Session.Valid (s : Session) : Prop where
  wellFormed : s.program.WellFormed
  drafted : s.program.Drafted
  tidy : s.program.Tidy
  laid : s.program.Laid
  formed : ∀ n, s.program.IsFormedIn (s.program.node n)
  finished : ∀ f, ¬ s.program.Unfinished f
  scope : s.scope.Valid s.program
  declared : ∀ e ∈ s.draft.declared, s.program.HasFunc e.2
  globals : ∀ e ∈ s.program.globals, s.program.HasNode e.2

namespace Session

section Step

variable {s : Session} (hs : s.Valid)
include hs

/-- Edits make a valid session of a valid one. -/
theorem Valid.edits {t : Session} (h : Edits s.program t.program)
    (hunfinished : ∀ f, t.program.Unfinished f → s.program.Unfinished f) (hscope : t.scope.Valid t.program)
    (hdeclared : ∀ e ∈ t.draft.declared, t.program.HasFunc e.2) : t.Valid := by
  refine ⟨h.wellFormed hs.wellFormed, h.drafted hs.drafted, h.tidy hs.wellFormed hs.tidy,
    h.laid hs.wellFormed hs.laid, h.keepsForms.forms hs.formed, fun f hf => hs.finished f (hunfinished f hf), hscope, hdeclared, fun e he => ?_⟩
  rw [h.globals] at he
  exact h.hasNode (hs.globals e he)

/-- Edits of the program alone. -/
theorem Valid.edit {q : Program} (h : Edits s.program q) (hsize : q.funcs.size = s.program.funcs.size) :
    (s.setProgram q).Valid :=
  hs.edits h (fun _ => h.unfinished hsize) (hs.scope.edits h) fun e he => h.hasFunc (hs.declared e he)

theorem valid_bindType (name : String) {made : Ty × TypeStore} (hmade : Typing s.program.types made) :
    (s.bindType name made).2.Valid := by
  have hedit := Edit.types (p := s.program) made.2 (fun _ => hmade.sound) hmade.size_le
  have h := hs.edit hedit.edits rfl
  exact ⟨h.wellFormed, h.drafted, h.tidy, h.laid, h.formed, h.finished, h.scope.bindType hmade.has name, h.declared, h.globals⟩

theorem valid_global (name : String) {ty : Ty} (hty : s.program.types.Has ty) (key : String) :
    ({ s.setProgram (s.program.global name ty).2 with scope := s.scope.bindNode key (s.program.global name ty).1 } :
      Session).Valid := by
  unfold Program.global
  split
  · rename_i n hn
    have hscope := hs.scope.bindNode (forall_of_lookup hs.globals hn) key
    exact ⟨hs.wellFormed, hs.drafted, hs.tidy, hs.laid, hs.formed, hs.finished, hscope, hs.declared, hs.globals⟩
  · let x : Node := { op := .name, ty := some ty, sym := some name, cls := .global }
    have hedit : Edit s.program (s.program.addNode x).2 :=
      .node x (Program.hasType_some hty) (by simp [x, Program.HasParts, Node.children]) (by simp [x]) (by simp [x])
        (by simp [x]) (Program.isFormedIn_of_isPlain rfl)
    have h := hs.edit hedit.edits rfl
    have hn := s.program.hasNode_addNode x
    have hdrafted := h.drafted
    exact ⟨⟨h.wellFormed.refs, h.wellFormed.decls, h.wellFormed.inputs⟩,
      ⟨⟨hdrafted.typed.store, hdrafted.typed.node, hdrafted.typed.func, hdrafted.typed.params⟩, hdrafted.ordered,
        hdrafted.bare, hdrafted.named⟩, h.tidy.of_nodes_eq rfl fun _ => ⟨rfl, rfl, rfl⟩,
      h.laid.of_globals _,
      fun n => ⟨(h.formed n).declares, (h.formed n).clauses, (h.formed n).entries, (h.formed n).unmarked⟩, h.finished,
      ⟨List.forall_mem_cons.2 ⟨hn, h.scope.nodes⟩, h.scope.funcs, h.scope.types⟩, h.declared,
      List.forall_mem_cons.2 ⟨hn, h.globals⟩⟩

/-- A function that is declared is there, once or again. -/
theorem valid_declareFunc {sig : Signature} (hsig : sig.Typed s.program.types) :
    ({ s with draft := (s.draft.declareFunc sig).2 } : Session).Valid ∧
      (s.draft.declareFunc sig).2.program.HasFunc (s.draft.declareFunc sig).1 := by
  unfold Draft.declareFunc
  split
  · rename_i f hf
    exact ⟨hs, forall_of_lookup hs.declared hf⟩
  · have houter : ∀ f, none = some f → s.program.HasFunc f := nofun
    obtain ⟨hedits, hf, hunfinished⟩ := Program.edits_declare hs.drafted.typed.store hsig houter s.draft.line
    refine ⟨hs.edits hedits (fun f h => ?_) (hs.scope.edits hedits) (List.forall_mem_cons.2 ⟨hf, fun e he => ?_⟩), hf⟩
    · exact (hunfinished f h).resolve_right nofun
    · exact hedits.hasFunc (hs.declared e he)

theorem valid_bindFunc {f : FuncId} (hf : s.program.HasFunc f) (key : String) :
    ({ s with scope := s.scope.bindFunc key f } : Session).Valid :=
  ⟨hs.wellFormed, hs.drafted, hs.tidy, hs.laid, hs.formed, hs.finished, hs.scope.bindFunc hf key, hs.declared,
    hs.globals⟩

theorem valid_define {f : FuncId} (hf : s.program.HasFunc f) {body : List Action} {t : BodyState}
    (h : (Action.evalBody body).run { body := s.draft.startBody f, scope := s.scope } = .ok ((), t)) :
    ({ draft := s.draft.finishBody t.body, scope := t.scope } : Session).Valid := by
  have hbegin := edits_start s.program f s.draft.line
  have hstart : BodyState.Valid { body := s.draft.startBody f, scope := s.scope } :=
    ⟨hbegin.wellFormed hs.wellFormed, valid_start hs.drafted hf s.draft.line, hs.scope.edits hbegin⟩
  obtain ⟨hlead, _⟩ := (Action.evalsBody body hstart).run h
  have hfinish := edits_finish hlead.valid.body
  have hedits := hbegin.trans (hlead.edits.trans hfinish)
  refine hs.edits hedits (fun f hf => hlead.unfinished f ?_) (hlead.valid.scope.edits hfinish)
    fun e he => hedits.hasFunc (hs.declared e he)
  exact hfinish.unfinished (Program.size_modifyFunc ..) hf

theorem valid_step {t : Session} {step : Step} {answer : Answer} (h : s.step step = .ok (answer, t)) : t.Valid := by
  have hstore := hs.drafted.typed.store
  cases step with
  | type name e =>
    obtain ⟨made, hmade, h⟩ := bind_eq_ok h
    cases h
    exact valid_bindType hs name (TypeExpr.typing e hstore hs.scope.types hmade)
  | funcType name f =>
    obtain ⟨f, _, h⟩ := bind_eq_ok h
    split at h
    · rename_i ty hty
      cases h
      have hmade : Typing s.program.types (ty, s.program.types) :=
        ⟨hstore, Nat.le_refl _, hs.drafted.typed.func f ty hty⟩
      exact valid_bindType hs name hmade
    · cases h
  | struct name fields =>
    obtain ⟨fields, hfields, h⟩ := bind_eq_ok h
    split at h
    · rename_i made hmade
      cases h
      obtain ⟨hsound, hle, hhas⟩ :=
        TypeStore.sound_struct hstore (Scope.Typed.fields hs.scope.types hfields) hmade
      exact valid_bindType hs name ⟨hsound, hle, hhas⟩
    · cases h
  | updateStruct name fields =>
    obtain ⟨fields, hfields, h⟩ := bind_eq_ok h
    split at h
    · rename_i types htypes
      cases h
      obtain ⟨hsound, hle⟩ :=
        TypeStore.sound_updateStruct hstore (Scope.Typed.fields hs.scope.types hfields) htypes
      exact hs.edit (Edit.types types (fun _ => hsound) hle).edits rfl
    · cases h
  | global name ty key =>
    obtain ⟨ty, hty, h⟩ := bind_eq_ok h
    cases h
    exact valid_global hs name (Scope.Typed.has hs.scope.types hty) key
  | func sig key =>
    obtain ⟨sig, hsig, h⟩ := bind_eq_ok h
    cases h
    obtain ⟨hvalid, hf⟩ := valid_declareFunc hs (SigExpr.typed hs.scope.types hsig)
    exact valid_bindFunc hvalid hf key
  | importFunc sig key =>
    obtain ⟨sig, hsig, h⟩ := bind_eq_ok h
    cases h
    obtain ⟨hvalid, hf⟩ := valid_declareFunc hs (SigExpr.typed hs.scope.types hsig)
    have hedit := (Edit.imported (p := (s.draft.declareFunc sig).2.program) (s.draft.declareFunc sig).1).edits
    exact valid_bindFunc (hvalid.edit hedit (Program.size_modifyFunc ..)) (hedit.hasFunc hf) key
  | paramNote f i note =>
    obtain ⟨f, _, h⟩ := bind_eq_ok h
    split at h
    · cases h
      exact hs.edit (Edit.notes f _ fun x => x.renoted_modifyParam i note).edits (Program.size_modifyFunc ..)
    · cases h
  | recvNote f note =>
    obtain ⟨f, _, h⟩ := bind_eq_ok h
    cases h
    exact hs.edit (Edit.notes f _ fun x => x.renoted_mapRecv note).edits (Program.size_modifyFunc ..)
  | markNoEscape f =>
    obtain ⟨f, _, h⟩ := bind_eq_ok h
    cases h
    exact hs.edit (Edit.promised f).edits (Program.size_modifyFunc ..)
  | define f body =>
    obtain ⟨f, hf, h⟩ := bind_eq_ok h
    obtain ⟨⟨⟨⟩, t⟩, hbody, h⟩ := bind_eq_ok h
    cases h
    exact valid_define hs (hs.scope.hasFunc hf) hbody

end Step

theorem valid_steps {s t : Session} (hs : s.Valid) {steps : List Step}
    (h : steps.foldlM (fun s step => return (← s.step step).2) s = .ok t) : t.Valid := by
  induction steps generalizing s with
  | nil =>
    cases h
    exact hs
  | cons step steps ih =>
    rw [List.foldlM_cons] at h
    obtain ⟨next, hnext, h⟩ := bind_eq_ok h
    obtain ⟨⟨answer, _⟩, hstep, heq⟩ := bind_eq_ok hnext
    cases heq
    exact ih (valid_step hs hstep) h

end Session

theorem wellFormed_empty : ({} : Program).WellFormed := by
  refine ⟨?_, ?_, ?_⟩
  · rintro m (⟨n, hm⟩ | ⟨f, hm⟩)
    · rw [Program.node_empty] at hm
      exact absurd hm List.not_mem_nil
    · rw [Program.func_empty] at hm
      exact absurd hm List.not_mem_nil
  · intro f n hn
    rw [Program.func_empty] at hn
    exact absurd hn List.not_mem_nil
  · intro f param hparam
    rw [Program.func_empty] at hparam
    exact absurd hparam List.not_mem_nil

theorem drafted_empty : ({} : Program).Drafted := by
  refine ⟨⟨TypeStore.sound_empty, fun n => ?_, fun f => ?_, fun f => ?_⟩, fun n => ?_, fun n => ?_, fun f => ?_⟩
  · rw [Program.node_empty]
    exact Program.hasType_none _
  · rw [Program.func_empty]
    exact Program.hasType_none _
  · rw [Program.func_empty]
    exact fun param hparam => absurd hparam List.not_mem_nil
  · rw [Program.node_empty]
    exact fun m hm => absurd hm List.not_mem_nil
  · rw [Program.node_empty]
    exact nofun
  · rw [Program.func_empty]
    exact fun result hresult => absurd hresult List.not_mem_nil

theorem tidy_empty : ({} : Program).Tidy := by
  refine ⟨fun n => Program.placed_of_op_ne ?_ ?_, fun f n hn => ?_, fun f n hn => ?_, fun f result hresult => ?_⟩
  · rw [Program.node_empty]
    exact nofun
  · rw [Program.node_empty]
    rfl
  · rw [Program.func_empty] at hn
    exact absurd hn List.not_mem_nil
  · rw [Program.func_empty] at hn
    exact absurd hn List.not_mem_nil
  · rw [Program.func_empty] at hresult
    exact absurd hresult List.not_mem_nil

theorem valid_of_run {steps : List Step} {session : Session} (h : run steps = .ok session) : session.Valid := by
  have hempty : ({} : Session).Valid := by
    refine ⟨wellFormed_empty, drafted_empty, tidy_empty, Program.laid_empty, fun n => ?_, fun f hf => ?_, ⟨?_, ?_, ?_⟩, ?_, ?_⟩
    · rw [show ({} : Session).program = {} from rfl, Program.node_empty]
      exact Program.isFormedIn_of_isPlain rfl
    · have hclosure := hf.1
      rw [show ({} : Session).program = {} from rfl, Program.func_empty] at hclosure
      cases hclosure
    all_goals exact fun e he => absurd he List.not_mem_nil
  exact Session.valid_steps hempty h

/-- The program that a script builds is well formed. -/
theorem wellFormed_of_run {steps : List Step} {session : Session} (h : run steps = .ok session) :
    session.program.WellFormed :=
  (valid_of_run h).wellFormed

theorem drafted_of_run {steps : List Step} {session : Session} (h : run steps = .ok session) :
    session.program.Drafted :=
  (valid_of_run h).drafted

theorem tidy_of_run {steps : List Step} {session : Session} (h : run steps = .ok session) : session.program.Tidy :=
  (valid_of_run h).tidy

theorem laid_of_run {steps : List Step} {session : Session} (h : run steps = .ok session) : session.program.Laid :=
  (valid_of_run h).laid

/-- The nodes of a program that a script builds are formed. -/
theorem isFormedIn_of_run {steps : List Step} {session : Session} (h : run steps = .ok session) (n : NodeId) :
    session.program.IsFormedIn (session.program.node n) :=
  (valid_of_run h).formed n

/-- Every closure that a script builds has a body. -/
theorem hasBody_of_run {steps : List Step} {session : Session} (h : run steps = .ok session) {f : FuncId}
    (hf : (session.program.func f).isClosure = true) : (session.program.func f).hasBody = true :=
  Bool.not_eq_false _ ▸ fun hbody => (valid_of_run h).finished f ⟨hf, hbody⟩

/-! ## Sessions of given scripts -/

theorem exists_eq_ok {ε α : Type} {x : Except ε α} (h : x.toOption.isSome = true) : ∃ a, x = .ok a := by
  cases x with
  | ok a => exact ⟨a, rfl⟩
  | error e => cases h

theorem exists_eq_ok_of_any {ε α : Type} {x : Except ε α} {P : α → Prop} [DecidablePred P]
    (h : x.toOption.any (fun a => decide (P a)) = true) : ∃ a, x = .ok a ∧ P a := by
  cases x with
  | ok a => exact ⟨a, rfl, of_decide_eq_true h⟩
  | error e => cases h

def faultOf {ε α : Type} : Except ε α → Option ε
  | .ok _ => none
  | .error e => some e

theorem eq_error_of_faultOf {ε α : Type} {x : Except ε α} {e : ε} (h : faultOf x = some e) : x = .error e := by
  cases x with
  | ok a => cases h
  | error e' => exact congrArg _ (Option.some.inj h)

/-- The session that a script ends with, if it does not fail. -/
def sessionOf (steps : List Step) : Session :=
  match run steps with
  | .ok session => session
  | .error _ => default

theorem run_eq_sessionOf {steps : List Step} (h : (run steps).toOption.isSome = true) :
    run steps = .ok (sessionOf steps) := by
  obtain ⟨session, hrun⟩ := exists_eq_ok h
  unfold sessionOf
  rw [hrun]

end EscapeAnalysis.Script

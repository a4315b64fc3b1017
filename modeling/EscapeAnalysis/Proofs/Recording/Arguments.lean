import EscapeAnalysis.Proofs.Recording.Edges
import EscapeAnalysis.Proofs.Types.Likeness

/-!
# The edges of arguments

A call stores its `...` arguments in an array of its own, and passes the address of the array. In the group that
address flows into the parameter; of any other callee that lets it escape it flows into the sink. An argument for any
other parameter is passed as it is.

* `Func.RestAt x k param` : the parameter takes the arguments from position `k` on;
* `Program.PassesFrom p call f k n` : the call of `f` has the value of `n` among these arguments;
* `Flow.Gathers s dst n` : `...` arguments that `n` is among flow into `dst`;
* `Flow.records_call_inGroup`, `Flow.records_call_byNotes` : the two kinds of callees;
* `Func.TakesAt x spread k param`, `Program.PassesAt p call f k n` : the parameter takes one argument, and the call
  passes the value of `n` there;
* `Flow.records_call_loses` : a call of a function that is known to let that argument escape.
-/

namespace EscapeAnalysis

/-- The parameter takes the arguments from position `k` on as a slice. -/
structure Func.RestAt (x : Func) (k : Nat) (param : Param) : Prop where
  get : x.params[k]? = some param
  variadic : param.variadic = true
  first : ∀ before ∈ x.params.take k, before.variadic = false

/-- The call of `f` is no spread call, and one of its arguments from position `k` on takes its value from `n`. -/
structure Program.PassesFrom (p : Program) (call : NodeId) (f : FuncId) (k : Nat) (n : NodeId) : Prop where
  callee : p.calleeOf call = some f
  spread : (p.node call).variadic = false
  arg : ∃ i arg, k ≤ i ∧ (p.node call).list[i]? = some arg ∧ p.Carries arg n

/-- The parameter takes the argument at position `k` as it is, in a call that spreads its last argument or does not. -/
structure Func.TakesAt (x : Func) (spread : Bool) (k : Nat) (param : Param) : Prop where
  get : x.params[k]? = some param
  single : ∀ q ∈ x.params.take (k + 1), (q.variadic && !spread) = false

/-- The argument at position `k` of the call of `f` takes its value from `n`. -/
structure Program.PassesAt (p : Program) (call : NodeId) (f : FuncId) (k : Nat) (n : NodeId) : Prop where
  callee : p.calleeOf call = some f
  arg : ∃ arg, (p.node call).list[k]? = some arg ∧ p.Carries arg n

theorem Program.PassesFrom.exists_passesAt {p : Program} {call n : NodeId} {f : FuncId} {k : Nat}
    (h : p.PassesFrom call f k n) : ∃ i, k ≤ i ∧ p.PassesAt call f i n := by
  obtain ⟨i, arg, hi, harg, hc⟩ := h.arg
  exact ⟨i, hi, h.callee, arg, harg, hc⟩

namespace Flow

variable {p : Program} {s : Flow}

/-! ## The slice of the arguments -/

/-- The node is the address of an array that the value of `n` is stored in. -/
def RestOf (s : Flow) (rest n : NodeId) : Prop :=
  ∃ array, (s.program.node rest).op = .restArg ∧ (s.program.node rest).left = some array ∧
    (s.program.node array).op = .arrayLit ∧ s.Edge array n

/-- The address of an array that the value of `n` is stored in flows into `dst`. -/
def Gathers (s : Flow) (dst n : NodeId) : Prop := ∃ rest, s.Edge dst rest ∧ s.RestOf rest n

theorem RestOf.op {rest n : NodeId} (h : s.RestOf rest n) : (s.program.node rest).op = .restArg := by
  obtain ⟨_, hop, _⟩ := h
  exact hop

theorem RestOf.ne_of_name {rest n m : NodeId} (h : s.RestOf rest n) (hm : (s.program.node m).op = .name) : m ≠ rest := by
  rintro rfl
  rw [h.op] at hm
  cases hm

theorem lasting_restOf (rest n : NodeId) : Lasting fun s => s.RestOf rest n := by
  rintro s t h ⟨array, hop, hleft, harray, hedge⟩
  have hrest := h.frame.node rest (s.program.lt_size_of_op_ne (by simp [hop]))
  refine ⟨array, hrest.op.trans hop, ?_, ?_, lasting_edge array n s t h hedge⟩
  · obtain ⟨_, _, he⟩ := hrest
    rw [he]
    exact hleft
  · rw [h.frame.op (by simp [harray]), harray]

theorem lasting_gathers (dst n : NodeId) : Lasting fun s => s.Gathers dst n := by
  rintro s t h ⟨rest, hedge, hrest⟩
  exact ⟨rest, lasting_edge dst rest s t h hedge, lasting_restOf rest n s t h hrest⟩

theorem place_arrayLit {q : Program} {n : NodeId} (hop : (q.node n).op = .arrayLit) (fuel : Nat) :
    q.place (fuel + 1) n = .ok (.tracked n) := by
  simp [Program.place, Node.isBlank, hop]

theorem takes_arrayLit {s : Flow} {n : NodeId} (hop : (s.program.node n).op = .arrayLit) : s.Takes .any n :=
  Or.inr ⟨valid_any s n, keeps_of_place (place_arrayLit hop 0)⟩

/-- The type is a pointer type, if it is known. -/
def IsPtr (q : Program) (ty : Option Ty) : Prop := ∀ t, ty = some t → ∃ c, q.types.compound? t = some (.ptr c)

theorem IsPtr.hasNoPointers {q r : Program} {ty : Option Ty} (h : IsPtr q ty) (hgrows : q.types.Grows r.types) :
    r.hasNoPointers ty = false := by
  cases ty with
  | none => rfl
  | some t =>
    obtain ⟨c, hc⟩ := h t rfl
    rw [← hgrows.compound? (TypeStore.has_of_compound? hc)] at hc
    simp [Program.hasNoPointers, TypeStore.hasPointers_ptr hc]

theorem records_ptrTo_isPtr (hp : p.Typed) (hs : s.Over p) (ty : Option Ty) :
    Records .any s (ptrTo ty) fun ty' t => IsPtr t.program ty' := by
  cases ty with
  | none =>
    refine triple_pure ?_
    rintro _ ⟨⟩
  | some ty =>
    have hptr : Records .any s (withTypes (·.ptr ty)) fun ty' t => t.program.types.compound? ty' = some (.ptr ty) :=
      ⟨.single (.types (.ptr ty)), hs.types.compound?_intern hp.store (.ptr ty)⟩
    refine hptr.map fun t u hu => ?_
    rintro _ ⟨⟩
    exact ⟨ty, hu⟩

section Rest

variable (hp : p.Typed) (hs : s.Over p) {call n : NodeId} {args : List NodeId} (hargs : PassesAll .any s call args)
  (hn : (p.node n).op = .name) (hty : p.hasNoPointers (p.node n).ty = false) (harg : ∃ arg ∈ args, p.Carries arg n)
include hp hs hargs hn hty harg

theorem records_restArg_gathers (sliceTy : Option Ty) :
    Records .any s (restArg call sliceTy args) fun rest t =>
      t.RestOf rest n ∧ t.program.hasNoPointers (t.program.node rest).ty = false := by
  obtain ⟨arg, harg, hc⟩ := harg
  unfold restArg
  refine triple_getProgram ?_
  extract_lets line jp
  have hjp (arrayTy : Option Ty) {t : Flow} (ht : Changes .any s t) : Records .any t (jp arrayTy) fun rest u =>
      u.RestOf rest n ∧ u.program.hasNoPointers (u.program.node rest).ty = false := by
    refine (records_ptrTo_isPtr hp (hs.changes ht) arrayTy).bind fun ty t₁ h₁ hptr => triple_get ?_
    have hs₁ := hs.changes (ht.trans h₁)
    refine (records_addNode hs₁.refs (fun m _ => valid_any t₁ m) (by simp) ⟨by simp, rfl⟩).bind
      fun array t₂ h₂ harray => ?_
    obtain ⟨_, harray, _⟩ := harray
    refine (records_setDepth (valid_any t₂ array) (puts_of_op (by simp [harray]) _)).bind fun _ t₃ h₃ _ => ?_
    have hs₃ := hs₁.changes (h₂.trans h₃)
    have hop {u : Flow} (hu : Changes .any t₃ u) : (u.program.node array).op = .arrayLit := by
      rw [(h₃.trans hu).frame.op (by rw [harray]; simp), harray]
    have hassign (u : Flow) (hu : Changes .any t₃ u) : Records .any u (assign array arg) fun _ v => v.Edge array n := by
      refine Triple.congr (triple_getProgram (records_carry_edge hp (hs₃.changes hu) (takes_arrayLit (hop hu)) hc ?_ hty _))
        (assign_eq_carryAll (place_arrayLit (hop hu) _))
      intro he
      have hname := (hs₃.changes hu).op hn (by simp)
      rw [← he, hop hu] at hname
      cases hname
    refine (records_forM_mem (lasting_edge array n) harg (fun m _ u hu => records_assign (hs₃.changes hu).refs
      (valid_any u array) (valid_any u m)) hassign).bind fun _ t₄ h₄ hedge => ?_
    have hframe := (h₃.trans h₄).frame
    have hargs₄ := hargs.frame ((((ht.trans h₁).trans h₂).trans h₃).trans h₄).frame
    refine (records_hangRest (hs₃.changes h₄).refs hargs₄ (valid_any t₄ array) (hop h₄) ?_ _ _ _).mono
      fun rest t₅ h₅ hrest => ?_
    · rw [hframe.nodes.children (t₂.program.lt_size_of_op_ne (by rw [harray]; simp)) (by rw [harray]; rfl), harray]
      rfl
    · obtain ⟨_, _, hrest, hleft, hrestTy⟩ := hrest
      refine ⟨⟨array, hrest, hleft, hop (h₄.trans h₅), lasting_edge array n _ _ h₅.steps hedge⟩, ?_⟩
      rw [hrestTy]
      exact hptr.hasNoPointers ((((h₂.trans h₃).trans h₄).trans h₅).frame.types)
  split
  · exact ((records_intern _).map (R := fun _ _ => True) fun _ _ _ => trivial).bind
      fun arrayTy t ht _ => hjp arrayTy ht
  · exact hjp none .refl

end Rest

/-! ## Parameters -/

/-- An argument that escapes is lost. -/
theorem records_applyNote_lose {A : Area} {note : Option String} (hnote : (Word.ofNote note).cls = .unknown)
    (outs : List NodeId) {src : NodeId} {Q : Flow → Prop} (h : Records A s (lose src) fun _ t => Q t) :
    Records A s (applyNote note outs src) fun _ t => Q t := by
  unfold applyNote
  rw [if_pos hnote]
  exact h.bind fun _ _ _ ht => triple_pure ht

/-- A value that is passed to a parameter that lets it escape is lost. Its mark takes nothing back. -/
theorem records_noteValue_lose {P : Flow → Prop} (hP : Lasting P) {call src : NodeId}
    (hsrc : PassesAll .any s call [src]) {q : Program} {param : Param} (hty : q.hasPointers param.ty = true)
    (hnote : (Word.ofNote param.note).cls = .unknown) {detached : Bool} {outs : List NodeId}
    (h : Records .any s (lose src) fun _ t => P t) :
    Records .any s (noteValue q detached outs param src) fun _ t => P t := by
  unfold noteValue
  rw [if_pos hty]
  refine (records_applyNote_lose hnote outs h).bind fun w t ht hPt => ?_
  split
  · exact (records_markStatementLocal (hsrc.frame ht.frame)).lasting hP hPt
  · exact triple_pure hPt

section Passings

variable {P : Flow → Prop} (hP : Lasting P) (hs : s.Over p) {call : NodeId} {args : List NodeId}
  (hargs : PassesAll .any s call args) {spread : Bool} {params : List Param}
include hP hs hargs

/-- What lasts is left by a loop over the arguments if it is left by what is done with one of them. -/
theorem records_passings_lasting {f : Passing → FlowM PUnit} {x : Passing} (hx : x ∈ passings spread params args)
    (hf : ∀ y, y.param ∈ params → ∀ t, Changes .any s t → PassesAll .any t call y.args →
      Records .any t (f y) fun _ _ => True)
    (hfx : ∀ t, Changes .any s t → t.Over p → PassesAll .any t call x.args → Records .any t (f x) fun _ u => P u) :
    Records .any s (do
      (passings spread params args).forM f
      if leftOver spread params args then throw (.argCount call) else return ()) fun _ t => P t := by
  have hpasses {y : Passing} (hy : y ∈ passings spread params args) {t : Flow} (ht : Changes .any s t) :
      PassesAll .any t call y.args := (PassesAll.passing (fun _ => hargs) hy).frame ht.frame
  refine (records_forM_mem hP hx (fun y hy t ht => hf y (mem_of_mem_passings hy).1 t ht (hpasses hy ht))
    fun t ht => hfx t ht (hs.changes ht) (hpasses hx ht)).bind fun _ t _ hPt => ?_
  split
  · exact triple_throw ⟨.refl, trivial⟩
  · exact triple_pure hPt

theorem records_bindParams_lasting {x : Passing} (hx : x ∈ passings spread params args)
    (hfx : ∀ t, t.Over p → PassesAll .any t call x.args → Records .any t (bindPassing call x) fun _ u => P u) :
    Records .any s (bindParams call spread params args) fun _ t => P t := by
  rw [bindParams_eq]
  refine records_passings_lasting hP hs hargs hx (fun y _ t ht hy => ?_) fun t _ => hfx t
  exact records_bindPassing (hs.changes ht).refs hy fun n _ => valid_any t n

theorem records_applyNotes_lasting {detached : Bool} {outs : List NodeId}
    (hsuits : ∀ q ∈ params, Suits s.program outs q.note) {x : Passing} (hx : x ∈ passings spread params args)
    (hfx : ∀ t, Changes .any s t → t.Over p → PassesAll .any t call x.args →
      Records .any t (notePassing call detached outs x) fun _ u => P u) :
    Records .any s (applyNotes call spread detached outs params args) fun _ t => P t := by
  rw [applyNotes_eq]
  refine records_passings_lasting hP hs hargs hx (fun y hy t ht hpasses => ?_) hfx
  exact records_notePassing (hs.changes ht).refs detached (fun m _ => valid_any t m) hpasses
    (ht.frame.suits (hsuits _ hy))

end Passings

section Params

variable (hp : p.Typed) (hs : s.Over p) {call n : NodeId} {args : List NodeId} (hargs : PassesAll .any s call args)
  (hn : (p.node n).op = .name) (hty : p.hasNoPointers (p.node n).ty = false) {x : Func} {k : Nat} {param : Param}
  (hrest : x.RestAt k param) {i : Nat} {arg : NodeId} (hi : k ≤ i) (harg : args[i]? = some arg) (hc : p.Carries arg n)
include hp hs hargs hn hty hrest hi harg hc

omit hp hs hargs hn hty hc in
/-- The argument is in the slice that is passed. -/
theorem exists_rest_mem_passings : ∃ rest, .rest param rest ∈ passings false x.params args ∧ arg ∈ rest := by
  refine ⟨args.drop k, rest_mem_passings hrest.get ?_ (fun q hq => ?_) ?_, List.mem_of_getElem? (i := i - k) ?_⟩
  · rw [hrest.variadic]
    rfl
  · rw [hrest.first q hq]
    rfl
  · exact Nat.lt_of_le_of_lt hi (List.getElem?_eq_some_iff.1 harg).1
  · rw [List.getElem?_drop, Nat.add_sub_of_le hi]
    exact harg

/-- In the group, the slice flows into the parameter. -/
theorem records_bindParams_gathers {xs : NodeId} (hname : param.name = some xs) (hxs : p.IsLocal xs) :
    Records .any s (bindParams call false x.params args) fun _ t => t.Gathers xs n := by
  obtain ⟨rest, hmem, harg⟩ := exists_rest_mem_passings hrest hi harg
  refine records_bindParams_lasting (lasting_gathers xs n) hs hargs hmem fun t ht hpasses => ?_
  refine (records_restArg_gathers hp ht hpasses hn hty ⟨arg, harg, hc⟩ _).bind fun rest u hu hrest => ?_
  obtain ⟨hrestOf, hptr⟩ := hrest
  have hs' := ht.changes hu
  have hne : xs ≠ rest := hrestOf.ne_of_name (hs'.op hxs.op (by simp))
  dsimp only [Passing.param]
  rw [hname]
  have hassign : Records .any u (assign xs rest) fun _ v => v.Edge xs rest :=
    Triple.congr (triple_getProgram (records_carry_source (hs'.takes_local hxs) (by rw [hrestOf.op]; rfl) hne hptr _))
      (assign_eq_carryAll (hs'.place_local hxs _))
  exact hassign.mono fun _ v hv hedge => ⟨rest, hedge, lasting_restOf rest n _ _ hv.steps hrestOf⟩

/-- If the callee is known to let the slice escape, it flows into the sink. -/
theorem records_applyNotes_gathers (detached : Bool) {outs : List NodeId}
    (hsuits : ∀ q ∈ x.params, Suits s.program outs q.note) (hnote : (Word.ofNote param.note).cls = .unknown)
    (hpointers : p.hasPointers param.ty = true) (hparamTy : p.HasType param.ty) (hsink : (s.program.node s.sink).op = .name) :
    Records .any s (applyNotes call false detached outs x.params args) fun _ t => t.Gathers s.sink n := by
  obtain ⟨rest, hmem, harg⟩ := exists_rest_mem_passings hrest hi harg
  refine records_applyNotes_lasting (lasting_gathers s.sink n) hs hargs hsuits hmem fun t ht hover hpasses => ?_
  refine (records_restArg_gathers hp hover hpasses hn hty ⟨arg, harg, hc⟩ _).bind
    fun rest u hu hrest => triple_getProgram ?_
  obtain ⟨hrestOf, hptr⟩ := hrest
  have hframe := (ht.trans hu).frame
  have hsame := hframe.sink
  have hne : u.sink ≠ rest := by
    refine hrestOf.ne_of_name ?_
    rw [hsame, hframe.op (by simp [hsink]), hsink]
  have hlose : Records .any u (lose rest) fun _ v => v.Gathers s.sink n := by
    have hedge : Records .any u (lose rest) fun _ v => v.Edge u.sink rest :=
      triple_get (triple_getProgram (records_carry_source (Or.inl rfl) (by rw [hrestOf.op]; rfl) hne hptr _))
    refine hedge.mono fun _ v hv hedge => ⟨rest, ?_, lasting_restOf rest n _ _ hv.steps hrestOf⟩
    rw [← hsame]
    exact hedge
  have hknown : u.program.hasPointers param.ty = true := by
    rw [(hover.changes hu).hasPointers hp hparamTy, hpointers]
  exact records_noteValue_lose (lasting_gathers s.sink n)
    ((hpasses.frame hu.frame).one ⟨valid_any u rest, Or.inr trivial⟩) hknown hnote hlose

end Params

/-! ## Calls -/

theorem isCall_of_calleeOf {q : Program} {call : NodeId} {f : FuncId} (h : q.calleeOf call = some f) :
    (q.node call).op.isCall = true := by
  unfold Program.calleeOf at h
  cases hl : (q.node call).left with
  | none => simp [hl] at h
  | some m =>
    simp only [hl, Option.bind_eq_bind, Option.bind_some] at h
    split at h
    · rename_i hop
      rw [hop]
      rfl
    · rename_i hop
      rw [hop]
      rfl
    · cases h

/-- A call whose only argument is no call has its arguments as they are written. -/
theorem records_callArgs_list {call : NodeId}
    (h : ∀ arg, (s.program.node call).list = [arg] → (s.program.node arg).op.isCall = false) :
    Records .any s (callArgs (s.program.node call)) fun args t => t = s ∧ args = (s.program.node call).list := by
  unfold callArgs
  split
  · rename_i arg harg
    refine triple_resultsOf (triple_getProgram (triple_pure ⟨rfl, ?_⟩))
    rw [if_neg, harg]
    rintro ⟨hcall, _⟩
    rw [h arg harg] at hcall
    cases hcall
  · exact triple_pure ⟨rfl, rfl⟩

section Calls

variable (hp : p.Typed) (hclosed : p.Closed) (hs : s.Over p) {call n : NodeId} {f : FuncId} {i : Nat}
  (hpass : p.PassesAt call f i n)
include hclosed hs hpass

theorem PassesAt.callee_eq : s.program.calleeOf call = some f := by
  have hop := isCall_of_calleeOf hpass.callee
  rw [hs.nodes.calleeOf hclosed (p.lt_size_of_op_ne (op_ne_block_of_isCall hop)), hpass.callee]

omit hclosed in
theorem PassesAt.node_eq : (p.node call).SameBut (s.program.node call) :=
  hs.node (op_ne_block_of_isCall (isCall_of_calleeOf hpass.callee))

omit hclosed in
theorem PassesAt.known : PassesAll .any s call (p.node call).list ∧
    (s.program.node call).variadic = (p.node call).variadic := by
  obtain ⟨arg, harg, _⟩ := hpass.arg
  obtain ⟨_, _, he⟩ := PassesAt.node_eq hs hpass
  refine ⟨⟨trivial, ?_, fun hnil => ?_, fun m _ => ⟨valid_any s m, Or.inr trivial⟩⟩, by rw [he]⟩
  · rw [he]
    exact isCall_of_calleeOf hpass.callee
  · rw [he] at hnil
    rw [show (p.node call).list = [] from hnil] at harg
    cases harg

theorem records_visit_passes {Q : Flow → Prop} (up : Option NodeId)
    (h : ∀ detached, Records .any { s with calls := call :: s.calls }
      (if s.program.isGroupCandidate f = true ∧ s.info.state f ≠ .noted then callInGroup call f (p.node call).list
        else callByNotes call detached (p.node call).list) fun _ t => Q t) :
    Records .any s (visit call up) fun _ t => Q t := by
  have hsame := PassesAt.node_eq hs hpass
  obtain ⟨arg, harg, hc⟩ := hpass.arg
  have hop := isCall_of_calleeOf hpass.callee
  have hargs : ∀ arg, (s.program.node call).list = [arg] → (s.program.node arg).op.isCall = false := by
    intro other hother
    rw [hsame.list] at hother
    rw [hother] at harg
    cases i with
    | succ i => cases harg
    | zero =>
      cases harg
      have hlt : arg.index < p.nodes.size := hclosed arg (Or.inl ⟨call, Node.mem_refs_list (by rw [hother]; simp)⟩)
      rw [(hs.nodes.node arg hlt).op]
      exact hc.not_isCall
  have hcall : Records .any s (Flow.call call up) fun _ t => Q t := by
    unfold Flow.call
    refine triple_modify_bind (.single (.call trivial)) (triple_get ?_)
    refine Triple.bind (records_callArgs_list (s := { s with calls := call :: s.calls }) hargs) fun args t _ ht => ?_
    obtain ⟨rfl, rfl⟩ := ht
    dsimp only
    rw [PassesAt.callee_eq hclosed hs hpass, hsame.list]
    exact h _
  unfold visit
  refine triple_get ?_
  dsimp only
  rw [hsame.op]
  cases hop' : (p.node call).op with
  | callFunc | callMethod | callInterface => exact hcall
  | _ =>
    rw [hop'] at hop
    cases hop

/-- A call of a function that is known by its notes leaves what they leave. -/
theorem records_visit_byNotes {Q : Flow → Prop} (up : Option NodeId)
    (hcand : ¬ (s.program.isGroupCandidate f = true ∧ s.info.state f ≠ .noted))
    (h : ∀ outs detached t, Changes .any s t → (∀ param ∈ (s.program.func f).params, Suits t.program outs param.note) →
      Records .any t (applyNotes call (p.node call).variadic detached outs (s.program.func f).params (p.node call).list)
        fun _ u => Q u) :
    Records .any s (visit call up) fun _ t => Q t := by
  refine records_visit_passes hclosed hs hpass up fun detached => ?_
  rw [if_neg hcand]
  obtain ⟨hargs, hspread⟩ := PassesAt.known hs hpass
  have hmet : Changes .any s { s with calls := call :: s.calls } := .single (.call trivial)
  refine records_callByNotes_apply (hs.changes hmet).refs (binds_met hs.refs (valid_any s call) trivial hargs.isCall)
    detached fun outs t ht _ hsuits => ?_
  have hshape : (s.program.calleeShape call).params = (s.program.func f).params := by
    unfold Program.calleeShape
    rw [PassesAt.callee_eq hclosed hs hpass]
  dsimp only at hsuits ⊢
  rw [hshape] at hsuits ⊢
  rw [hspread]
  exact h outs detached t (hmet.trans ht) hsuits

end Calls

section RestCalls

variable (hp : p.Typed) (hclosed : p.Closed) (hs : s.Over p) {call n : NodeId} {f : FuncId} {k : Nat}
  (hpass : p.PassesFrom call f k n) (hn : (p.node n).op = .name) (hty : p.hasNoPointers (p.node n).ty = false)
  {param : Param} (hrest : (s.program.func f).RestAt k param)
include hp hclosed hs hpass hn hty hrest

/-- A call of a function of the group. -/
theorem records_call_inGroup (hcand : s.program.isGroupCandidate f = true) (hstate : s.info.state f ≠ .noted)
    {xs : NodeId} (hname : param.name = some xs) (hxs : p.IsLocal xs) (up : Option NodeId) :
    Records .any s (visit call up) fun _ t => t.Gathers xs n := by
  obtain ⟨i, hi, hat⟩ := hpass.exists_passesAt
  refine records_visit_passes hclosed hs hat up fun _ => ?_
  rw [if_pos ⟨hcand, hstate⟩]
  obtain ⟨arg, harg, hc⟩ := hat.arg
  obtain ⟨hargs, hspread⟩ := PassesAt.known hs hat
  have hmet : Changes .any s { s with calls := call :: s.calls } := .single (.call trivial)
  refine records_callInGroup_bind (hs.changes hmet).refs (binds_met hs.refs (valid_any s call) trivial hargs.isCall)
    (PassesAt.callee_eq hclosed hs hat) hcand hstate fun _ t ht => ?_
  have ht := hmet.trans ht
  dsimp only
  rw [hspread, hpass.spread]
  exact records_bindParams_gathers hp (hs.changes ht) (hargs.frame ht.frame) hn hty hrest hi harg hc hname hxs

/-- A call of a function that is known to let its `...` arguments escape. -/
theorem records_call_byNotes (hcand : ¬ (s.program.isGroupCandidate f = true ∧ s.info.state f ≠ .noted))
    (hnote : (Word.ofNote param.note).cls = .unknown) (hpointers : p.hasPointers param.ty = true)
    (hparamTy : p.HasType param.ty) (hsink : (s.program.node s.sink).op = .name) (up : Option NodeId) :
    Records .any s (visit call up) fun _ t => t.Gathers s.sink n := by
  obtain ⟨i, hi, hat⟩ := hpass.exists_passesAt
  refine records_visit_byNotes hclosed hs hat up hcand fun outs detached t ht hsuits => ?_
  obtain ⟨arg, harg, hc⟩ := hat.arg
  obtain ⟨hargs, _⟩ := PassesAt.known hs hat
  rw [hpass.spread, ← ht.frame.sink]
  refine records_applyNotes_gathers hp (hs.changes ht) (hargs.frame ht.frame) hn hty hrest hi harg hc detached hsuits
    hnote hpointers hparamTy ?_
  rw [ht.frame.sink, ht.frame.op (by simp [hsink]), hsink]

end RestCalls

/-! ## Arguments that are passed as they are -/

section FixedParams

variable (hp : p.Typed) (hs : s.Over p) {call n : NodeId} {args : List NodeId} (hargs : PassesAll .any s call args)
  (hty : p.hasNoPointers (p.node n).ty = false) (hsink : s.sink ≠ n) {x : Func} {spread : Bool} {k : Nat} {param : Param}
  (htakes : x.TakesAt spread k param) {arg : NodeId} (harg : args[k]? = some arg) (hc : p.Carries arg n)
include hp hs hargs hty hsink htakes harg hc

/-- If the callee is known to let the argument escape, it is lost. -/
theorem records_applyNotes_loses (detached : Bool) {outs : List NodeId}
    (hsuits : ∀ q ∈ x.params, Suits s.program outs q.note) (hnote : (Word.ofNote param.note).cls = .unknown)
    (hpointers : p.hasPointers param.ty = true) (hparamTy : p.HasType param.ty) :
    Records .any s (applyNotes call spread detached outs x.params args) fun _ t => t.Edge s.sink n := by
  have hmem : .one param arg ∈ passings spread x.params args := one_mem_passings htakes.get harg htakes.single
  refine records_applyNotes_lasting (lasting_edge s.sink n) hs hargs hsuits hmem fun t ht hover hpasses => ?_
  have hlose : Records .any t (lose arg) fun _ u => u.Edge s.sink n := by
    rw [← ht.frame.sink]
    exact triple_get (triple_getProgram (records_carry_edge hp hover (Or.inl rfl) hc (ht.frame.sink ▸ hsink) hty _))
  have hknown : t.program.hasPointers param.ty = true := by rw [hover.hasPointers hp hparamTy, hpointers]
  simp only [notePassing, passingValue, pure_bind]
  exact triple_getProgram (records_noteValue_lose (lasting_edge s.sink n) hpasses hknown hnote hlose)

end FixedParams

/-- A call of a function that is known to let the argument escape. -/
theorem records_call_loses (hp : p.Typed) (hclosed : p.Closed) (hs : s.Over p) {call n : NodeId} {f : FuncId} {k : Nat}
    (hpass : p.PassesAt call f k n) (hty : p.hasNoPointers (p.node n).ty = false) (hsink : s.sink ≠ n) {param : Param}
    (htakes : (s.program.func f).TakesAt (p.node call).variadic k param)
    (hcand : ¬ (s.program.isGroupCandidate f = true ∧ s.info.state f ≠ .noted))
    (hnote : (Word.ofNote param.note).cls = .unknown) (hpointers : p.hasPointers param.ty = true)
    (hparamTy : p.HasType param.ty) (up : Option NodeId) :
    Records .any s (visit call up) fun _ t => t.Edge s.sink n := by
  refine records_visit_byNotes hclosed hs hpass up hcand fun outs detached t ht hsuits => ?_
  obtain ⟨arg, harg, hc⟩ := hpass.arg
  obtain ⟨hargs, _⟩ := PassesAt.known hs hpass
  rw [← ht.frame.sink]
  exact records_applyNotes_loses hp (hs.changes ht) (hargs.frame ht.frame) hty (ht.frame.sink ▸ hsink) htakes harg hc
    detached hsuits hnote hpointers hparamTy

end Flow

end EscapeAnalysis

import EscapeAnalysis.Proofs.Recording.Lasting

/-!
# The edges of assignments and returns

A value that is assigned flows from the nodes that the expression takes it from, through conversions, slices, fields
and elements of arrays. If the destination is a variable of a function, the edge goes into it, and if it is a global
variable, into the sink.

* `Program.Carries p src n` : the expression `src` takes its value from `n`;
* `Program.Assigns p stmt dst src`, `Program.Returns p f stmt out src` : what statements store where;
* `Flow.records_assign_local`, `Flow.records_assign_global` : the edges;
* `Flow.records_visit_assigns`, `Flow.records_visit_returns` : the visits of statements that assign and return;
* `Program.ReadsElements p n xs`, `Flow.visit_readsElements` : reads of the elements of a slice record nothing.
-/

namespace EscapeAnalysis

open Relation (ReflTransGen)

namespace Program

/-- The expression takes its value from the node. -/
inductive Carries (p : Program) : NodeId → NodeId → Prop where
  | self {n : NodeId} (hop : (p.node n).op.isSource = true) : Carries p n n
  | operand {src m n : NodeId} (hop : (p.node src).op.passes = true) (hm : (p.node src).left = some m)
    (h : Carries p m n) : Carries p src n
  | field {src m n : NodeId} (hop : (p.node src).op = .dot) (hty : p.hasNoPointers (p.node src).ty = false)
    (hm : (p.node src).left = some m) (h : Carries p m n) : Carries p src n
  | element {src m n : NodeId} (hop : (p.node src).op = .index) (hm : (p.node src).left = some m)
    (harray : p.isArrayNode (some m) = true) (h : Carries p m n) : Carries p src n
  /-- A slice that is appended to, with what it holds. -/
  | append {src m n : NodeId} (hop : (p.node src).op = .append) (hm : (p.node src).list.head? = some m)
    (h : Carries p m n) : Carries p src n

theorem Carries.isSource {p : Program} {src n : NodeId} (h : p.Carries src n) : (p.node n).op.isSource = true := by
  induction h with
  | self hop => exact hop
  | operand _ _ _ ih | field _ _ _ _ ih | element _ _ _ _ ih | append _ _ _ ih => exact ih

theorem Carries.lt_size {p : Program} {src n : NodeId} (h : p.Carries src n) : src.index < p.nodes.size := by
  refine p.lt_size_of_op_ne fun hblock => ?_
  cases h with
  | self hop | operand hop => simp [hblock, Op.isSource, Op.passes] at hop
  | field hop | element hop | append hop => simp [hblock] at hop

/-- The results of a call are no variables of the caller. -/
theorem Carries.not_isCall {p : Program} {src n : NodeId} (h : p.Carries src n) : (p.node src).op.isCall = false := by
  cases h with
  | self hop | operand hop => cases hop' : (p.node src).op <;> simp_all [Op.isSource, Op.passes, Op.isCall]
  | field hop | element hop | append hop =>
    rw [hop]
    rfl

/-- A variable of a function that is not blank. -/
structure IsLocal (p : Program) (n : NodeId) : Prop where
  op : (p.node n).op = .name
  cls : (p.node n).cls ≠ .global
  blank : (p.node n).isBlank = false

/-- A global variable that is not blank. -/
structure IsGlobal (p : Program) (n : NodeId) : Prop where
  op : (p.node n).op = .name
  cls : (p.node n).cls = .global
  blank : (p.node n).isBlank = false

/-- The statement assigns the value of `src` to `dst`. -/
inductive Assigns (p : Program) (stmt dst src : NodeId) : Prop where
  | one (hop : (p.node stmt).op = .assign ∨ (p.node stmt).op = .assignOp) (hdst : (p.node stmt).left = some dst)
    (hsrc : (p.node stmt).right = some src)
  | many {i : Nat} (hop : (p.node stmt).op = .assignMany) (hlength : (p.node stmt).list.length = (p.node stmt).rlist.length)
    (hdst : (p.node stmt).list[i]? = some dst) (hsrc : (p.node stmt).rlist[i]? = some src)

/-- The statement returns as many values as the function has results, `src` for the output `out`. -/
structure Returns (p : Program) (f : FuncId) (stmt out src : NodeId) : Prop where
  op : (p.node stmt).op = .returnStmt
  length : (p.node stmt).list.length = (p.func f).results.length
  values : ∃ i : Nat, (p.outputs (p.func f))[i]? = some out ∧ (p.node stmt).list[i]? = some src

/-- The node reads elements of `xs`, which is no array: one that it assigns to a variable, all that it ranges over, or
all that it appends. -/
inductive ReadsElements (p : Program) (n xs : NodeId) : Prop where
  | assign {dst src : NodeId} (hop : (p.node n).op = .assign) (hdst : (p.node n).left = some dst)
    (hname : (p.node dst).op = .name) (hsrc : (p.node n).right = some src) (hindex : (p.node src).op = .index)
    (hxs : (p.node src).left = some xs) (harray : p.isArrayNode (some xs) = false)
  | range (hop : (p.node n).op = .rangeStmt) (hxs : (p.node n).right = some xs) (harray : p.isArray (p.node n).ty = false)
  | append (hop : (p.node n).op = .append) (hspread : (p.node n).variadic = true) (hxs : xs ∈ (p.node n).list.drop 1)

end Program

namespace Flow

variable {p : Program} {s : Flow}

/-! ## What a recording does not change -/

section Over

variable (hs : s.Over p)
include hs

theorem Over.node {n : NodeId} (hn : (p.node n).op ≠ .block) : (p.node n).SameBut (s.program.node n) :=
  hs.nodes.node n (p.lt_size_of_op_ne hn)

theorem Over.op {n : NodeId} {op : Op} (hop : (p.node n).op = op) (hne : op ≠ .block) : (s.program.node n).op = op :=
  (hs.node (hop ▸ hne)).op.trans hop

theorem Over.left {n : NodeId} (hn : (p.node n).op ≠ .block) : (s.program.node n).left = (p.node n).left := by
  obtain ⟨_, _, he⟩ := hs.node hn
  rw [he]

theorem Over.ty {n : NodeId} (hn : (p.node n).op ≠ .block) : (s.program.node n).ty = (p.node n).ty := by
  obtain ⟨_, _, he⟩ := hs.node hn
  rw [he]

theorem Over.rlist {n : NodeId} (hn : (p.node n).op ≠ .block) : (s.program.node n).rlist = (p.node n).rlist := by
  obtain ⟨_, _, he⟩ := hs.node hn
  rw [he]

/-- Only calls get another right operand. -/
theorem Over.right {n : NodeId} (hn : (p.node n).op ≠ .block) (hcall : (p.node n).op.isCall = false) :
    (s.program.node n).right = (p.node n).right := by
  refine (hs.nodes.right n (p.lt_size_of_op_ne hn)).resolve_right fun h => ?_
  rw [hcall] at h
  cases h.1

theorem Over.hasNoPointers (hp : p.Typed) {ty : Option Ty} (hty : p.HasType ty) :
    s.program.hasNoPointers ty = p.hasNoPointers ty := by
  cases ty with
  | none => rfl
  | some t => exact congrArg not (hs.types.hasPointers hp.store (hty t rfl))

theorem Over.hasPointers (hp : p.Typed) {ty : Option Ty} (hty : p.HasType ty) :
    s.program.hasPointers ty = p.hasPointers ty := by
  cases ty with
  | none => rfl
  | some t => exact hs.types.hasPointers hp.store (hty t rfl)

theorem Over.isArray {ty : Option Ty} (hty : p.HasType ty) : s.program.isArray ty = p.isArray ty := by
  cases ty with
  | none => rfl
  | some t => exact hs.types.isArray (hty t rfl)

theorem Over.isArrayNode (hp : p.Typed) {n : NodeId} (hn : n.index < p.nodes.size) :
    s.program.isArrayNode (some n) = p.isArrayNode (some n) := by
  obtain ⟨_, _, he⟩ := hs.nodes.node n hn
  simp only [Program.isArrayNode, Option.any_some]
  rw [he]
  exact hs.isArray (hp.node n)

end Over

/-! ## Values -/

theorem records_link_edge {dst src : NodeId} (hdst : s.Takes .any dst) (hsrc : s.Gives .any src) (hne : dst ≠ src)
    (hty : s.program.hasNoPointers (s.program.node src).ty = false) :
    Records .any s (link dst src) fun _ t => t.Edge dst src := by
  have hif : ¬ (dst = src ∨ s.program.hasNoPointers (s.program.node src).ty = true) := by
    rintro (h | h)
    · exact hne h
    · rw [hty] at h
      cases h
  have hlink : link dst src s = .ok () (s.addEdge dst src) := by
    change EStateM.Result.ok () (if dst = src ∨ s.program.hasNoPointers (s.program.node src).ty then s
      else s.addEdge dst src) = _
    rw [if_neg hif]
  exact triple_of_eq_ok hlink (.single (.edge hdst hsrc hne hty)) (edge_addEdge s dst src)

theorem records_carry_source {dst src : NodeId} (hdst : s.Takes .any dst)
    (hop : (s.program.node src).op.isSource = true) (hne : dst ≠ src)
    (hty : s.program.hasNoPointers (s.program.node src).ty = false) (fuel : Nat) :
    Records .any s (carry dst fuel src) fun _ t => t.Edge dst src := by
  cases fuel with
  | zero => exact triple_throw ⟨.refl, trivial⟩
  | succ fuel =>
    rw [carry_succ]
    refine triple_getProgram ?_
    dsimp only
    rw [if_pos hop]
    exact records_link_edge hdst ⟨valid_any s src, Or.inl hop⟩ hne hty

section Values

variable (hp : p.Typed) (hs : s.Over p)
include hp hs

/-- The value of an expression flows from the node that the expression takes it from. -/
theorem records_carry_edge {dst src n : NodeId} (hdst : s.Takes .any dst) (hc : p.Carries src n) (hne : dst ≠ n)
    (hty : p.hasNoPointers (p.node n).ty = false) (fuel : Nat) :
    Records .any s (carry dst fuel src) fun _ t => t.Edge dst n := by
  induction hc generalizing fuel with
  | @self n hop =>
    have hblock : (p.node n).op ≠ .block := by
      intro h
      rw [h] at hop
      cases hop
    refine records_carry_source hdst ?_ hne ?_ fuel
    · rw [(hs.node hblock).op]
      exact hop
    · rw [hs.ty hblock, hs.hasNoPointers hp (hp.node n)]
      exact hty
  | @operand src m n hop hm _ ih =>
    cases fuel with
    | zero => exact triple_throw ⟨.refl, trivial⟩
    | succ fuel =>
      have hblock : (p.node src).op ≠ .block := by
        intro h
        rw [h] at hop
        cases hop
      have hleft := (hs.left hblock).trans hm
      rw [← (hs.node hblock).op] at hop
      unfold carry
      refine triple_getProgram ?_
      dsimp only
      rw [hleft]
      cases hop' : (s.program.node src).op with
      | conv | convNop | dotMethod | typeAssert | typeAssertOk | slice | slice3 | sliceArray | slice3Array | sliceString =>
        exact ih hne hty fuel
      | _ =>
        rw [hop'] at hop
        cases hop
  | @field src m n hop hno hm _ ih =>
    cases fuel with
    | zero => exact triple_throw ⟨.refl, trivial⟩
    | succ fuel =>
      have hblock : (p.node src).op ≠ .block := by simp [hop]
      unfold carry
      refine triple_getProgram ?_
      dsimp only
      rw [hs.op hop (by simp), hs.left hblock, hm, hs.ty hblock, hs.hasNoPointers hp (hp.node src), hno]
      exact ih hne hty fuel
  | @element src m n hop hm harray hc ih =>
    cases fuel with
    | zero => exact triple_throw ⟨.refl, trivial⟩
    | succ fuel =>
      unfold carry
      refine triple_getProgram ?_
      dsimp only
      rw [hs.op hop (by simp), hs.left (by simp [hop]), hm, hs.isArrayNode hp hc.lt_size, harray]
      exact ih hne hty fuel
  | @append src m n hop hm _ ih =>
    cases fuel with
    | zero => exact triple_throw ⟨.refl, trivial⟩
    | succ fuel =>
      unfold carry
      refine triple_getProgram ?_
      dsimp only
      rw [hs.op hop (by simp), (hs.node (by simp [hop])).list, hm]
      exact ih hne hty fuel

end Values

/-! ## Destinations -/

theorem getProgram_bind_eq {α : Type} (s : Flow) (f : Program → FlowM α) : (getProgram >>= f) s = f s.program s := rfl

theorem assign_eq_carryAll {dst d src : NodeId}
    (hplace : s.program.place (s.program.nodes.size + 1) dst = .ok (.tracked d)) :
    assign dst src s = carryAll d src s := by
  unfold assign
  rw [getProgram_bind_eq, hplace]

theorem assign_eq_lose {dst src : NodeId} (hplace : s.program.place (s.program.nodes.size + 1) dst = .ok (.lost none)) :
    assign dst src s = lose src s := by
  unfold assign
  rw [getProgram_bind_eq, hplace]
  rfl

theorem Over.place_name (hs : s.Over p) {dst : NodeId} (hop : (p.node dst).op = .name)
    (hblank : (p.node dst).isBlank = false) (fuel : Nat) :
    s.program.place (fuel + 1) dst = .ok (if (p.node dst).cls = .global then .lost none else .tracked dst) := by
  obtain ⟨_, _, he⟩ := hs.node (n := dst) (by simp [hop])
  have hblank' : (s.program.node dst).isBlank = false := by
    rw [he]
    exact hblank
  have hcls : (s.program.node dst).cls = (p.node dst).cls := by rw [he]
  simp [Program.place, hblank', hs.op hop (by simp), hcls]

theorem Over.place_local (hs : s.Over p) {dst : NodeId} (hdst : p.IsLocal dst) (fuel : Nat) :
    s.program.place (fuel + 1) dst = .ok (.tracked dst) := by
  rw [hs.place_name hdst.op hdst.blank, if_neg hdst.cls]

theorem Over.takes_local (hs : s.Over p) {dst : NodeId} (hdst : p.IsLocal dst) : s.Takes .any dst :=
  Or.inr ⟨valid_any s dst, keeps_of_place (hs.place_local hdst 0)⟩

theorem Over.place_global (hs : s.Over p) {dst : NodeId} (hdst : p.IsGlobal dst) (fuel : Nat) :
    s.program.place (fuel + 1) dst = .ok (.lost none) := by
  rw [hs.place_name hdst.op hdst.blank, if_pos hdst.cls]

theorem records_assign_local (hp : p.Typed) (hs : s.Over p) {dst src n : NodeId} (hdst : p.IsLocal dst)
    (hc : p.Carries src n) (hne : dst ≠ n) (hty : p.hasNoPointers (p.node n).ty = false) :
    Records .any s (assign dst src) fun _ t => t.Edge dst n :=
  Triple.congr (triple_getProgram (records_carry_edge hp hs (hs.takes_local hdst) hc hne hty _))
    (assign_eq_carryAll (hs.place_local hdst _))

theorem records_assign_global (hp : p.Typed) (hs : s.Over p) {dst src n : NodeId} (hdst : p.IsGlobal dst)
    (hc : p.Carries src n) (hne : s.sink ≠ n) (hty : p.hasNoPointers (p.node n).ty = false) :
    Records .any s (assign dst src) fun _ t => t.Edge s.sink n :=
  Triple.congr (triple_get (triple_getProgram (records_carry_edge hp hs (Or.inl rfl) hc hne hty _)))
    (assign_eq_lose (hs.place_global hdst _))

/-! ## Statements -/

/-- What one of several assignments leaves, all of them leave. -/
theorem records_assignEach_mem {P : Flow → Prop} (hP : Lasting P) (hrefs : s.Refs .any) {dsts srcs : List NodeId} {i : Nat}
    {dst src : NodeId} (hdst : dsts[i]? = some dst) (hsrc : srcs[i]? = some src)
    (h : ∀ t, Changes .any s t → Records .any t (assign dst src) fun _ u => P u) :
    Records .any s (assignEach dsts srcs) fun _ t => P t := by
  have hmem : (dst, src) ∈ dsts.zip srcs :=
    List.mem_of_getElem? (i := i) (List.getElem?_zip_eq_some.2 ⟨hdst, hsrc⟩)
  rw [assignEach_eq]
  exact records_forM_mem hP hmem (fun x _ t ht => records_assign (hrefs.changes ht) (valid_any t _) (valid_any t _)) h

theorem isSelfReslice_eq_false {q : Program} {dst : NodeId} (hdst : (q.node dst).op = .name) (src : NodeId) :
    q.isSelfReslice dst src = false := by
  have hbase : q.namedBase? dst = none := by
    unfold Program.namedBase?
    rw [hdst]
  unfold Program.isSelfReslice
  rw [hbase]
  split <;> rfl

section Statements

variable {P : Flow → Prop} (hP : Lasting P) (hs : s.Over p) {stmt dst src : NodeId}
  (h : ∀ t, Changes .any s t → Records .any t (assign dst src) fun _ u => P u)
include hP hs h

theorem records_visit_assigns (hstmt : p.Assigns stmt dst src) (hdst : (p.node dst).op = .name) (up : Option NodeId) :
    Records .any s (visit stmt up) fun _ t => P t := by
  unfold visit
  refine triple_get ?_
  dsimp only
  cases hstmt with
  | one hop hleft hright =>
    have hblock : (p.node stmt).op ≠ .block := by
      intro e
      simp [e] at hop
    have hcall : (p.node stmt).op.isCall = false := by
      rcases hop with hop | hop <;> rw [hop] <;> rfl
    have hself : s.program.isSelfReslice dst src = false := isSelfReslice_eq_false (hs.op hdst (by simp)) src
    rw [(hs.node hblock).op]
    rcases hop with hop | hop <;>
      · rw [hop]
        dsimp only
        rw [hs.left hblock, hs.right hblock hcall, hleft, hright]
        dsimp only
        rw [hself]
        exact h s .refl
  | many hop hlength hdsts hsrcs =>
    have hblock : (p.node stmt).op ≠ .block := by simp [hop]
    rw [hs.op hop (by simp)]
    dsimp only
    rw [(hs.node hblock).list, hs.rlist hblock, if_pos hlength]
    exact records_assignEach_mem hP hs.refs hdsts hsrcs h

theorem records_visit_returns {f : FuncId} (hstmt : p.Returns f stmt dst src) (hcurfn : s.curfn = some f)
    (houts : s.program.outputs (s.program.func f) = p.outputs (p.func f))
    (hresults : (s.program.func f).results = (p.func f).results) (up : Option NodeId) :
    Records .any s (visit stmt up) fun _ t => P t := by
  obtain ⟨hop, hlength, i, hout, hvalue⟩ := hstmt
  have hlist := (hs.node (n := stmt) (by simp [hop])).list
  unfold visit
  refine triple_get ?_
  dsimp only
  rw [hs.op hop (by simp)]
  dsimp only
  -- A single value stands for itself, as there is a single result.
  have hvalues : s.returned f (s.program.node stmt) = (p.node stmt).list := by
    rw [returned, if_neg, hlist]
    rw [hlist, hresults, ← hlength]
    omega
  rw [returnValues_eq]
  refine triple_get ?_
  rw [hcurfn]
  show Records .any s (if _ < _ then _ else _) _
  rw [houts, hvalues]
  split
  · exact triple_throw (e := EscapeError.returnCount stmt) ⟨.refl, trivial⟩
  · exact records_assignEach_mem hP hs.refs hout hvalue h

end Statements

/-! ## Elements of slices -/

/-- The operation comes to its end and changes nothing. -/
def Idle (s : Flow) (m : FlowM Unit) : Prop := m s = .ok () s

theorem idle_pure : Idle s (pure ()) := rfl

theorem idle_get {f : Flow → FlowM Unit} (h : Idle s (f s)) : Idle s (get >>= f) := h

theorem idle_getProgram {f : Program → FlowM Unit} (h : Idle s (f s.program)) : Idle s (getProgram >>= f) := h

theorem idle_carry_element {src xs : NodeId} (hop : (s.program.node src).op = .index)
    (hxs : (s.program.node src).left = some xs) (harray : s.program.isArrayNode (some xs) = false) (dst : NodeId)
    (fuel : Nat) : Idle s (carry dst (fuel + 1) src) := by
  unfold carry
  refine idle_getProgram ?_
  dsimp only
  rw [hop, hxs, harray]
  exact idle_pure

section Elements

variable (hs : s.Over p)
include hs

theorem idle_assign_element {dst src xs : NodeId} (hname : (p.node dst).op = .name)
    (hop : (s.program.node src).op = .index) (hxs : (s.program.node src).left = some xs)
    (harray : s.program.isArrayNode (some xs) = false) : Idle s (assign dst src) := by
  have hcarry (d : NodeId) : Idle s (carryAll d src) :=
    idle_getProgram (idle_carry_element hop hxs harray d _)
  cases hblank : (p.node dst).isBlank with
  | true =>
    obtain ⟨_, _, he⟩ := hs.node (n := dst) (by simp [hname])
    have hplace : s.program.place (s.program.nodes.size + 1) dst = .ok .nowhere := by
      unfold Program.place
      rw [he]
      exact if_pos hblank
    unfold assign
    refine idle_getProgram ?_
    rw [hplace]
    exact idle_pure
  | false =>
    have hplace := hs.place_name hname hblank s.program.nodes.size
    by_cases hglobal : (p.node dst).cls = .global
    · rw [if_pos hglobal] at hplace
      exact (assign_eq_lose hplace).trans (hcarry s.sink)
    · rw [if_neg hglobal] at hplace
      exact (assign_eq_carryAll hplace).trans (hcarry dst)

/-- No flow of the elements of a slice is recorded where they are read. -/
theorem visit_readsElements (hp : p.Typed) (hclosed : p.Closed) {n xs : NodeId} (h : p.ReadsElements n xs)
    (up : Option NodeId) : Idle s (visit n up) := by
  unfold visit
  refine idle_get ?_
  dsimp only
  cases h with
  | @assign dst src hop hdst hname hsrc hindex hxs harray =>
    have hblock : (p.node n).op ≠ .block := by simp [hop]
    have hlt : xs.index < p.nodes.size := hclosed xs (Or.inl ⟨src, Node.mem_refs_left hxs⟩)
    have hself : s.program.isSelfReslice dst src = false := isSelfReslice_eq_false (hs.op hname (by simp)) src
    rw [hs.op hop (by simp), hs.left hblock, hs.right hblock (by simp [hop, Op.isCall]), hdst, hsrc]
    dsimp only
    rw [hself]
    refine idle_assign_element hs hname (hs.op hindex (by simp)) ((hs.left (by simp [hindex])).trans hxs) ?_
    rw [hs.isArrayNode hp hlt, harray]
  | range hop hxs harray =>
    have hblock : (p.node n).op ≠ .block := by simp [hop]
    have harray' : ¬ s.program.isArray (s.program.node n).ty = true := by
      rw [hs.ty hblock, hs.isArray (hp.node n), harray]
      simp
    rw [hs.op hop (by simp)]
    dsimp only
    split
    · rw [if_neg harray']
      exact idle_pure
    · exact idle_pure
  | append hop hspread _ =>
    obtain ⟨_, _, he⟩ := hs.node (n := n) (by simp [hop])
    have hspread' : (s.program.node n).variadic = true := by
      rw [he]
      exact hspread
    rw [hs.op hop (by simp)]
    dsimp only
    rw [if_pos hspread']
    exact idle_pure

end Elements

end Flow

end EscapeAnalysis

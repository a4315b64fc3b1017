import EscapeAnalysis.Proofs.Recording.ShelteredCalls

/-!
# Walks that keep to themselves what calls keep

Whatever a statement stores, loses or returns is a part of it, or a part of its clauses and entries, so it is not kept:
what is kept is an argument of a call, or what is left of one without a conversion.

* `Shelter.Stands S up n` : the walk comes to the node as a part of `up`;
* `Shelter.guards_visit` : a node whose parts are walked;
* `Shelter.guards_walk` : a node with its parts;
* `Shelter.guards_recordFunc`, `Shelter.sound_of_recorded` : a function, and the functions of a group.
-/

namespace EscapeAnalysis.Flow.Shelter

variable {s : Flow} {S : s.Shelter} {t u : Flow} {n m : NodeId}

/-! ## Statements -/

theorem guards_loseAll (ht : S.Sound t) {xs : List NodeId} (hxs : ∀ m ∈ xs, S.Free t.program m) :
    S.Guards t (xs.forM lose) fun _ _ => True :=
  guards_forM ht _ fun m hm _ htu hu => guards_lose hu ((hxs m hm).mono htu)

theorem guards_assignEach (ht : S.Sound t) {dsts srcs : List NodeId} (hdsts : ∀ m ∈ dsts, S.Free t.program m)
    (hsrcs : ∀ m ∈ srcs, S.Free t.program m) : S.Guards t (assignEach dsts srcs) fun _ _ => True := by
  rw [assignEach_eq]
  refine guards_forM ht _ fun x hx u htu hu => guards_assign hu ?_ ?_
  · exact (hdsts x.1 (List.of_mem_zip hx).1).mono htu
  · exact (hsrcs x.2 (List.of_mem_zip hx).2).mono htu

/-- The sources flow into an expression, if that keeps what flows into it. -/
theorem guards_assignAll (ht : S.Sound t) (hname : (t.program.node n).op ≠ .name)
    (hkeeps : (t.program.node n).keeps = true) {xs : List NodeId} (hxs : ∀ m ∈ xs, S.Free t.program m) :
    S.Guards t (xs.forM (assign n)) fun _ _ => True := by
  have hlt : n.index < t.program.nodes.size := by
    refine t.program.lt_size_of_op_ne fun hop => ?_
    simp [Node.keeps, hop] at hkeeps
  refine guards_forM ht _ fun m hm u htu hu => ?_
  have hsame := htu.nodes.node n hlt
  refine guards_assign_of_keeps hu ?_ (hsame.keeps.trans hkeeps) (Or.inl ((hxs m hm).mono htu))
  rwa [hsame.op]

/-- The operands of a call that runs on its own are free, with the slice of its `...` arguments. -/
theorem guards_loseCall (ht : S.Sound t) (hin : S.inside n)
    (hop : (s.program.node n).op = .deferStmt ∨ (s.program.node n).op = .goStmt) {call : Option NodeId}
    (hcall : ∀ c, call = some c → c ∈ (s.program.node n).children) :
    S.Guards t (loseCall call) fun _ _ => True := by
  cases call with
  | none => exact triple_pure_of ht.rest trivial
  | some c =>
    have hmem := hcall c rfl
    have hc : S.inside c := S.part n hin c hmem
    have hcall : (s.program.node n).op.isCall = false := by rcases hop with hop | hop <;> rw [hop] <;> rfl
    have hconv : (s.program.node n).op ≠ .convNop := by rcases hop with hop | hop <;> rw [hop] <;> simp
    have hkept : ¬ S.kept c := S.plain n hin hcall (fun h => hconv h.2) c hmem
    have hlt := S.lt_size c hc
    have hsame := ht.nodes.node c hlt
    refine triple_getProgram (guards_loseAll ht fun m hm => ?_)
    simp only [List.mem_append, Option.mem_toList] at hm
    cases hcc : (s.program.node c).op.isCall with
    | true =>
      -- The slice of its `...` arguments is not marked, since the call runs on its own.
      have hloud : S.loud c := (S.alone n hin c hmem hcc).2 hop
      rcases hm with (hm | hm) | hm
      · rw [hsame.left] at hm
        refine .old (Or.inr ⟨S.part c hc m ?_, S.callee c hc hcc m ?_⟩) <;> simp [Node.children, hm]
      · exact ht.slices c hc hcc hloud m hm
      · rw [hsame.list] at hm
        exact .old (open_of_loud hc hcc hloud hm)
    | false =>
      refine .old (open_of_part hc hcc (fun h => hkept h.1) ?_)
      rw [← ht.nodes.children hlt hcc]
      rcases hm with (hm | hm) | hm <;> simp [Node.children, hm]

/-- The outputs of a function are names. -/
theorem free_of_output (ht : S.Sound t) {f : FuncId} (hm : m ∈ t.program.outputs (t.program.func f)) :
    S.Free t.program m := by
  obtain ⟨hdecl, hname⟩ := List.mem_filter.1 hm
  rw [Node.isNameOf_iff] at hname
  rw [ht.func f] at hdecl
  have hlt := S.closed m (Or.inr ⟨f, Func.mem_refs_decls hdecl⟩)
  refine .old (Or.inl ?_)
  rw [← (ht.nodes.node m hlt).op]
  exact hname.1

theorem guards_returnValues (ht : S.Sound t) (n : NodeId) {x : Node} (hx : ∀ m ∈ x.list, S.Free t.program m) :
    S.Guards t (returnValues n x) fun _ _ => True := by
  rw [returnValues_eq]
  refine triple_get (triple_optionForM_of ht.rest _ fun f _ => ?_)
  split
  · exact triple_throw trivial
  · refine guards_assignEach ht (fun m hm => free_of_output ht hm) fun m hm => ?_
    rcases mem_returned hm with hm | ⟨value, hm⟩
    · exact hx m hm
    · exact (ht.results value m hm).1

/-- Captured variables are names, and so are free, as are their addresses. -/
theorem guards_captureVars (ht : S.Sound t) (hop : (t.program.node n).op = .closure) {names : List NodeId}
    (hnames : ∀ name ∈ names, (s.program.node name).isNameOf .captured = true) :
    S.Guards t (captureVars n names) fun _ _ => True := by
  have hassign {u : Flow} (htu : s.Grows t u) (hu : S.Sound u) {src : NodeId} (hsrc : S.Free u.program src) :
      S.Guards u (assign n src) fun _ _ => True := by
    have hop' : (u.program.node n).op = .closure := by rw [htu.op (by simp [hop]), hop]
    exact guards_assign_of_keeps hu (by simp [hop']) (by simp [Node.keeps, hop']) (Or.inl hsrc)
  rw [captureVars_eq]
  refine guards_forM ht _ fun name hname u htu hu => triple_get (triple_optionForM_of hu.rest _ fun var hvar => ?_)
  have hfree : S.Free u.program var := by
    have hcaptured := hnames name hname
    have hlt : name.index < s.program.nodes.size := by
      exact s.program.lt_size_of_op_eq_name (Node.isNameOf_iff.1 hcaptured).1
    refine .old (Or.inl (S.captured name hcaptured var ?_))
    rw [← (hu.nodes.node name hlt).origin]
    exact hvar
  split
  · exact hassign htu hu hfree
  · refine (guards_ptrTo hu _).bind fun ty v huv hv _ => guards_place hv rfl fun addr w hvw hw hmade => ?_
    refine hassign ((htu.trans huv).trans hvw) hw (free_of_made hmade rfl fun m hm => ?_)
    rw [Node.mem_upstream (by simp) rfl] at hm
    simp only [Option.some.injEq, reduceCtorEq, List.not_mem_nil, or_false] at hm
    rw [← hm]
    exact (hfree.mono huv).mono hvw

theorem guards_addressDepth (ht : S.Sound t) (n : NodeId) (var : Option NodeId) :
    S.Guards t (addressDepth n var) fun _ _ => True := by
  rw [addressDepth_eq]
  exact triple_get (triple_optionForM_of ht.rest _ fun _ _ => guards_setDepth ht _ _)

/-! ## Visits -/

variable (S) in
/-- The walk comes to the node as a part of `up`, or as a statement of a body. A call runs on its own if `up` says
so. -/
structure Stands (up : Option NodeId) (n : NodeId) : Prop where
  inside : S.inside n
  loud : (s.program.node n).op.isCall = true →
    (S.loud n ↔ ∃ k, up = some k ∧ ((s.program.node k).op = .deferStmt ∨ (s.program.node k).op = .goStmt))
  above : ∀ k, up = some k → S.inside k

/-- The parts of a node that is walked over are, too, and so is what was hung below a call. -/
theorem Stands.child {up : Option NodeId} (ht : S.Sound t) (hn : t.program.Within (S.Stands up) n)
    (hm : m ∈ (t.program.node n).children) : t.program.Within (S.Stands (some n)) m := by
  rcases hn with hn | ⟨_, array, hchildren, harray⟩ | ⟨_, hchildren⟩
  · have hin := hn.inside
    refine (ht.nodes.part (S.lt_size n hin) hm).imp (fun hpart => ?_) Or.inl
    refine ⟨S.part n hin m hpart, fun hcall => ?_, fun k hk => Option.some.inj hk ▸ hin⟩
    rw [S.alone n hin m hpart hcall]
    simp
  · rw [hchildren, List.mem_singleton] at hm
    exact Or.inr (Or.inr (hm ▸ harray))
  · rw [hchildren] at hm
    cases hm

section Parts

variable (ht : S.Sound t) {up : Option NodeId} (hn : t.program.Within (S.Stands up) n)
include ht hn

/-- What a node is made of is free, unless it is a call or a conversion that is kept, or was hung below a call. -/
theorem free_of_part (hcall : (t.program.node n).op.isCall = false) (hwraps : ¬ S.Wraps n)
    (hrest : (t.program.node n).op ≠ .restArg) (hm : m ∈ (t.program.node n).children) : S.Free t.program m := by
  rcases hn with hn | ⟨hop, _⟩ | ⟨_, hchildren⟩
  · have hin := hn.inside
    have hlt := S.lt_size n hin
    have hcall : (s.program.node n).op.isCall = false := by rw [← (ht.nodes.node n hlt).op, hcall]
    rw [ht.nodes.children hlt hcall] at hm
    exact .old (open_of_part hin hcall hwraps hm)
  · exact absurd hop hrest
  · rw [hchildren] at hm
    cases hm

theorem free_of_part_of_op (hop : (t.program.node n).op.isCall = false ∧ (t.program.node n).op ≠ .convNop ∧
    (t.program.node n).op ≠ .restArg) : ∀ m ∈ (t.program.node n).children, S.Free t.program m := by
  obtain ⟨hcall, hconv, hrest⟩ := hop
  refine fun m hm => free_of_part ht hn hcall (fun hwraps => hconv ?_) hrest hm
  rw [(ht.nodes.node n (S.lt_size n (S.within n hwraps.1))).op, hwraps.2]

/-- The entries of a literal are keys with values, and are free. -/
theorem free_of_entry (hop : (t.program.node n).op.isComposite = true) {entry : NodeId}
    (hentry : entry ∈ (t.program.node n).list)
    (hm : (t.program.node entry).left = some m ∨ (t.program.node entry).right = some m) : S.Free t.program m := by
  have hfree : S.Free t.program entry := by
    refine free_of_part_of_op ht hn ?_ entry (by simp [Node.children, hentry])
    revert hop
    cases (t.program.node n).op <;> simp [Op.isComposite, Op.isCall]
  have hkey : (t.program.node entry).op = .key := by
    rcases hn with hn | ⟨h, _⟩ | ⟨_, hchildren⟩
    · have hin := hn.inside
      have hsame := ht.nodes.node n (S.lt_size n hin)
      have hkey := S.entries n hin (hsame.op ▸ hop) entry (hsame.list ▸ hentry)
      rw [(ht.nodes.node entry (s.program.lt_size_of_op_ne (by simp [hkey]))).op, hkey]
    · rw [h] at hop
      cases hop
    · simp only [Node.children, List.append_eq_nil_iff] at hchildren
      simp [hchildren] at hentry
  refine hfree.upstream ht ((Node.mem_upstream (by simp [hkey]) (by rw [hkey]; rfl)).2 ?_)
  exact hm.imp_right Or.inl

theorem free_of_literalValue (hop : (t.program.node n).op.isComposite = true)
    (hm : m ∈ t.program.literalValues (t.program.node n)) : S.Free t.program m := by
  obtain ⟨entry, hentry, hm⟩ := List.mem_filterMap.1 hm
  exact free_of_entry ht hn hop hentry (Or.inr hm)

theorem free_of_literalPart (hop : (t.program.node n).op.isComposite = true)
    (hm : m ∈ t.program.literalParts (t.program.node n)) : S.Free t.program m := by
  obtain ⟨entry, hentry, hm⟩ := List.mem_flatMap.1 hm
  rw [List.mem_append, Option.mem_toList, Option.mem_toList] at hm
  exact free_of_entry ht hn hop hentry hm

/-- The variables of the clauses of a switch are free. -/
theorem free_of_clauseVar (hop : (t.program.node n).op = .switchStmt)
    (hm : m ∈ t.program.clauseVars (t.program.node n)) : S.Free t.program m := by
  obtain ⟨clause, hclause, hm⟩ := List.mem_filterMap.1 hm
  have hfree := free_of_part_of_op ht hn (by simp [hop, Op.isCall]) clause (by simp [Node.children, hclause])
  have hin := (hn.of_op (by simp [hop]) (by simp [hop])).inside
  have hsame := ht.nodes.node n (S.lt_size n hin)
  have hcase := S.clauses n hin (hsame.op ▸ hop) clause (hsame.list ▸ hclause)
  have hcase' : (t.program.node clause).op = .caseClause := by
    rw [(ht.nodes.node clause (s.program.lt_size_of_op_ne (by simp [hcase]))).op, hcase]
  exact hfree.upstream ht (Node.mem_upstream_left (by simp [hcase']) (by rw [hcase']; rfl) hm)

/-- What a switch over a type looks at is free. -/
theorem free_of_guard {guard : NodeId} (hguard : t.program.typeGuard? (t.program.node n) = some guard)
    (hm : (t.program.node guard).right = some m) : S.Free t.program m := by
  unfold Program.typeGuard? at hguard
  split at hguard
  · rename_i hop
    obtain ⟨htest, hguard⟩ := Option.filter_eq_some_iff.1 hguard
    have hguard : (t.program.node guard).op = .typeGuard := by simpa using hguard
    have hfree := free_of_part_of_op ht hn (by simp [hop, Op.isCall]) guard (by simp [Node.children, htest])
    exact hfree.upstream ht (Node.mem_upstream_right (by simp [hguard]) (by rw [hguard]; rfl) hm)
  · cases hguard

/-- A call runs on its own if the statement around it says so. -/
theorem guards_visit_call (hop : (t.program.node n).op.isCall = true) : S.Guards t (call n up) fun _ _ => True := by
  have hstands := hn.of_isCall hop
  have hin := hstands.inside
  rw [(ht.nodes.node n (S.lt_size n hin)).op] at hop
  refine guards_call hin hop ht ?_
  rw [hstands.loud hop, Option.any_eq_true]
  refine exists_congr fun k => and_congr_right fun hk => ?_
  rw [(ht.nodes.node k (S.lt_size k (hstands.above k hk))).op, decide_eq_true_iff]

/-- The operand of a conversion or of an address flows into it. -/
theorem guards_assign_left (hop : (t.program.node n).op.isCall = false) (hname : (t.program.node n).op ≠ .name)
    (hkeeps : (t.program.node n).keeps = true) (htu : s.Grows t u) (hu : S.Sound u) :
    S.Guards u ((t.program.node n).left.forM (assign n)) fun _ _ => True := by
  refine triple_optionForM_of hu.rest _ fun m hm => ?_
  have hblock : (t.program.node n).op ≠ .block := fun h => by simp [Node.keeps, h] at hkeeps
  have hrest : (t.program.node n).op ≠ .restArg := fun h => by simp [Node.keeps, h] at hkeeps
  have hsame := htu.nodes.node n (t.program.lt_size_of_op_ne hblock)
  refine guards_assign_of_keeps hu (hsame.op ▸ hname) (hsame.keeps.trans hkeeps) ?_
  -- Only a conversion that is kept may have an operand that is.
  by_cases hwraps : S.Wraps n
  · exact Or.inr hwraps
  · exact Or.inl ((free_of_part ht hn hop hwraps hrest (by simp [Node.children, hm])).mono htu)

end Parts

/-- What a node records comes from its parts. -/
theorem guards_visit (ht : S.Sound t) {up : Option NodeId} (hn : t.program.Within (S.Stands up) n) :
    S.Guards t (visit n up) fun _ _ => True := by
  have hfree := free_of_part_of_op ht hn
  have hleft {m : NodeId} (h : (t.program.node n).left = some m) : m ∈ (t.program.node n).children := by
    simp [Node.children, h]
  have hright {m : NodeId} (h : (t.program.node n).right = some m) : m ∈ (t.program.node n).children := by
    simp [Node.children, h]
  have hlist {m : NodeId} (h : m ∈ (t.program.node n).list) : m ∈ (t.program.node n).children := by
    simp [Node.children, h]
  have hrlist {m : NodeId} (h : m ∈ (t.program.node n).rlist) : m ∈ (t.program.node n).children := by
    simp [Node.children, h]
  have hlose (hop : (t.program.node n).op = .deferStmt ∨ (t.program.node n).op = .goStmt) :
      S.Guards t (loseCall (t.program.node n).left) fun _ _ => True := by
    have hin := (hn.of_op (by rcases hop with h | h <;> simp [h]) (by rcases hop with h | h <;> simp [h])).inside
    have hsame := ht.nodes.node n (S.lt_size n hin)
    refine guards_loseCall ht hin (hsame.op ▸ hop) fun c hc => ?_
    rw [hsame.left] at hc
    simp [Node.children, hc]
  have hmark {op : FlowM Unit} (h : ∀ u, s.Grows t u → S.Sound u → S.Guards u op fun _ _ => True) :
      S.Guards t (do markPending n; op) fun _ _ => True :=
    (guards_markPending ht n).bind fun _ u htu hu _ => h u htu hu
  unfold visit
  refine triple_get ?_
  dsimp only
  cases hop : (t.program.node n).op with
  | decl => exact triple_optionForM_of ht.rest _ fun m _ => guards_setDepth ht _ _
  | label => exact triple_optionForM_of ht.rest _ fun l _ => triple_modify (ht.of_nodes_eq rfl rfl rfl rfl rfl)
  | rangeStmt =>
    specialize hfree (by simp [hop, Op.isCall])
    dsimp only
    split
    · rename_i value _ expr hl hr
      split
      · exact guards_assign ht (hfree _ (hlist (by simp [hl]))) (hfree _ (hright hr))
      · exact triple_pure_of ht.rest trivial
    · exact triple_pure_of ht.rest trivial
  | switchStmt =>
    dsimp only
    split
    · rename_i subject hsubject
      obtain ⟨guard, hguard, hsubject⟩ := Option.bind_eq_some_iff.1 hsubject
      refine guards_forM ht _ fun m hm u htu hu => guards_assign hu ?_ ((free_of_guard ht hn hguard hsubject).mono htu)
      exact (free_of_clauseVar ht hn hop hm).mono htu
    · exact triple_pure_of ht.rest trivial
  | assign | assignOp =>
    specialize hfree (by simp [hop, Op.isCall])
    dsimp only
    split
    · rename_i dst src hdst hsrc
      split
      · exact triple_modify (ht.of_nodes_eq rfl rfl rfl rfl rfl)
      · exact guards_assign ht (hfree _ (hleft hdst)) (hfree _ (hright hsrc))
    · exact triple_pure_of ht.rest trivial
  | assignMany =>
    specialize hfree (by simp [hop, Op.isCall])
    dsimp only
    split
    · exact guards_assignEach ht (fun m hm => hfree m (hlist hm)) fun m hm => hfree m (hrlist hm)
    · exact triple_pure_of ht.rest trivial
  | assignRecv | assignLookup | assignAssert =>
    specialize hfree (by simp [hop, Op.isCall])
    dsimp only
    split
    · rename_i dst _ src _ hl hr
      exact guards_assign ht (hfree _ (hlist (by simp [hl]))) (hfree _ (hrlist (by simp [hr])))
    · exact triple_pure_of ht.rest trivial
  | send =>
    specialize hfree (by simp [hop, Op.isCall])
    exact triple_optionForM_of ht.rest _ fun m hm => guards_lose ht (hfree m (hright hm))
  | deferStmt =>
    dsimp only
    split
    · exact hlose (Or.inl hop)
    · exact triple_pure_of ht.rest trivial
  | goStmt => exact hlose (Or.inr hop)
  | callFunc | callMethod | callInterface => exact guards_visit_call ht hn (by rw [hop]; rfl)
  | assignCall =>
    specialize hfree (by simp [hop, Op.isCall])
    dsimp only
    split
    · exact triple_throw trivial
    · split
      · exact triple_throw_bind trivial _
      · exact guards_assignEach ht (fun m hm => hfree m (hlist hm)) fun m hm => (ht.results _ m hm).1
  | returnStmt =>
    specialize hfree (by simp [hop, Op.isCall])
    exact guards_returnValues ht n fun m hm => hfree m (hlist hm)
  | panicStmt =>
    specialize hfree (by simp [hop, Op.isCall])
    exact triple_optionForM_of ht.rest _ fun m hm => guards_lose ht (hfree m (hleft hm))
  | append =>
    specialize hfree (by simp [hop, Op.isCall])
    dsimp only
    split
    · exact triple_pure_of ht.rest trivial
    · exact guards_loseAll ht fun m hm => hfree m (hlist (List.mem_of_mem_drop hm))
  | conv | convNop =>
    exact guards_assign_left ht hn (by rw [hop]; rfl) (by simp [hop]) (by simp [Node.keeps, hop]) (.refl t) ht
  | convIface | ptrLit =>
    exact hmark fun u htu hu =>
      guards_assign_left ht hn (by rw [hop]; rfl) (by simp [hop]) (by simp [Node.keeps, hop]) htu hu
  | arrayLit =>
    have hvalues : ∀ m ∈ t.program.literalValues (t.program.node n), S.Free t.program m :=
      fun m hm => free_of_literalValue ht hn (by rw [hop]; rfl) hm
    dsimp only
    split
    · exact hmark fun u htu hu => guards_loseAll hu fun m hm => (hvalues m hm).mono htu
    · exact guards_assignAll ht (by simp [hop]) (by simp [Node.keeps, hop]) hvalues
  | structLit =>
    refine guards_assignAll ht (by simp [hop]) (by simp [Node.keeps, hop]) fun m hm => ?_
    exact free_of_literalValue ht hn (by rw [hop]; rfl) hm
  | methodValue =>
    specialize hfree (by simp [hop, Op.isCall])
    exact hmark fun u htu hu => triple_optionForM_of hu.rest _ fun m hm => guards_lose hu ((hfree m (hleft hm)).mono htu)
  | mapLit =>
    refine hmark fun u htu hu => guards_loseAll hu fun m hm => ?_
    exact (free_of_literalPart ht hn (by rw [hop]; rfl) hm).mono htu
  | closure =>
    refine (triple_optionForM_of ht.rest _ fun f _ => guards_captureVars ht hop fun name hname => ?_).bind
      fun _ u hu _ => guards_markPending hu.2 n
    rw [ht.func f] at hname
    exact S.captures f name hname
  | makeChan | makeMap | makeSlice | new | runesToString | bytesToString | stringToRunes | stringToBytes | runeToString
  | concat => exact guards_markPending ht n
  | addr => exact hmark fun u _ hu => guards_addressDepth hu n _
  | _ => exact triple_pure_of ht.rest trivial

/-! ## Bodies -/

theorem guards_deepen (ht : S.Sound t) (op : Op) (amount : Int) : S.Guards t (deepen op amount) fun _ _ => True := by
  unfold deepen
  split
  · exact triple_modify (ht.of_nodes_eq rfl rfl rfl rfl rfl)
  · exact triple_pure_of ht.rest trivial

theorem guards_placeClauseVars (ht : S.Sound t) (x : Node) : S.Guards t (placeClauseVars x) fun _ _ => True := by
  unfold placeClauseVars
  refine triple_get ?_
  split
  · exact guards_forM ht _ fun m _ u _ hu => guards_setDepth hu m _
  · exact triple_pure_of ht.rest trivial

theorem guards_walk (ht : S.Sound t) (fuel : Nat) {up : Option NodeId} (hn : t.program.Within (S.Stands up) n) :
    S.Guards t (walk fuel up n) fun _ _ => True := by
  induction fuel generalizing t up n with
  | zero => exact triple_throw trivial
  | succ fuel ih =>
    have hparts {u : Flow} (htu : s.Grows t u) (hu : S.Sound u) {xs : List NodeId}
        (hxs : ∀ m ∈ xs, m ∈ (u.program.node n).children) :
        S.Guards u (xs.forM (walk fuel (some n))) fun _ _ => True := by
      refine guards_forM hu _ fun m hm v huv hv => ih hv ?_
      exact (Stands.child hu (hn.extends htu.nodes) (hxs m hm)).extends huv.nodes
    unfold walk
    refine triple_getProgram ?_
    refine (hparts (.refl t) ht fun m hm => mem_children_init hm).bind fun _ u htu hu _ => ?_
    refine (guards_deepen hu _ 1).bind fun _ v huv hv _ => triple_getProgram ?_
    refine (guards_placeClauseVars hv _).bind fun _ w hvw hw _ => triple_getProgram ?_
    have htw := (htu.trans huv).trans hvw
    refine (hparts htw hw fun m hm => mem_children_walked hm).bind fun _ x hwx hx _ => ?_
    refine (guards_deepen hx _ (-1)).bind fun _ z hxz hz _ => ?_
    exact guards_visit hz (hn.extends ((htw.trans hwx).trans hxz).nodes)

theorem guards_scanLabels (ht : S.Sound t) (fuel : Nat) (n : NodeId) :
    S.Guards t (scanLabels fuel n) fun _ _ => True := by
  induction fuel generalizing t n with
  | zero => exact triple_throw trivial
  | succ fuel ih =>
    unfold scanLabels
    refine triple_getProgram ((guards_forM ht _ fun m _ u _ hu => ih hu m).bind fun _ u _ hu _ => ?_)
    have hnode : S.Guards u (scanNode n (t.program.node n)) fun _ _ => True := by
      refine triple_of_ok fun a v hv => ⟨?_, trivial⟩
      rw [scanNode_eq] at hv
      split at hv
      · cases hv
      · cases hv
        rw [meet_eq]
        exact hu.of_nodes_eq (u := { u with labels := (u.meet (t.program.node n)).labels }) rfl rfl rfl rfl rfl
    exact hnode.bind fun _ v _ hv _ => guards_forM hv _ fun m _ w _ hw => ih hw m

/-! ## Functions -/

theorem guards_declareWord (ht : S.Sound t) (w : Word) (n : NodeId) :
    S.Guards t (declareWord w n) fun _ _ => True := by
  unfold declareWord
  refine triple_get ?_
  dsimp only
  split
  · split
    · exact guards_setDepth ht n 0
    · refine (guards_setDepth ht n 1).bind fun _ u _ hu _ => ?_
      split
      · exact triple_pure_of hu.rest trivial
      · have hword : S.Guards u (modifyInfo (·.setWord n w)) fun _ _ => True :=
          triple_modify (hu.of_nodes_eq rfl rfl rfl rfl rfl)
        exact hword.bind fun _ v _ hv _ => triple_modify (hv.of_nodes_eq rfl rfl rfl rfl rfl)
    · exact triple_pure_of ht.rest trivial
  · exact triple_pure_of ht.rest trivial

theorem guards_enterBody (ht : S.Sound t) (f : FuncId) : S.Guards t (enterBody f) fun _ _ => True := by
  have hnames : S.Guards t (declareNames f) fun _ _ => True := by
    unfold declareNames
    refine triple_get ?_
    extract_lets decl w
    refine (guards_forM ht _ fun m _ u _ hu => guards_declareWord hu w m).bind fun _ u htu hu _ => ?_
    split
    · exact guards_forM hu _ fun m hm v huv hv => guards_link hv (Or.inl ((free_of_output ht hm).mono (htu.trans huv)))
    · exact triple_pure_of hu.rest trivial
  exact triple_getProgram (hnames.bind fun _ u _ hu _ =>
    triple_getProgram (guards_forM hu _ fun m _ v _ hv => guards_scanLabels hv _ m))

/-- The start of a function makes no notes. -/
theorem Sound.startFunc (ht : S.Sound t) {f : FuncId} (hf : t.info.state f = .planned) :
    s.Grows t (t.startFunc f) ∧ S.Sound (t.startFunc f) := by
  have htu : s.Grows t (t.startFunc f) := ⟨.refl _, fun _ _ _ => rfl⟩
  refine ⟨htu, ht.grow htu rfl (fun g => ?_) (fun _ _ h => Or.inl h) (fun _ _ h => Or.inl h) (fun _ _ _ _ h => Or.inl h)
    fun _ h => Or.inl h⟩
  show (t.info.setState f .started).state g = .noted ↔ _
  by_cases hg : g = f
  · rw [hg, Info.state_setState_self, hf]
    simp
  · rw [Info.state_setState_of_ne _ _ hg]

theorem guards_recordBody (ht : S.Sound t) {f : FuncId}
    (hbody : ∀ m ∈ (s.program.func f).body.getD [], S.Stands none m) : S.Guards t (recordBody f) fun _ _ => True := by
  refine triple_getProgram ((guards_enterBody ht f).bind fun _ u _ hu _ => ?_)
  refine triple_getProgram (guards_forM hu _ fun m hm v _ hv => guards_walk hv _ (Or.inl (hbody m ?_)))
  rwa [← ht.func f]

theorem guards_recordFunc (ht : S.Sound t) {f : FuncId}
    (hbody : ∀ m ∈ (s.program.func f).body.getD [], S.Stands none m) : S.Guards t (recordFunc f) fun _ _ => True := by
  unfold recordFunc
  refine triple_get ?_
  split
  · exact triple_throw_bind trivial _
  · rename_i hstate
    obtain ⟨htu, hu⟩ := ht.startFunc (Classical.not_not.1 hstate)
    have hleave : S.Guards (t.startFunc f)
        (do recordBody f; modify fun u => { u with depth := t.depth, curfn := t.curfn }) fun _ _ => True :=
      (guards_recordBody hu hbody).bind fun _ v _ hv _ => triple_modify (hv.of_nodes_eq rfl rfl rfl rfl rfl)
    exact hleave.after ⟨htu, hu⟩ rfl

/-- The functions of a group leave a sound graph. -/
theorem sound_of_recorded {fs : List FuncId} (ht : S.Sound t)
    (hbody : ∀ f ∈ fs, ∀ m ∈ (s.program.func f).body.getD [], S.Stands none m)
    (h : fs.forM recordFunc t = .ok () u) : S.Sound u :=
  ((guards_forM ht fs fun f hf _ _ hv => guards_recordFunc hv (hbody f hf)).ok h).1.2

end EscapeAnalysis.Flow.Shelter

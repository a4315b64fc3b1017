import EscapeAnalysis.Proofs.Recording.Flows
import EscapeAnalysis.Proofs.Recording.Statements
import EscapeAnalysis.Proofs.Reporting.Observers

/-!
# Recording the flows of a group

The scan for labels, the walk over a body and the recording of a function make changes only.

* `Flow.records_recordBody` : the recording of a function that was started;
* `Flow.Steps A s t` : changes, and functions that are started;
* `Flow.Steps.word`, `Flow.Steps.right`, `Flow.Steps.noEscape` : what they write, and where;
* `Flow.Starts A fs s t` : recording leads from `s` to `t` and starts the functions `fs` on the way;
* `Flow.starts_funcs`, `Flow.starts_funcs_error` : the recording of the functions of a group, and where it may stop.
-/

namespace EscapeAnalysis

open Relation (ReflTransGen)

namespace Flow

variable {A : Area} {s : Flow}

/-! ## Labels -/

theorem changes_position {s t : Flow} (depth : Int) (labels : List (LabelId × Bool))
    (h : t = { s with depth, labels }) : Changes A s t := by
  rw [h]
  exact .single (.position depth labels)

theorem records_scanNode (n : NodeId) (x : Node) : Records A s (scanNode n x) fun _ _ => True := by
  unfold scanNode
  split
  · exact triple_modify (changes_position _ _ rfl)
  · refine triple_modify ?_
    split
    · exact changes_position _ _ rfl
    · exact .refl
  · exact triple_throw ⟨.refl, trivial⟩
  · exact triple_throw ⟨.refl, trivial⟩
  · exact triple_pure trivial

theorem records_scanLabels (fuel : Nat) (n : NodeId) : Records A s (scanLabels fuel n) fun _ _ => True := by
  induction fuel generalizing s n with
  | zero => exact triple_throw ⟨.refl, trivial⟩
  | succ fuel ih =>
    unfold scanLabels
    refine triple_getProgram ?_
    refine (triple_forM _ fun m _ t _ => ih m).bind fun _ t _ _ => ?_
    exact (records_scanNode n _).bind fun _ u _ _ => triple_forM _ fun m _ t _ => ih m

theorem records_scanBody (body : List NodeId) : Records A s (scanBody body) fun _ _ => True :=
  triple_getProgram (triple_forM _ fun m _ _ _ => records_scanLabels _ m)

/-! ## Statements -/

theorem records_assignEach (hs : s.Refs A) {dsts srcs : List NodeId} (hdsts : ∀ m ∈ dsts, s.Valid A m)
    (hsrcs : ∀ m ∈ srcs, s.Valid A m) : Records A s (assignEach dsts srcs) fun _ _ => True := by
  rw [assignEach_eq]
  refine triple_forM _ fun x hx t ht => records_assign (hs.changes ht) (ht.frame.valid ?_) (ht.frame.valid ?_)
  · exact hdsts x.1 (List.of_mem_zip hx).1
  · exact hsrcs x.2 (List.of_mem_zip hx).2

theorem records_loseAll (hs : s.Refs A) {xs : List NodeId} (hxs : ∀ m ∈ xs, s.Valid A m) :
    Records A s (xs.forM lose) fun _ _ => True :=
  triple_forM xs fun m hm _ ht => records_lose (hs.changes ht) (ht.frame.valid (hxs m hm))

theorem records_assignAll (hs : s.Refs A) {dst : NodeId} (hdst : s.Valid A dst) {xs : List NodeId}
    (hxs : ∀ m ∈ xs, s.Valid A m) : Records A s (xs.forM (assign dst)) fun _ _ => True :=
  triple_forM xs fun m hm _ ht => records_assign (hs.changes ht) (ht.frame.valid hdst) (ht.frame.valid (hxs m hm))

theorem records_loseCall (hs : s.Refs A) {call : Option NodeId} (hcall : ∀ n, call = some n → s.Valid A n) :
    Records A s (loseCall call) fun _ _ => True := by
  cases call with
  | none => exact triple_pure trivial
  | some call =>
    refine triple_getProgram (records_loseAll hs fun m hm => hs.node call (hcall call rfl) m ?_)
    simp only [List.mem_append, Option.mem_toList] at hm
    rcases hm with (hm | hm) | hm
    · exact Node.mem_refs_left hm
    · exact Node.mem_refs_right hm
    · exact Node.mem_refs_list hm

theorem outputs_valid (hs : s.Refs A) {f : FuncId} (hf : A.func f) :
    ∀ m ∈ s.program.outputs (s.program.func f), s.Valid A m :=
  fun m hm => hs.func f hf m (Func.mem_refs_decls (List.mem_filter.1 hm).1)

theorem outputs_give (hs : s.Refs A) {f : FuncId} (hf : A.func f) :
    ∀ m ∈ s.program.outputs (s.program.func f), s.Gives A m := by
  intro m hm
  have hop := (Node.isNameOf_iff.1 (List.mem_filter.1 hm).2).1
  exact ⟨outputs_valid hs hf m hm, Or.inl (by rw [hop]; rfl)⟩

theorem records_returnValues (hs : s.Refs A) (n : NodeId) {x : Node} (hx : ∀ m ∈ x.list, s.Valid A m) :
    Records A s (returnValues n x) fun _ _ => True := by
  rw [returnValues_eq]
  refine triple_get (triple_optionForM _ fun f hf => ?_)
  split
  · exact triple_throw ⟨.refl, trivial⟩
  · refine records_assignEach hs (outputs_valid hs (hs.curfn f hf)) fun m hm => ?_
    rcases mem_returned hm with hm | ⟨value, hm⟩
    · exact hx m hm
    · exact (hs.results value.index m hm).1

/-- The node is an expression for a closure of `f`. -/
structure IsClosureOf (p : Program) (n : NodeId) (f : FuncId) : Prop where
  op : (p.node n).op = .closure
  func : (p.node n).func = some f

theorem IsClosureOf.frame {t : Flow} {n : NodeId} {f : FuncId} (h : IsClosureOf s.program n f) (ht : Frame s t) :
    IsClosureOf t.program n f := by
  have hsame := ht.node n (s.program.lt_size_of_op_ne (by rw [h.op]; simp))
  exact ⟨hsame.op.trans h.op, hsame.func.trans h.func⟩

theorem records_captureVars (hs : s.Refs A) {n : NodeId} (hn : s.Valid A n) {f : FuncId}
    (hclosure : IsClosureOf s.program n f) {names : List NodeId}
    (hnames : ∀ name ∈ names, name ∈ (s.program.func f).captures) :
    Records A s (captureVars n names) fun _ _ => True := by
  rw [captureVars_eq]
  refine triple_forM _ fun name hname t ht => triple_get (triple_optionForM _ fun var hvar => ?_)
  have hs := hs.changes ht
  have hn := ht.frame.valid hn
  have hvalid : t.Valid A var := by
    have hclosure := hclosure.frame ht.frame
    refine hs.captured n hn hclosure.op f hclosure.func name ?_ var hvar
    rw [ht.frame.func]
    exact hnames name hname
  split
  · exact records_assign hs hn hvalid
  · refine (records_ptrTo _).bind fun ty u hu _ => ?_
    refine (records_addNode (hs.changes hu) (by simp [Node.refs, Node.children, hu.frame.valid hvalid])
      (by simp) ⟨by simp, rfl⟩).bind fun addr v hv haddr => ?_
    refine (records_setDepth haddr.1 (puts_of_op (by simp [haddr.2.1]) _)).bind fun _ w hw _ => ?_
    exact records_assign (((hs.changes hu).changes hv).changes hw) (((hu.trans hv).trans hw).frame.valid hn)
      (hw.frame.valid haddr.1)

theorem records_addressDepth {n : NodeId} (hn : s.Valid A n) (hop : (s.program.node n).op ≠ .name)
    (var : Option NodeId) :
    Records A s (addressDepth n var) fun _ _ => True := by
  rw [addressDepth_eq]
  exact triple_get (triple_optionForM _ fun _ _ => records_setDepth hn (puts_of_op hop _))

theorem records_passLabel (l : LabelId) : Records A s (passLabel l) fun _ _ => True :=
  triple_modify (changes_position _ _ rfl)

/-! The parts of its parts that a node reads are valid. -/

section Parts

variable (hs : s.Refs A) {x : Node} (hx : ∀ m ∈ x.list, s.Valid A m)
include hs hx

theorem clauseVars_valid : ∀ m ∈ s.program.clauseVars x, s.Valid A m := by
  intro m hm
  obtain ⟨clause, hclause, hm⟩ := List.mem_filterMap.1 hm
  exact hs.node clause (hx clause hclause) m (Node.mem_refs_left hm)

theorem literalValues_valid : ∀ m ∈ s.program.literalValues x, s.Valid A m := by
  intro m hm
  obtain ⟨entry, hentry, hm⟩ := List.mem_filterMap.1 hm
  exact hs.node entry (hx entry hentry) m (Node.mem_refs_right hm)

theorem literalParts_valid : ∀ m ∈ s.program.literalParts x, s.Valid A m := by
  intro m hm
  obtain ⟨entry, hentry, hm⟩ := List.mem_flatMap.1 hm
  rcases List.mem_append.1 hm with hm | hm
  · exact hs.node entry (hx entry hentry) m (Node.mem_refs_left (Option.mem_toList.1 hm))
  · exact hs.node entry (hx entry hentry) m (Node.mem_refs_right (Option.mem_toList.1 hm))

end Parts

theorem mem_refs_typeGuard {p : Program} {x : Node} {guard : NodeId} (h : p.typeGuard? x = some guard) :
    guard ∈ x.refs := by
  unfold Program.typeGuard? at h
  split at h
  · simp [Node.refs, Node.children, (Option.filter_eq_some_iff.1 h).1]
  · cases h

theorem records_visit (hs : s.Refs A) {n : NodeId} (hn : s.Valid A n) (hin : s.program.Within A.walk n) (up : Option NodeId) :
    Records A s (visit n up) fun _ _ => True := by
  have hleft {m : NodeId} (h : (s.program.node n).left = some m) : s.Valid A m :=
    hs.node n hn m (Node.mem_refs_left h)
  have hright {m : NodeId} (h : (s.program.node n).right = some m) : s.Valid A m :=
    hs.node n hn m (Node.mem_refs_right h)
  have hlist {m : NodeId} (h : m ∈ (s.program.node n).list) : s.Valid A m :=
    hs.node n hn m (Node.mem_refs_list h)
  have hrlist {m : NodeId} (h : m ∈ (s.program.node n).rlist) : s.Valid A m :=
    hs.node n hn m (Node.mem_refs_rlist h)
  have hassign {t : Flow} (ht : Changes A s t) : Records A t ((s.program.node n).left.forM (assign n)) fun _ _ => True :=
    triple_optionForM _ fun m hm => records_assign (hs.changes ht) (ht.frame.valid hn) (ht.frame.valid (hleft hm))
  have hlose {t : Flow} (ht : Changes A s t) : Records A t ((s.program.node n).left.forM lose) fun _ _ => True :=
    triple_optionForM _ fun m hm => records_lose (hs.changes ht) (ht.frame.valid (hleft hm))
  have hmark (hop : (s.program.node n).op ≠ .name) : Records A s (markPending n) fun _ _ => True :=
    records_markPending hn hop hin
  unfold visit
  refine triple_get ?_
  dsimp only
  cases hop : (s.program.node n).op with
  | decl =>
    refine triple_optionForM _ fun m hm => records_setDepth (hleft hm) fun _ => Or.inr (Or.inl ⟨n, ?_, ?_⟩)
    · exact hin.of_op (by simp [hop]) (by simp [hop])
    · simp [Program.introduced, hop, hm]
  | label => exact triple_optionForM _ fun l _ => records_passLabel l
  | rangeStmt =>
    dsimp only
    split
    · rename_i value _ expr hl hr
      split
      · exact records_assign hs (hlist (by rw [hl]; simp)) (hright hr)
      · exact triple_pure trivial
    · exact triple_pure trivial
  | switchStmt =>
    dsimp only
    split
    · rename_i subject hsubject
      obtain ⟨guard, hguard, hsubject⟩ := Option.bind_eq_some_iff.1 hsubject
      refine triple_forM _ fun m hm t ht => records_assign (hs.changes ht) (ht.frame.valid ?_) (ht.frame.valid ?_)
      · exact clauseVars_valid hs (fun m hm => hlist hm) m hm
      · exact hs.node guard (hs.node n hn guard (mem_refs_typeGuard hguard)) _ (Node.mem_refs_right hsubject)
    · exact triple_pure trivial
  | assign | assignOp =>
    dsimp only
    split
    · rename_i dst src hdst hsrc
      split
      · exact triple_modify (.single (.finding _))
      · exact records_assign hs (hleft hdst) (hright hsrc)
    · exact triple_pure trivial
  | assignMany =>
    dsimp only
    split
    · exact records_assignEach hs (fun m hm => hlist hm) fun m hm => hrlist hm
    · exact triple_pure trivial
  | assignRecv | assignLookup | assignAssert =>
    dsimp only
    split
    · rename_i dst _ src _ hl hr
      exact records_assign hs (hlist (by rw [hl]; simp)) (hrlist (by rw [hr]; simp))
    · exact triple_pure trivial
  | send => exact triple_optionForM _ fun m hm => records_lose hs (hright hm)
  | deferStmt =>
    dsimp only
    split
    · exact records_loseCall hs fun m hm => hleft hm
    · exact triple_pure trivial
  | goStmt => exact records_loseCall hs fun m hm => hleft hm
  | callFunc | callMethod | callInterface =>
    have hcall : (s.program.node n).op.isCall = true := by
      rw [hop]
      rfl
    exact records_call hs hn (hin.of_isCall hcall) hcall up
  | assignCall =>
    dsimp only
    split
    · exact triple_throw ⟨.refl, trivial⟩
    · split
      · exact triple_throw_bind (e := EscapeError.callResults n) ⟨.refl, trivial⟩ _
      · exact records_assignEach hs (fun m hm => hlist hm) fun m hm => (hs.results _ m hm).1
  | returnStmt => exact records_returnValues hs n fun m hm => hlist hm
  | panicStmt => exact hlose .refl
  | append =>
    dsimp only
    split
    · exact triple_pure trivial
    · exact records_loseAll hs fun m hm => hlist (List.mem_of_mem_drop hm)
  | conv | convNop => exact hassign .refl
  | convIface | ptrLit => exact (hmark (by simp [hop])).bind fun _ t ht _ => hassign ht
  | arrayLit =>
    dsimp only
    split
    · refine (hmark (by simp [hop])).bind fun _ t ht _ => ?_
      exact records_loseAll (hs.changes ht) (ht.frame.valid_all (literalValues_valid hs fun m hm => hlist hm))
    · exact records_assignAll hs hn (literalValues_valid hs fun m hm => hlist hm)
  | structLit => exact records_assignAll hs hn (literalValues_valid hs fun m hm => hlist hm)
  | methodValue => exact (hmark (by simp [hop])).bind fun _ t ht _ => hlose ht
  | mapLit =>
    refine (hmark (by simp [hop])).bind fun _ t ht _ => ?_
    exact records_loseAll (hs.changes ht) (ht.frame.valid_all (literalParts_valid hs fun m hm => hlist hm))
  | closure =>
    refine (triple_optionForM _ fun f hf => records_captureVars hs hn ⟨hop, hf⟩ fun _ hname => hname).bind
      fun _ t ht _ => ?_
    refine records_markPending (ht.frame.valid hn) ?_ (hin.extends ht.frame.nodes)
    rw [ht.frame.op (by simp [hop]), hop]
    simp
  | makeChan | makeMap | makeSlice | new | runesToString | bytesToString | stringToRunes | stringToBytes | runeToString
  | concat => exact hmark (by simp [hop])
  | addr =>
    refine (hmark (by simp [hop])).bind fun _ t ht _ => records_addressDepth (ht.frame.valid hn) ?_ _
    rw [ht.frame.op (by simp [hop]), hop]
    simp
  | _ => exact triple_pure trivial

/-! ## Bodies -/

theorem records_deepen (op : Op) (amount : Int) : Records A s (deepen op amount) fun _ _ => True := by
  unfold deepen
  split
  · exact triple_modify (changes_position _ _ rfl)
  · exact triple_pure trivial

theorem records_placeClauseVars (hs : s.Refs A) {n : NodeId} (hn : s.Valid A n) (hin : s.program.Within A.walk n) :
    Records A s (placeClauseVars (s.program.node n)) fun _ _ => True := by
  unfold placeClauseVars
  refine triple_get ?_
  split
  · rename_i hguard
    have hop : (s.program.node n).op = .switchStmt := by
      unfold Program.typeGuard? at hguard
      split at hguard
      · assumption
      · cases hguard
    have hvars := clauseVars_valid hs fun m hm => hs.node n hn m (Node.mem_refs_list hm)
    refine triple_forM _ fun m hm t ht => records_setDepth (ht.frame.valid (hvars m hm)) fun _ => ?_
    refine Or.inr (Or.inl ⟨n, hin.of_op (by simp [hop]) (by simp [hop]), ht.frame.nodes.introduced ?_⟩)
    simp [Program.introduced, hop, hm]
  · exact triple_pure trivial

theorem mem_children_walked {x : Node} {m : NodeId} (h : m ∈ x.walked) : m ∈ x.children := by
  simp only [Node.walked, Node.children, List.mem_append] at h ⊢
  grind

theorem mem_children_init {x : Node} {m : NodeId} (h : m ∈ x.init) : m ∈ x.children := by
  simp [Node.children, h]

theorem records_walk (hs : s.Refs A) (hW : s.program.Confines A.walk) (fuel : Nat) (up : Option NodeId)
    {n : NodeId} (hn : s.Valid A n) (hin : s.program.Within A.walk n) : Records A s (walk fuel up n) fun _ _ => True := by
  induction fuel generalizing s up n with
  | zero => exact triple_throw ⟨.refl, trivial⟩
  | succ fuel ih =>
    have hparts {t : Flow} (ht : Changes A s t) {xs : List NodeId}
        (hxs : ∀ m ∈ xs, m ∈ (t.program.node n).children) :
        Records A t (xs.forM (walk fuel (some n))) fun _ _ => True := by
      have hst := hs.changes ht
      have hWt := hW.extends ht.frame.nodes
      refine triple_forM _ fun m hm u hu => ih (hst.changes hu) (hWt.extends hu.frame.nodes) _
        (hu.frame.valid (hst.node n (ht.frame.valid hn) m (Node.mem_refs_children (hxs m hm)))) ?_
      exact ((hin.extends ht.frame.nodes).child hWt (hxs m hm)).extends hu.frame.nodes
    unfold walk
    refine triple_getProgram ?_
    refine (hparts .refl fun m hm => mem_children_init hm).bind fun _ t ht _ => ?_
    refine (records_deepen _ 1).bind fun _ u hu _ => triple_getProgram ?_
    refine (records_placeClauseVars ((hs.changes ht).changes hu) ((ht.trans hu).frame.valid hn)
      (hin.extends (ht.trans hu).frame.nodes)).bind fun _ v hv _ => triple_getProgram ?_
    refine (hparts ((ht.trans hu).trans hv) fun m hm => mem_children_walked hm).bind fun _ w hw _ => ?_
    refine (records_deepen _ (-1)).bind fun _ z hz _ => ?_
    have hwalked := (((ht.trans hu).trans hv).trans hw).trans hz
    exact records_visit (hs.changes hwalked) (hwalked.frame.valid hn) (hin.extends hwalked.frame.nodes) up

theorem records_walkBody (hs : s.Refs A) (hW : s.program.Confines A.walk) {body : List NodeId}
    (hbody : ∀ m ∈ body, s.Valid A m ∧ A.walk m) : Records A s (walkBody body) fun _ _ => True := by
  refine triple_getProgram (triple_forM _ fun m hm t ht => ?_)
  exact records_walk (hs.changes ht) (hW.extends ht.frame.nodes) _ _ (ht.frame.valid (hbody m hm).1)
    (Or.inl (hbody m hm).2)

/-! ## Functions -/

theorem records_declareWord {c : EscapeClass} (hc : c = .none ∨ c = .heap) {n : NodeId} (hn : s.Valid A n) {f : FuncId} (hf : A.func f)
    (hdecl : n ∈ (s.program.func f).decls) : Records A s (declareWord (.plain c) n) fun _ _ => True := by
  unfold declareWord
  refine triple_get ?_
  dsimp only
  split
  · rename_i hop
    cases hcls : (s.program.node n).cls with
    | result => exact records_setDepth hn fun _ => Or.inr (Or.inr ⟨⟨f, hf, hdecl⟩, by rw [hcls]; rfl⟩)
    | param =>
      refine (records_setDepth hn fun _ => Or.inr (Or.inr ⟨⟨f, hf, hdecl⟩, by rw [hcls]; rfl⟩)).bind
        fun _ t ht _ => ?_
      split
      · exact triple_pure trivial
      · refine (triple_modify (.single (.word (ht.frame.valid hn) (fun _ => ⟨?_, f, hf, ?_⟩) hc fun hne => ?_))).bind
          fun _ u hu _ => ?_
        · exact triple_modify (.single (.pending n))
        · rw [(ht.frame.node n (s.program.lt_size_of_op_eq_name hop)).cls, hcls]
        · rw [ht.frame.func]
          exact hdecl
        · exact absurd ((ht.frame.op (by simp [hop])).trans hop) hne
    | _ => exact triple_pure trivial
  · exact triple_pure trivial

section Body

variable (hs : s.Refs A) {f : FuncId} (hf : A.func f) {P : Flow → Prop}
include hs hf

/-- What the declared names leave and what holds still once the results of a recursive group are linked. -/
theorem records_declareNames_of
    (hdecls : ∀ c, c = .none ∨ c = .heap → Records A s ((s.program.func f).decls.forM (declareWord (.plain c))) fun _ t => P t)
    (hlink : ∀ t u m, Changes A s t → Changes A t u → P t → link s.sink m t = .ok () u → P u) :
    Records A s (declareNames f) fun _ t => P t := by
  unfold declareNames
  refine triple_get ?_
  extract_lets decl w
  refine (hdecls _ (by split <;> simp)).bind fun _ t ht hPt => ?_
  split
  · refine triple_forM_inv .refl _ (fun m hm u hu hPu => ?_) hPt
    have htu := ht.trans hu
    have hrecords : Records A u (link s.sink m) fun _ _ => True :=
      records_link (Or.inl htu.frame.sink.symm) (htu.frame.gives (outputs_give hs hf m hm))
    exact hrecords.of_ok fun _ v hv => hlink u v m htu (hrecords.ok hv).1 hPu hv
  · exact triple_pure hPt

theorem records_declareDecls {c : EscapeClass} (hc : c = .none ∨ c = .heap) :
    Records A s ((s.program.func f).decls.forM (declareWord (.plain c))) fun _ _ => True :=
  triple_forM _ fun m hm u hu => records_declareWord hc (hu.frame.valid (hs.func f hf m (Func.mem_refs_decls hm))) hf
    (by rw [hu.frame.func]; exact hm)

theorem records_enterBody : Records A s (enterBody f) fun _ _ => True :=
  triple_getProgram ((records_declareNames_of hs hf (P := fun _ => True) (fun _ hc => records_declareDecls hs hf hc)
    fun _ _ _ _ _ _ _ => trivial).bind fun _ _ _ _ => records_scanBody _)

variable (hW : s.program.Confines A.walk) (hbody : ∀ m ∈ (s.program.func f).body.getD [], A.walk m)
include hW hbody

/-- What the declarations of a function leave and no change takes back, its body leaves. -/
theorem records_recordBody_of_decls (hP : ∀ t u, Changes A s t → Changes A t u → P t → P u)
    (hdecls : ∀ c, c = .none ∨ c = .heap → Records A s ((s.program.func f).decls.forM (declareWord (.plain c))) fun _ t => P t) :
    Records A s (recordBody f) fun _ t => P t := by
  have hnames := records_declareNames_of hs hf hdecls fun t u _ ht hu hPt _ => hP t u ht hu hPt
  have henter : Records A s (enterBody f) fun _ t => P t :=
    triple_getProgram (hnames.bind fun _ t ht hPt => (records_scanBody _).mono fun _ u hu _ => hP t u ht hu hPt)
  refine triple_getProgram (henter.bind fun _ t ht hPt => Triple.mono (Q := fun _ _ => True) ?_ fun _ u hu _ => hP t u ht hu hPt)
  refine records_walkBody (hs.changes ht) (hW.extends ht.frame.nodes) fun m hm => ?_
  exact ⟨ht.frame.valid (hs.func f hf m (Func.mem_refs_body hm)), hbody m hm⟩

theorem records_recordBody : Records A s (recordBody f) fun _ _ => True :=
  records_recordBody_of_decls hs hf hW hbody (fun _ _ _ _ _ => trivial) fun _ hc => records_declareDecls hs hf hc

end Body

theorem frame_startFunc (s : Flow) (f : FuncId) : Frame s (s.startFunc f) :=
  frame_of_words_eq rfl rfl (.refl _) rfl rfl rfl List.suffix_rfl

theorem Refs.startFunc (hs : s.Refs A) {f : FuncId} (hf : A.func f) : (s.startFunc f).Refs A := by
  refine ⟨hs.fresh, hs.node, hs.func, hs.captured, hs.outputs, hs.results, hs.sources, hs.dsts, hs.met, fun g hg => ?_,
    fun g hg => ?_⟩
  · by_cases he : g = f
    · exact he ▸ hf
    · rw [show (s.startFunc f).info.state g = s.info.state g from Info.state_setState_of_ne _ _ he] at hg
      exact hs.states g hg
  · cases hg
    exact hf

theorem recordFunc_eq (f : FuncId) (s : Flow) : recordFunc f s =
    if s.info.state f ≠ .planned then .error (.repeatedFunc f) s
    else match recordBody f (s.startFunc f) with
      | .ok _ t => .ok () { t with depth := s.depth, curfn := s.curfn }
      | .error e t => .error e t := by
  unfold recordFunc
  change (if s.info.state f ≠ .planned then _ else _ : FlowM Unit) s = _
  split
  · rfl
  · change EStateM.bind (recordBody f) _ (s.startFunc f) = _
    unfold EStateM.bind
    cases recordBody f (s.startFunc f) <;> rfl

/-! ## Steps -/

/-- A step of the recording of a group: a change, or the start or the end of a function. -/
inductive Step (A : Area) (s : Flow) : Flow → Prop where
  | change {t : Flow} (h : Change A s t) : Step A s t
  | start {f : FuncId} (hf : A.func f) : Step A s (s.startFunc f)
  | leave (depth : Int) {curfn : Option FuncId} (hcurfn : ∀ f, curfn = some f → A.func f) :
    Step A s { s with depth, curfn }

abbrev Steps (A : Area) : Flow → Flow → Prop := ReflTransGen (Step A)

theorem Changes.steps {t : Flow} (h : Changes A s t) : Steps A s t :=
  ReflTransGen.mono (fun _ _ hc => Step.change hc) s t h

theorem frame_step {t : Flow} (h : Step A s t) : Frame s t := by
  cases h with
  | change h => exact frame_change h
  | start _ => exact frame_startFunc s _
  | leave _ _ => exact frame_of_words_eq rfl rfl (.refl _) rfl rfl rfl List.suffix_rfl

theorem Steps.frame {t : Flow} (h : Steps A s t) : Frame s t := by
  induction h with
  | refl => exact Frame.refl s
  | tail _ h ih => exact ih.trans (frame_step h)

theorem Steps.refs {t : Flow} (h : Steps A s t) (hs : s.Refs A) : t.Refs A := by
  induction h with
  | refl => exact hs
  | tail _ h ih =>
    cases h with
    | change h => exact ih.change h
    | start hf => exact ih.startFunc hf
    | leave _ hcurfn =>
      exact ⟨ih.fresh, ih.node, ih.func, ih.captured, ih.outputs, ih.results, ih.sources, ih.dsts, ih.met, ih.states,
        hcurfn⟩

/-- The depth of a node outside of the area. -/
theorem Steps.depth_of_not_node {t : Flow} (h : Steps A s t) {n : NodeId} (hn : ¬ A.node n) :
    t.info.depth n = s.info.depth n := by
  induction h with
  | refl => rfl
  | tail _ h ih =>
    rw [← ih]
    cases h with
    | start _ | leave _ _ => rfl
    | change h =>
      cases h with
      | depthOf hm _ => exact Table.get_set_of_ne _ _ fun e => hn (NodeId.ext e ▸ hm.1)
      | _ => rfl

/-- The word of a node outside of the area. -/
theorem Steps.word_of_not_node {t : Flow} (h : Steps A s t) {n : NodeId} (hn : ¬ A.node n) :
    t.info.word n = s.info.word n := by
  induction h with
  | refl => rfl
  | tail _ h ih =>
    rw [← ih]
    cases h with
    | start _ | leave _ _ => rfl
    | change h =>
      cases h with
      | word hm _ _ _ => exact Table.get_set_of_ne _ _ fun e => hn (NodeId.ext e ▸ hm.1)
      | _ => rfl

/-- The node is an input that is declared, or an allocation that is walked over and stays so far. -/
def Reworded (A : Area) (s t : Flow) (n : NodeId) : Prop :=
  n.index < t.program.nodes.size ∧
    ((t.program.node n).cls = .param ∧ (∃ f, A.func f ∧ n ∈ (s.program.func f).decls) ∨
      (t.program.node n).op ≠ .name ∧ t.program.Within A.walk n ∧ t.info.word n = .plain .none)

/-- What is written stays, unless the node is written to again. -/
theorem Reworded.frame {t u : Flow} {n : NodeId} (h : Reworded A s t n) (hframe : Frame t u)
    (hword : u.info.word n = t.info.word n) : Reworded A s u n := by
  have hsame := hframe.node n h.1
  refine ⟨Nat.lt_of_lt_of_le h.1 hframe.size_le, h.2.imp (fun ⟨hcls, hdecl⟩ => ?_) fun ⟨hop, hin, hnone⟩ => ?_⟩
  · exact ⟨hsame.cls.trans hcls, hdecl⟩
  · rw [hsame.op, hword]
    exact ⟨hop, hin.extends hframe.nodes, hnone⟩

theorem Steps.word {t : Flow} (h : Steps A s t) (hclosed : A.closed) (n : NodeId) :
    t.info.word n = s.info.word n ∨ Reworded A s t n := by
  induction h with
  | refl => exact Or.inl rfl
  | @tail u v hu h ih =>
    have hkeep (hword : v.info.word n = u.info.word n) : v.info.word n = s.info.word n ∨ Reworded A s v n :=
      ih.imp hword.trans fun hw => hw.frame (frame_step h) hword
    cases h with
    | start _ | leave _ _ => exact hkeep rfl
    | change h =>
      cases h with
      | @word m hm hname c _ hwalk =>
        by_cases he : n = m
        · subst he
          refine Or.inr ⟨hm.2 hclosed, ?_⟩
          by_cases hop : (u.program.node n).op = .name
          · obtain ⟨hcls, f, hf, hdecl⟩ := hname hop
            rw [(Steps.frame hu).func] at hdecl
            exact Or.inl ⟨hcls, f, hf, hdecl⟩
          · obtain ⟨hin, rfl⟩ := hwalk hop
            exact Or.inr ⟨hop, hin, Table.get_set_self _ _ _⟩
        · exact hkeep (Table.get_set_of_ne _ _ fun e => he (NodeId.ext e))
      | _ => exact hkeep rfl

/-- The progress of a function outside of the area. -/
theorem Steps.state_of_not_func {t : Flow} (h : Steps A s t) {f : FuncId} (hf : ¬ A.func f) :
    t.info.state f = s.info.state f := by
  induction h with
  | refl => rfl
  | tail _ h ih =>
    rw [← ih]
    cases h with
    | change h => rw [Info.state, h.states, Info.state]
    | start hg => exact Info.state_setState_of_ne _ _ fun e => hf (e ▸ hg)
    | leave _ _ => rfl

/-- Only calls that are walked over get a slice of `...` arguments. -/
theorem Steps.right {t : Flow} (h : Steps A s t) {n : NodeId} (hn : n.index < s.program.nodes.size) :
    (t.program.node n).right = (s.program.node n).right ∨ A.walk n ∧ (s.program.node n).op.isCall = true := by
  induction h with
  | refl => exact Or.inl rfl
  | @tail u v hu h ih =>
    have hframe := Steps.frame hu
    have hlt := Nat.lt_of_lt_of_le hn hframe.size_le
    cases h with
    | start _ | leave _ _ => exact ih
    | change h =>
      cases h with
      | node x _ _ _ =>
        rw [Program.node_addNode_of_lt _ _ hlt]
        exact ih
      | @right call rest hin hcall _ _ _ =>
        by_cases he : n = call
        · refine Or.inr ⟨he ▸ hin, ?_⟩
          rw [← (hframe.node n hn).op, he]
          exact hcall
        · rw [Program.node_modifyNode_of_ne _ _ he]
          exact ih
      | noEscape _ _ _ _ _ =>
        rw [Program.rel_modifyNode (R := fun x y => y.right = x.right) (fun _ => rfl) n rfl]
        exact ih
      | _ => exact ih

/-- Only arguments of calls that are walked over are marked: nodes that stand for arguments are new or names. -/
theorem Steps.noEscape {t : Flow} (h : Steps A s t) (hs : s.program.Closed)
    (hwalk : ∀ m, A.walk m → m.index < s.program.nodes.size)
    (hstand : ∀ m, A.stand m → m.index < s.program.nodes.size → (s.program.node m).op = .name) {n : NodeId}
    (hn : n.index < s.program.nodes.size) : (t.program.node n).noEscape = (s.program.node n).noEscape ∨
      ∃ call, A.walk call ∧ (s.program.node call).op.isCall = true ∧ s.program.IsArgument call n := by
  induction h with
  | refl => exact Or.inl rfl
  | @tail u v hu h ih =>
    have hframe := Steps.frame hu
    have hlt := Nat.lt_of_lt_of_le hn hframe.size_le
    cases h with
    | start _ | leave _ _ => exact ih
    | change h =>
      cases h with
      | node x _ _ _ =>
        rw [Program.node_addNode_of_lt _ _ hlt]
        exact ih
      | right _ _ _ _ _ =>
        rw [Program.rel_modifyNode (R := fun x y => y.noEscape = x.noEscape) (fun _ => rfl) n rfl]
        exact ih
      | @noEscape call arg k fuel hin hcall harg hk hop =>
        by_cases he : n = k
        · subst he
          have hcallLt := hwalk call hin
          refine Or.inr ⟨call, hin, by rw [← (hframe.node call hcallLt).op]; exact hcall, ?_⟩
          -- What does not convert is unwrapped already.
          have hself (hconv : (u.program.node arg).op ≠ .convNop) : n = arg := by
            cases fuel with
            | zero => cases hk
            | succ fuel =>
              rw [Program.unwrap, if_neg hconv] at hk
              exact (Option.some.inj hk).symm
          rcases harg with harg | harg
          · rw [(hframe.node call hcallLt).list] at harg
            refine ⟨arg, harg, fuel, ?_⟩
            rw [← hframe.nodes.unwrap hs (hs arg (Or.inl ⟨call, Node.mem_refs_list harg⟩))]
            exact hk
          · by_cases hargLt : arg.index < s.program.nodes.size
            · have hname : (u.program.node arg).op = .name :=
                (hframe.node arg hargLt).op.trans (hstand arg harg hargLt)
              exact absurd (hself (by simp [hname]) ▸ hname) hop
            · refine absurd (hself (fun hconv => ?_) ▸ hn) hargLt
              have hselects := hframe.selects arg (Nat.le_of_not_lt hargLt)
              rw [hconv] at hselects
              cases hselects
        · rw [Program.node_modifyNode_of_ne _ _ he]
          exact ih
      | _ => exact ih

theorem Steps.sees {t : Flow} (h : Steps A s t) : s.observer.Sees Event.IsStep t.observer := by
  induction h with
  | refl => exact .refl _ _
  | @tail b _ _ h ih =>
    refine ih.trans ?_
    cases h with
    | start _ | leave _ _ => exact .refl _ _
    | change h =>
      cases h with
      | edge _ _ _ _ => exact b.observer.sees_watch _ trivial
      | _ => exact .refl _ _

/-- Recording leads from `s` to `t`, and starts the functions `fs` on the way, the last one first. -/
structure Starts (A : Area) (fs : List FuncId) (s t : Flow) : Prop where
  refs : t.Refs A
  steps : Steps A s t
  states : t.info.states = fs.map (·, .started) ++ s.info.states

theorem Starts.frame {fs : List FuncId} {t : Flow} (h : Starts A fs s t) : Frame s t := h.steps.frame

theorem Starts.trans {fs gs : List FuncId} {s t u : Flow} (h₁ : Starts A fs s t) (h₂ : Starts A gs t u) :
    Starts A (gs ++ fs) s u :=
  ⟨h₂.refs, h₁.steps.trans h₂.steps, by rw [h₂.states, h₁.states, List.map_append, List.append_assoc]⟩

theorem Starts.of_changes (hs : s.Refs A) {f : FuncId} (hf : A.func f) {t : Flow} (h : Changes A (s.startFunc f) t) :
    Starts A [f] s t :=
  ⟨(hs.startFunc hf).changes h, .trans (.single (.start hf)) h.steps, h.states⟩

theorem Starts.leave {fs : List FuncId} {t : Flow} (h : Starts A fs s t) (depth : Int) {curfn : Option FuncId}
    (hcurfn : ∀ f, curfn = some f → A.func f) : Starts A fs s { t with depth, curfn } := by
  have hleave : Step A t { t with depth, curfn } := .leave depth hcurfn
  exact ⟨Steps.refs (.single hleave) h.refs, h.steps.tail hleave, h.states⟩

section Func

variable (hs : s.Refs A) (hW : s.program.Confines A.walk) {f : FuncId}
  (hbody : ∀ m ∈ (s.program.func f).body.getD [], A.walk m)

include hs hW hbody

theorem starts_recordFunc {t : Flow} (h : recordFunc f s = .ok () t) :
    s.info.state f = .planned ∧ Starts A [f] s t := by
  rw [recordFunc_eq] at h
  split at h
  · cases h
  · rename_i hplanned
    have hplanned := Decidable.not_not.1 hplanned
    have hf := hs.states f (Or.inl hplanned)
    have hrecords := records_recordBody (s := s.startFunc f) (hs.startFunc hf) hf hW hbody
    refine ⟨hplanned, ?_⟩
    split at h
    · rename_i u hu
      cases h
      exact (Starts.of_changes hs hf (hrecords.ok hu).1).leave s.depth hs.curfn
    · cases h

theorem starts_recordFunc_error (hplanned : s.info.state f = .planned) {e : EscapeError} {t : Flow}
    (h : recordFunc f s = .error e t) : Starts A [f] s t ∧ Blames A e t := by
  have hf := hs.states f (Or.inl hplanned)
  have hrecords := records_recordBody (s := s.startFunc f) (hs.startFunc hf) hf hW hbody
  rw [recordFunc_eq, if_neg (Decidable.not_not.2 hplanned)] at h
  split at h
  · cases h
  · rename_i e' u hu
    cases h
    have herror := hrecords.error hu
    exact ⟨.of_changes hs hf herror.1, herror.2⟩

end Func

/-! ## Groups -/

theorem forM_cons_eq {ε σ α : Type} (m : α → EStateM ε σ PUnit) (x : α) (xs : List α) (s : σ) :
    (x :: xs).forM m s = match m x s with
      | .ok _ t => xs.forM m t
      | .error e t => .error e t := by
  change EStateM.bind (m x) (fun _ => xs.forM m) s = _
  unfold EStateM.bind
  cases m x s <;> rfl

theorem starts_nil (hs : s.Refs A) : Starts A [] s s := ⟨hs, .refl, rfl⟩

theorem starts_funcs (hs : s.Refs A) (hW : s.program.Confines A.walk) {funcs : List FuncId}
    (hbody : ∀ f ∈ funcs, ∀ m ∈ (s.program.func f).body.getD [], A.walk m) {t : Flow}
    (h : funcs.forM recordFunc s = .ok () t) : Starts A funcs.reverse s t := by
  induction funcs generalizing s with
  | nil =>
    cases h
    exact starts_nil hs
  | cons f funcs ih =>
    rw [forM_cons_eq] at h
    split at h
    · rename_i u hu
      have hstarts := (starts_recordFunc hs hW (hbody f List.mem_cons_self) hu).2
      rw [List.reverse_cons]
      refine hstarts.trans (ih hstarts.refs (hW.extends hstarts.frame.nodes) ?_ h)
      intro g hg
      rw [hstarts.frame.func]
      exact hbody g (List.mem_cons_of_mem _ hg)
    · cases h

/-- A function that is not recorded yet stays planned, so no function of a group is recorded twice. -/
theorem starts_funcs_error (hs : s.Refs A) (hW : s.program.Confines A.walk) {funcs : List FuncId}
    (hbody : ∀ f ∈ funcs, ∀ m ∈ (s.program.func f).body.getD [], A.walk m) (hnodup : funcs.Nodup)
    (hplanned : ∀ f ∈ funcs, s.info.state f = .planned) {e : EscapeError} {t : Flow}
    (h : funcs.forM recordFunc s = .error e t) : ∃ fs, Starts A fs s t ∧ Blames A e t := by
  induction funcs generalizing s with
  | nil => cases h
  | cons f funcs ih =>
    rw [List.nodup_cons] at hnodup
    rw [List.forall_mem_cons] at hplanned hbody
    rw [forM_cons_eq] at h
    split at h
    · rename_i u hu
      have hstarts := (starts_recordFunc hs hW hbody.1 hu).2
      have hbody' : ∀ g ∈ funcs, ∀ m ∈ (u.program.func g).body.getD [], A.walk m := by
        intro g hg
        rw [hstarts.frame.func]
        exact hbody.2 g hg
      have hplanned' : ∀ g ∈ funcs, u.info.state g = .planned := by
        intro g hg
        have hne : g ≠ f := fun he => hnodup.1 (he ▸ hg)
        have hstate : u.info.state g = (s.info.setState f .started).state g := by
          rw [Info.state, hstarts.states]
          rfl
        rw [hstate, Info.state_setState_of_ne _ _ hne, hplanned.2 g hg]
      obtain ⟨fs, hfs, hblames⟩ := ih hstarts.refs (hW.extends hstarts.frame.nodes) hbody' hnodup.2 hplanned' h
      exact ⟨fs ++ [f], hstarts.trans hfs, hblames⟩
    · rename_i e' u hu
      cases h
      exact ⟨[f], starts_recordFunc_error hs hW hbody.1 hplanned.1 hu⟩

end Flow

end EscapeAnalysis

import EscapeAnalysis.Proofs.Groups.Callees
import EscapeAnalysis.Proofs.Recording.Walks
import EscapeAnalysis.Proofs.Rerun.Flows

/-!
# Walks a second time

The second analysis walks a body as the first does. It also walks the slices that the first one hung below the calls,
but there it records nothing.

* `Rerun.Knows R W s t` : the callees in `W` belong to the group, or both analyses know them by the same notes;
* `Rerun.repeats_walk` : a walk that stays in `W`;
* `Rerun.repeats_recordFuncs` : the flows of the functions of a group.
-/

namespace EscapeAnalysis

namespace Node

/-- The parts of a node that the scan comes to after the right part. -/
def scannedRest (x : Node) : List NodeId :=
  x.list ++ x.test.toList ++ x.incr.toList ++ x.body ++ x.alt ++ x.rlist

/-- The parts of a node that the walk comes to after the right part. -/
def walkedRest (x : Node) : List NodeId :=
  x.test.toList ++ x.incr.toList ++ x.body ++ x.alt ++ x.list ++ x.rlist

theorem scanned_eq (x : Node) : x.scanned = x.left.toList ++ x.right.toList ++ x.scannedRest := by
  simp only [scanned, scannedRest, List.append_assoc]

theorem children_eq (x : Node) : x.children = x.init ++ x.scanned := by
  simp only [children, scanned, List.append_assoc]

theorem walked_eq (x : Node) : x.walked = x.left.toList ++ x.right.toList ++ x.walkedRest := by
  simp only [walked, walkedRest, List.append_assoc]

variable {ρ : NodeId → NodeId} {x y : Node} (h : x.Copies ρ y)
include h

theorem Copies.scannedRest : y.scannedRest = x.scannedRest.map ρ := by
  simp only [Node.scannedRest, h.list, h.test, h.incr, h.body, h.alt, h.rlist, Option.toList_map, List.map_append]

theorem Copies.walkedRest : y.walkedRest = x.walkedRest.map ρ := by
  simp only [Node.walkedRest, h.list, h.test, h.incr, h.body, h.alt, h.rlist, Option.toList_map, List.map_append]

end Node

namespace Flow

variable {s t : Flow} {n : NodeId}

/-! ## Walks that record nothing -/

theorem get_ok (s : Flow) : (get : FlowM Flow) s = .ok s s := rfl

theorem getProgram_ok (s : Flow) : getProgram s = .ok s.program s := rfl

theorem forM_idle {α : Type} {f : α → FlowM PUnit} {xs : List α} (h : ∀ x ∈ xs, f x s = .ok ⟨⟩ s) :
    xs.forM f s = .ok ⟨⟩ s := by
  induction xs with
  | nil => rfl
  | cons x xs ih =>
    refine (bind_of_ok (h x List.mem_cons_self)).trans ?_
    exact ih fun y hy => h y (List.mem_cons_of_mem _ hy)

theorem forM_append {α : Type} (xs ys : List α) (f : α → FlowM PUnit) :
    (xs ++ ys).forM f = xs.forM f >>= fun _ => ys.forM f := List.forM_append

theorem mem_children_scanned {x : Node} {m : NodeId} (h : m ∈ x.scanned) : m ∈ x.children := by
  simp only [Node.scanned, Node.children, List.mem_append] at h ⊢
  grind

theorem scanLabels_idle {fuel : Nat} (hlabel : (s.program.node n).op ≠ .label) (hgoto : (s.program.node n).op ≠ .goto)
    (hparts : ∀ m ∈ (s.program.node n).children, scanLabels fuel m s = .ok () s) :
    scanLabels (fuel + 1) n s = .ok () s := by
  have hnode : scanNode n (s.program.node n) s = .ok () s := by
    unfold scanNode
    cases hop : (s.program.node n).op with
    | label => exact absurd hop hlabel
    | goto => exact absurd hop hgoto
    | _ => rfl
  unfold scanLabels
  refine (bind_of_ok (getProgram_ok s)).trans ?_
  refine (bind_of_ok (forM_idle fun m hm => hparts m (mem_children_init hm))).trans ?_
  refine (bind_of_ok hnode).trans ?_
  exact forM_idle fun m hm => hparts m (mem_children_scanned hm)

theorem walk_idle {fuel : Nat} {up : Option NodeId} (hloop : (s.program.node n).op.isLoop = false)
    (hswitch : (s.program.node n).op ≠ .switchStmt)
    (hparts : ∀ m ∈ (s.program.node n).children, walk fuel (some n) m s = .ok () s)
    (hvisit : visit n up s = .ok () s) : walk (fuel + 1) up n s = .ok () s := by
  have hdeepen (amount : Int) : deepen (s.program.node n).op amount s = .ok () s := by
    unfold deepen
    rw [hloop]
    rfl
  have hplace : placeClauseVars (s.program.node n) s = .ok () s := by
    unfold placeClauseVars Program.typeGuard?
    refine (bind_of_ok (get_ok s)).trans ?_
    rw [if_neg hswitch]
    rfl
  unfold walk
  refine (bind_of_ok (getProgram_ok s)).trans ?_
  refine (bind_of_ok (forM_idle fun m hm => hparts m (mem_children_init hm))).trans ?_
  refine (bind_of_ok (hdeepen 1)).trans ((bind_of_ok (getProgram_ok s)).trans ?_)
  refine (bind_of_ok hplace).trans ((bind_of_ok (getProgram_ok s)).trans ?_)
  refine (bind_of_ok (forM_idle fun m hm => hparts m (mem_children_walked hm))).trans ?_
  exact (bind_of_ok (hdeepen (-1))).trans hvisit

theorem scanLabels_stub {lo fuel : Nat} (hfuel : 2 ≤ fuel) {rest : NodeId} (h : s.program.Stub lo rest) :
    scanLabels fuel rest s = .ok () s := by
  obtain ⟨hop, array, _, _, hchildren, harray, hnone, _⟩ := h
  obtain ⟨fuel, rfl⟩ := Nat.exists_eq_add_of_le' hfuel
  refine scanLabels_idle (by simp [hop]) (by simp [hop]) fun m hm => ?_
  rw [hchildren, List.mem_singleton] at hm
  subst hm
  exact scanLabels_idle (by simp [harray]) (by simp [harray]) fun m hm => by rw [hnone] at hm; cases hm

theorem walk_stub {lo fuel : Nat} (hfuel : 2 ≤ fuel) {rest : NodeId} (h : s.program.Stub lo rest) (up : Option NodeId) :
    walk fuel up rest s = .ok () s := by
  obtain ⟨hop, array, _, _, hchildren, harray, hnone, hty⟩ := h
  obtain ⟨fuel, rfl⟩ := Nat.exists_eq_add_of_le' hfuel
  have hvisit (up : Option NodeId) : visit rest up s = .ok () s := by
    unfold visit
    refine (bind_of_ok (get_ok s)).trans ?_
    dsimp only
    rw [hop]
    rfl
  have hvisitArray (up : Option NodeId) : visit array up s = .ok () s := by
    have hslice : s.program.isSlice (s.program.node array).ty = false := by
      cases hcase : (s.program.node array).ty with
      | none => rfl
      | some ty => exact (hty ty hcase).2
    have hlist : (s.program.node array).list = [] := by
      simp only [Node.children, List.append_eq_nil_iff] at hnone
      simp only [hnone]
    unfold visit
    refine (bind_of_ok (get_ok s)).trans ?_
    dsimp only
    rw [harray, hslice]
    simp only [Bool.false_eq_true, if_false, Program.literalValues, hlist]
    rfl
  refine walk_idle (by rw [hop]; rfl) (by simp [hop]) (fun m hm => ?_) (hvisit up)
  rw [hchildren, List.mem_singleton] at hm
  subst hm
  refine walk_idle (by rw [harray]; rfl) (by simp [harray]) (fun m hm => ?_) (hvisitArray _)
  rw [hnone] at hm
  cases hm

end Flow

namespace Rerun

open EscapeAnalysis.Flow

variable {R : Rerun} {s t : Flow}

/-! ## Parts of a node -/

/-- A node keeps the parts that it had before both analyses. -/
theorem Copies.part {a b : Program} (h : R.Copies a b) {n m : NodeId} (hm : R.base.Part n m) :
    m ∈ (a.node n).children := by
  have hn : n.index < R.base.nodes.size := by
    refine Nat.lt_of_not_le fun hle => ?_
    rw [Program.Part, R.base.node_of_size_le hle] at hm
    cases hm
  rcases h.rights n hn with hright | ⟨htakes, _⟩
  · obtain ⟨_, _, he⟩ := h.nodes.node n hn
    rw [he] at hright ⊢
    dsimp only at hright
    subst hright
    exact hm
  · have hbare := R.drafted.bare n (Program.isCall_of_takesRest htakes) (Program.list_ne_nil_of_takesRest htakes)
    obtain ⟨_, _, he⟩ := h.nodes.node n hn
    rw [he]
    simp only [Program.Part, Node.children, hbare, Option.toList_none, List.append_nil, List.mem_append] at hm ⊢
    grind

/-- The right parts of a node are the same, or the second recording comes to a slice that the first has not made yet. -/
def Hangs (R : Rerun) (t : Flow) (right right' : Option NodeId) : Prop :=
  right' = right.map R.shift ∨ right = none ∧ ∃ rest, right' = some rest ∧
    rest.index < R.base.nodes.size + R.gap ∧ t.program.Stub R.base.nodes.size rest

theorem Mirrors.hangs (h : R.Mirrors s t) (n : NodeId) :
    R.Hangs t (s.program.node n).right (t.program.node (R.shift n)).right :=
  (h.program.right n).imp_right fun hstale => hstale.2

theorem Hangs.keeps {right right' : Option NodeId} (hr : R.Hangs t right right') {s' t' : Flow}
    (hk : R.Keeps s t s' t') : R.Hangs t' right right' :=
  hr.imp_right fun ⟨hnone, rest, hrest, hlt, hstub⟩ =>
    ⟨hnone, rest, hrest, hlt, hstub.extends hk.nodes' hk.grows'⟩

theorem Hangs.two_le_gap {rest : NodeId} (hlt : rest.index < R.base.nodes.size + R.gap)
    (hstub : t.program.Stub R.base.nodes.size rest) : 2 ≤ R.gap := by
  obtain ⟨_, array, hle, hlt', _⟩ := hstub
  omega

section Parts

variable (h : R.Mirrors s t)
include h

theorem repeats_parts {f f' : NodeId → FlowM PUnit} {I : NodeId → Flow → Prop} {right right' : Option NodeId}
    (hright : R.Hangs t right right') (xs ys : List NodeId)
    (hf : ∀ m ∈ xs ++ right.toList ++ ys, ∀ s' t', R.Mirrors s' t' → R.Keeps s t s' t' →
      R.Repeats s' t' (f m) (f' (R.shift m)) fun _ _ u _ => I m u)
    (hI : ∀ m s' t' s'' t'', I m s' → R.Keeps s' t' s'' t'' → I m s'')
    (hidle : 2 ≤ R.gap → ∀ rest t', t'.program.Stub R.base.nodes.size rest → f' rest t' = .ok ⟨⟩ t') :
    R.Repeats s t ((xs ++ right.toList ++ ys).forM f)
      ((xs.map R.shift ++ right'.toList ++ ys.map R.shift).forM f')
      fun _ _ u _ => ∀ m ∈ xs ++ right.toList ++ ys, I m u := by
  rcases hright with rfl | ⟨rfl, rest, rfl, hlt, hstub⟩
  · rw [Option.toList_map, ← List.map_append, ← List.map_append]
    exact repeats_forM_all h _ hf hI
  · simp only [Option.toList_none, Option.toList_some, List.append_nil, List.append_assoc, List.singleton_append,
      forM_append] at hf ⊢
    refine (repeats_forM_all h xs (fun m hm => hf m (List.mem_append_left _ hm)) hI).bind
      fun _ _ s₁ t₁ h₁ hk₁ hxs => repeats_skip
        (hidle (Hangs.two_le_gap hlt hstub) rest t₁ (hstub.extends hk₁.nodes' hk₁.grows')) ?_
    refine (repeats_forM_all h₁ ys (fun m hm s' t' h' hk' => ?_) hI).mono fun _ _ u v _ hk₂ hys m hm => ?_
    · exact hf m (List.mem_append_right _ hm) s' t' h' (hk₁.trans hk')
    · rcases List.mem_append.1 hm with hm | hm
      · exact hI m _ _ _ _ (hxs m hm) hk₂
      · exact hys m hm

/-! ## Labels -/

theorem repeats_setLabels {f f' : Flow → Flow} (labels : List (LabelId × Bool)) (hf : f s = { s with labels })
    (hf' : f' t = { t with labels }) : R.Repeats s t (modify f) (modify f') fun _ _ _ _ => True := by
  refine repeats_modify ?_ ?_
  · rw [hf, hf']
    exact { h with labels := rfl }
  · rw [hf, hf']
    exact .of_eq rfl rfl rfl rfl

theorem repeats_scanNode (n : NodeId) {x y : Node} (hxy : x.Copies R.shift y) :
    R.Repeats s t (scanNode n x) (scanNode (R.shift n) y) fun _ _ _ _ => True := by
  unfold scanNode
  rw [hxy.op, hxy.label]
  cases x.op with
  | label =>
    cases x.label with
    | none => exact triple_throw trivial
    | some l =>
      refine repeats_setLabels h _ rfl ?_
      rw [setLabel, h.labels]
  | goto =>
    cases x.label with
    | none => exact triple_throw trivial
    | some l =>
      have hlabel : t.label? l = s.label? l := by rw [label?, label?, h.labels]
      refine repeats_modify ?_ ?_
      · rw [hlabel]
        split
        · exact { h with labels := by rw [setLabel, setLabel, h.labels] }
        · exact h
      · rw [hlabel]
        split
        · exact .of_eq rfl rfl rfl rfl
        · exact .refl s t
  | _ => exact repeats_pure h trivial

/-- A scan that ends has come to all parts. -/
theorem repeats_scanLabels {fuel fuel' : Nat} (hfuel : fuel + R.gap ≤ fuel') (n : NodeId) :
    R.Repeats s t (scanLabels fuel n) (scanLabels fuel' (R.shift n)) fun _ _ _ _ => R.base.Nests fuel n := by
  induction fuel generalizing s t fuel' n with
  | zero => exact triple_throw trivial
  | succ fuel ih =>
    obtain ⟨fuel', rfl⟩ : ∃ k, fuel' = k + 1 := ⟨fuel' - 1, by omega⟩
    have hle : fuel + R.gap ≤ fuel' := by omega
    have hx := h.program.node n
    unfold scanLabels
    refine repeats_getProgram ?_
    dsimp only
    rw [hx.init]
    refine (repeats_forM_all (I := fun m _ => R.base.Nests fuel m) h _ (fun m _ s' t' h' _ => ih h' hle m)
      fun _ _ _ _ _ hm _ => hm).bind fun _ _ s₁ t₁ h₁ hk₁ hinit => ?_
    refine (repeats_scanNode h₁ n hx).bind fun _ _ s₂ t₂ h₂ hk₂ _ => ?_
    rw [Node.scanned_eq, Node.scanned_eq, hx.left, hx.scannedRest, Option.toList_map]
    refine (repeats_parts (I := fun m _ => R.base.Nests fuel m) h₂ ((h.hangs n).keeps (hk₁.trans hk₂)) _ _
      (fun m _ s' t' h' _ => ih h' hle m) (fun _ _ _ _ _ hm _ => hm) fun hgap rest t' hstub => ?_).mono
      fun _ _ _ _ _ _ hscanned m hm => ?_
    · exact scanLabels_stub (Nat.le_trans hgap (Nat.le_trans (Nat.le_add_left _ _) hle)) hstub
    · have hm := h.program.part hm
      rw [Node.children_eq, List.mem_append, Node.scanned_eq] at hm
      exact hm.elim (hinit m) (hscanned m)

theorem repeats_scanBody (body : List NodeId) :
    R.Repeats s t (scanBody body) (scanBody (body.map R.shift)) fun _ _ _ _ => ∀ m ∈ body, ∃ k, R.base.Nests k m := by
  refine repeats_getProgram (repeats_forM_all (I := fun m _ => ∃ k, R.base.Nests k m) h body
    (fun m _ s' t' h' _ => (repeats_scanLabels h' ?_ m).mono fun _ _ _ _ _ _ hm => ⟨_, hm⟩) fun _ _ _ _ _ hm _ => hm)
  rw [h.program.size]
  omega

/-! ## Statements -/

theorem repeats_assignEach (dsts srcs : List NodeId) :
    R.Repeats s t (assignEach dsts srcs) (assignEach (dsts.map R.shift) (srcs.map R.shift)) fun _ _ _ _ => True := by
  rw [assignEach_eq, assignEach_eq, List.zip_map]
  exact repeats_forM h _ fun x _ _ _ h' _ => repeats_assign h' x.1 x.2

theorem repeats_loseAll (xs : List NodeId) :
    R.Repeats s t (xs.forM lose) ((xs.map R.shift).forM lose) fun _ _ _ _ => True :=
  repeats_forM h xs fun m _ _ _ h' _ => repeats_lose h' m

theorem repeats_assignAll (dst : NodeId) (xs : List NodeId) :
    R.Repeats s t (xs.forM (assign dst)) ((xs.map R.shift).forM (assign (R.shift dst))) fun _ _ _ _ => True :=
  repeats_forM h xs fun m _ _ _ h' _ => repeats_assign h' dst m

theorem repeats_loseCall {call : Option NodeId} (hcall : ∀ n, call = some n → R.Counted s n) :
    R.Repeats s t (loseCall call) (loseCall (call.map R.shift)) fun _ _ _ _ => True := by
  cases call with
  | none => exact repeats_pure h trivial
  | some n =>
    have hx := h.program.node n
    refine repeats_getProgram ?_
    dsimp only
    rw [hx.left, h.right_of_counted (hcall n rfl), hx.list, Option.toList_map, Option.toList_map, ← List.map_append,
      ← List.map_append]
    exact repeats_loseAll h _

theorem Mirrors.returned (f : FuncId) {x y : Node} (hxy : x.Copies R.shift y) :
    t.returned f y = (s.returned f x).map R.shift := by
  have hresults : (t.program.func f).results = (s.program.func f).results := by rw [(h.program.func' f).rest]
  unfold Flow.returned
  rw [hxy.list, List.length_map, hresults]
  split
  · rw [List.flatMap_map, List.map_flatMap]
    exact congrArg (x.list.flatMap ·) (funext h.results)
  · rfl

theorem repeats_returnValues (n : NodeId) {x y : Node} (hxy : x.Copies R.shift y) :
    R.Repeats s t (returnValues n x) (returnValues (R.shift n) y) fun _ _ _ _ => True := by
  rw [returnValues_eq, returnValues_eq]
  refine repeats_get ?_
  rw [h.curfn]
  cases s.curfn with
  | none => exact repeats_pure h trivial
  | some f =>
    dsimp only [Option.forM]
    rw [h.returned f hxy, h.program.outputs, List.length_map, List.length_map]
    exact repeats_ite Iff.rfl (fun _ => triple_throw trivial) fun _ => repeats_assignEach h _ _

theorem repeats_captureVars (n : NodeId) {names : List NodeId} (hnames : ∀ m ∈ names, m.index < R.base.nodes.size) :
    R.Repeats s t (captureVars n names) (captureVars (R.shift n) (names.map R.shift)) fun _ _ _ _ => True := by
  rw [captureVars_eq, captureVars_eq]
  refine repeats_forM h _ fun name hname s t h _ => repeats_get ?_
  have hx := h.program.node name
  rw [hx.origin, hx.byValue]
  refine repeats_optionForM h _ fun var hvar => repeats_ite Iff.rfl (fun _ => repeats_assign h n var) fun _ => ?_
  have hvar : var.index < R.base.nodes.size := by
    obtain ⟨_, _, he⟩ := h.program.nodes.node name (hnames name hname)
    rw [he] at hvar
    exact R.closed var (Or.inl ⟨name, Node.mem_refs_origin hvar⟩)
  refine (repeats_ptrTo h (h.program.ty var)).bind fun ty ty' s₁ t₁ h₁ _ hty => ?_
  have hmade : R.base.Made { op := .addr, line := (s.program.node name).line, ty, left := some var, curfn := s.curfn } :=
    ⟨by simp, by simp, fun _ m hm => Option.some.inj hm ▸ hvar⟩
  refine (repeats_addNode h₁ (.made hx.line h.curfn) hty hmade rfl rfl).bind fun addr addr' s₂ t₂ h₂ _ haddr => ?_
  obtain ⟨rfl, _⟩ := haddr
  rw [h.depth]
  exact (repeats_setDepth h₂ addr _).bind fun _ _ s₃ t₃ h₃ _ _ => repeats_assign h₃ n addr

theorem repeats_addressDepth (n : NodeId) (var : Option NodeId) :
    R.Repeats s t (addressDepth n var) (addressDepth (R.shift n) (var.map R.shift)) fun _ _ _ _ => True := by
  have hdepth : (var.map R.shift).bind t.addressDepth? = (var.bind s.addressDepth?).map id := by
    rw [Option.bind_map, Option.map_id_apply]
    refine Option.bind_congr fun v _ => ?_
    simp only [Function.comp_apply, addressDepth?, (h.program.node v).isNameOf, h.depthOf v]
  rw [addressDepth_eq, addressDepth_eq]
  refine repeats_get ?_
  rw [hdepth]
  exact repeats_optionForM h _ fun d _ => repeats_setDepth h n d

theorem repeats_passLabel (l : LabelId) : R.Repeats s t (passLabel l) (passLabel l) fun _ _ _ _ => True := by
  have hlabel : t.label? l = s.label? l := by rw [label?, label?, h.labels]
  refine repeats_modify { h with depth := ?_, labels := ?_ } (.of_eq rfl rfl rfl rfl)
  · dsimp only
    rw [hlabel, h.depth]
  · dsimp only [dropLabel]
    rw [h.labels]

end Parts

/-! ## Visits -/

structure Knows (R : Rerun) (W : NodeId → Prop) (s t : Flow) : Prop where
  confines : s.program.Confines W
  old : ∀ n, W n → n.index < R.base.nodes.size
  callee : ∀ n, W n → ∀ f, R.base.calleeOf n = some f →
    s.program.isGroupCandidate f = true ∧ s.info.state f ≠ .noted ∨ t.program.func f = s.program.func f

variable {W : NodeId → Prop}

theorem Knows.keeps (h : R.Knows W s t) {s' t' : Flow} (hk : R.Keeps s t s' t') : R.Knows W s' t' := by
  refine ⟨h.confines.extends hk.nodes, h.old, fun n hn f hf => ?_⟩
  have hcallee := h.callee n hn f hf
  unfold Program.isGroupCandidate Program.func Info.state at hcallee ⊢
  rw [hk.funcs, hk.funcs', hk.states]
  exact hcallee

theorem Knows.lt_size (hW : R.Knows W s t) (h : R.Mirrors s t) {n : NodeId} (hin : s.program.Within W n) :
    n.index < s.program.nodes.size := by
  rcases hin with hn | ⟨hop, _⟩ | ⟨hop, _⟩
  · exact Nat.lt_of_lt_of_le (hW.old n hn) h.program.size_le
  · exact s.program.lt_size_of_op_ne (by simp [hop])
  · exact s.program.lt_size_of_op_ne (by simp [hop])

section Visits

variable (h : R.Mirrors s t) (hW : R.Knows W s t)
include h hW

/-- A node that is no call. -/
theorem repeats_visit_stmt {n : NodeId} (hin : s.program.Within W n) (hcall : (s.program.node n).op.isCall = false)
    (hparts : ∀ m, (s.program.node n).left = some m ∨ m ∈ (s.program.node n).list → R.Counted s m) (up up' : Option NodeId) :
    R.Repeats s t (visit n up) (visit (R.shift n) up') fun _ _ _ _ => True := by
  have hp := h.program
  have hx := hp.node n
  have hright := hp.right_of_not_isCall hcall
  have hentry : ∀ m ∈ (s.program.node n).list,
      (t.program.node (R.shift m)).right = (s.program.node m).right.map R.shift := fun m hm =>
    h.right_of_counted (hparts m (Or.inr hm))
  have hassign {s' t' : Flow} (h' : R.Mirrors s' t') : R.Repeats s' t' ((s.program.node n).left.forM (assign n))
      (((s.program.node n).left.map R.shift).forM (assign (R.shift n))) fun _ _ _ _ => True :=
    repeats_optionForM h' _ fun m _ => repeats_assign h' n m
  have hlose {s' t' : Flow} (h' : R.Mirrors s' t') (m : Option NodeId) :
      R.Repeats s' t' (m.forM lose) ((m.map R.shift).forM lose) fun _ _ _ _ => True :=
    repeats_optionForM h' _ fun m _ => repeats_lose h' m
  have hmark := repeats_markPending h n
  have hleft (m : NodeId) (hm : (s.program.node n).left = some m) : R.Counted s m :=
    hparts m (Or.inl hm)
  unfold visit
  refine repeats_get ?_
  dsimp only
  simp only [hx.op, hx.left, hx.list, hx.rlist, hx.func, hx.variadic, hx.label, hright, h.depth]
  cases hop : (s.program.node n).op with
  | decl => exact repeats_optionForM h _ fun m _ => repeats_setDepth h m _
  | label =>
    cases (s.program.node n).label with
    | none => exact repeats_pure h trivial
    | some l => exact repeats_passLabel h l
  | rangeStmt =>
    dsimp only
    cases (s.program.node n).list with
    | nil => exact repeats_pure h trivial
    | cons key values =>
      cases values with
      | nil => exact repeats_pure h trivial
      | cons value values =>
        cases (s.program.node n).right with
        | none => exact repeats_pure h trivial
        | some expr =>
          refine repeats_ite (by rw [hp.isArray (hp.ty n)]) (fun _ => ?_) fun _ => repeats_pure h trivial
          exact repeats_assign h value expr
  | switchStmt =>
    dsimp only
    rw [hp.subject hx, hp.clauseVars hx]
    cases (s.program.typeGuard? (s.program.node n)).bind fun guard => (s.program.node guard).right with
    | none => exact repeats_pure h trivial
    | some subject => exact repeats_forM h _ fun m _ s' t' h' _ => repeats_assign h' m subject
  | assign | assignOp =>
    dsimp only
    cases hl : (s.program.node n).left with
    | none => exact repeats_pure h trivial
    | some dst =>
      cases (s.program.node n).right with
      | none => exact repeats_pure h trivial
      | some src =>
        refine repeats_ite (by rw [hp.isSelfReslice]) (fun _ => ?_) fun _ => repeats_assign h dst src
        have hdst : dst.index < R.base.nodes.size := by
          have hn := hW.old n (hin.of_op (by simp [hop]) (by simp [hop]))
          obtain ⟨_, _, he⟩ := hp.nodes.node n hn
          rw [he] at hl
          exact R.closed dst (Or.inl ⟨n, Node.mem_refs_left hl⟩)
        refine repeats_modify ?_ (.of_eq rfl rfl rfl rfl)
        rw [h.curfn]
        exact h.find (x := .selfAssigns n dst s.curfn) fun m hm => by
          rw [Finding.texts, List.mem_singleton] at hm
          subst hm
          exact hp.text (hp.ordered_old hdst)
  | assignMany =>
    dsimp only
    rw [List.length_map, List.length_map]
    exact repeats_ite Iff.rfl (fun _ => repeats_assignEach h _ _) fun _ => repeats_pure h trivial
  | assignRecv | assignLookup | assignAssert =>
    dsimp only
    cases (s.program.node n).list with
    | nil => exact repeats_pure h trivial
    | cons dst dsts =>
      cases (s.program.node n).rlist with
      | nil => exact repeats_pure h trivial
      | cons src srcs => exact repeats_assign h dst src
  | send => exact hlose h _
  | deferStmt => exact repeats_ite Iff.rfl (fun _ => repeats_loseCall h hleft) fun _ => repeats_pure h trivial
  | goStmt => exact repeats_loseCall h hleft
  | callFunc | callMethod | callInterface => simp [hop, Op.isCall] at hcall
  | assignCall =>
    dsimp only
    cases (s.program.node n).rlist with
    | nil => exact triple_throw trivial
    | cons call calls =>
      simp only [List.map_cons, h.results, List.length_map]
      exact repeats_ite Iff.rfl (fun _ => triple_throw_bind trivial _) fun _ => repeats_assignEach h _ _
  | returnStmt => exact repeats_returnValues h n hx
  | panicStmt => exact hlose h _
  | append =>
    dsimp only
    rw [← List.map_drop]
    exact repeats_ite Iff.rfl (fun _ => repeats_pure h trivial) fun _ => repeats_loseAll h _
  | conv | convNop => exact hassign h
  | convIface | ptrLit => exact hmark.bind fun _ _ s' t' h' _ _ => hassign h'
  | arrayLit =>
    dsimp only
    rw [literalValues_shift hx hentry]
    refine repeats_ite (by rw [hp.isSlice (hp.ty n)]) (fun _ => ?_) fun _ => repeats_assignAll h n _
    exact hmark.bind fun _ _ s' t' h' _ _ => repeats_loseAll h' _
  | structLit =>
    dsimp only
    rw [literalValues_shift hx hentry]
    exact repeats_assignAll h n _
  | methodValue => exact hmark.bind fun _ _ s' t' h' _ _ => hlose h' _
  | mapLit =>
    dsimp only
    rw [hp.literalParts hx hentry]
    exact hmark.bind fun _ _ s' t' h' _ _ => repeats_loseAll h' _
  | closure =>
    dsimp only
    refine Repeats.bind (Q := fun _ _ _ _ => True) ?_ fun _ _ s' t' h' _ _ => repeats_markPending h' n
    cases (s.program.node n).func with
    | none => exact repeats_pure h trivial
    | some f =>
      have hcaptures := repeats_captureVars h n (hp.captures_old f)
      rw [← hp.captures] at hcaptures
      exact hcaptures
  | makeChan | makeMap | makeSlice | new | runesToString | bytesToString | stringToRunes | stringToBytes | runeToString
  | concat => exact hmark
  | addr => exact hmark.bind fun _ _ s' t' h' _ _ => repeats_addressDepth h' n _
  | _ => exact repeats_pure h trivial

theorem repeats_visit {n : NodeId} (hin : s.program.Within W n)
    (hparts : ∀ m, (s.program.node n).left = some m ∨ m ∈ (s.program.node n).list → R.Counted s m) (up : Option NodeId) :
    R.Repeats s t (visit n up) (visit (R.shift n) (up.map R.shift)) fun _ _ s' _ => R.Counted s' n := by
  by_cases hcall : (s.program.node n).op.isCall = true
  · have hWn := hin.of_isCall hcall
    have hsame := h.program.nodes.node n (hW.old n hWn)
    have hcall' : (R.base.node n).op.isCall = true := by rw [← hsame.op, hcall]
    have hvisit (s : Flow) (n : NodeId) (up : Option NodeId) (hcall : (s.program.node n).op.isCall = true) :
        visit n up s = call n up s := by
      unfold visit
      refine (bind_of_ok (get_ok s)).trans ?_
      dsimp only
      cases hop : (s.program.node n).op with
      | callFunc | callMethod | callInterface => rfl
      | _ => simp [hop, Op.isCall] at hcall
    refine Triple.congr ?_ (hvisit s n up hcall)
    rw [hvisit t (R.shift n) _ (by rw [(h.program.node n).op, hcall])]
    refine repeats_call h hcall' (hW.callee n hWn) (fun arg harg => hparts arg ?_) up
    obtain ⟨_, _, he⟩ := hsame
    rw [he]
    exact Or.inr harg
  · simp only [Bool.not_eq_true] at hcall
    refine (repeats_visit_stmt h hW hin hcall hparts up _).mono fun _ _ s' t' h' hk _ hcall' => ?_
    have hop := (h.program.nodes.node n (Program.lt_size_of_isCall hcall')).op
    rw [hop, hcall'] at hcall
    cases hcall

end Visits

/-! ## Bodies -/

section Bodies

variable (h : R.Mirrors s t)
include h

theorem repeats_deepen (op : Op) (amount : Int) :
    R.Repeats s t (deepen op amount) (deepen op amount) fun _ _ _ _ => True := by
  unfold deepen
  refine repeats_ite Iff.rfl (fun _ => ?_) fun _ => repeats_pure h trivial
  exact repeats_modify { h with depth := congrArg (· + amount) h.depth } (.of_eq rfl rfl rfl rfl)

theorem repeats_placeClauseVars {x y : Node} (hxy : x.Copies R.shift y) :
    R.Repeats s t (placeClauseVars x) (placeClauseVars y) fun _ _ _ _ => True := by
  unfold placeClauseVars
  refine repeats_get ?_
  rw [h.program.typeGuard? hxy, h.program.clauseVars hxy, h.depth, Option.isSome_map]
  refine repeats_ite Iff.rfl (fun _ => ?_) fun _ => repeats_pure h trivial
  exact repeats_forM h _ fun m _ s' t' h' _ => repeats_setDepth h' m _

/-- A call that is walked has its results and its slice. -/
theorem repeats_walk (hW : R.Knows W s t) {fuel fuel' : Nat} (hfuel : fuel + R.gap ≤ fuel') (up : Option NodeId)
    {n : NodeId} (hin : s.program.Within W n) :
    R.Repeats s t (walk fuel up n) (walk fuel' (up.map R.shift) (R.shift n)) fun _ _ s' _ => R.Counted s' n := by
  induction fuel generalizing s t fuel' up n with
  | zero => exact triple_throw trivial
  | succ fuel ih =>
    obtain ⟨fuel', rfl⟩ : ∃ k, fuel' = k + 1 := ⟨fuel' - 1, by omega⟩
    have hle : fuel + R.gap ≤ fuel' := by omega
    have hpart {s₁ t₁ : Flow} (hk₁ : R.Keeps s t s₁ t₁) {m : NodeId} (hm : m ∈ (s₁.program.node n).children)
        {s₂ t₂ : Flow} (h₂ : R.Mirrors s₂ t₂) (hk₂ : R.Keeps s₁ t₁ s₂ t₂) :
        R.Repeats s₂ t₂ (walk fuel (some n) m) (walk fuel' (some (R.shift n)) (R.shift m))
          fun _ _ s' _ => R.Counted s' m := by
      refine ih h₂ (hW.keeps (hk₁.trans hk₂)) hle (some n) ?_
      exact ((hin.extends hk₁.nodes).child (hW.keeps hk₁).confines hm).extends hk₂.nodes
    have hx := h.program.node n
    unfold walk
    refine repeats_getProgram ?_
    dsimp only
    rw [hx.init, hx.op]
    refine (repeats_forM_all (I := fun m u => R.Counted u m) h _ (fun m hm s' t' h' hk' => ?_)
      fun _ _ _ _ _ hm hk => hm.keeps hk).bind fun _ _ s₁ t₁ h₁ hk₁ _ => ?_
    · exact hpart (.refl s t) (mem_children_init hm) h' hk'
    refine (repeats_deepen h₁ _ 1).bind fun _ _ s₂ t₂ h₂ hk₂ _ => repeats_getProgram ?_
    refine (repeats_placeClauseVars h₂ (h₂.program.node n)).bind fun _ _ s₃ t₃ h₃ hk₃ _ => repeats_getProgram ?_
    have hk₃ := (hk₁.trans hk₂).trans hk₃
    have hx₃ := h₃.program.node n
    rw [Node.walked_eq, Node.walked_eq, hx₃.left, hx₃.walkedRest, Option.toList_map]
    refine (repeats_parts (I := fun m u => R.Counted u m) h₃ (h₃.hangs n) _ _ (fun m hm s' t' h' hk' => ?_)
      (fun _ _ _ _ _ hm hk => hm.keeps hk) fun hgap rest t' hstub => walk_stub ?_ hstub _).bind fun _ _ s₄ t₄ h₄ hk₄ hparts => ?_
    · rw [← Node.walked_eq] at hm
      exact hpart hk₃ (mem_children_walked hm) h' hk'
    · exact Nat.le_trans hgap (Nat.le_trans (Nat.le_add_left _ _) hle)
    refine (repeats_deepen h₄ _ (-1)).bind fun _ _ s₅ t₅ h₅ hk₅' _ => ?_
    have hk₅ := hk₄.trans hk₅'
    have hk := hk₃.trans hk₅
    refine repeats_visit h₅ (hW.keeps hk) (hin.extends hk.nodes) (fun m hm => ?_) up
    obtain ⟨_, _, he⟩ := hk₅.nodes.node n (Nat.lt_of_lt_of_le (hW.lt_size h hin) hk₃.nodes.size_le)
    rw [he] at hm
    refine (hparts m ?_).keeps hk₅'
    rw [← Node.walked_eq]
    rcases hm with hm | hm
    · have hm : (s₃.program.node n).left = some m := hm
      simp [Node.walked, hm]
    · have hm : m ∈ (s₃.program.node n).list := hm
      simp [Node.walked, hm]

theorem repeats_walkBody (hW : R.Knows W s t) {body : List NodeId} (hbody : ∀ m ∈ body, W m) :
    R.Repeats s t (walkBody body) (walkBody (body.map R.shift)) fun _ _ _ _ => True := by
  refine repeats_getProgram (repeats_forM h body fun m hm s' t' h' hk' => ?_)
  refine (repeats_walk h' (hW.keeps hk') ?_ none (Or.inl (hbody m hm))).mono fun _ _ _ _ _ _ _ => trivial
  rw [h.program.size]
  omega

/-! ## Functions -/

theorem repeats_declareWord (w : Word) (n : NodeId) :
    R.Repeats s t (declareWord w n) (declareWord w (R.shift n)) fun _ _ _ _ => True := by
  have hx := h.program.node n
  unfold declareWord
  refine repeats_get ?_
  dsimp only
  rw [hx.op, hx.cls]
  refine repeats_ite Iff.rfl (fun _ => ?_) fun _ => repeats_pure h trivial
  cases (s.program.node n).cls with
  | result => exact repeats_setDepth h n 0
  | param =>
    refine (repeats_setDepth h n 1).bind fun _ _ s₁ t₁ h₁ _ _ => ?_
    refine repeats_ite (by rw [h.program.hasNoPointers (h.program.ty n)]) (fun _ => repeats_pure h₁ trivial) fun _ => ?_
    refine repeats_modify_bind (.of_eq rfl rfl rfl rfl) (repeats_modify ?_ (.of_eq rfl rfl rfl rfl))
    exact (h₁.setWord n w).pushPending n
  | _ => exact repeats_pure h trivial

theorem repeats_declareNames (f : FuncId) : R.Repeats s t (declareNames f) (declareNames f) fun _ _ _ _ => True := by
  have hp := h.program
  have hdecls : (t.program.func f).decls = (s.program.func f).decls.map R.shift := by
    have hdecls : (t.program.func f).decls = (s.program.func f).decls := by rw [(hp.func' f).rest]
    rw [hdecls]
    refine (R.map_shift_old fun n hn => ?_).symm
    rw [(hp.func f).decls] at hn
    exact R.closed n (Or.inr ⟨f, Func.mem_refs_decls hn⟩)
  have hword : Word.plain (if (t.program.func f).hasBody || (t.program.func f).noEscape then .none else .heap) =
      Word.plain (if (s.program.func f).hasBody || (s.program.func f).noEscape then .none else .heap) := by
    unfold Func.hasBody
    rw [(hp.func' f).rest]
  unfold declareNames
  refine repeats_get ?_
  dsimp only
  rw [hdecls, hword, h.recursive, hp.outputs, h.sink]
  refine (repeats_forM h _ fun n _ s' t' h' _ => repeats_declareWord h' _ n).bind fun _ _ s₁ t₁ h₁ _ _ => ?_
  exact repeats_ite Iff.rfl (fun _ => repeats_forM h₁ _ fun n _ s' t' h' _ => repeats_link h' s.sink n)
    fun _ => repeats_pure h₁ trivial

theorem repeats_recordBody (hW : R.Knows W s t) {f : FuncId} (hbody : ∀ m ∈ (s.program.func f).body.getD [], W m) :
    R.Repeats s t (recordBody f) (recordBody f) fun _ _ _ _ =>
      ∀ m ∈ (s.program.func f).body.getD [], ∃ k, R.base.Nests k m := by
  have hbodies : (t.program.func f).body.getD [] = ((s.program.func f).body.getD []).map R.shift := by
    have hsame : (t.program.func f).body = (s.program.func f).body := by rw [(h.program.func' f).rest]
    rw [hsame]
    exact (R.map_shift_old fun n hn => hW.old n (hbody n hn)).symm
  have henter : R.Repeats s t (enterBody f) (enterBody f) fun _ _ _ _ =>
      ∀ m ∈ (s.program.func f).body.getD [], ∃ k, R.base.Nests k m := by
    refine repeats_getProgram ?_
    rw [hbodies]
    exact (repeats_declareNames h f).bind fun _ _ s₁ t₁ h₁ _ _ => repeats_scanBody h₁ _
  refine repeats_getProgram ?_
  rw [hbodies]
  refine henter.bind fun _ _ s₁ t₁ h₁ hk₁ hnests => ?_
  exact (repeats_walkBody h₁ (hW.keeps hk₁) hbody).mono fun _ _ _ _ _ _ _ => hnests

theorem Mirrors.startFunc (f : FuncId) : R.Mirrors (s.startFunc f) (t.startFunc f) :=
  { h with
    depth := rfl
    curfn := rfl
    states := congrArg ((f, FuncState.started) :: ·) h.states }

omit h in
theorem Knows.startFunc (hW : R.Knows W s t) (f : FuncId) : R.Knows W (s.startFunc f) (t.startFunc f) := by
  refine ⟨hW.confines, hW.old, fun n hn g hg => (hW.callee n hn g hg).imp_left fun ⟨hcand, hstate⟩ => ⟨hcand, ?_⟩⟩
  by_cases he : g = f
  · subst he
    simp [Flow.startFunc]
  · exact (Info.state_setState_of_ne s.info .started he).symm ▸ hstate

end Bodies

/-- The second analysis records the functions of a group as the first does. -/
theorem repeats_recordFuncs (h : R.Mirrors s t) (hW : R.Knows W s t) {funcs : List FuncId}
    (hbody : ∀ f ∈ funcs, ∀ m ∈ (s.program.func f).body.getD [], W m) {s' : Flow}
    (hs : funcs.forM recordFunc s = .ok () s') :
    ∃ t', funcs.forM recordFunc t = .ok () t' ∧ R.Mirrors s' t' ∧ s'.program.funcs = s.program.funcs ∧
      t'.program.funcs = t.program.funcs ∧
      ∀ f ∈ funcs, ∀ m ∈ (s.program.func f).body.getD [], ∃ k, R.base.Nests k m := by
  induction funcs generalizing s t with
  | nil =>
    cases hs
    exact ⟨t, rfl, h, rfl, rfl, fun f hf => by cases hf⟩
  | cons f funcs ih =>
    rw [forM_cons_eq, recordFunc_eq] at hs
    rw [forM_cons_eq, recordFunc_eq, h.state]
    by_cases hplanned : s.info.state f ≠ .planned
    · rw [if_pos hplanned] at hs
      cases hs
    · rw [if_neg hplanned] at hs ⊢
      cases hrecord : recordBody f (s.startFunc f) with
      | error e u =>
        rw [hrecord] at hs
        cases hs
      | ok a u =>
        rw [hrecord] at hs
        obtain ⟨b, v, hv, huv, hk, hnests⟩ := ((repeats_recordBody (h.startFunc f) (hW.startFunc f)
          (hbody f List.mem_cons_self)).ok hrecord).2
        rw [hv]
        have hnext : R.Mirrors { u with depth := s.depth, curfn := s.curfn } { v with depth := t.depth, curfn := t.curfn } :=
          { huv with depth := h.depth, curfn := h.curfn }
        have hWnext : R.Knows W { u with depth := s.depth, curfn := s.curfn }
            { v with depth := t.depth, curfn := t.curfn } := (hW.startFunc f).keeps (hk.trans (.of_eq rfl rfl rfl rfl))
        have hfunc (g : FuncId) : u.program.func g = s.program.func g := by
          unfold Program.func
          rw [hk.funcs]
          rfl
        have hbody' : ∀ g ∈ funcs, ∀ m ∈ (u.program.func g).body.getD [], W m := by
          intro g hg
          rw [hfunc]
          exact hbody g (List.mem_cons_of_mem _ hg)
        obtain ⟨t', ht', hfinal, hfuncs, hfuncs', hrest⟩ := ih hnext hWnext hbody' hs
        refine ⟨t', ht', hfinal, hfuncs.trans hk.funcs, hfuncs'.trans hk.funcs', List.forall_mem_cons.2 ⟨hnests, ?_⟩⟩
        intro g hg
        rw [← hfunc]
        exact hrest g hg

end Rerun

end EscapeAnalysis

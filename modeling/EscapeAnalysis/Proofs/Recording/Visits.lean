import EscapeAnalysis.Proofs.Recording.Labels
import EscapeAnalysis.Proofs.Recording.Stillness

/-!
# Where a visit puts nodes

A visit of a node leaves the loop depth and the labels as they are, unless the node is a label. What it puts at a depth
is put at the depth of the walk, or at that of a local variable; so inside of a function nothing that is marked or
declared comes above depth 1.

* `Flow.Deep s` : what is marked is at depth 1 or deeper, and no local variable is above depth 0;
* `Flow.Deepens s t` : this holds of `t` if it holds of `s`, and what was at depth 1 or deeper still is;
* `Flow.settles_visit` : the visit of a node that is no label;
* `Flow.visit_label` : the visit of a label.
-/

namespace EscapeAnalysis.Flow

structure Deep (s : Flow) : Prop where
  pending : ∀ x ∈ s.pending, x.1.index < s.program.nodes.size ∧ (s.program.node x.1).isNameOf .result = false ∧
    1 ≤ s.info.depth x.1
  auto : ∀ n, (s.program.node n).isNameOf .auto = true → 0 ≤ s.info.depth n

structure Deepens (s t : Flow) : Prop where
  size_le : s.program.nodes.size ≤ t.program.nodes.size
  node : ∀ n : NodeId, n.index < s.program.nodes.size → (s.program.node n).SameBut (t.program.node n)
  deep : s.Deep → t.Deep
  below : s.Deep → ∀ n : NodeId, n.index < s.program.nodes.size → 1 ≤ s.info.depth n → 1 ≤ t.info.depth n

section Deepens

variable {s t u : Flow}

theorem Deepens.refl (s : Flow) : Deepens s s := ⟨Nat.le_refl _, fun _ _ => .refl _, id, fun _ _ _ h => h⟩

theorem Deepens.trans (h₁ : Deepens s t) (h₂ : Deepens t u) : Deepens s u := by
  have hlt {n : NodeId} (hn : n.index < s.program.nodes.size) := Nat.lt_of_lt_of_le hn h₁.size_le
  exact ⟨Nat.le_trans h₁.size_le h₂.size_le, fun n hn => (h₁.node n hn).trans (h₂.node n (hlt hn)),
    fun hs => h₂.deep (h₁.deep hs), fun hs n hn hd => h₂.below (h₁.deep hs) n (hlt hn) (h₁.below hs n hn hd)⟩

theorem Still.deepens (h : Still s t) (hdepth : 1 ≤ s.depth) : Deepens s t := by
  refine ⟨h.size_le, h.node, fun hs => ⟨fun x hx => ?_, fun n hn => ?_⟩, fun _ n hn hd => by rwa [h.old n hn]⟩
  · rcases h.pending x hx with hx | ⟨_, hlt, hop, hd⟩
    · obtain ⟨hlt, hname, hd⟩ := hs.pending x hx
      rw [(h.node x.1 hlt).isNameOf, h.old x.1 hlt]
      exact ⟨Nat.lt_of_lt_of_le hlt h.size_le, hname, hd⟩
    · exact ⟨hlt, Node.isNameOf_of_op_ne hop _, by rwa [hd]⟩
  · by_cases hlt : n.index < s.program.nodes.size
    · rw [(h.node n hlt).isNameOf] at hn
      rw [h.old n hlt]
      exact hs.auto n hn
    · rw [h.name n (Nat.le_of_not_lt hlt) (Node.isNameOf_iff.1 hn).1]
      omega

/-- A change of the position alone. -/
theorem deepens_position (s : Flow) (depth : Int) (labels : List (LabelId × Bool)) :
    Deepens s { s with depth, labels } :=
  ⟨Nat.le_refl _, fun _ _ => .refl _, fun hs => ⟨hs.pending, hs.auto⟩, fun _ _ _ h => h⟩

theorem depth_setDepth (i : Info) (n m : NodeId) (d : Int) :
    (i.setDepth n d).depth m = if m = n then d else i.depth m := by
  split
  · rename_i h
    rw [h]
    exact Table.get_set_self _ _ _
  · rename_i h
    exact Table.get_set_of_ne _ _ fun e => h (NodeId.ext e)

theorem deepens_setDepth {n : NodeId} {d : Int} (hd : s.Deep → 1 ≤ d) :
    Deepens s { s with info := s.info.setDepth n d } := by
  have hle (hs : s.Deep) {m : NodeId} {k : Int} (hk : k ≤ 1) (hm : k ≤ s.info.depth m) :
      k ≤ (s.info.setDepth n d).depth m := by
    have := hd hs
    rw [depth_setDepth]
    split <;> omega
  refine ⟨Nat.le_refl _, fun _ _ => .refl _, fun hs => ⟨fun x hx => ?_, fun m hm => ?_⟩, fun hs m _ hm => ?_⟩
  · obtain ⟨hlt, hname, hx⟩ := hs.pending x hx
    exact ⟨hlt, hname, hle hs (Int.le_refl 1) hx⟩
  · exact hle hs (by decide) (hs.auto m hm)
  · exact hle hs (Int.le_refl 1) hm

theorem deepens_pending {n : NodeId} (hn : n.index < s.program.nodes.size)
    (hname : (s.program.node n).isNameOf .result = false) (hd : 1 ≤ s.info.depth n) (w : Word) :
    Deepens s { s with info := s.info.setWord n w, pending := s.pending.push (n, s.curfn) } := by
  refine ⟨Nat.le_refl _, fun _ _ => .refl _, fun hs => ⟨fun x hx => ?_, hs.auto⟩, fun _ _ _ h => h⟩
  rcases Array.mem_push.1 hx with hx | rfl
  · exact hs.pending x hx
  · exact ⟨hn, hname, hd⟩

end Deepens

/-! ## Operations inside of a function -/

/-- The walk is where it was, and nothing was put above depth 1 that was below. -/
structure Settled (s t : Flow) : Prop where
  depth : t.depth = s.depth
  labels : t.labels = s.labels
  deepens : Deepens s t

instance : Std.Refl Settled := ⟨fun s => ⟨rfl, rfl, .refl s⟩⟩

instance : Conduct Settled (anyFault (φ := EscapeError × Flow)) where
  trans h₁ h₂ := ⟨h₂.depth.trans h₁.depth, h₂.labels.trans h₁.labels, h₁.deepens.trans h₂.deepens⟩
  stop _ _ := trivial
  rest {_ t} _ := Std.Refl.refl t

abbrev Settles {α : Type} (s : Flow) (m : FlowM α) : Prop := Triple Settled anyFault s m fun _ _ => True

theorem Settled.depth_pos {s t : Flow} (h : Settled s t) (hs : 1 ≤ s.depth) : 1 ≤ t.depth := h.depth ▸ hs

theorem Stays.settles {α : Type} {s : Flow} {m : FlowM α} (h : Stays s m) (hs : 1 ≤ s.depth) : Settles s m := by
  refine triple_of_ok fun a t ht => ⟨?_, trivial⟩
  have hstill := (h.ok ht).1
  exact ⟨hstill.depth, hstill.labels, hstill.deepens hs⟩

theorem settles_setDepth {s : Flow} (n : NodeId) {d : Int} (hd : s.Deep → 1 ≤ d) : Settles s (setDepth n d) :=
  triple_modify ⟨rfl, rfl, deepens_setDepth hd⟩

/-! ## Visits -/

variable {s t : Flow} {n : NodeId}

theorem settles_markPending (hs : 1 ≤ s.depth) (hn : n.index < s.program.nodes.size)
    (hop : (s.program.node n).op ≠ .name) : Settles s (markPending n) := by
  refine triple_modify ⟨rfl, rfl, ?_⟩
  have hset : Deepens s { s with info := s.info.setDepth n s.depth } := deepens_setDepth fun _ => hs
  refine hset.trans (deepens_pending (s := { s with info := s.info.setDepth n s.depth }) hn
    (Node.isNameOf_of_op_ne hop _) ?_ (.plain .none))
  rwa [depth_setDepth, if_pos rfl]

theorem Deep.one_le_addressDepth? (hs : s.Deep) {var : NodeId} {d : Int} (h : s.addressDepth? var = some d) :
    1 ≤ d := by
  dsimp only [addressDepth?] at h
  split at h
  · rename_i hauto
    split at h <;> cases h
    have := hs.auto var hauto
    omega
  · split at h <;> cases h
    exact Int.le_refl 1

theorem settles_addressDepth (n : NodeId) (var : Option NodeId) : Settles s (addressDepth n var) := by
  rw [addressDepth_eq]
  refine triple_get ?_
  cases h : var.bind s.addressDepth? with
  | none => exact triple_pure trivial
  | some d =>
    obtain ⟨_, _, hd⟩ := Option.bind_eq_some_iff.1 h
    exact settles_setDepth n fun hs => hs.one_le_addressDepth? hd

/-- The visit of a node that is no label. -/
theorem settles_visit (hs : 1 ≤ s.depth) (hlabel : (s.program.node n).op ≠ .label) (up : Option NodeId) : Settles s (visit n up) := by
  have hmark (hop : (s.program.node n).op ≠ .name) (hblock : (s.program.node n).op ≠ .block) :
      Settles s (markPending n) :=
    settles_markPending hs (s.program.lt_size_of_op_ne hblock) hop
  unfold visit
  refine triple_get ?_
  dsimp only
  cases hop : (s.program.node n).op with
  | label => exact absurd hop hlabel
  | decl =>
    cases (s.program.node n).left with
    | none => exact triple_pure trivial
    | some var => exact settles_setDepth var fun _ => hs
  | rangeStmt =>
    dsimp only
    split
    · split
      · exact (stays_assign _ _).settles hs
      · exact triple_pure trivial
    · exact triple_pure trivial
  | switchStmt =>
    dsimp only
    split
    · exact Stays.settles (triple_forM _ fun m _ _ _ => stays_assign m _) hs
    · exact triple_pure trivial
  | assign | assignOp =>
    dsimp only
    split
    · split
      · exact Stays.settles (triple_modify (still_of_nodes_eq rfl rfl rfl rfl rfl)) hs
      · exact (stays_assign _ _).settles hs
    · exact triple_pure trivial
  | assignMany =>
    dsimp only
    split
    · exact (stays_assignEach _ _).settles hs
    · exact triple_pure trivial
  | assignRecv | assignLookup | assignAssert =>
    dsimp only
    split
    · exact (stays_assign _ _).settles hs
    · exact triple_pure trivial
  | send | panicStmt => exact Stays.settles (triple_optionForM _ fun m _ => stays_lose m) hs
  | deferStmt =>
    dsimp only
    split
    · exact (stays_loseCall _).settles hs
    · exact triple_pure trivial
  | goStmt => exact (stays_loseCall _).settles hs
  | callFunc | callMethod | callInterface => exact (stays_call n up).settles hs
  | assignCall =>
    dsimp only
    split
    · exact triple_throw trivial
    · split
      · exact triple_throw_bind trivial _
      · exact (stays_assignEach _ _).settles hs
  | returnStmt => exact (stays_returnValues n _).settles hs
  | append =>
    dsimp only
    split
    · exact triple_pure trivial
    · exact Stays.settles (triple_forM _ fun m _ _ _ => stays_lose m) hs
  | conv | convNop => exact Stays.settles (triple_optionForM _ fun m _ => stays_assign n m) hs
  | convIface | ptrLit =>
    exact (hmark (by simp [hop]) (by simp [hop])).bind fun _ _ ht _ => Stays.settles (triple_optionForM _ fun m _ => stays_assign n m) (ht.depth_pos hs)
  | arrayLit =>
    dsimp only
    split
    · exact (hmark (by simp [hop]) (by simp [hop])).bind fun _ _ ht _ => Stays.settles (triple_forM _ fun m _ _ _ => stays_lose m) (ht.depth_pos hs)
    · exact Stays.settles (triple_forM _ fun m _ _ _ => stays_assign n m) hs
  | structLit => exact Stays.settles (triple_forM _ fun m _ _ _ => stays_assign n m) hs
  | methodValue =>
    exact (hmark (by simp [hop]) (by simp [hop])).bind fun _ _ ht _ => Stays.settles (triple_optionForM _ fun m _ => stays_lose m) (ht.depth_pos hs)
  | mapLit =>
    exact (hmark (by simp [hop]) (by simp [hop])).bind fun _ _ ht _ => Stays.settles (triple_forM _ fun m _ _ _ => stays_lose m) (ht.depth_pos hs)
  | closure =>
    refine (Stays.settles (triple_optionForM _ fun f _ => stays_captureVars n _) hs).bind fun _ t ht _ => ?_
    have hlt := s.program.lt_size_of_op_ne (n := n) (by simp [hop])
    refine settles_markPending (ht.depth_pos hs) (Nat.lt_of_lt_of_le hlt ht.deepens.size_le) ?_
    rw [(ht.deepens.node n hlt).op, hop]
    simp
  | makeChan | makeMap | makeSlice | new | runesToString | bytesToString | stringToRunes | stringToBytes | runeToString
  | concat => exact hmark (by simp [hop]) (by simp [hop])
  | addr => exact (hmark (by simp [hop]) (by simp [hop])).bind fun _ _ _ _ => settles_addressDepth n _
  | _ => exact triple_pure trivial

theorem get_bind {α : Type} (f : Flow → FlowM α) (s : Flow) : (get >>= f) s = f s s := rfl

theorem visit_decl (hop : (s.program.node n).op = .decl) {var : NodeId} (hvar : (s.program.node n).left = some var)
    (up : Option NodeId) : visit n up s = .ok () { s with info := s.info.setDepth var s.depth } := by
  unfold visit
  rw [get_bind]
  dsimp only
  rw [hop]
  dsimp only
  rw [hvar]
  rfl

theorem visit_label (hop : (s.program.node n).op = .label) (up : Option NodeId) :
    visit n up s = (s.program.node n).label.forM passLabel s := by
  unfold visit
  rw [get_bind]
  dsimp only
  rw [hop]

theorem deepens_passLabel {l : LabelId} (h : passLabel l s = .ok () t) : Deepens s t := by
  cases h
  exact s.deepens_position _ _

theorem label?_passLabel {l : LabelId} (h : passLabel l s = .ok () t) (k : LabelId) :
    t.label? k = if k = l then none else s.label? k := by
  cases h
  change (s.labels.filter (·.1 ≠ l)).lookup k = _
  split
  · rename_i hk
    rw [hk, List.lookup_eq_none_iff]
    intro x hx
    have hne : x.1 ≠ l := by simpa using (List.mem_filter.1 hx).2
    exact bne_iff_ne.2 hne.symm
  · rename_i hk
    exact lookup_filter_ne hk

theorem depth_passLabel {l : LabelId} (h : passLabel l s = .ok () t) :
    t.depth = if s.label? l = some true then s.depth + 1 else s.depth := by
  cases h
  rfl

/-! ## The variables of clauses -/

theorem forM_setDepth (xs : List NodeId) (d : Int) (s : Flow) :
    (xs.forM fun n => setDepth n d) s = .ok () { s with info := xs.foldl (fun i n => i.setDepth n d) s.info } := by
  induction xs generalizing s with
  | nil => rfl
  | cons x xs ih => exact ih { s with info := s.info.setDepth x d }

theorem depth_foldl_setDepth {xs : List NodeId} {i : Info} {d : Int} (hn : n ∈ xs ∨ i.depth n = d) :
    (xs.foldl (fun i n => i.setDepth n d) i).depth n = d := by
  induction xs generalizing i with
  | nil => exact hn.resolve_left List.not_mem_nil
  | cons x xs ih =>
    refine ih ?_
    rw [depth_setDepth]
    split
    · exact Or.inr rfl
    · rename_i hx
      exact hn.imp_left fun h => (List.mem_cons.1 h).resolve_left hx

theorem settles_placeClauseVars (hs : 1 ≤ s.depth) (x : Node) : Settles s (placeClauseVars x) := by
  unfold placeClauseVars
  refine triple_get ?_
  split
  · exact triple_forM _ fun m _ _ _ => settles_setDepth m fun _ => hs
  · exact triple_pure trivial

theorem depth_placeClauseVars {x : Node} (hguard : (s.program.typeGuard? x).isSome = true)
    (h : placeClauseVars x s = .ok () t) {var : NodeId} (hvar : var ∈ s.program.clauseVars x) :
    t.info.depth var = s.depth := by
  unfold placeClauseVars at h
  rw [get_bind, if_pos hguard, forM_setDepth] at h
  cases h
  exact depth_foldl_setDepth (Or.inl hvar)

end EscapeAnalysis.Flow

import EscapeAnalysis.Proofs.Building.Scripts
import EscapeAnalysis.Proofs.Recording.Destinations
import EscapeAnalysis.Proofs.Recording.Operands
import EscapeAnalysis.Proofs.Types.Pointers

/-!
# Assignments are all or nothing

An assignment finds the whole that its destination is a piece of before it writes anything. So it stops without a trace
if nothing can be stored there. Otherwise the value is followed to the nodes that it comes from, and all edges go into one
node.

* `Program.TakesFrom p n m` : the value of the node comes from the operand;
* `Flow.Widens s t` : only addresses of closures and edges are new;
* `Flow.Received s t d src` : all that the value of `src` comes from flows into `d`;
* `Flow.carry_received` : the value of an expression is received as a whole;
* `assign_all_or_nothing` : what an assignment does.
-/

namespace EscapeAnalysis

open Relation (ReflTransGen TransGen)

/-! ## Values -/

/-- Values come from such nodes themselves, and not from operands. -/
def Op.ends (op : Op) : Bool := op.isSource || op == .closure || op.isCall

theorem Op.not_isCall_of_isSource {op : Op} (h : op.isSource = true) : op.isCall = false := by
  revert h
  cases op <;> decide

theorem Op.not_passes_of_ends {op : Op} (h : op.ends = true) :
    op ≠ .dot ∧ op ≠ .index ∧ op ≠ .append ∧ op.passes = false ∧ op.isArith = false := by
  revert h
  cases op <;> decide

namespace Program

variable {p : Program} {n m : NodeId}

/-- The value of the node comes from the operand. -/
def TakesFrom (p : Program) (n m : NodeId) : Prop := m ∈ p.givers n

theorem givers_of_ends (h : (p.node n).op.ends = true) : p.givers n = [] := by
  obtain ⟨hdot, hindex, happend, hpasses, harith⟩ := Op.not_passes_of_ends h
  unfold givers
  split
  · exact absurd ‹_› hdot
  · exact absurd ‹_› hindex
  · simp [Node.operands, hdot, hindex, happend, hpasses, harith]

theorem eq_of_ends {m : NodeId} (h : (p.node n).op.ends = true) (hm : ReflTransGen p.TakesFrom n m) : m = n := by
  rcases hm.cases_head with rfl | ⟨k, hk, _⟩
  · rfl
  · rw [TakesFrom, givers_of_ends h] at hk
    cases hk

end Program

namespace Flow

variable {s t u : Flow} {d src : NodeId}

section Carry

variable (fuel : Nat)

theorem carry_source (h : (s.program.node src).op.isSource = true) : carry d (fuel + 1) src s = link d src s := by
  rw [carry_succ, getProgram_bind_eq]
  rw [if_pos h]

theorem carry_closure (h : (s.program.node src).op = .closure) :
    carry d (fuel + 1) src s = (closureAddress src (s.program.node src) >>= link d) s := by
  rw [carry_succ, getProgram_bind_eq]
  rw [if_neg (by simp [h, Op.isSource]), if_pos h]

theorem carry_call (h : (s.program.node src).op.isCall = true) :
    carry d (fuel + 1) src s = (s.results.get src.index).forM (link d) s := by
  rw [carry_succ, getProgram_bind_eq]
  rw [if_neg fun hsource => by simp [Op.not_isCall_of_isSource hsource] at h,
    if_neg fun hop => by simp [hop, Op.isCall] at h, if_pos h]
  rfl

theorem carry_givers (h : (s.program.node src).op.ends = false) :
    carry d (fuel + 1) src s = (s.program.givers src).forM (carry d fuel) s := by
  simp only [Op.ends, Bool.or_eq_false_iff, beq_eq_false_iff_ne] at h
  rw [carry_succ, getProgram_bind_eq]
  rw [if_neg (by simp [h.1.1]), if_neg h.1.2, if_neg (by simp [h.2])]

end Carry

/-- Only addresses of closures and edges are new. -/
structure Widens (s t : Flow) : Prop where
  size_le : s.program.nodes.size ≤ t.program.nodes.size
  nodes : ∀ n, t.program.node n = s.program.node n ∨ s.program.nodes.size ≤ n.index ∧ (t.program.node n).op = .addr
  types : s.program.types.Grows t.program.types
  funcs : t.program.funcs = s.program.funcs
  results : t.results = s.results
  sink : t.sink = s.sink
  curfn : t.curfn = s.curfn
  edges : ∀ d x, s.Edge d x → t.Edge d x

theorem Widens.refl (s : Flow) : Widens s s :=
  ⟨Nat.le_refl _, fun _ => Or.inl rfl, .refl _, rfl, rfl, rfl, rfl, fun _ _ => id⟩

theorem Widens.trans (h₁ : Widens s t) (h₂ : Widens t u) : Widens s u := by
  refine ⟨Nat.le_trans h₁.size_le h₂.size_le, fun n => ?_, h₁.types.trans h₂.types, h₂.funcs.trans h₁.funcs,
    h₂.results.trans h₁.results, h₂.sink.trans h₁.sink, h₂.curfn.trans h₁.curfn, fun d x he =>
      h₂.edges d x (h₁.edges d x he)⟩
  rcases h₂.nodes n with hn | ⟨hle, hop⟩
  · rw [hn]
    exact h₁.nodes n
  · exact Or.inr ⟨Nat.le_trans h₁.size_le hle, hop⟩

theorem Widens.node (h : Widens s t) {n : NodeId} (hn : n.index < s.program.nodes.size) :
    t.program.node n = s.program.node n :=
  (h.nodes n).resolve_right fun hle => Nat.not_lt_of_le hle.1 hn

theorem Widens.hasNoPointers (h : Widens s t) {ty : Option Ty} (hty : s.program.hasNoPointers ty = false) :
    t.program.hasNoPointers ty = false := by
  unfold Program.hasNoPointers at hty ⊢
  cases ty with
  | none => rfl
  | some ty =>
    simp only [Option.any_some, Bool.not_eq_false'] at hty ⊢
    exact h.types.hasPointers_of_true hty

theorem Widens.isArrayNode (h : Widens s t) {n : Option NodeId} (hn : s.program.isArrayNode n = true) :
    t.program.isArrayNode n = true := by
  cases n with
  | none => exact hn
  | some n =>
    simp only [Program.isArrayNode, Option.any_some] at hn ⊢
    cases hty : (s.program.node n).ty with
    | none =>
      rw [hty] at hn
      cases hn
    | some ty =>
      have hlt : n.index < s.program.nodes.size := by
        by_contra hle
        rw [s.program.node_of_size_le (Nat.le_of_not_lt hle)] at hty
        cases hty
      rw [hty] at hn
      rw [h.node hlt, hty]
      simp only [Program.isArray, Option.any_some] at hn ⊢
      have hhas : s.program.types.Has ty := by
        cases ty with
        | compound id =>
          simp only [TypeStore.isArray, TypeStore.arrayDef?, TypeStore.compound?] at hn
          cases hc : s.program.types.compounds[id.index]? with
          | none => simp [hc] at hn
          | some c => exact TypeStore.has_compound.2 (TypeStore.lt_of_getElem? hc)
        | _ => cases hn
      rwa [h.types.isArray hhas]

/-- What passes a value goes on to do so. -/
theorem Widens.givers (h : Widens s t) {n m : NodeId} (hn : t.program.node n = s.program.node n)
    (hm : m ∈ s.program.givers n) : m ∈ t.program.givers n := by
  unfold Program.givers at hm ⊢
  rw [hn]
  cases hop : (s.program.node n).op with
  | dot =>
    rw [hop] at hm
    dsimp only at hm ⊢
    split at hm
    · cases hm
    · rename_i hty
      rwa [if_neg (by rw [h.hasNoPointers (Bool.eq_false_iff.2 hty)]; exact Bool.false_ne_true)]
  | index =>
    rw [hop] at hm
    dsimp only at hm ⊢
    split at hm
    · rename_i harray
      rwa [if_pos (h.isArrayNode harray)]
    · cases hm
  | _ =>
    rw [hop] at hm
    exact hm

/-- All that the value of `src` comes from in `s` flows into `d` in `t`: variables and allocations, the results of calls,
and closures by a new node for their address. What has no pointers does not flow. -/
structure Received (s t : Flow) (d src : NodeId) : Prop where
  source : ∀ n, ReflTransGen s.program.TakesFrom src n → (s.program.node n).op.isSource = true → n ≠ d →
    s.program.hasNoPointers (s.program.node n).ty = false → t.Edge d n
  result : ∀ n, ReflTransGen s.program.TakesFrom src n → (s.program.node n).op.isCall = true →
    ∀ m ∈ s.results.get n.index, m.index < s.program.nodes.size → m ≠ d →
      s.program.hasNoPointers (s.program.node m).ty = false → t.Edge d m
  closure : s.program.types.Sound → ∀ n, ReflTransGen s.program.TakesFrom src n → (s.program.node n).op = .closure →
    ∃ addr, s.program.nodes.size ≤ addr.index ∧ (t.program.node addr).op = .addr ∧
      (t.program.node addr).left = some n ∧ (addr ≠ d → t.Edge d addr)

theorem Received.widens (h : Received s t d src) (htu : Widens t u) : Received s u d src := by
  refine ⟨fun n hn hop hne hty => htu.edges d n (h.source n hn hop hne hty),
    fun n hn hop m hm hlt hne hty => htu.edges d m (h.result n hn hop m hm hlt hne hty), fun hsound n hn hop => ?_⟩
  obtain ⟨addr, hle, haddr, hleft, hedge⟩ := h.closure hsound n hn hop
  have hsame := htu.node (t.program.lt_size_of_op_ne (show (t.program.node addr).op ≠ .block by simp [haddr]))
  exact ⟨addr, hle, hsame ▸ haddr, hsame ▸ hleft, fun hne => htu.edges d addr (hedge hne)⟩

/-- A value that comes from other nodes is received with them. -/
theorem received_of_givers (hends : (s.program.node src).op.ends = false)
    (h : ∀ m ∈ s.program.givers src, Received s t d m) : Received s t d src := by
  have hstep {n : NodeId} (hn : ReflTransGen s.program.TakesFrom src n) (hop : (s.program.node n).op.ends = true) :
      ∃ m ∈ s.program.givers src, ReflTransGen s.program.TakesFrom m n := by
    rcases hn.cases_head with rfl | ⟨m, hm, hmn⟩
    · rw [hends] at hop
      cases hop
    · exact ⟨m, hm, hmn⟩
  refine ⟨fun n hn hop => ?_, fun n hn hop => ?_, fun hsound n hn hop => ?_⟩
  · obtain ⟨m, hm, hmn⟩ := hstep hn (by simp [Op.ends, hop])
    exact (h m hm).source n hmn hop
  · obtain ⟨m, hm, hmn⟩ := hstep hn (by simp [Op.ends, hop])
    exact (h m hm).result n hmn hop
  · obtain ⟨m, hm, hmn⟩ := hstep hn (by simp [Op.ends, hop])
    exact (h m hm).closure hsound n hmn hop

/-- A value that comes from the node itself. -/
theorem received_of_ends (hends : (s.program.node src).op.ends = true)
    (hsource : (s.program.node src).op.isSource = true → src ≠ d →
      s.program.hasNoPointers (s.program.node src).ty = false → t.Edge d src)
    (hresult : (s.program.node src).op.isCall = true → ∀ m ∈ s.results.get src.index,
      m.index < s.program.nodes.size → m ≠ d → s.program.hasNoPointers (s.program.node m).ty = false → t.Edge d m)
    (hclosure : s.program.types.Sound → (s.program.node src).op = .closure →
      ∃ addr, s.program.nodes.size ≤ addr.index ∧ (t.program.node addr).op = .addr ∧
        (t.program.node addr).left = some src ∧ (addr ≠ d → t.Edge d addr)) : Received s t d src := by
  refine ⟨fun n hn => ?_, fun n hn => ?_, fun hsound n hn => ?_⟩
  · obtain rfl := Program.eq_of_ends hends hn
    exact hsource
  · obtain rfl := Program.eq_of_ends hends hn
    exact hresult
  · obtain rfl := Program.eq_of_ends hends hn
    exact hclosure hsound

theorem link_eq (d x : NodeId) (s : Flow) : ∃ t, link d x s = .ok () t ∧ Widens s t ∧
    (x ≠ d → s.program.hasNoPointers (s.program.node x).ty = false → t.Edge d x) := by
  refine ⟨if d = x ∨ s.program.hasNoPointers (s.program.node x).ty then s else s.addEdge d x, rfl, ?_, fun hne hty => ?_⟩
  · split
    · exact .refl s
    · exact ⟨Nat.le_refl _, fun _ => Or.inl rfl, .refl _, rfl, rfl, rfl, rfl, fun _ _ he =>
        edge_addEdge_iff.2 (Or.inl he)⟩
  · rw [if_neg (by simp [hne.symm, hty])]
    exact edge_addEdge s d x

/-- Links from several nodes. -/
theorem forM_link_eq (d : NodeId) (xs : List NodeId) (s : Flow) : ∃ t, xs.forM (link d) s = .ok () t ∧ Widens s t ∧
    ∀ x ∈ xs, x.index < s.program.nodes.size → x ≠ d → s.program.hasNoPointers (s.program.node x).ty = false →
      t.Edge d x := by
  induction xs generalizing s with
  | nil => exact ⟨s, rfl, .refl s, fun x hx => absurd hx List.not_mem_nil⟩
  | cons x xs ih =>
    obtain ⟨t, ht, hst, hedge⟩ := link_eq d x s
    obtain ⟨u, hu, htu, hedges⟩ := ih t
    refine ⟨u, by rw [forM_cons_eq, ht]; exact hu, hst.trans htu, fun y hy hlt hne hty => ?_⟩
    rcases List.mem_cons.1 hy with rfl | hy
    · exact htu.edges d y (hedge hne hty)
    · refine hedges y hy (Nat.lt_of_lt_of_le hlt hst.size_le) hne ?_
      rw [hst.node hlt]
      exact hst.hasNoPointers hty

theorem closureAddress_eq (src : NodeId) (x : Node) (s : Flow) :
    ∃ t, closureAddress src x s = .ok ⟨s.program.nodes.size⟩ t ∧ Widens s t ∧
      (t.program.node ⟨s.program.nodes.size⟩).op = .addr ∧
      (t.program.node ⟨s.program.nodes.size⟩).left = some src ∧
      ∀ s₀ : Flow, Widens s₀ s → s₀.program.types.Sound →
        t.program.hasNoPointers (t.program.node ⟨s.program.nodes.size⟩).ty = false := by
  -- The node is made after its type, which may be new.
  have hmake (types : TypeStore) (hgrows : s.program.types.Grows types) (ty : Option Ty)
      (hty : ∀ s₀ : Flow, Widens s₀ s → s₀.program.types.Sound →
        ({ s.program with types } : Program).hasNoPointers ty = false)
      (d : Int) : let p : Program := { s.program with types }
      let t : Flow := { s with
        program := (p.addNode { op := .addr, line := x.line, ty, left := some src }).2
        info := s.info.setDepth ⟨s.program.nodes.size⟩ d }
      Widens s t ∧ (t.program.node ⟨s.program.nodes.size⟩).op = .addr ∧
        (t.program.node ⟨s.program.nodes.size⟩).left = some src ∧
        ∀ s₀ : Flow, Widens s₀ s → s₀.program.types.Sound →
          t.program.hasNoPointers (t.program.node ⟨s.program.nodes.size⟩).ty = false := by
    intro p t
    have hnode (n : NodeId) : t.program.node n = if n.index = s.program.nodes.size then
        { op := .addr, line := x.line, ty, left := some src } else s.program.node n := p.node_addNode _ n
    refine ⟨⟨?_, fun n => ?_, hgrows, rfl, rfl, rfl, rfl, fun _ _ he => he⟩, ?_, ?_, fun s₀ hs hsound => ?_⟩
    · exact (p.extends_addNode _).size_le
    · rw [hnode]
      split
      · exact Or.inr ⟨Nat.le_of_eq (Eq.symm ‹_›), rfl⟩
      · exact Or.inl rfl
    · rw [hnode, if_pos rfl]
    · rw [hnode, if_pos rfl]
    · rw [hnode, if_pos rfl]
      exact hty s₀ hs hsound
  unfold closureAddress
  cases hx : x.ty with
  | none => exact ⟨_, rfl, hmake s.program.types (.refl _) none (fun _ _ _ => rfl) _⟩
  | some ty =>
    refine ⟨_, rfl, hmake (s.program.types.intern (.ptr ty)).2 (s.program.types.grows_intern _)
      (some (s.program.types.intern (.ptr ty)).1) (fun s₀ hs hsound => ?_) _⟩
    have hc := hs.types.compound?_intern hsound (.ptr ty)
    simp only [Program.hasNoPointers, Option.any_some, Bool.not_eq_false', TypeStore.hasPointers_iff]
    cases hty : (s.program.types.intern (.ptr ty)).1 with
    | compound id =>
      rw [hty] at hc
      exact .pointer hc (fun _ _ h => nomatch h) fun _ _ h => nomatch h
    | _ =>
      rw [hty] at hc
      cases hc

section Ends

variable {s₀ : Flow} (hs : Widens s₀ s) (hsame : s.program.node src = s₀.program.node src) (fuel : Nat)
include hs hsame

theorem carry_received_source (hop : (s₀.program.node src).op.isSource = true) :
    ∃ t, carry d (fuel + 1) src s = .ok () t ∧ Widens s t ∧ Received s₀ t d src := by
  obtain ⟨t, ht, hst, hedge⟩ := link_eq d src s
  refine ⟨t, (carry_source fuel (by rw [hsame, hop])).trans ht, hst, received_of_ends (by simp [Op.ends, hop]) ?_ ?_ ?_⟩
  · exact fun _ hne hty => hedge hne (by rw [hsame]; exact hs.hasNoPointers hty)
  · intro hcall
    rw [Op.not_isCall_of_isSource hop] at hcall
    cases hcall
  · intro _ hclosure
    rw [hclosure] at hop
    cases hop

theorem carry_received_closure (hop : (s₀.program.node src).op = .closure) :
    ∃ t, carry d (fuel + 1) src s = .ok () t ∧ Widens s t ∧ Received s₀ t d src := by
  obtain ⟨t, ht, hst, haddr, hleft, hpointers⟩ := closureAddress_eq src (s.program.node src) s
  obtain ⟨u, hu, htu, hedge⟩ := link_eq d ⟨s.program.nodes.size⟩ t
  have hadded := htu.node (t.program.lt_size_of_op_ne
    (show (t.program.node ⟨s.program.nodes.size⟩).op ≠ .block by simp [haddr]))
  refine ⟨u, ?_, hst.trans htu, received_of_ends (by simp [Op.ends, hop]) ?_ ?_ fun hsound _ => ?_⟩
  · rw [carry_closure fuel (by rw [hsame, hop])]
    change EStateM.bind _ _ s = _
    unfold EStateM.bind
    rw [ht]
    exact hu
  · simp [hop, Op.isSource]
  · simp [hop, Op.isCall]
  · exact ⟨⟨s.program.nodes.size⟩, hs.size_le, hadded ▸ haddr, hadded ▸ hleft, fun hne =>
      hedge hne (hpointers s₀ hs hsound)⟩

theorem carry_received_call (hop : (s₀.program.node src).op.isCall = true) :
    ∃ t, carry d (fuel + 1) src s = .ok () t ∧ Widens s t ∧ Received s₀ t d src := by
  obtain ⟨t, ht, hst, hedges⟩ := forM_link_eq d (s.results.get src.index) s
  refine ⟨t, (carry_call fuel (by rw [hsame, hop])).trans ht, hst, received_of_ends (by simp [Op.ends, hop]) ?_ ?_ ?_⟩
  · intro hsource
    rw [Op.not_isCall_of_isSource hsource] at hop
    cases hop
  · intro _ m hm hlt hne hty
    rw [← hs.results] at hm
    refine hedges m hm (Nat.lt_of_lt_of_le hlt hs.size_le) hne ?_
    rw [hs.node hlt]
    exact hs.hasNoPointers hty
  · intro _ hclosure
    rw [hclosure] at hop
    cases hop

end Ends

/-- The value of an expression is received as a whole, if its operands rank below it. -/
theorem carry_received {s₀ : Flow} {rank : NodeId → Nat} (hrank : ∀ n m, s₀.program.Operand n m → rank m < rank n)
    {fuel : Nat} (hs : Widens s₀ s) (hfuel : rank src < fuel) :
    ∃ t, carry d fuel src s = .ok () t ∧ Widens s t ∧ Received s₀ t d src := by
  induction fuel generalizing src s with
  | zero => exact absurd hfuel (Nat.not_lt_zero _)
  | succ fuel ih =>
    have hparts (ms : List NodeId) (hms : ∀ m ∈ ms, s₀.program.Operand src m) {s : Flow} (hs : Widens s₀ s) :
        ∃ t, ms.forM (carry d fuel) s = .ok () t ∧ Widens s t ∧ ∀ m ∈ ms, Received s₀ t d m := by
      induction ms generalizing s with
      | nil => exact ⟨s, rfl, .refl s, fun m hm => absurd hm List.not_mem_nil⟩
      | cons m ms ihms =>
        rw [List.forall_mem_cons] at hms
        obtain ⟨t, ht, hst, hm⟩ := ih hs (Nat.lt_of_lt_of_le (hrank src m hms.1) (Nat.le_of_lt_succ hfuel))
        obtain ⟨u, hu, htu, hrest⟩ := ihms hms.2 (hs.trans hst)
        refine ⟨u, ?_, hst.trans htu, List.forall_mem_cons.2 ⟨hm.widens htu, hrest⟩⟩
        rw [forM_cons_eq, ht]
        exact hu
    rcases hs.nodes src with hsame | ⟨hle, haddr⟩
    · cases hends : (s₀.program.node src).op.ends with
      | true =>
        simp only [Op.ends, Bool.or_eq_true, beq_iff_eq] at hends
        rcases hends with (hop | hop) | hop
        · exact carry_received_source hs hsame fuel hop
        · exact carry_received_closure hs hsame fuel hop
        · exact carry_received_call hs hsame fuel hop
      | false =>
        have hoperands : ∀ m ∈ s.program.givers src, s₀.program.Operand src m := fun m hm => by
          have hm := Program.mem_operands_of_mem_givers hm
          rwa [hsame] at hm
        obtain ⟨t, ht, hst, hall⟩ := hparts (s.program.givers src) hoperands hs
        exact ⟨t, (carry_givers fuel (by rw [hsame, hends])).trans ht, hst,
          received_of_givers hends fun m hm => hall m (hs.givers hsame hm)⟩
    · -- The node is new, and nothing was there for a value to come from.
      obtain ⟨t, ht, hst, _⟩ := link_eq d src s
      have hblock : (s₀.program.node src).op = .block := by
        rw [s₀.program.node_of_size_le hle]
        rfl
      refine ⟨t, (carry_source fuel (by rw [haddr]; rfl)).trans ht, hst, received_of_givers (by rw [hblock]; rfl) ?_⟩
      intro m hm
      simp [Program.givers, Node.operands, Op.passes, Op.isArith, Op.isBinaryArith, hblock] at hm

/-! ## Assignments -/

section Assign

variable (hends : s.program.OperandsEnd)
include hends

theorem carryAll_received (d src : NodeId) :
    ∃ t, carryAll d src s = .ok () t ∧ Widens s t ∧ Received s t d src ∧
      ∀ n, n ≠ d → t.sources.get n.index = s.sources.get n.index := by
  obtain ⟨rank, hle, hrank⟩ := hends.exists_rank
  obtain ⟨t, ht, hst, hreceived⟩ := carry_received (d := d) hrank (.refl s) (Nat.lt_succ_of_le (hle src))
  have hfeeds : FeedsOnly d s (carry d (s.program.nodes.size + 1) src) := feedsOnly_carry _ src
  exact ⟨t, ht, hst, hreceived, (hfeeds.ok ht).1⟩

/-- What is lost to the sink goes there with the key of the map that it is stored in. -/
theorem lose_received (key : Option NodeId) (src : NodeId) :
    ∃ t, (do key.forM lose; lose src : FlowM Unit) s = .ok () t ∧ Widens s t ∧ Received s t s.sink src ∧
      (∀ k, key = some k → Received s t s.sink k) ∧
      ∀ n, n ≠ s.sink → t.sources.get n.index = s.sources.get n.index := by
  cases key with
  | none =>
    obtain ⟨t, ht, hst, hreceived, hsources⟩ := carryAll_received hends s.sink src
    exact ⟨t, ht, hst, hreceived, by simp, hsources⟩
  | some k =>
    obtain ⟨rank, hle, hrank⟩ := hends.exists_rank
    obtain ⟨t, ht, hst, hkey, hsources⟩ := carryAll_received hends s.sink k
    have hfuel : rank src < t.program.nodes.size + 1 := Nat.lt_succ_of_le (Nat.le_trans (hle src) hst.size_le)
    obtain ⟨u, hu, htu, hreceived⟩ := carry_received (d := s.sink) hrank hst hfuel
    have hfeeds : FeedsOnly s.sink t (carry s.sink (t.program.nodes.size + 1) src) := feedsOnly_carry _ src
    refine ⟨u, ?_, hst.trans htu, hreceived, fun _ h => Option.some.inj h ▸ hkey.widens htu, fun n hn =>
      ((hfeeds.ok hu).1 n hn).trans (hsources n hn)⟩
    change EStateM.bind (carryAll s.sink k) (fun _ => lose src) s = _
    unfold EStateM.bind
    rw [ht]
    change carry t.sink (t.program.nodes.size + 1) src t = _
    rw [hst.sink]
    exact hu

omit hends in
/-- The place that was found for a destination is found again from there. -/
theorem assign_of_keeps {b : NodeId} (hu : Widens s u) (hkeeps : (s.program.node b).keeps = true)
    (hblank : (s.program.node b).isBlank = false) (src : NodeId) : assign b src u = carryAll b src u := by
  have hlt : b.index < s.program.nodes.size := by
    refine s.program.lt_size_of_op_ne fun hop => ?_
    rw [Node.keeps, hop] at hkeeps
    cases hkeeps
  refine assign_eq_carryAll ?_
  rw [Program.place_succ, Program.base?, Program.wholePlace, hu.node hlt, hblank, hkeeps]
  unfold Node.keeps at hkeeps
  split at hkeeps
  any_goals
    rename_i hop
    simp [hop, Op.stores]
  cases hkeeps

omit hends in
/-- What is assigned to the sink is lost. -/
theorem assign_sink (hu : Widens s u) (hsink : s.program.IsGlobal s.sink) (src : NodeId) :
    assign s.sink src u = carryAll s.sink src u := by
  have hlt : s.sink.index < s.program.nodes.size := s.program.lt_size_of_op_eq_name hsink.op
  have hplace : u.program.place (u.program.nodes.size + 1) s.sink = .ok (.lost none) := by
    rw [Program.place, hu.node hlt, hsink.blank, hsink.op, hsink.cls]
    rfl
  rw [assign_eq_lose hplace, ← hu.sink]
  rfl

theorem assign_of_not_stores {dst b : NodeId} (hb : s.program.IsWhole dst b)
    (hstores : (s.program.node b).op.stores = false) (src : NodeId) :
    assign dst src s = .error (.unexpectedDestination b (s.program.node b).op) s := by
  obtain ⟨rank, hle, hrank⟩ := hends.exists_rank
  have hplace := Program.place_of_isWhole hrank hb (Nat.lt_succ_of_le (hle dst))
  unfold assign
  rw [getProgram_bind_eq, hplace, Program.wholePlace, hstores]
  rfl

theorem assign_of_stores {dst b : NodeId} (hb : s.program.IsWhole dst b) (hstores : (s.program.node b).op.stores = true)
    (src : NodeId) : ∃ t, assign dst src s = .ok () t ∧ Widens s t ∧ ((s.program.node b).isBlank = true → t = s) ∧
      ((s.program.node b).isBlank = false → ∃ d, d = (if (s.program.node b).keeps then b else s.sink) ∧
        (∀ n, n ≠ d → t.sources.get n.index = s.sources.get n.index) ∧ Received s t d src ∧
        (∀ key, (s.program.node b).op = .indexMap → (s.program.node b).right = some key → Received s t d key) ∧
        ((d = s.sink → s.program.IsGlobal d) → ∀ u, Widens s u → ∀ v, assign d v u = carryAll d v u)) := by
  obtain ⟨rank, hle, hrank⟩ := hends.exists_rank
  have hplace := Program.place_of_isWhole hrank hb (Nat.lt_succ_of_le (hle dst))
  unfold assign
  rw [getProgram_bind_eq, hplace, Program.wholePlace, if_pos hstores]
  cases hblank : (s.program.node b).isBlank with
  | true => exact ⟨s, rfl, .refl s, fun _ => rfl, fun h => absurd h.symm Bool.false_ne_true⟩
  | false =>
    cases hkeeps : (s.program.node b).keeps with
    | true =>
      obtain ⟨t, ht, hst, hreceived, hsources⟩ := carryAll_received hends b src
      refine ⟨t, ht, hst, fun h => absurd h Bool.false_ne_true, fun _ => ⟨b, rfl, hsources, hreceived, fun key hop => ?_,
        fun _ u hu => assign_of_keeps hu hkeeps hblank⟩⟩
      rw [Node.keeps, hop] at hkeeps
      cases hkeeps
    | false =>
      obtain ⟨t, ht, hst, hreceived, hkey, hsources⟩ := lose_received hends
        (if (s.program.node b).op = .indexMap then (s.program.node b).right else none) src
      refine ⟨t, ht, hst, fun h => absurd h Bool.false_ne_true,
        fun _ => ⟨s.sink, rfl, hsources, hreceived, fun key hop hright => ?_, fun hsink u hu => assign_sink hu (hsink rfl)⟩⟩
      exact hkey key (by rw [if_pos hop, hright])

theorem assign_of_not_isWhole {dst : NodeId} (hnone : ¬ ∃ b, s.program.IsWhole dst b) (src : NodeId) :
    assign dst src s = .ok () s := by
  obtain ⟨rank, hle, hrank⟩ := hends.exists_rank
  obtain ⟨c, hc, hop, hleft⟩ := (Program.exists_isWhole_or hrank dst).resolve_left hnone
  have hplace := Program.place_of_lost_operand hrank hc hop hleft (Nat.lt_succ_of_le (hle dst))
  unfold assign
  rw [getProgram_bind_eq, hplace]
  rfl

end Assign

end Flow

/-- Let no chain of operands lead back. An assignment finds the whole `b` that its destination is a piece of. It stops
exactly if there is one and nothing can be stored in it or behind it, names `b` and its operator, and leaves everything as
it was. Otherwise it comes to its end. If `b` is blank, or the destination is a field of nothing, it changes nothing. If
not, it gives sources to one node only: to `b`, if values are kept there, and else to the sink. All that the value comes
from flows into this node, and all that the key of a map comes from does, too. On the way, an assignment to this node
would find the node itself, and only follow the value. -/
theorem assign_all_or_nothing {s : Flow} (hends : s.program.OperandsEnd) (dst src : NodeId) :
    (∀ e t, Flow.assign dst src s = .error e t ↔ t = s ∧ ∃ b, s.program.IsWhole dst b ∧
      (s.program.node b).op.stores = false ∧ e = .unexpectedDestination b (s.program.node b).op) ∧
    ((¬ ∃ b, s.program.IsWhole dst b) → Flow.assign dst src s = .ok () s) ∧
    ∀ b, s.program.IsWhole dst b → (s.program.node b).op.stores = true →
      ∃ t, Flow.assign dst src s = .ok () t ∧
        ((s.program.node b).isBlank = true → t = s) ∧
        ((s.program.node b).isBlank = false → ∃ d, d = (if (s.program.node b).keeps then b else s.sink) ∧
          (∀ n, n ≠ d → t.sources.get n.index = s.sources.get n.index) ∧ s.Received t d src ∧
          (∀ key, (s.program.node b).op = .indexMap → (s.program.node b).right = some key → s.Received t d key) ∧
          ((d = s.sink → s.program.IsGlobal d) →
            ∀ u, s.Widens u → ∀ v, Flow.assign d v u = Flow.carryAll d v u)) := by
  refine ⟨fun e t => ⟨fun h => ?_, ?_⟩, fun hnone => Flow.assign_of_not_isWhole hends hnone src, fun b hb hstores => ?_⟩
  · by_cases hwhole : ∃ b, s.program.IsWhole dst b
    · obtain ⟨b, hb⟩ := hwhole
      cases hstores : (s.program.node b).op.stores with
      | true =>
        obtain ⟨_, hok, _⟩ := Flow.assign_of_stores hends hb hstores src
        rw [hok] at h
        cases h
      | false =>
        rw [Flow.assign_of_not_stores hends hb hstores src] at h
        cases h
        exact ⟨rfl, b, hb, hstores, rfl⟩
    · rw [Flow.assign_of_not_isWhole hends hwhole src] at h
      cases h
  · rintro ⟨rfl, b, hb, hstores, rfl⟩
    exact Flow.assign_of_not_stores hends hb hstores src
  · obtain ⟨t, ht, _, hreceived⟩ := Flow.assign_of_stores hends hb hstores src
    exact ⟨t, ht, hreceived⟩

/-- `func pair(p *int64) { var t T; t.a[0] = (*int64)(p); 1 = p }`, where `T` has an array `a` of pointers -/
def pairSteps : List Script.Step :=
  [.type "P" (.ptr (.named "int64")), .type "A" (.array (.named "P") 2), .struct "T" [("a", "A")],
    .func { name := "pair", params := [{ name := "p", ty := "P" }] } "pair",
    .define (.key "pair")
      [.form (.declare "t" "T" "t"),
        .form (.assign (.index (.dot (.ref (.key "t")) "a") (.int 0)) (.convNop (.param 0) "P")),
        .form (.assign (.int 1) (.param 0))]]

def pairProgram : Program := (Script.sessionOf pairSteps).program

def pairGraph : Flow := Flow.start { program := pairProgram } ⟨[⟨0⟩], false⟩

theorem operandsEnd_pairGraph : pairGraph.program.OperandsEnd := by
  refine Program.operandsEnd_of_older fun n m hm => ?_
  have hall : ∀ i < pairGraph.program.nodes.size, ∀ m ∈ (pairGraph.program.node ⟨i⟩).operands, m.index < i := by
    decide +kernel
  exact hall n.index hm.lt_size m hm

/-- What is stored in an element of a field flows into the variable. Nothing can be stored in a number. -/
theorem assign_all_or_nothing_pairSteps :
    (∃ t, Flow.assign ⟨5⟩ ⟨6⟩ pairGraph = .ok () t ∧ t.Edge ⟨1⟩ ⟨0⟩ ∧
      ∀ n : NodeId, n ≠ ⟨1⟩ → t.sources.get n.index = pairGraph.sources.get n.index) ∧
    Flow.assign ⟨8⟩ ⟨0⟩ pairGraph = .error (.unexpectedDestination ⟨8⟩ .literal) pairGraph := by
  have hwhole : pairGraph.program.IsWhole ⟨5⟩ ⟨1⟩ := by
    have helement : pairGraph.program.PieceOf ⟨5⟩ ⟨3⟩ :=
      .element (by decide +kernel) (by decide +kernel) (by decide +kernel)
    have hfield : pairGraph.program.PieceOf ⟨3⟩ ⟨1⟩ := .field (by decide +kernel) (by decide +kernel)
    refine ⟨.head helement (.single hfield), by decide +kernel, fun m hm => ?_⟩
    have hname : (pairGraph.program.node ⟨1⟩).op = .name := by decide +kernel
    cases hm with
    | field hop | element hop =>
      rw [hname] at hop
      cases hop
  have hnumber : pairGraph.program.IsWhole ⟨8⟩ ⟨8⟩ := by
    refine ⟨.refl, by decide +kernel, fun m hm => ?_⟩
    have hliteral : (pairGraph.program.node ⟨8⟩).op = .literal := by decide +kernel
    cases hm with
    | field hop | element hop =>
      rw [hliteral] at hop
      cases hop
  obtain ⟨_, _, hok⟩ := assign_all_or_nothing operandsEnd_pairGraph ⟨5⟩ ⟨6⟩
  obtain ⟨t, ht, _, hfeeds⟩ := hok ⟨1⟩ hwhole (by decide +kernel)
  obtain ⟨d, hd, hsources, hreceived, _⟩ := hfeeds (by decide +kernel)
  obtain rfl : d = ⟨1⟩ := hd.trans (by decide +kernel)
  refine ⟨⟨t, ht, ?_, hsources⟩, ?_⟩
  · have htakes : pairGraph.program.TakesFrom ⟨6⟩ ⟨0⟩ :=
      show ⟨0⟩ ∈ pairGraph.program.givers ⟨6⟩ by decide +kernel
    exact hreceived.source ⟨0⟩ (.single htakes) (by decide +kernel) (by decide) (by decide +kernel)
  · exact ((assign_all_or_nothing operandsEnd_pairGraph ⟨8⟩ ⟨0⟩).1 _ _).2
      ⟨rfl, ⟨8⟩, hnumber, by decide +kernel, by decide +kernel⟩

end EscapeAnalysis

import EscapeAnalysis.Proofs.Recording.Lasting
import EscapeAnalysis.Proofs.Recording.LoopDepths
import EscapeAnalysis.Proofs.Types.Pointers

/-!
# The flow graph while it is recorded

The flow graph of a group keeps a list of its destinations beside the sources of each node, and values without pointers,
blank names and global variables stay out of it. One step of a recording keeps all of this, so every state on the way of
a recording has it.

* `Flow.WellLinked` : the list and the sources agree, and every edge is between nodes of the right kind;
* `Flow.wellLinked_step` : a step of a recording keeps it;
* `Flow.IsTrace A s t k states` : the states of a recording, one step after the other;
* `IsTrace.wellLinked`, `IsTrace.pairwise_dsts` : all of them are well linked, and list destinations in the order of
  their first edges;
* `Flow.ComesTo s funcs t` : the recording of the functions comes to the graph `t` between two of them, at the body of one,
  or at a node of the body;
* `Flow.ComesTo.steps` : steps lead there.
-/

namespace EscapeAnalysis

/-- The names that functions declare for their results are names. -/
def Program.NamesResults (p : Program) : Prop :=
  ∀ f, ∀ result ∈ (p.func f).results, ∀ n, result.name = some n → (p.node n).op = .name

namespace Flow

structure WellLinked (s : Flow) : Prop where
  nodup : s.dsts.toList.Nodup
  dsts : ∀ n, n ∈ s.dsts ↔ s.sources.get n.index ≠ #[]
  ne : ∀ dst src, s.Edge dst src → dst ≠ src
  pointers : ∀ dst src, s.Edge dst src → s.program.hasNoPointers (s.program.node src).ty = false
  dst : ∀ dst src, s.Edge dst src → dst = s.sink ∨ (s.program.node dst).keeps = true
  src : ∀ dst src, s.Edge dst src → (s.program.node src).op.isSource = true

variable {A : Area} {s t : Flow}

/-! ## One step -/

theorem Frame.namesResults (h : Frame s t) (hs : s.program.NamesResults) : t.program.NamesResults := by
  intro f result hresult n hn
  rw [h.func] at hresult
  have hop := hs f result hresult n hn
  rw [h.op (by simp [hop]), hop]

/-- A value that may hold pointers may do so when there are more types. -/
theorem Frame.hasNoPointers (h : Frame s t) {n : NodeId} (hop : (s.program.node n).op ≠ .block)
    (hn : s.program.hasNoPointers (s.program.node n).ty = false) :
    t.program.hasNoPointers (t.program.node n).ty = false := by
  obtain ⟨_, _, he⟩ := h.node n (s.program.lt_size_of_op_ne hop)
  rw [he]
  show t.program.hasNoPointers (s.program.node n).ty = false
  unfold Program.hasNoPointers at hn ⊢
  cases hty : (s.program.node n).ty with
  | none => rfl
  | some ty =>
    rw [hty] at hn
    simp only [Option.any_some, Bool.not_eq_false'] at hn ⊢
    exact h.types.hasPointers_of_true hn

theorem op_ne_block_of_isSource {op : Op} (h : op.isSource = true) : op ≠ .block := by
  rintro rfl
  cases h

/-- A step that adds no edge. -/
theorem WellLinked.frame (hs : s.WellLinked) (h : Frame s t) (hsources : t.sources = s.sources)
    (hdsts : t.dsts = s.dsts) : t.WellLinked := by
  have hedge {dst src : NodeId} (he : t.Edge dst src) : s.Edge dst src := by
    unfold Edge at he ⊢
    rwa [hsources] at he
  refine ⟨hdsts ▸ hs.nodup, fun n => ?_, fun dst src he => hs.ne dst src (hedge he), fun dst src he => ?_,
    fun dst src he => ?_, fun dst src he => h.isSource (hs.src dst src (hedge he))⟩
  · rw [hdsts, hsources]
    exact hs.dsts n
  · exact h.hasNoPointers (op_ne_block_of_isSource (hs.src dst src (hedge he))) (hs.pointers dst src (hedge he))
  · exact (hs.dst dst src (hedge he)).imp (fun e => e.trans h.sink.symm) h.keeps

theorem mem_dsts_addEdge {dst src n : NodeId} :
    n ∈ (s.addEdge dst src).dsts ↔ n ∈ s.dsts ∨ n = dst ∧ s.sources.get dst.index = #[] := by
  simp only [addEdge]
  split
  · rename_i hempty
    rw [Array.isEmpty_iff] at hempty
    simp [hempty]
  · rename_i hempty
    rw [Array.isEmpty_iff] at hempty
    simp [hempty]

theorem sources_addEdge_ne_iff {dst src n : NodeId} :
    (s.addEdge dst src).sources.get n.index ≠ #[] ↔ s.sources.get n.index ≠ #[] ∨ n = dst := by
  by_cases hn : n = dst
  · subst hn
    rw [sources_addEdge]
    simp
  · rw [show (s.addEdge dst src).sources.get n.index = s.sources.get n.index from
      Table.get_set_of_ne _ _ fun e => hn (NodeId.ext e)]
    simp [hn]

theorem WellLinked.addEdge (hs : s.WellLinked) {dst src : NodeId} (hdst : s.Takes A dst)
    (hsrc : (s.program.node src).op.isSource = true) (hne : dst ≠ src)
    (hty : s.program.hasNoPointers (s.program.node src).ty = false) : (s.addEdge dst src).WellLinked := by
  -- An edge is there already, or it is the new one.
  have hcases {P : NodeId → NodeId → Prop} (hold : ∀ d x, s.Edge d x → P d x) (hnew : P dst src) (d x : NodeId)
      (he : (s.addEdge dst src).Edge d x) : P d x := by
    rcases edge_addEdge_iff.1 he with he | ⟨rfl, rfl⟩
    · exact hold d x he
    · exact hnew
  refine ⟨?_, fun n => ?_, hcases hs.ne hne, hcases hs.pointers hty,
    hcases (P := fun d _ => d = s.sink ∨ (s.program.node d).keeps = true) hs.dst (hdst.imp_right And.right),
    hcases (P := fun _ x => (s.program.node x).op.isSource = true) hs.src hsrc⟩
  · simp only [Flow.addEdge]
    split
    · rename_i hempty
      rw [Array.toList_push, List.nodup_append]
      refine ⟨hs.nodup, List.nodup_singleton dst, fun n hn m hm => ?_⟩
      rw [List.mem_singleton] at hm
      rw [Array.mem_toList_iff, hs.dsts] at hn
      rintro rfl
      rw [hm] at hn
      exact hn (Array.isEmpty_iff.1 hempty)
    · exact hs.nodup
  · rw [mem_dsts_addEdge, sources_addEdge_ne_iff, hs.dsts]
    constructor
    · exact Or.imp_right And.left
    · rintro (h | rfl)
      · exact Or.inl h
      · by_cases hempty : s.sources.get n.index = #[]
        · exact Or.inr ⟨rfl, hempty⟩
        · exact Or.inl hempty

theorem wellLinked_step (h : Step A s t) (hnames : s.program.NamesResults) (hs : s.WellLinked) : t.WellLinked := by
  have hframe := frame_step h
  cases h with
  | start _ | leave _ _ => exact hs.frame hframe rfl rfl
  | change h =>
    cases h with
    | @edge dst src hdst hsrc hne hty =>
      refine hs.addEdge hdst ?_ hne hty
      rcases hsrc.2 with hop | hname | ⟨f, result, hresult, hname⟩
      · exact hop
      · rw [hname]
        rfl
      · rw [hnames f result hresult src hname]
        rfl
    | _ => exact hs.frame hframe rfl rfl

/-- A destination that a step adds to the list had no edge before. -/
theorem dsts_step (h : Step A s t) :
    t.dsts = s.dsts ∨ ∃ dst, s.sources.get dst.index = #[] ∧ t.dsts = s.dsts.push dst := by
  cases h with
  | start _ | leave _ _ => exact Or.inl rfl
  | change h =>
    cases h with
    | @edge dst src _ _ _ _ =>
      simp only [Flow.addEdge]
      split
      · rename_i hempty
        exact Or.inr ⟨dst, Array.isEmpty_iff.1 hempty, rfl⟩
      · exact Or.inl rfl
    | _ => exact Or.inl rfl

/-! ## All states of a recording -/

/-- A recording from `s` to `t` comes through these states, by a step each. -/
structure IsTrace (A : Area) (s t : Flow) (k : Nat) (states : Nat → Flow) : Prop where
  first : states 0 = s
  last : states k = t
  step : ∀ i < k, Step A (states i) (states (i + 1))

theorem exists_isTrace (h : Steps A s t) : ∃ k states, IsTrace A s t k states := by
  induction h with
  | refl => exact ⟨0, fun _ => s, rfl, rfl, fun _ hi => absurd hi (Nat.not_lt_zero _)⟩
  | @tail t u _ hstep ih =>
    obtain ⟨k, states, htrace⟩ := ih
    refine ⟨k + 1, fun i => if i ≤ k then states i else u, ?_, ?_, fun i hi => ?_⟩
    · exact (if_pos (Nat.zero_le k)).trans htrace.first
    · exact if_neg (Nat.not_succ_le_self k)
    · by_cases hlt : i < k
      · rw [if_pos (Nat.le_of_lt hlt), if_pos (Nat.succ_le_of_lt hlt)]
        exact htrace.step i hlt
      · obtain rfl : i = k := by omega
        rw [if_pos (Nat.le_refl i), if_neg (Nat.not_succ_le_self i), htrace.last]
        exact hstep

section Trace

variable {k : Nat} {states : Nat → Flow} (h : IsTrace A s t k states)
include h

theorem IsTrace.frame {i : Nat} (hi : i ≤ k) : Frame s (states i) := by
  induction i with
  | zero =>
    rw [h.first]
    exact .refl s
  | succ i ih => exact (ih (Nat.le_of_succ_le hi)).trans (frame_step (h.step i hi))

variable (hnames : s.program.NamesResults) (hs : s.WellLinked)
include hnames hs

theorem IsTrace.wellLinked {i : Nat} (hi : i ≤ k) : (states i).WellLinked := by
  induction i with
  | zero =>
    rw [h.first]
    exact hs
  | succ i ih =>
    have hle := Nat.le_of_succ_le hi
    exact wellLinked_step (h.step i hi) ((h.frame hle).namesResults hnames) (ih hle)

/-- Of two destinations on the list, the first one had an edge when the second one had none. -/
theorem IsTrace.pairwise_dsts (hempty : s.dsts = #[]) {i : Nat} (hi : i ≤ k) :
    (states i).dsts.toList.Pairwise fun d d' =>
      ∃ j ≤ i, (states j).sources.get d.index ≠ #[] ∧ (states j).sources.get d'.index = #[] := by
  induction i with
  | zero =>
    rw [h.first, hempty]
    exact List.Pairwise.nil
  | succ i ih =>
    have hle := Nat.le_of_succ_le hi
    have hold := (ih hle).imp fun ⟨j, hj, hedges⟩ => (⟨j, Nat.le_succ_of_le hj, hedges⟩ :
      ∃ j ≤ i + 1, (states j).sources.get _ ≠ #[] ∧ (states j).sources.get _ = #[])
    rcases dsts_step (h.step i hi) with hsame | ⟨dst, hnone, hpush⟩
    · rwa [hsame]
    · rw [hpush, Array.toList_push, List.pairwise_append]
      refine ⟨hold, List.pairwise_singleton _ dst, fun d hd d' hd' => ?_⟩
      rw [List.mem_singleton] at hd'
      rw [Array.mem_toList_iff, (h.wellLinked hnames hs hle).dsts] at hd
      exact ⟨i, Nat.le_succ i, hd, hd' ▸ hnone⟩

end Trace

/-! ## Where a recording comes to -/

/-- The recording of the functions from `s` comes to the graph. -/
inductive ComesTo (s : Flow) (funcs : List FuncId) : Flow → Prop where
  /-- Some functions are done, or all of them. -/
  | recorded {done rest : List FuncId} {t : Flow} (hfuncs : funcs = done ++ rest)
      (ht : done.forM recordFunc s = .ok () t) : ComesTo s funcs t
  /-- The body of the next function is entered. -/
  | entered {done rest : List FuncId} {f : FuncId} {t b : Flow} (hfuncs : funcs = done ++ f :: rest)
      (ht : done.forM recordFunc s = .ok () t) (hb : enterBody f (t.startFunc f) = .ok () b) : ComesTo s funcs b
  /-- A node of the body is visited. -/
  | stop {done rest : List FuncId} {f : FuncId} {t b : Flow} {stop : Stop} (hfuncs : funcs = done ++ f :: rest)
      (ht : done.forM recordFunc s = .ok () t) (hb : enterBody f (t.startFunc f) = .ok () b)
      (hstop : stop ∈ b.walkStops ((t.program.func f).body.getD [])) : ComesTo s funcs stop.state
  /-- An error is met. -/
  | fault {e : EscapeError} {t : Flow} (ht : funcs.forM recordFunc s = .error e t) : ComesTo s funcs t

section ComesTo

variable {b : Flow} {log : List Stop}

/-- What a walk from `b` leaves, and what it found at its stops. -/
def Left (b s : Flow) (log : List Stop) : Prop := Changes .any b s ∧ ∀ stop ∈ log, Changes .any b stop.state

theorem logs_left (hb : b.Refs .any) (fuel : Nat) (path : List Above) (n : NodeId) (h : Left b s log) :
    Logs (s, log) (walkLog fuel path n) (Left b) fun log => ∀ stop ∈ log, Changes .any b stop.state := by
  induction fuel generalizing path s log n with
  | zero => exact h.2
  | succ fuel ih =>
    have hkeep {t : Flow} {log : List Stop} (h : Left b t log) {m : FlowM Unit}
        (hm : t.Refs .any → Records .any t m fun _ _ => True) :
        Logs (t, log) (unlogged m) (Left b) fun log => ∀ stop ∈ log, Changes .any b stop.state :=
      logs_unlogged (fun u hu => ⟨h.1.trans ((hm (hb.changes h.1)).ok hu).1, h.2⟩) h.2
    have hparts {t : Flow} {log : List Stop} (h : Left b t log) (path : List Above) (xs : List NodeId) :
        Logs (t, log) (xs.forM (walkLog fuel path)) (Left b) fun log => ∀ stop ∈ log, Changes .any b stop.state :=
      logs_forM (fun m _ u log hu => ih path m hu) h
    unfold walkLog
    refine logs_getProgram ((hparts h _ _).bind fun t₁ log₁ h₁ => ?_)
    refine (hkeep h₁ fun _ => records_deepen _ 1).bind fun t₂ log₂ h₂ => logs_getProgram ?_
    refine (hkeep h₂ fun hs => records_placeClauseVars hs (valid_any t₂ n) (Or.inl trivial)).bind fun t₃ log₃ h₃ =>
      logs_getProgram ((hparts h₃ _ _).bind fun t₄ log₄ h₄ => ?_)
    refine (hkeep h₄ fun _ => records_deepen _ (-1)).bind fun t₅ log₅ h₅ => logs_logStop ?_
    refine hkeep ⟨h₅.1, List.forall_mem_cons.2 ⟨h₅.1, h₅.2⟩⟩ fun hs => ?_
    exact records_visit hs (valid_any t₅ n) (Or.inl trivial) (upOf path)

theorem changes_of_mem_walkStops (hb : b.Refs .any) {body : List NodeId} {stop : Stop}
    (hstop : stop ∈ b.walkStops body) : Changes .any b stop.state := by
  have hlogs : Logs (b, []) (walkBodyLog body) (Left b) fun log => ∀ stop ∈ log, Changes .any b stop.state :=
    logs_getProgram (logs_forM (fun n _ s log h => logs_left hb _ [] n h) ⟨.refl, nofun⟩)
  exact hlogs.walkStops (fun _ _ h => h.2) stop hstop

/-- Steps lead to wherever a recording comes. -/
theorem ComesTo.steps {funcs : List FuncId} (h : ComesTo s funcs t) (hs : s.Refs .any) (hnodup : funcs.Nodup)
    (hplanned : ∀ f ∈ funcs, s.info.state f = .planned) : Steps .any s t := by
  have hdone {done : List FuncId} {t : Flow} (ht : done.forM recordFunc s = .ok () t) : Starts .any done.reverse s t :=
    starts_funcs hs (Program.confines_true _) (fun _ _ _ _ => trivial) ht
  have henter {t b : Flow} {f : FuncId} (ht : t.Refs .any) (hb : enterBody f (t.startFunc f) = .ok () b) :
      Changes .any (t.startFunc f) b ∧ b.Refs .any := by
    have hrefs := ht.startFunc (A := .any) (f := f) trivial
    have hchanges := ((records_enterBody hrefs trivial).ok hb).1
    exact ⟨hchanges, hrefs.changes hchanges⟩
  cases h with
  | recorded _ ht => exact (hdone ht).steps
  | entered _ ht hb =>
    exact (hdone ht).steps.trans (.head (.start trivial) (henter (hdone ht).refs hb).1.steps)
  | stop _ ht hb hstop =>
    obtain ⟨hchanges, hrefs⟩ := henter (hdone ht).refs hb
    exact (hdone ht).steps.trans (.head (.start trivial) (hchanges.trans (changes_of_mem_walkStops hrefs hstop)).steps)
  | fault ht =>
    obtain ⟨_, hstarts, _⟩ :=
      starts_funcs_error hs (Program.confines_true _) (fun _ _ _ _ => trivial) hnodup hplanned ht
    exact hstarts.steps

end ComesTo

end Flow

end EscapeAnalysis

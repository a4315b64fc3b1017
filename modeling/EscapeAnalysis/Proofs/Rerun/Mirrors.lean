import EscapeAnalysis.Proofs.Rerun.Questions

/-!
# Recording a second time

Whatever the first analysis records, the second records again, at the nodes where it has them.

* `Rerun.Mirrors R s t` : the graphs of both analyses are at the same point;
* `Rerun.Counted R s n` : the call, if it is one, has its results and the slice of its `...` arguments;
* `Rerun.Keeps R s t s' t'` : what both recordings leave as it was;
* `Rerun.Repeats R s t m m' Q` : if the first analysis does `m`, then the second does `m'` and both are at the same
  point again, where `Q` holds.
-/

namespace EscapeAnalysis

namespace Rerun

variable (R : Rerun)

structure Mirrors (s t : Flow) : Prop where
  program : R.Copies s.program t.program
  sink : t.sink = R.shift s.sink
  recursive : t.recursive = s.recursive
  dsts : t.dsts = s.dsts.map R.shift
  sources : ∀ n, t.sources.get (R.shift n).index = (s.sources.get n.index).map R.shift
  results : ∀ n, t.results.get (R.shift n).index = (s.results.get n.index).map R.shift
  pending : t.pending = s.pending.map fun x => (R.shift x.1, x.2)
  depth : t.depth = s.depth
  curfn : t.curfn = s.curfn
  labels : t.labels = s.labels
  word : ∀ n, t.info.word (R.shift n) = s.info.word n
  depthOf : ∀ n, t.info.depth (R.shift n) = s.info.depth n
  moved : t.info.moved = s.info.moved
  old : ∀ n ∈ s.info.moved, n.index < R.base.nodes.size
  states : t.info.states = s.info.states
  report : t.info.report = s.info.report
  config : t.config = s.config

/-- A call from the start has all its results, and the slice of its `...` arguments if it takes one. -/
def Counted (s : Flow) (n : NodeId) : Prop :=
  (R.base.node n).op.isCall = true → (s.results.get n.index).length = R.base.resultCount n ∧
    (R.base.takesRest n = true → (s.program.node n).right ≠ none)

structure Keeps (s t s' t' : Flow) : Prop where
  nodes : s.program.Extends s'.program
  nodes' : t.program.Extends t'.program
  grows : s.program.types.Grows s'.program.types
  grows' : t.program.types.Grows t'.program.types
  funcs : s'.program.funcs = s.program.funcs
  funcs' : t'.program.funcs = t.program.funcs
  states : s'.info.states = s.info.states
  rests : ∀ n, n.index < R.base.nodes.size → (s.program.node n).right ≠ none → (s'.program.node n).right ≠ none
  results : ∀ n, (R.base.node n).op.isCall = true → (s.results.get n.index).length = R.base.resultCount n →
    (s'.results.get n.index).length = R.base.resultCount n

/-- Unless the first operation stops, the second one has a result too. -/
abbrev Repeats {α β : Type} (s t : Flow) (m : FlowM α) (m' : FlowM β) (Q : α → β → Flow → Flow → Prop) : Prop :=
  Triple anyStep anyFault s m fun a s' => ∃ b t', m' t = .ok b t' ∧ R.Mirrors s' t' ∧ R.Keeps s t s' t' ∧ Q a b s' t'

variable {R} {s t s' t' : Flow}

theorem Keeps.refl (s t : Flow) : R.Keeps s t s t := ⟨.refl _, .refl _, .refl _, .refl _, rfl, rfl, rfl, fun _ _ h => h, fun _ _ h => h⟩

theorem Keeps.trans {s'' t'' : Flow} (h₁ : R.Keeps s t s' t') (h₂ : R.Keeps s' t' s'' t'') : R.Keeps s t s'' t'' :=
  ⟨h₁.nodes.trans h₂.nodes, h₁.nodes'.trans h₂.nodes', h₁.grows.trans h₂.grows, h₁.grows'.trans h₂.grows', h₂.funcs.trans h₁.funcs,
    h₂.funcs'.trans h₁.funcs', h₂.states.trans h₁.states, fun n hn hr => h₂.rests n hn (h₁.rests n hn hr),
    fun n hn hr => h₂.results n hn (h₁.results n hn hr)⟩

theorem Counted.keeps {n : NodeId} (hn : R.Counted s n) (hk : R.Keeps s t s' t') : R.Counted s' n := fun hcall =>
  ⟨hk.results n hcall (hn hcall).1, fun htakes => hk.rests n (Program.lt_size_of_isCall hcall) ((hn hcall).2 htakes)⟩

/-- Both recordings leave the programs and the results of calls alone. -/
theorem Keeps.of_eq (hprogram : s'.program = s.program) (hprogram' : t'.program = t.program)
    (hresults : s'.results = s.results) (hstates : s'.info.states = s.info.states) : R.Keeps s t s' t' := by
  refine ⟨.of_nodes_eq (by rw [hprogram]), .of_nodes_eq (by rw [hprogram']), ?_, ?_, by rw [hprogram],
    by rw [hprogram'], hstates, fun n _ hn => ?_, fun n _ hn => ?_⟩
  · rw [hprogram]
    exact .refl _
  · rw [hprogram']
    exact .refl _
  · rw [hprogram]
    exact hn
  · rw [hresults]
    exact hn

theorem Likes.keeps {ty ty' : Option Ty} (h : R.Likes s.program t.program ty ty') (hk : R.Keeps s t s' t') :
    R.Likes s'.program t'.program ty ty' :=
  h.mono hk.grows hk.grows'

/-- A call that has what it takes has the same the second time. -/
theorem Mirrors.right_of_counted (h : R.Mirrors s t) {n : NodeId} (hn : R.Counted s n) :
    (t.program.node (R.shift n)).right = (s.program.node n).right.map R.shift := by
  rcases h.program.right n with hr | ⟨htakes, hnone, _⟩
  · exact hr
  · exact absurd hnone ((hn (Program.isCall_of_takesRest htakes)).2 htakes)

/-! ## Rules -/

section Rules

variable {α β γ δ : Type} {Q : α → β → Flow → Flow → Prop} {P : γ → δ → Flow → Flow → Prop}

theorem repeats_pure {a : α} {b : β} (h : R.Mirrors s t) (hQ : Q a b s t) : R.Repeats s t (pure a) (pure b) Q :=
  triple_pure_of trivial ⟨b, t, rfl, h, .refl s t, hQ⟩

theorem Repeats.bind {m : FlowM α} {m' : FlowM β} {f : α → FlowM γ} {f' : β → FlowM δ} (hm : R.Repeats s t m m' Q)
    (hf : ∀ a b s' t', R.Mirrors s' t' → R.Keeps s t s' t' → Q a b s' t' → R.Repeats s' t' (f a) (f' b) P) :
    R.Repeats s t (m >>= f) (m' >>= f') P := by
  refine Triple.bind hm fun a s' _ h => ?_
  obtain ⟨b, t', hb, hst, hkeeps, hQ⟩ := h
  refine (hf a b s' t' hst hkeeps hQ).mono fun c u _ h => ?_
  obtain ⟨d, v, hd, huv, hkeeps', hP⟩ := h
  exact ⟨d, v, (Flow.bind_of_ok hb).trans hd, huv, hkeeps.trans hkeeps', hP⟩

theorem Repeats.mono {m : FlowM α} {m' : FlowM β} {Q' : α → β → Flow → Flow → Prop} (hm : R.Repeats s t m m' Q)
    (h : ∀ a b s' t', R.Mirrors s' t' → R.Keeps s t s' t' → Q a b s' t' → Q' a b s' t') : R.Repeats s t m m' Q' := by
  refine Triple.mono hm fun a s' _ hm => ?_
  obtain ⟨b, t', hb, hst, hkeeps, hQ⟩ := hm
  exact ⟨b, t', hb, hst, hkeeps, h a b s' t' hst hkeeps hQ⟩

theorem Repeats.map {m : FlowM α} {m' : FlowM β} {g : α → γ} {g' : β → δ} (hm : R.Repeats s t m m' Q)
    (h : ∀ a b s' t', Q a b s' t' → P (g a) (g' b) s' t') : R.Repeats s t (g <$> m) (g' <$> m') P := by
  rw [← bind_pure_comp, ← bind_pure_comp]
  exact hm.bind fun a b s' t' hst _ hQ => repeats_pure hst (h a b s' t' hQ)

theorem repeats_ite {c c' : Prop} [Decidable c] [Decidable c'] {m n : FlowM α} {m' n' : FlowM β} (hc : c' ↔ c)
    (hm : c → R.Repeats s t m m' Q) (hn : ¬c → R.Repeats s t n n' Q) :
    R.Repeats s t (if c then m else n) (if c' then m' else n') Q := by
  by_cases h : c
  · rw [if_pos h, if_pos (hc.2 h)]
    exact hm h
  · rw [if_neg h, if_neg fun h' => h (hc.1 h')]
    exact hn h

theorem repeats_get {f : Flow → FlowM α} {f' : Flow → FlowM β} (h : R.Repeats s t (f s) (f' t) Q) :
    R.Repeats s t (get >>= f) (get >>= f') Q := h

theorem repeats_getProgram {f : Program → FlowM α} {f' : Program → FlowM β}
    (h : R.Repeats s t (f s.program) (f' t.program) Q) : R.Repeats s t (Flow.getProgram >>= f) (Flow.getProgram >>= f') Q :=
  h

theorem repeats_resultsOf (hst : R.Mirrors s t) {n : NodeId} {f : List NodeId → FlowM α} {f' : List NodeId → FlowM β}
    (h : R.Repeats s t (f (s.results.get n.index)) (f' ((s.results.get n.index).map R.shift)) Q) :
    R.Repeats s t (Flow.resultsOf n >>= f) (Flow.resultsOf (R.shift n) >>= f') Q := by
  rw [← hst.results] at h
  exact h

theorem repeats_depthOf (hst : R.Mirrors s t) {n : NodeId} {f : Int → FlowM α} {f' : Int → FlowM β}
    (h : R.Repeats s t (f (s.info.depth n)) (f' (s.info.depth n)) Q) :
    R.Repeats s t (Flow.depthOf n >>= f) (Flow.depthOf (R.shift n) >>= f') Q := by
  have hdepth := hst.depthOf n
  refine Flow.triple_depthOf (Triple.mono h fun a s' _ h => ?_)
  obtain ⟨b, t', hb, hrest⟩ := h
  rw [← hdepth] at hb
  exact ⟨b, t', hb, hrest⟩

theorem repeats_modify {f f' : Flow → Flow} (h : R.Mirrors (f s) (f' t)) (hkeeps : R.Keeps s t (f s) (f' t)) :
    R.Repeats s t (modify f) (modify f') fun _ _ _ _ => True :=
  ⟨trivial, (), f' t, rfl, h, hkeeps, trivial⟩

theorem repeats_modify_bind {f f' : Flow → Flow} {m : PUnit → FlowM α} {m' : PUnit → FlowM β}
    (hkeeps : R.Keeps s t (f s) (f' t)) (hm : R.Repeats (f s) (f' t) (m ⟨⟩) (m' ⟨⟩) Q) :
    R.Repeats s t (modify f >>= m) (modify f' >>= m') Q := by
  refine Triple.after (Triple.mono hm fun a s' _ h => ?_) trivial rfl
  obtain ⟨b, t', hb, hst, hk, hQ⟩ := h
  exact ⟨b, t', hb, hst, hkeeps.trans hk, hQ⟩

/-- The second recording does something in between that changes nothing. -/
theorem repeats_skip {m : FlowM α} {m' : FlowM γ} {f' : γ → FlowM β} {c : γ} (hm' : m' t = .ok c t)
    (h : R.Repeats s t m (f' c) Q) : R.Repeats s t m (m' >>= f') Q := by
  refine Triple.mono h fun a s' _ h => ?_
  obtain ⟨b, t', hb, hrest⟩ := h
  exact ⟨b, t', (Flow.bind_of_ok hm').trans hb, hrest⟩

/-- A loop, with what each of its steps establishes and later ones keep. -/
theorem repeats_forM_all {f : α → FlowM PUnit} {f' : β → FlowM PUnit} {g : α → β} {I : α → Flow → Prop}
    (h : R.Mirrors s t) (xs : List α)
    (hf : ∀ x ∈ xs, ∀ s' t', R.Mirrors s' t' → R.Keeps s t s' t' →
      R.Repeats s' t' (f x) (f' (g x)) fun _ _ u _ => I x u)
    (hI : ∀ x s' t' s'' t'', I x s' → R.Keeps s' t' s'' t'' → I x s'') :
    R.Repeats s t (xs.forM f) ((xs.map g).forM f') fun _ _ u _ => ∀ x ∈ xs, I x u := by
  induction xs generalizing s t with
  | nil => exact repeats_pure h fun x hx => by cases hx
  | cons x xs ih =>
    refine (hf x List.mem_cons_self s t h (.refl s t)).bind fun _ _ s' t' hst hkeeps hx => ?_
    refine (ih hst fun y hy u v huv hkeeps' => ?_).mono fun _ _ u v _ hkeeps' hxs => List.forall_mem_cons.2 ⟨?_, hxs⟩
    · exact hf y (List.mem_cons_of_mem _ hy) u v huv (hkeeps.trans hkeeps')
    · exact hI x s' t' u v hx hkeeps'

theorem repeats_forM {f : α → FlowM PUnit} {f' : β → FlowM PUnit} {g : α → β} (h : R.Mirrors s t) (xs : List α)
    (hf : ∀ x ∈ xs, ∀ s' t', R.Mirrors s' t' → R.Keeps s t s' t' →
      R.Repeats s' t' (f x) (f' (g x)) fun _ _ _ _ => True) :
    R.Repeats s t (xs.forM f) ((xs.map g).forM f') fun _ _ _ _ => True :=
  (repeats_forM_all (I := fun _ _ => True) h xs hf fun _ _ _ _ _ _ _ => trivial).mono fun _ _ _ _ _ _ _ => trivial

theorem repeats_optionForM {f : α → FlowM PUnit} {f' : β → FlowM PUnit} {g : α → β} (h : R.Mirrors s t) (x : Option α)
    (hf : ∀ y, x = some y → R.Repeats s t (f y) (f' (g y)) fun _ _ _ _ => True) :
    R.Repeats s t (x.forM f) ((x.map g).forM f') fun _ _ _ _ => True := by
  cases x with
  | none => exact repeats_pure h trivial
  | some y => exact hf y rfl

end Rules

/-! ## Parts of the graph -/

theorem get_set_shift {α : Type} [Inhabited α] {f : α → α} {table table' : Table α}
    (h : ∀ n, table'.get (R.shift n).index = f (table.get n.index)) (n : NodeId) (a : α) (m : NodeId) :
    (table'.set (R.shift n).index (f a)).get (R.shift m).index = f ((table.set n.index a).get m.index) := by
  by_cases he : m = n
  · rw [he, Table.get_set_self, Table.get_set_self]
  · rw [Table.get_set_of_ne _ _ (fun e => he (R.index_shift_inj.1 e)),
      Table.get_set_of_ne _ _ (fun e => he (NodeId.ext e)), h]

section Parts

variable (h : R.Mirrors s t)
include h

theorem Mirrors.setDepth (n : NodeId) (d : Int) :
    R.Mirrors { s with info := s.info.setDepth n d } { t with info := t.info.setDepth (R.shift n) d } :=
  { h with depthOf := get_set_shift (f := fun d => d) h.depthOf n d }

theorem Mirrors.setWord (n : NodeId) (w : Word) :
    R.Mirrors { s with info := s.info.setWord n w } { t with info := t.info.setWord (R.shift n) w } :=
  { h with word := get_set_shift (f := fun w => w) h.word n w }

theorem Mirrors.pushPending (n : NodeId) : R.Mirrors { s with pending := s.pending.push (n, s.curfn) }
    { t with pending := t.pending.push (R.shift n, t.curfn) } :=
  { h with pending := by rw [h.pending, h.curfn, Array.map_push] }

theorem Mirrors.addEdge (dst src : NodeId) : R.Mirrors (s.addEdge dst src) (t.addEdge (R.shift dst) (R.shift src)) := by
  have hsources := h.sources dst
  refine { h with dsts := ?_, sources := fun n => ?_ }
  · change (if (t.sources.get (R.shift dst).index).isEmpty then t.dsts.push (R.shift dst) else t.dsts) =
      (if (s.sources.get dst.index).isEmpty then s.dsts.push dst else s.dsts).map R.shift
    have hempty : ((s.sources.get dst.index).map R.shift).isEmpty = (s.sources.get dst.index).isEmpty := by
      simp only [Array.isEmpty, Array.size_map]
    rw [hsources, h.dsts, hempty]
    split
    · rw [Array.map_push]
    · rfl
  · change (t.sources.set (R.shift dst).index ((t.sources.get (R.shift dst).index).push (R.shift src))).get _ = _
    rw [hsources, ← Array.map_push]
    exact get_set_shift h.sources dst _ n

theorem Mirrors.find {x : Finding} (htext : ∀ n ∈ x.texts, t.program.text (R.shift n) = s.program.text n) :
    R.Mirrors (s.find x) (t.find (x.map R.shift)) :=
  { h with
    report := by
      change t.config.record t.program (x.map R.shift) t.info.report = s.config.record s.program x s.info.report
      rw [h.config, h.report, h.program.record _ x htext] }

theorem repeats_setDepth (n : NodeId) (d : Int) :
    R.Repeats s t (Flow.setDepth n d) (Flow.setDepth (R.shift n) d) fun _ _ _ _ => True :=
  repeats_modify (h.setDepth n d) (.of_eq rfl rfl rfl rfl)

theorem repeats_setResults {n : NodeId} {rs : List NodeId}
    (hrs : (R.base.node n).op.isCall = true → rs.length = R.base.resultCount n) :
    R.Repeats s t (Flow.setResults n rs) (Flow.setResults (R.shift n) (rs.map R.shift)) fun _ _ s' _ =>
      (s'.results.get n.index) = rs := by
  refine triple_of_eq_ok rfl trivial ⟨(), _, rfl, { h with results := get_set_shift (f := List.map R.shift) h.results n rs },
    ⟨.refl _, .refl _, .refl _, .refl _, rfl, rfl, rfl, fun _ _ hm => hm, fun m hcall hm => ?_⟩, Table.get_set_self _ _ _⟩
  by_cases he : m = n
  · subst he
    rw [Table.get_set_self]
    exact hrs hcall
  · rw [Table.get_set_of_ne _ _ fun e => he (NodeId.ext e)]
    exact hm

theorem repeats_link (dst src : NodeId) :
    R.Repeats s t (Flow.link dst src) (Flow.link (R.shift dst) (R.shift src)) fun _ _ _ _ => True := by
  have hcond : (R.shift dst = R.shift src ∨
      t.program.hasNoPointers (t.program.node (R.shift src)).ty = true) ↔
      (dst = src ∨ s.program.hasNoPointers (s.program.node src).ty = true) := by
    rw [R.shift_inj, h.program.hasNoPointers (h.program.ty src)]
  refine repeats_modify ?_ ?_
  · simp only [hcond]
    split
    · exact h
    · exact h.addEdge dst src
  · simp only [hcond]
    split
    · exact .refl s t
    · exact .of_eq rfl rfl rfl rfl

theorem repeats_markPending (n : NodeId) :
    R.Repeats s t (Flow.markPending n) (Flow.markPending (R.shift n)) fun _ _ _ _ => True := by
  refine repeats_modify ?_ (.of_eq rfl rfl rfl rfl)
  have hdepth := h.depth
  refine { h with
    word := get_set_shift (f := fun w => w) h.word n _
    depthOf := fun m => ?_
    pending := by rw [h.pending, h.curfn, Array.map_push] }
  change (t.info.depths.set (R.shift n).index t.depth).get _ = _
  rw [hdepth]
  exact get_set_shift (f := fun d => d) h.depthOf n s.depth m

/-- Both recordings make a node without slice. -/
theorem repeats_addNode {x y : Node} (hxy : x.Copies R.shift y) (hty : R.Likes s.program t.program x.ty y.ty)
    (hx : R.base.Made x) (hright : x.right = none) (hright' : y.right = none) :
    R.Repeats s t (Flow.addNode x) (Flow.addNode y) fun n n' s' _ =>
      n' = R.shift n ∧ n.index = s.program.nodes.size ∧ s'.program.node n = x := by
  have hcopies := h.program.addNode hxy hty hx (by rw [hright, hright']; rfl)
  refine triple_of_eq_ok rfl trivial ⟨⟨t.program.nodes.size⟩, _, rfl, { h with program := hcopies },
    ⟨s.program.extends_addNode x, t.program.extends_addNode y, .refl _, .refl _, rfl, rfl, rfl, fun n hn hr => ?_,
      fun _ _ hr => hr⟩,
    h.program.shift_size.symm, rfl, s.program.node_addNode_self x⟩
  change ((s.program.addNode x).2.node n).right ≠ none
  rw [s.program.node_addNode_of_lt x (Nat.lt_of_lt_of_le hn h.program.size_le)]
  exact hr

/-- Both recordings make a type. -/
theorem repeats_intern (c c' : Compound) (hc : ∀ ty ∈ c.parts, s.program.types.Has ty)
    (hc' : ∀ ty ∈ c'.parts, t.program.types.Has ty)
    (halike : TypeStore.Alike R.base.types (s.program.types.intern c).2 (t.program.types.intern c').2
      (s.program.types.intern c).1 (t.program.types.intern c').1) :
    R.Repeats s t (Flow.withTypes (·.intern c)) (Flow.withTypes (·.intern c')) fun ty ty' s' t' =>
      R.Likes s'.program t'.program (some ty) (some ty') ∧ s'.program.types.compound? ty = some c := by
  have hgrows := s.program.types.grows_intern c
  have hgrows' := t.program.types.grows_intern c'
  have hcopies := h.program.types hgrows hgrows' (TypeStore.sound_intern h.program.sound hc)
    (TypeStore.sound_intern h.program.sound' hc')
  exact triple_of_eq_ok rfl trivial ⟨_, _, rfl, { h with program := hcopies }, ⟨.of_nodes_eq rfl, .of_nodes_eq rfl, hgrows, hgrows', rfl, rfl, rfl,
      fun _ _ hr => hr, fun _ _ hr => hr⟩,
    .some halike, TypeStore.compound?_intern h.program.sound c⟩

theorem repeats_ptrTo {ty ty' : Option Ty} (hty : R.Likes s.program t.program ty ty') :
    R.Repeats s t (Flow.ptrTo ty) (Flow.ptrTo ty') fun p p' s' t' => R.Likes s'.program t'.program p p' := by
  cases hty with
  | none => exact repeats_pure h .none
  | @some ty ty' hty =>
    have hhas := h.program.grows.has_left hty
    have hhas' := h.program.grows'.has_right hty
    refine (repeats_intern h (.ptr ty) (.ptr ty') ?_ ?_ ?_).map fun _ _ _ _ hp => hp.1
    · simpa [Compound.parts] using hhas
    · simpa [Compound.parts] using hhas'
    · exact TypeStore.alike_ptr h.program.sound h.program.sound' hty

theorem repeats_array {elem : Ty} (helem : R.base.types.Has elem) (len : Nat) :
    R.Repeats s t (Flow.withTypes (·.array elem len)) (Flow.withTypes (·.array elem len)) fun ty ty' s' t' =>
      R.Likes s'.program t'.program (some ty) (some ty') ∧
        s'.program.types.compound? ty = some (.array elem len) := by
  have hp := h.program
  refine repeats_intern h (.array elem len) (.array elem len) ?_ ?_ ?_
  · simpa [Compound.parts] using hp.grows.has helem
  · simpa [Compound.parts] using hp.grows'.has helem
  · exact TypeStore.alike_array R.drafted.typed.store hp.grows hp.grows' hp.sound hp.sound' helem len

end Parts

end Rerun

end EscapeAnalysis

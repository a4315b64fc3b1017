import EscapeAnalysis.Proofs.Recording.Stops

/-!
# The order of the stops

A walk comes to a node after it has been to all parts of the node, and to a body after all its statements. So no place
in the body is missing among the stops of a walk that comes to its end.

* `Program.Bare p` : no call of the program has a slice for its `...` arguments yet;
* `StopsAt log path ns` : the walk stopped at each of the nodes, below `path`;
* `Program.Toured p log` : each stop comes after those at the parts of its node;
* `Flow.logs_tour`, `Flow.toured_walkStops` : a walk is toured, wherever it stops;
* `Flow.stopsAt_walkStops` : a walk that comes to its end has been everywhere.
-/

namespace EscapeAnalysis

def StopsAt (log : List Stop) (path : List Above) (ns : List NodeId) : Prop :=
  ∀ n ∈ ns, ∃ stop ∈ log, stop.node = n ∧ stop.path = path

theorem StopsAt.mono {log log' : List Stop} {path : List Above} {ns : List NodeId} (h : StopsAt log path ns)
    (hlog : log ⊆ log') : StopsAt log' path ns := by
  intro n hn
  obtain ⟨stop, hstop, hat⟩ := h n hn
  exact ⟨stop, hlog hstop, hat⟩

namespace Program

variable {p q : Program} {n m : NodeId}

/-- No call has a slice for its `...` arguments yet. -/
def Bare (p : Program) : Prop := ∀ n, (p.node n).op.isCall = true → (p.node n).list ≠ [] → (p.node n).right = none

def Toured (p : Program) : List Stop → Prop := AtStops fun stop earlier =>
  StopsAt earlier (⟨stop.node, false⟩ :: stop.path) (p.node stop.node).init ∧
    StopsAt earlier (⟨stop.node, true⟩ :: stop.path) (p.node stop.node).walked

theorem lt_size_of_mem_children (hm : m ∈ (p.node n).children) : n.index < p.nodes.size := by
  refine Nat.lt_of_not_le fun hle => ?_
  rw [p.node_of_size_le hle] at hm
  cases hm

theorem Extends.mem_init (h : p.Extends q) (hm : m ∈ (p.node n).init) : m ∈ (q.node n).init := by
  obtain ⟨_, _, he⟩ := h.node n (lt_size_of_mem_children (Flow.mem_children_init hm))
  rw [he]
  exact hm

/-- A slice that is hung below a call takes no place. -/
theorem Extends.mem_walked (h : p.Extends q) (hp : p.Bare) (hm : m ∈ (p.node n).walked) : m ∈ (q.node n).walked := by
  have hn := lt_size_of_mem_children (Flow.mem_children_walked hm)
  obtain ⟨right, _, he⟩ := h.node n hn
  have hright : (p.node n).right = none ∨ right = (p.node n).right := by
    have hcases := h.right n hn
    rw [he] at hcases
    exact hcases.symm.imp_left fun ⟨hcall, hlist, _⟩ => hp n hcall hlist
  rw [he]
  simp only [Node.walked, List.mem_append, Option.mem_toList] at hm ⊢
  rcases hright with hnone | hsame
  · rw [hnone] at hm
    grind
  · rw [hsame]
    exact hm

end Program

namespace Flow

variable {p : Program} {b s t : Flow} {path : List Above} {log : List Stop} {n : NodeId}

/-- The walk went on from the graph `s` with a log, and stopped at each of the nodes. -/
def Tour (p : Program) (b s : Flow) (log : List Stop) (path : List Above) (ns : List NodeId) (t : Flow)
    (log' : List Stop) : Prop :=
  Changes (p.area b.sink) s t ∧ log ⊆ log' ∧ p.Toured log' ∧ StopsAt log' path ns

theorem logs_tour_forM {xs : List NodeId} {fuel : Nat} (hwalk : ∀ n ∈ xs, ∀ t log, Changes (p.area b.sink) s t →
      p.Toured log → Logs (t, log) (walkLog fuel path n) (Tour p b t log path [n]) p.Toured)
    (ht : Changes (p.area b.sink) s t) (htoured : p.Toured log) :
    Logs (t, log) (xs.forM (walkLog fuel path)) (Tour p b t log path xs) p.Toured := by
  induction xs generalizing t log with
  | nil => exact ⟨trivial, .refl, fun _ h => h, htoured, fun _ h => absurd h List.not_mem_nil⟩
  | cons n xs ih =>
    rw [List.forall_mem_cons] at hwalk
    refine (hwalk.1 t log ht htoured).bind fun u log₁ h₁ => ?_
    refine (ih hwalk.2 (ht.trans h₁.1) h₁.2.2.1).mono fun v log₂ h₂ => ?_
    refine ⟨h₁.1.trans h₂.1, fun _ hstop => h₂.2.1 (h₁.2.1 hstop), h₂.2.2.1, fun m hm => ?_⟩
    rcases List.mem_cons.1 hm with rfl | hm
    · exact h₁.2.2.2.mono h₂.2.1 m List.mem_cons_self
    · exact h₂.2.2.2 m hm

/-- A walk stops at a node after it has been to the parts of the node. -/
theorem logs_tour (h : Ready p b) (hp : p.Bare) (fuel : Nat) (hs : Changes (p.area b.sink) b s) (htoured : p.Toured log)
    (hn : s.Valid (p.area b.sink) n) (hin : s.program.Within (p.area b.sink).walk n) :
    Logs (s, log) (walkLog fuel path n) (Tour p b s log path [n]) p.Toured := by
  induction fuel generalizing path s log n with
  | zero => exact htoured
  | succ fuel ih =>
    have hparts {t : Flow} {path' : List Above} {log' : List Stop} (ht : Changes (p.area b.sink) s t)
        (htoured : p.Toured log') {xs : List NodeId} (hxs : ∀ m ∈ xs, m ∈ (t.program.node n).children) :
        Logs (t, log') (xs.forM (walkLog fuel path')) (Tour p b t log' path' xs) p.Toured := by
      refine logs_tour_forM (fun m hm u log₂ hu htoured => ?_) .refl htoured
      obtain ⟨hvalid, hwithin⟩ :=
        h.child (hs.trans ht) (ht.frame.valid hn) (hin.extends ht.frame.nodes) (hxs m hm) hu
      exact ih ((hs.trans ht).trans hu) htoured hvalid hwithin
    have hkeep {t : Flow} {log' : List Stop} (ht : Changes (p.area b.sink) s t) (htoured : p.Toured log') {m : FlowM Unit}
        (hm : Records (p.area b.sink) t m fun _ _ => True) :
        Logs (t, log') (unlogged m) (fun u log₂ => Changes (p.area b.sink) s u ∧ log₂ = log') p.Toured :=
      logs_unlogged (fun u hu => ⟨ht.trans (hm.ok hu).1, rfl⟩) htoured
    unfold walkLog
    refine logs_getProgram ?_
    refine (hparts .refl htoured fun m hm => mem_children_init hm).bind fun t₁ log₁ h₁ => ?_
    obtain ⟨hs₁, hlog₁, htoured₁, hinit⟩ := h₁
    refine (hkeep hs₁ htoured₁ (records_deepen _ 1)).bind fun t₂ log₂ h₂ => logs_getProgram ?_
    obtain ⟨hs₂, rfl⟩ := h₂
    have hplace := records_placeClauseVars (h.refs.changes (hs.trans hs₂)) (hs₂.frame.valid hn)
      (hin.extends hs₂.frame.nodes)
    refine (hkeep hs₂ htoured₁ hplace).bind fun t₃ log₃ h₃ => logs_getProgram ?_
    obtain ⟨hs₃, rfl⟩ := h₃
    refine (hparts hs₃ htoured₁ fun m hm => mem_children_walked hm).bind fun t₄ log₄ h₄ => ?_
    obtain ⟨hs₄, hlog₄, htoured₄, hwalked⟩ := h₄
    refine (hkeep (hs₃.trans hs₄) htoured₄ (records_deepen _ (-1))).bind fun t₅ log₅ h₅ => logs_logStop ?_
    obtain ⟨hs₅, rfl⟩ := h₅
    have htoured₅ : p.Toured (⟨n, path, t₅⟩ :: log₅) := by
      refine htoured₄.cons ⟨fun m hm => ?_, fun m hm => ?_⟩
      · exact hinit.mono hlog₄ m ((h.extends hs).mem_init hm)
      · exact hwalked m ((h.extends (hs.trans hs₃)).mem_walked hp hm)
    refine (hkeep hs₅ htoured₅ (records_visit (h.refs.changes (hs.trans hs₅)) (hs₅.frame.valid hn)
      (hin.extends hs₅.frame.nodes) (upOf path))).mono fun t₆ log₆ h₆ => ?_
    obtain ⟨hs₆, rfl⟩ := h₆
    refine ⟨hs₆, fun _ hstop => List.mem_cons_of_mem _ (hlog₄ (hlog₁ hstop)), htoured₅, fun m hm => ?_⟩
    obtain rfl := List.mem_singleton.1 hm
    exact ⟨_, List.mem_cons_self, rfl, rfl⟩

section Body

variable (h : Ready p b) (hp : p.Bare) {body : List NodeId}
  (hbody : ∀ n ∈ body, b.Valid (p.area b.sink) n ∧ n.index < p.nodes.size)
include h hp hbody

theorem logs_tour_walkBody : Logs (b, []) (walkBodyLog body) (Tour p b b [] [] body) p.Toured := by
  refine logs_getProgram (logs_tour_forM (fun n hn t log ht htoured => ?_) .refl (atStops_nil _))
  exact logs_tour h hp _ ht htoured (ht.frame.valid (hbody n hn).1) (Or.inl (hbody n hn).2)

theorem toured_walkStops : p.Toured (b.walkStops body) :=
  (logs_tour_walkBody h hp hbody).walkStops fun _ _ htour => htour.2.2.1

theorem stopsAt_walkStops (ht : walkBody body b = .ok () t) : StopsAt (b.walkStops body) [] body :=
  ((logs_tour_walkBody h hp hbody).ok_walkStops ht).2.2.2

end Body

end Flow

end EscapeAnalysis

import EscapeAnalysis.Proofs.Building.Drafts
import EscapeAnalysis.Proofs.Groups.Callees
import EscapeAnalysis.Proofs.Recording.Walks

/-!
# What the visit of a node leaves

The graph of a group only grows while its flows are recorded, and the walk over a body visits every node below it. So
what the visit of one node leaves in the graph is there when the flows of the group are recorded, if it is something
that no later step takes back.

* `Flow.Lasting P` : no step of a recording takes `P` back;
* `Flow.Edge`, `Flow.lasting_edge` : edges last, and a node with an edge is one that floods start from;
* `Flow.Over p s` : the graph belongs to a recording over the program `p`;
* `Flow.Visiting p s₁ funcs f t` : where the recording of the functions `funcs` is when it visits a node of `f`;
* `Flow.holds_of_recorded` : what the visit of a node leaves holds at the end.
-/

namespace EscapeAnalysis

open Relation (ReflTransGen)

theorem Node.mem_children_iff {x : Node} {m : NodeId} : m ∈ x.children ↔ m ∈ x.init ∨ m ∈ x.walked := by
  simp only [Node.children, Node.walked, List.mem_append]
  grind

/-- A call that has arguments has no slice of them yet, so parts stay parts. -/
theorem Program.Extends.mem_children {p q : Program} (h : p.Extends q) (hp : p.Drafted) {n m : NodeId}
    (hm : m ∈ (p.node n).children) : m ∈ (q.node n).children := by
  have hn : n.index < p.nodes.size := by
    refine Nat.lt_of_not_le fun hle => ?_
    rw [p.node_of_size_le hle] at hm
    exact List.not_mem_nil hm
  have hright : ∀ k, (p.node n).right = some k → (q.node n).right = some k := by
    intro k hk
    rcases h.right n hn with he | ⟨hcall, hlist, _⟩
    · rw [he, hk]
    · rw [hp.bare n hcall hlist] at hk
      cases hk
  obtain ⟨right, noEscape, he⟩ := h.node n hn
  rw [he] at hright ⊢
  simp only [Node.children, List.mem_append, Option.mem_toList] at hm ⊢
  grind

namespace Flow

/-! ## Edges -/

/-- The value of `src` flows into `dst`. -/
def Edge (s : Flow) (dst src : NodeId) : Prop := src ∈ s.sources.get dst.index

/-- No step of a recording takes it back. -/
def Lasting (P : Flow → Prop) : Prop := ∀ s t, Steps .any s t → P s → P t

theorem sources_addEdge (s : Flow) (dst src : NodeId) :
    (s.addEdge dst src).sources.get dst.index = (s.sources.get dst.index).push src :=
  Table.get_set_self _ _ _

theorem edge_addEdge (s : Flow) (dst src : NodeId) : (s.addEdge dst src).Edge dst src := by
  unfold Edge
  rw [sources_addEdge]
  exact Array.mem_push_self

theorem edge_addEdge_iff {s : Flow} {dst src d x : NodeId} :
    (s.addEdge dst src).Edge d x ↔ s.Edge d x ∨ d = dst ∧ x = src := by
  unfold Edge
  by_cases hd : d = dst
  · rw [hd, sources_addEdge, Array.mem_push]
    simp
  · rw [show (s.addEdge dst src).sources.get d.index = s.sources.get d.index from
      Table.get_set_of_ne _ _ fun e => hd (NodeId.ext e)]
    simp [hd]

theorem lasting_edge (dst src : NodeId) : Lasting fun s => s.Edge dst src := by
  intro s t h hedge
  induction h with
  | refl => exact hedge
  | tail _ h ih =>
    cases h with
    | start _ | leave _ _ => exact ih
    | change h =>
      cases h with
      | edge _ _ _ _ => exact edge_addEdge_iff.2 (Or.inl ih)
      | _ => exact ih

/-- The nodes with a source are listed. -/
def Listed (s : Flow) : Prop := ∀ dst src, s.Edge dst src → dst ∈ s.dsts

theorem Listed.addEdge {s : Flow} (hs : s.Listed) (dst src : NodeId) : (s.addEdge dst src).Listed := by
  intro d x hedge
  have hold (hd : d ∈ s.dsts) : d ∈ (s.addEdge dst src).dsts := by
    simp only [Flow.addEdge]
    split
    · exact Array.mem_push_of_mem _ hd
    · exact hd
  rcases edge_addEdge_iff.1 hedge with hedge | ⟨rfl, _⟩
  · exact hold (hs d x hedge)
  · by_cases hempty : (s.sources.get d.index).isEmpty = true
    · simp only [Flow.addEdge, hempty, if_true]
      exact Array.mem_push_self
    · rw [Array.isEmpty_iff] at hempty
      obtain ⟨y, hy⟩ := Array.exists_mem_of_ne_empty _ hempty
      exact hold (hs d y hy)

theorem lasting_listed : Lasting Listed := by
  intro s t h hs
  induction h with
  | refl => exact hs
  | tail _ h ih =>
    cases h with
    | start _ | leave _ _ => exact ih
    | change h =>
      cases h with
      | edge _ _ _ _ => exact ih.addEdge _ _
      | _ => exact ih

/-! ## Operations -/

theorem valid_any (s : Flow) (n : NodeId) : s.Valid .any n := ⟨trivial, False.elim⟩

section Rules

variable {α β : Type} {s : Flow} {P : Flow → Prop} (hP : Lasting P)

include hP

theorem Records.lasting {m : FlowM α} {Q : α → Flow → Prop} (h : Records .any s m Q) (hs : P s) :
    Records .any s m fun _ t => P t :=
  h.mono fun _ t ht _ => hP s t ht.steps hs

/-- What one round of a loop leaves, the loop leaves. -/
theorem records_forM_mem {f : β → FlowM PUnit} {xs : List β} {x : β} (hx : x ∈ xs)
    (h : ∀ y ∈ xs, ∀ t, Changes .any s t → Records .any t (f y) fun _ _ => True)
    (hfx : ∀ t, Changes .any s t → Records .any t (f x) fun _ u => P u) : Records .any s (xs.forM f) fun _ t => P t :=
  triple_forM_keeps (fun t u _ hu => hP t u hu.steps) hx h hfx

end Rules

/-! ## Walks -/

/-- The graph belongs to a recording over `p`. -/
structure Over (p : Program) (s : Flow) : Prop where
  refs : s.Refs .any
  nodes : p.Extends s.program
  types : p.types.Grows s.program.types

theorem Over.steps {p : Program} {s t : Flow} (h : s.Over p) (ht : Steps .any s t) : t.Over p :=
  ⟨ht.refs h.refs, h.nodes.trans ht.frame.nodes, h.types.trans ht.frame.types⟩

theorem Over.changes {p : Program} {s t : Flow} (h : s.Over p) (ht : Changes .any s t) : t.Over p := h.steps ht.steps

theorem records_walkAll {s : Flow} (hs : s.Refs .any) (fuel : Nat) (up : Option NodeId) (xs : List NodeId) :
    Records .any s (xs.forM (walk fuel up)) fun _ _ => True :=
  triple_forM xs fun m _ t ht =>
    records_walk (hs.changes ht) (Program.confines_true _) fuel up (valid_any t m) (Or.inl trivial)

section Walk

variable {p : Program} (hp : p.Drafted) {P : Flow → Prop} (hP : Lasting P) {s₀ : Flow} (hs₀ : s₀.Over p) {m : NodeId}
  (hvisit : ∀ t up, Changes .any s₀ t → Records .any t (visit m up) fun _ u => P u)
include hp hP hs₀ hvisit

/-- The walk from a node comes to every node below it. -/
theorem records_walk_visit (fuel : Nat) (up : Option NodeId) {n : NodeId} (hm : ReflTransGen p.Part n m) {s : Flow}
    (hs : Changes .any s₀ s) : Records .any s (walk fuel up n) fun _ t => P t := by
  induction fuel generalizing s up n with
  | zero => exact triple_throw ⟨.refl, trivial⟩
  | succ fuel ih =>
    have hrefs {t : Flow} (ht : Changes .any s t) : t.Refs .any := (hs₀.changes (hs.trans ht)).refs
    have hplace {t : Flow} (ht : Changes .any s t) (k : NodeId) :
        Records .any t (placeClauseVars (t.program.node k)) fun _ _ => True :=
      records_placeClauseVars (hrefs ht) (valid_any t k) (Or.inl trivial)
    unfold walk
    refine triple_getProgram ?_
    rcases hm.cases_head with rfl | ⟨c, hc, hcm⟩
    · refine (records_walkAll (hrefs .refl) fuel _ _).bind fun _ t ht _ => ?_
      refine (records_deepen _ 1).bind fun _ u hu _ => triple_getProgram ?_
      refine (hplace (ht.trans hu) _).bind fun _ v hv _ => triple_getProgram ?_
      refine (records_walkAll (hrefs ((ht.trans hu).trans hv)) fuel _ _).bind fun _ w hw _ => ?_
      refine (records_deepen _ (-1)).bind fun _ z hz _ => ?_
      exact hvisit z up (hs.trans ((((ht.trans hu).trans hv).trans hw).trans hz))
    · have hpart {t : Flow} (ht : Changes .any s t) {xs : List NodeId} (hxs : c ∈ xs) :
          Records .any t (xs.forM (walk fuel (some n))) fun _ u => P u :=
        records_forM_mem hP hxs
          (fun k _ u hu => records_walk (hrefs (ht.trans hu)) (Program.confines_true _) fuel _ (valid_any u k)
            (Or.inl trivial))
          fun u hu => ih _ hcm (hs.trans (ht.trans hu))
      -- The part is walked before the loop is entered or in it.
      have hinit : Records .any s ((s.program.node n).init.forM (walk fuel (some n))) fun _ t =>
          c ∈ (s.program.node n).init → P t := by
        by_cases hc : c ∈ (s.program.node n).init
        · exact (hpart .refl hc).mono fun _ _ _ h _ => h
        · exact (records_walkAll (hrefs .refl) fuel _ _).mono fun _ _ _ _ h => absurd h hc
      refine hinit.bind fun _ t ht hPt => ?_
      refine (records_deepen _ 1).bind fun _ u hu _ => triple_getProgram ?_
      refine (hplace (ht.trans hu) _).bind fun _ v hv _ => triple_getProgram ?_
      have hv' := (ht.trans hu).trans hv
      have hwalked : Records .any v ((v.program.node n).walked.forM (walk fuel (some n))) fun _ w => P w := by
        by_cases hc' : c ∈ (s.program.node n).init
        · exact (records_walkAll (hrefs hv') fuel _ _).lasting hP (hP t v (hu.trans hv).steps (hPt hc'))
        · refine hpart hv' ((Node.mem_children_iff.1 ?_).resolve_left fun h => hc' ?_)
          · exact (hs₀.changes (hs.trans hv')).nodes.mem_children hp hc
          · have hlt := (hs₀.changes hs).nodes.size_le
            have hn : n.index < s.program.nodes.size := by
              refine Nat.lt_of_not_le fun hle => ?_
              rw [Program.Part, p.node_of_size_le (Nat.le_trans hlt hle)] at hc
              exact List.not_mem_nil hc
            obtain ⟨_, _, he⟩ := hv'.frame.node n hn
            rwa [he] at h
      refine hwalked.bind fun _ w hw hPw => ?_
      refine (records_deepen _ (-1)).bind fun _ z hz _ => ?_
      have hz' := (hv'.trans hw).trans hz
      exact (records_visit (hrefs hz') (valid_any z n) (Or.inl trivial) up).lasting hP (hP w z hz.steps hPw)

theorem records_recordBody_visit {f : FuncId} (hbody : (s₀.program.func f).body = (p.func f).body)
    (hm : p.Below f m) : Records .any s₀ (recordBody f) fun _ t => P t := by
  obtain ⟨b, hb, hbm⟩ := hm
  have hrefs {t : Flow} (ht : Changes .any s₀ t) : t.Refs .any := (hs₀.changes ht).refs
  refine triple_getProgram ((records_enterBody hs₀.refs trivial).bind fun _ t ht _ => triple_getProgram ?_)
  refine records_forM_mem hP (x := b) ?_ (fun k _ u hu => ?_) fun u hu => ?_
  · rw [hbody]
    exact hb
  · exact records_walk (hrefs (ht.trans hu)) (Program.confines_true _) _ _ (valid_any u k) (Or.inl trivial)
  · exact records_walk_visit hp hP hs₀ hvisit _ _ hbm (ht.trans hu)

end Walk

/-! ## Groups -/

/-- Where the recording of `funcs`, which started at `s₁`, is when it is in the body of `f`. -/
structure Visiting (p : Program) (s₁ : Flow) (funcs : List FuncId) (f : FuncId) (t : Flow) : Prop where
  belongs : t.Over p
  steps : Steps .any s₁ t
  curfn : t.curfn = some f
  states : ∃ fs : List FuncId, (∀ g ∈ fs, g ∈ funcs) ∧ t.info.states = fs.map (·, .started) ++ s₁.info.states

theorem forM_around_eq_ok {ε σ α : Type} {m : α → EStateM ε σ PUnit} {before after : List α} {x : α} {s₁ s : σ}
    (h : (before ++ x :: after).forM m s₁ = .ok () s) :
    ∃ u v, before.forM m s₁ = .ok () u ∧ m x u = .ok () v ∧ after.forM m v = .ok () s := by
  induction before generalizing s₁ with
  | nil =>
    rw [List.nil_append, forM_cons_eq] at h
    split at h
    · rename_i v hv
      exact ⟨s₁, v, rfl, hv, h⟩
    · cases h
  | cons y before ih =>
    rw [List.cons_append, forM_cons_eq] at h
    split at h
    · rename_i t ht
      obtain ⟨u, v, hu, hv, hs⟩ := ih h
      refine ⟨u, v, ?_, hv, hs⟩
      rw [forM_cons_eq, ht]
      exact hu
    · cases h

section Group

variable {p : Program} (hp : p.Drafted) {P : Flow → Prop} (hP : Lasting P) {s₁ : Flow} (hs₁ : s₁.Over p)
  {f : FuncId} (hbody : (s₁.program.func f).body = (p.func f).body) {m : NodeId} (hm : p.Below f m)
include hp hP hs₁ hbody hm

/-- What the visit of a node leaves holds when the flows of the group are recorded. -/
theorem holds_of_recorded {funcs : List FuncId} (hf : f ∈ funcs)
    (hvisit : ∀ t up, Visiting p s₁ funcs f t → Records .any t (visit m up) fun _ u => P u) {s : Flow}
    (h : funcs.forM recordFunc s₁ = .ok () s) : P s := by
  obtain ⟨before, after, rfl⟩ := List.append_of_mem hf
  obtain ⟨u, v, hu, hv, hs⟩ := forM_around_eq_ok h
  have hstarts := starts_funcs hs₁.refs (Program.confines_true _) (fun _ _ _ _ => trivial) hu
  have hover := hs₁.steps (hstarts.steps.tail (.start (f := f) trivial))
  rw [recordFunc_eq] at hv
  split at hv
  · cases hv
  split at hv
  · rename_i w hw
    cases hv
    have hrecords : Records .any (u.startFunc f) (recordBody f) fun _ t => P t := by
      refine records_recordBody_visit hp hP hover (fun t up ht => hvisit t up ⟨hover.changes ht, ?_, ?_, ?_⟩) ?_ hm
      · exact (hstarts.steps.tail (.start trivial)).trans ht.steps
      · exact ht.curfn
      · refine ⟨f :: before.reverse, fun g hg => ?_, ?_⟩
        · simp only [List.mem_cons, List.mem_reverse] at hg
          simp only [List.mem_append, List.mem_cons]
          exact hg.elim (fun h => Or.inr (Or.inl h)) Or.inl
        · rw [ht.states]
          change (f, .started) :: u.info.states = _
          rw [hstarts.states]
          rfl
      · change (u.program.func f).body = _
        rw [hstarts.frame.func]
        exact hbody
    have hleave : Steps .any w { w with depth := u.depth, curfn := u.curfn } := .single (.leave _ fun _ _ => trivial)
    have hlater := starts_funcs (hs₁.steps ((((hstarts.steps.tail (.start trivial)).trans
      (hrecords.ok hw).1.steps)).trans hleave)).refs (Program.confines_true _) (fun _ _ _ _ => trivial) hs
    exact hP _ _ (hleave.trans hlater.steps) (hrecords.ok hw).2
  · cases hv

end Group

end Flow

end EscapeAnalysis

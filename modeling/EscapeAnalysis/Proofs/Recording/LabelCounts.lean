import Mathlib.Data.List.Flatten
import EscapeAnalysis.Proofs.Recording.Stops

/-!
# Labels that a walk passes once

A walk visits a label as often as the label is below the nodes of the body. What a recording hangs below calls has no
labels, so the count is that of the program, however the walk changes it.

* `Program.LabelsOnce p body` : no label is twice in the body, however deep one looks;
* `Program.labelCount p l k ns` : how often the label is among the nodes and below them, down to depth `k`;
* `Flow.logs_count` : a walk passes a label no more often than that;
* `Flow.nodup_passed_walkStops` : the labels that a walk of the body passes are different.
-/

namespace EscapeAnalysis

open Relation (ReflTransGen TransGen)

theorem Node.defines_iff {x : Node} {l : LabelId} : x.defines l = true ↔ x.defined? = some l := by
  unfold Node.defines Node.defined?
  split <;> simp [*]

namespace Program

variable (p : Program)

/-- No label id is at two places in the body. -/
def LabelsOnce (body : List NodeId) : Prop :=
  ∀ k, ((body.flatMap (p.preOrder k)).filterMap fun n => (p.node n).defined?).Nodup

/-- How often the label is among the nodes and below them, down to depth `k`. -/
def labelCount (l : LabelId) (k : Nat) (ns : List NodeId) : Nat :=
  (ns.flatMap (p.preOrder k)).countP fun m => (p.node m).defines l

variable {p} {l : LabelId} {k : Nat} {n : NodeId} {ns : List NodeId}

theorem labelCount_append (ns ms : List NodeId) :
    p.labelCount l k (ns ++ ms) = p.labelCount l k ns + p.labelCount l k ms := by
  rw [labelCount, List.flatMap_append, List.countP_append]
  rfl

theorem labelCount_cons : p.labelCount l k (n :: ns) = p.labelCount l k [n] + p.labelCount l k ns :=
  labelCount_append [n] ns

theorem labelCount_succ : p.labelCount l (k + 1) [n] =
    p.labelCount l k (p.node n).children + if (p.node n).defines l then 1 else 0 := by
  have hchildren : (p.node n).children = (p.node n).init ++ (p.node n).scanned := by
    simp only [Node.children, Node.scanned, List.append_assoc]
  rw [hchildren, labelCount_append]
  simp only [labelCount, List.flatMap_singleton, preOrder, List.countP_append, List.countP_cons]
  omega

theorem labelCount_eq_zero (h : ∀ n ∈ ns, p.labelCount l k [n] = 0) : p.labelCount l k ns = 0 := by
  induction ns with
  | nil => rfl
  | cons n ns ih =>
    rw [List.forall_mem_cons] at h
    rw [labelCount_cons, h.1, ih h.2]

theorem labelCount_node_eq_zero (hdefines : (p.node n).defines l = false)
    (hchildren : ∀ m ∈ (p.node n).children, ∀ k, p.labelCount l k [m] = 0) (k : Nat) : p.labelCount l k [n] = 0 := by
  cases k with
  | zero => rfl
  | succ k => rw [labelCount_succ, hdefines, labelCount_eq_zero fun m hm => hchildren m hm k, if_neg Bool.false_ne_true]

theorem LabelsOnce.labelCount_le (h : p.LabelsOnce ns) (l : LabelId) (k : Nat) : p.labelCount l k ns ≤ 1 := by
  have hcount := List.nodup_iff_count_le_one.1 (h k) l
  rw [List.count_filterMap] at hcount
  refine Nat.le_trans (Nat.le_of_eq (List.countP_congr fun m _ => ?_)) hcount
  rw [Node.defines_iff, beq_iff_eq]

/-! ## Bodies without cycles -/

theorem preOrder_sublist {j k : Nat} (h : j ≤ k) (n : NodeId) : (p.preOrder j n).Sublist (p.preOrder k n) := by
  induction j generalizing k n with
  | zero => exact List.nil_sublist _
  | succ j ih =>
    cases k with
    | zero => omega
    | succ k =>
      have hparts (ms : List NodeId) : (ms.flatMap (p.preOrder j)).Sublist (ms.flatMap (p.preOrder k)) :=
        List.Sublist.flatMap_right ms fun m _ => ih (Nat.le_of_succ_le_succ h) m
      exact (hparts _).append ((hparts _).cons_cons n)

/-- Without a cycle, it is enough to look as deep as there are nodes. -/
theorem labelsOnce_of_not_cycle {body : List NodeId}
    (hcycle : ∀ n ∈ body, ∀ m, ReflTransGen p.Part n m → ¬ TransGen p.Part m m)
    (h : ((body.flatMap (p.preOrder (p.nodes.size + 1))).filterMap fun n => (p.node n).defined?).Nodup) :
    p.LabelsOnce body := by
  intro k
  have hdeep := preOrder_of_nests fun n hn =>
    (nests_succ_of_not_cycle (hcycle n hn)).mono (Nat.le_max_right k (p.nodes.size + 1))
  have hsublist : (body.flatMap (p.preOrder k)).Sublist (body.flatMap (p.preOrder (max k (p.nodes.size + 1)))) :=
    List.Sublist.flatMap_right body fun n _ => preOrder_sublist (Nat.le_max_left _ _) n
  rw [(preOrder_of_not_cycle hcycle).unique hdeep] at hsublist
  exact h.sublist (hsublist.filterMap _)

/-! ## What a recording hangs below calls -/

section Extends

variable {q : Program} (h : p.Extends q)
include h

theorem labelCount_of_extends (hcall : (q.node n).op.isCall = false) (hlabel : (q.node n).op ≠ .label)
    (hchildren : ∀ m ∈ (q.node n).children, ∀ k, p.labelCount l k [m] = 0) (k : Nat) : p.labelCount l k [n] = 0 := by
  by_cases hn : n.index < p.nodes.size
  · have hop := (h.node n hn).op
    rw [hop] at hcall hlabel
    rw [h.children hn hcall] at hchildren
    exact labelCount_node_eq_zero (by simp [Node.defines, hlabel]) hchildren k
  · have hnode := p.node_of_size_le (Nat.le_of_not_lt hn)
    refine labelCount_node_eq_zero (by rw [hnode]; rfl) (fun m hm => ?_) k
    rw [hnode] at hm
    cases hm

theorem labelCount_of_array (hop : (q.node n).op = .arrayLit) (hchildren : (q.node n).children = []) (k : Nat) :
    p.labelCount l k [n] = 0 := by
  refine labelCount_of_extends h (by rw [hop]; rfl) (by simp [hop]) (fun m hm => ?_) k
  rw [hchildren] at hm
  cases hm

theorem labelCount_of_hung (hhung : q.Hung n) (k : Nat) : p.labelCount l k [n] = 0 := by
  obtain ⟨hop, array, hchildren, harray⟩ := hhung
  refine labelCount_of_extends h (by rw [hop]; rfl) (by simp [hop]) (fun m hm => ?_) k
  rw [hchildren, List.mem_singleton] at hm
  rw [hm]
  exact labelCount_of_array h harray.1 harray.2

/-- What was hung below a call has no labels below it. -/
theorem labelCount_of_not_lt (hn : ¬ n.index < p.nodes.size) (hin : q.Within (fun m => m.index < p.nodes.size) n)
    (hns : ∀ m ∈ ns, m ∈ (q.node n).children) (k : Nat) : p.labelCount l k ns = 0 := by
  refine labelCount_eq_zero fun m hm => ?_
  have hm := hns m hm
  rcases hin with hlt | ⟨_, array, hchildren, harray⟩ | ⟨_, hchildren⟩
  · exact absurd hlt hn
  · rw [hchildren, List.mem_singleton] at hm
    rw [hm]
    exact labelCount_of_array h harray.1 harray.2 k
  · rw [hchildren] at hm
    cases hm

/-- The walk goes over the parts of the node before and after the recording changed it. -/
theorem labelCount_parts_le {r : Program} (hr : q.Extends r) (hin : q.Within (fun m => m.index < p.nodes.size) n)
    (k : Nat) : p.labelCount l k (q.node n).init + p.labelCount l k (r.node n).walked ≤
      p.labelCount l k (p.node n).children := by
  have hpr := h.trans hr
  by_cases hn : n.index < p.nodes.size
  · obtain ⟨_, _, hq⟩ := h.node n hn
    obtain ⟨right, noEscape, hsame⟩ := hpr.node n hn
    have hright : p.labelCount l k right.toList ≤ p.labelCount l k (p.node n).right.toList := by
      have hcases := hpr.right n hn
      rw [hsame] at hcases
      rcases hcases with hkept | ⟨_, _, rest, hrest, hhung⟩
      · exact Nat.le_of_eq (by rw [show right = _ from hkept])
      · rw [show right = _ from hrest, Option.toList_some, labelCount_of_hung hpr hhung]
        exact Nat.zero_le _
    rw [hq, hsame]
    simp only [Node.walked, Node.children, labelCount_append]
    omega
  · rw [labelCount_of_not_lt h hn hin (fun m hm => Flow.mem_children_init hm),
      labelCount_of_not_lt hpr hn (hin.extends hr) (fun m hm => Flow.mem_children_walked hm)]
    exact Nat.zero_le _

end Extends

end Program

/-! ## The walk -/

namespace Flow

variable {p : Program} {b s : Flow} {path : List Above} {log : List Stop} {n : NodeId} {l : LabelId}

theorem count_passed_cons (n : NodeId) (path : List Above) (s : Flow) (log : List Stop) (l : LabelId) :
    (p.passed (⟨n, path, s⟩ :: log)).count l = (p.passed log).count l + if (p.node n).defines l then 1 else 0 := by
  cases hdefined : (p.node n).defined? with
  | none =>
    rw [p.passed_cons_none ⟨n, path, s⟩ hdefined, if_neg]
    · rfl
    · rw [Node.defines_iff, hdefined]
      exact Option.some_ne_none l ∘ Eq.symm
  | some k =>
    rw [p.passed_cons_some ⟨n, path, s⟩ hdefined, List.count_cons]
    refine congrArg _ (if_congr ?_ rfl rfl)
    rw [Node.defines_iff, hdefined, beq_iff_eq, Option.some.injEq]

/-- The graph has changed from `s` to `t`, and the walk passed the label `c` times at most. -/
def Counted (p : Program) (b : Flow) (l : LabelId) (c : Nat) (s t : Flow) (log : List Stop) : Prop :=
  Changes (p.area b.sink) s t ∧ (p.passed log).count l ≤ c

/-- Nodes are walked one after the other, and each adds what is below it. -/
theorem logs_count_forM {xs : List NodeId} {fuel c most : Nat}
    (hwalk : ∀ n ∈ xs, ∀ t log' c', Counted p b l c' s t log' → c' + p.labelCount l fuel [n] ≤ most →
      Logs (t, log') (walkLog fuel path n) (Counted p b l (c' + p.labelCount l fuel [n]) t)
        (fun log' => (p.passed log').count l ≤ most))
    {t : Flow} (ht : Counted p b l c s t log) (hmost : c + p.labelCount l fuel xs ≤ most) :
    Logs (t, log) (xs.forM (walkLog fuel path)) (Counted p b l (c + p.labelCount l fuel xs) s)
      (fun log' => (p.passed log').count l ≤ most) := by
  induction xs generalizing t log c with
  | nil => exact ⟨trivial, ht⟩
  | cons n xs ih =>
    rw [List.forall_mem_cons] at hwalk
    rw [Program.labelCount_cons] at hmost ⊢
    refine (hwalk.1 t log c ht (by omega)).bind fun u log' hu => ?_
    rw [← Nat.add_assoc]
    exact ih hwalk.2 ⟨ht.1.trans hu.1, hu.2⟩ (by omega)

/-- A walk passes a label no more often than it is below the node. -/
theorem logs_count (h : Ready p b) (fuel : Nat) {c most : Nat} (hs : Changes (p.area b.sink) b s)
    (hcount : (p.passed log).count l ≤ c) (hmost : c + p.labelCount l fuel [n] ≤ most)
    (hn : s.Valid (p.area b.sink) n) (hin : s.program.Within (p.area b.sink).walk n) :
    Logs (s, log) (walkLog fuel path n) (Counted p b l (c + p.labelCount l fuel [n]) s)
      (fun log' => (p.passed log').count l ≤ most) := by
  induction fuel generalizing path s log n c with
  | zero => exact Nat.le_trans hcount (by omega)
  | succ fuel ih =>
    have hparts {t : Flow} {path' : List Above} {log' : List Stop} {c' : Nat} (ht : Counted p b l c' s t log')
        {xs : List NodeId} (hxs : ∀ m ∈ xs, m ∈ (t.program.node n).children)
        (hle : c' + p.labelCount l fuel xs ≤ most) : Logs (t, log') (xs.forM (walkLog fuel path'))
          (Counted p b l (c' + p.labelCount l fuel xs) s) (fun log' => (p.passed log').count l ≤ most) := by
      refine (logs_count_forM (s := t) (fun m hm u log₂ c₂ hu hle => ?_) ⟨.refl, ht.2⟩ hle).mono fun u log₂ hu =>
        ⟨ht.1.trans hu.1, hu.2⟩
      obtain ⟨hvalid, hwithin⟩ :=
        h.child (hs.trans ht.1) (ht.1.frame.valid hn) (hin.extends ht.1.frame.nodes) (hxs m hm) hu.1
      exact ih ((hs.trans ht.1).trans hu.1) hu.2 hle hvalid hwithin
    have hkeep {t : Flow} {log' : List Stop} {c' : Nat} (ht : Counted p b l c' s t log') (hle : c' ≤ most)
        {m : FlowM Unit} (hm : Records (p.area b.sink) t m fun _ _ => True) : Logs (t, log') (unlogged m)
          (Counted p b l c' s) (fun log' => (p.passed log').count l ≤ most) :=
      logs_unlogged (fun u hu => ⟨ht.1.trans (hm.ok hu).1, ht.2⟩) (Nat.le_trans ht.2 hle)
    have hsum {q : Program} (hq : s.program.Extends q) :=
      Program.labelCount_parts_le (l := l) (h.extends hs) hq hin fuel
    rw [Program.labelCount_succ] at hmost ⊢
    unfold walkLog
    refine logs_getProgram ?_
    have hinit := hsum (.refl _)
    refine (hparts ⟨.refl, hcount⟩ (fun m hm => mem_children_init hm) (by omega)).bind fun t₁ log₁ h₁ => ?_
    refine (hkeep h₁ (by omega) (records_deepen _ 1)).bind fun t₂ log₂ h₂ => logs_getProgram ?_
    have hplace := records_placeClauseVars (h.refs.changes (hs.trans h₂.1)) (h₂.1.frame.valid hn)
      (hin.extends h₂.1.frame.nodes)
    refine (hkeep h₂ (by omega) hplace).bind fun t₃ log₃ h₃ => logs_getProgram ?_
    have hwalked := hsum h₃.1.frame.nodes
    refine (hparts h₃ (fun m hm => mem_children_walked hm) (by omega)).bind fun t₄ log₄ h₄ => ?_
    refine (hkeep h₄ (by omega) (records_deepen _ (-1))).bind fun t₅ log₅ h₅ => logs_logStop ?_
    have hstop : Counted p b l (c + (p.labelCount l fuel (p.node n).children +
        if (p.node n).defines l then 1 else 0)) s t₅ (⟨n, path, t₅⟩ :: log₅) := by
      refine ⟨h₅.1, ?_⟩
      have := h₅.2
      rw [count_passed_cons]
      omega
    have hvisit := records_visit (h.refs.changes (hs.trans h₅.1)) (h₅.1.frame.valid hn)
      (hin.extends h₅.1.frame.nodes) (upOf path)
    exact hkeep hstop hmost hvisit

/-- The labels that a walk of the body passes are different. -/
theorem nodup_passed_walkStops (h : Ready p b) {body : List NodeId} (hlabels : p.LabelsOnce body)
    (hbody : ∀ n ∈ body, b.Valid (p.area b.sink) n ∧ n.index < p.nodes.size) : (p.passed (b.walkStops body)).Nodup := by
  rw [List.nodup_iff_count_le_one]
  intro l
  have hsum : 0 + p.labelCount l (b.program.nodes.size + 3) body ≤ 1 := by
    rw [Nat.zero_add]
    exact hlabels.labelCount_le l _
  have hstart : Counted p b l 0 b b [] := ⟨.refl, Nat.le_refl 0⟩
  refine Logs.walkStops (logs_getProgram (logs_count_forM (fun n hn t log c ht hle => ?_) hstart hsum))
    fun t log ht => Nat.le_trans ht.2 hsum
  exact logs_count h _ ht.1 ht.2 hle (ht.1.frame.valid (hbody n hn).1) (Or.inl (hbody n hn).2)

/-- The node is a label that the scan before the walk found to loop. -/
def loopsBack (b : Flow) (x : Node) : Bool := x.defined?.any fun l => b.label? l = some true

/-- Where labels are different, each that loops and was passed counts once. -/
theorem Standing.depth_eq (h : Standing p b path s log) (hnodup : (p.passed log).Nodup) :
    s.depth = b.depth + p.loops path + (log.countP fun stop => b.loopsBack (p.node stop.node) : Nat) := by
  have hcount : (p.passed log).countP (fun l => b.label? l = some true) =
      log.countP fun stop => b.loopsBack (p.node stop.node) := by
    rw [Program.passed, List.countP_filterMap]
    refine List.countP_congr fun stop _ => ?_
    unfold loopsBack
    cases (p.node stop.node).defined? <;> simp
  rw [h.depth, hnodup.dedup, hcount]

end Flow

end EscapeAnalysis

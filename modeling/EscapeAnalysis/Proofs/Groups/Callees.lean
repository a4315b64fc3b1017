import Mathlib.Data.List.Perm.Subperm
import EscapeAnalysis.Proofs.Building.References
import EscapeAnalysis.Proofs.Groups.BottomUp

/-!
# What the body of a function calls

If no node of a body is below itself, then its nodes nest no deeper than the program has nodes, and the search for
calls goes deep enough to see each of them.

* `Program.Below p f n` : the node is in the body of `f`, or below a node of it;
* `Program.Acyclic` : no node of a body is below itself;
* `Program.Nests p k n` : no way down from the node passes more than `k` nodes;
* `Program.calls_of_below` : what a node of a body calls is called by the function in the call graph;
* `Program.Way p f ns n` : a way from the body of `f` down to the node;
* `Program.calls_of_target` : the search for calls also sees each of them if the nodes of a body lead back.
-/

namespace EscapeAnalysis

open Relation (ReflTransGen TransGen)

namespace Program

def Part (p : Program) (n m : NodeId) : Prop := m ∈ (p.node n).children

def Below (p : Program) (f : FuncId) (n : NodeId) : Prop :=
  ∃ m ∈ (p.func f).body.getD [], ReflTransGen p.Part m n

def Acyclic (p : Program) : Prop := ∀ f n, p.Below f n → ¬ TransGen p.Part n n

variable {p : Program} {f c : FuncId} {n m : NodeId} {k : Nat}

theorem Below.part (h : p.Below f n) (hm : p.Part n m) : p.Below f m := by
  obtain ⟨b, hb, hbn⟩ := h
  exact ⟨b, hb, hbn.tail hm⟩

theorem Closed.part (h : p.Closed) (hm : p.Part n m) : m.index < p.nodes.size :=
  h m (Or.inl ⟨n, Node.mem_refs_children hm⟩)

theorem Closed.below (h : p.Closed) (hn : p.Below f n) : n.index < p.nodes.size := by
  obtain ⟨b, hb, hbn⟩ := hn
  cases hbn with
  | refl => exact h n (Or.inr ⟨f, Func.mem_refs_body hb⟩)
  | tail _ hm => exact h.part hm

/-- Parts that rank below the nodes they are parts of do not lead back. -/
theorem not_cycle_of_rank (rank : NodeId → Nat)
    (h : ∀ i < p.nodes.size, ∀ m ∈ (p.node ⟨i⟩).children, rank m < rank ⟨i⟩) (n : NodeId) : ¬ TransGen p.Part n n := by
  have hpart {n m : NodeId} (hm : p.Part n m) : rank m < rank n := by
    by_cases hn : n.index < p.nodes.size
    · exact h n.index hn m hm
    · rw [Part, p.node_of_size_le (Nat.le_of_not_lt hn)] at hm
      cases hm
  have hpath {n m : NodeId} (hm : TransGen p.Part n m) : rank m < rank n := by
    induction hm with
    | single hm => exact hpart hm
    | tail _ hm ih => exact Nat.lt_trans (hpart hm) ih
  exact fun hn => Nat.lt_irrefl _ (hpath hn)

/-- Parts that are older than the nodes they are parts of do not lead back. -/
theorem acyclic_of_older (h : ∀ i < p.nodes.size, ∀ m ∈ (p.node ⟨i⟩).children, m.index < i) : p.Acyclic :=
  fun _ n _ => not_cycle_of_rank NodeId.index h n

/-! ## Depth -/

def Nests (p : Program) : Nat → NodeId → Prop
  | 0, _ => False
  | k + 1, n => ∀ m, p.Part n m → p.Nests k m

theorem Nests.succ (h : p.Nests k n) : p.Nests (k + 1) n := by
  induction k generalizing n with
  | zero => exact h.elim
  | succ k ih => exact fun m hm => ih (h m hm)

theorem Nests.mono {j : Nat} (h : p.Nests k n) (hk : k ≤ j) : p.Nests j n := by
  induction hk with
  | refl => exact h
  | step _ ih => exact ih.succ

theorem exists_path_of_not_nests (h : ¬ p.Nests k n) : ∃ ms, ms.length = k ∧ (n :: ms).IsChain p.Part := by
  induction k generalizing n with
  | zero => exact ⟨[], rfl, .singleton n⟩
  | succ k ih =>
    simp only [Nests, not_forall] at h
    obtain ⟨m, hm, hnests⟩ := h
    obtain ⟨ms, hlength, hchain⟩ := ih hnests
    exact ⟨m :: ms, by rw [List.length_cons, hlength], .cons_cons hm hchain⟩

/-- The nodes of a path that has parts left are nodes of the program. -/
theorem exists_path_of_not_nests_succ (h : ¬ p.Nests (k + 1) n) :
    ∃ ms, ms.length = k ∧ (n :: ms).IsChain p.Part ∧ ∀ m ∈ n :: ms, m.index < p.nodes.size := by
  have hlt {n m : NodeId} (hm : p.Part n m) : n.index < p.nodes.size := by
    by_contra hn
    rw [Part, p.node_of_size_le (Nat.le_of_not_lt hn)] at hm
    cases hm
  induction k generalizing n with
  | zero =>
    simp only [Nests, not_forall] at h
    obtain ⟨m, hm, _⟩ := h
    exact ⟨[], rfl, .singleton n, List.forall_mem_singleton.2 (hlt hm)⟩
  | succ k ih =>
    rw [Nests] at h
    simp only [not_forall] at h
    obtain ⟨m, hm, hnests⟩ := h
    obtain ⟨ms, hlength, hchain, hms⟩ := ih hnests
    exact ⟨m :: ms, by rw [List.length_cons, hlength], .cons_cons hm hchain, List.forall_mem_cons.2 ⟨hlt hm, hms⟩⟩

theorem pairwise_of_path {ms : List NodeId} (h : (n :: ms).IsChain p.Part) : (n :: ms).Pairwise (TransGen p.Part) :=
  List.isChain_iff_pairwise.1 (h.imp fun _ _ => TransGen.single)

theorem below_of_mem_path {ms : List NodeId} (h : (n :: ms).IsChain p.Part) (hm : m ∈ n :: ms) :
    ReflTransGen p.Part n m := by
  rcases List.mem_cons.1 hm with rfl | hm
  · exact .refl
  · exact ((List.pairwise_cons.1 (pairwise_of_path h)).1 m hm).to_reflTransGen

section Path

variable (hcycle : ∀ m, ReflTransGen p.Part n m → ¬ TransGen p.Part m m)
include hcycle

/-- A longer way down would pass a node twice. -/
theorem length_le_of_path {ms : List NodeId} (h : (n :: ms).IsChain p.Part)
    (hlt : ∀ m ∈ n :: ms, m.index < p.nodes.size) : (n :: ms).length ≤ p.nodes.size := by
  have hnodup : (n :: ms).Nodup := by
    refine (pairwise_of_path h).imp_of_mem fun {a b} ha _ hab he => ?_
    subst he
    exact hcycle a (below_of_mem_path h ha) hab
  have hsub : (n :: ms).map NodeId.index ⊆ List.range p.nodes.size := by
    intro i hi
    obtain ⟨m, hm, rfl⟩ := List.mem_map.1 hi
    exact List.mem_range.2 (hlt m hm)
  have hle := (List.Nodup.subperm (hnodup.map fun _ _ => NodeId.ext) hsub).length_le
  rwa [List.length_map, List.length_range] at hle

theorem nests_of_not_cycle (hp : p.Closed) (hn : n.index < p.nodes.size) : p.Nests p.nodes.size n := by
  by_contra h
  obtain ⟨ms, hlength, hchain⟩ := exists_path_of_not_nests h
  have hle := length_le_of_path hcycle hchain fun m hm => by
    cases below_of_mem_path hchain hm with
    | refl => exact hn
    | tail _ hm => exact hp.part hm
  rw [List.length_cons, hlength] at hle
  omega

/-- If parts may be missing, the way may end at one of them. -/
theorem nests_succ_of_not_cycle : p.Nests (p.nodes.size + 1) n := by
  by_contra h
  obtain ⟨ms, hlength, hchain, hlt⟩ := exists_path_of_not_nests_succ h
  have hle := length_le_of_path hcycle hchain hlt
  rw [List.length_cons, hlength] at hle
  omega

end Path

theorem nests_of_acyclic (hp : p.Closed) (hacyclic : p.Acyclic) (hn : p.Below f n) : p.Nests p.nodes.size n := by
  obtain ⟨b, hb, hbn⟩ := hn
  exact nests_of_not_cycle (fun m hm => hacyclic f m ⟨b, hb, hbn.trans hm⟩) hp (hp.below ⟨b, hb, hbn⟩)

theorem Nests.below (h : p.Nests k n) (hm : TransGen p.Part n m) : ∃ j < k, p.Nests j m := by
  have hpart {k : Nat} {n m : NodeId} (h : p.Nests k n) (hm : p.Part n m) : ∃ j < k, p.Nests j m := by
    cases k with
    | zero => exact h.elim
    | succ k => exact ⟨k, Nat.lt_succ_self k, h m hm⟩
  induction hm with
  | single hm => exact hpart h hm
  | tail _ hm ih =>
    obtain ⟨j, hj, hnests⟩ := ih
    obtain ⟨i, hi, hnests'⟩ := hpart hnests hm
    exact ⟨i, Nat.lt_trans hi hj, hnests'⟩

/-- Nodes that nest at all nest no deeper than the program has nodes. -/
theorem Nests.le_size (hp : p.Closed) (hn : n.index < p.nodes.size) (h : p.Nests k n) : p.Nests p.nodes.size n := by
  have hcycle {k : Nat} {m : NodeId} (h : p.Nests k m) : ¬ TransGen p.Part m m := by
    induction k using Nat.strongRecOn with
    | ind k ih =>
      intro hm
      obtain ⟨j, hj, hnests⟩ := h.below hm
      exact ih j hj hnests hm
  refine nests_of_not_cycle (fun m hm => ?_) hp hn
  rcases hm.cases_head with rfl | ⟨b, hb, hbm⟩
  · exact hcycle h
  · obtain ⟨j, _, hnests⟩ := h.below (TransGen.head' hb hbm)
    exact hcycle hnests

/-! ## Calls -/

theorem mem_calledBy (hn : p.Nests k n) (hm : ReflTransGen p.Part n m) (hc : p.target m = some c) :
    c ∈ p.calledBy k n := by
  induction k generalizing n with
  | zero => exact hn.elim
  | succ k ih =>
    rw [calledBy_succ, List.mem_append, Option.mem_toList]
    rcases hm.cases_head with rfl | ⟨n', hn', hm'⟩
    · exact Or.inr hc
    · exact Or.inl (List.mem_flatMap.2 ⟨n', hn', ih (hn n' hn') hm'⟩)

theorem mem_calleesIn {funcs : List FuncId} (hc : c ∈ funcs)
    (h : c ∈ ((p.func f).body.getD []).flatMap (p.calledBy (p.nodes.size + 1))) : c ∈ p.calleesIn funcs f := by
  rw [calleesIn_eq_calledBy]
  exact mem_firsts.2 ⟨hc, h⟩

theorem calls_of_below (hp : p.Closed) (hacyclic : p.Acyclic) (hf : f ∈ p.decls) (hn : p.Below f n)
    (hc : p.target n = some c) (hdecl : c ∈ p.decls) : (CallGraph.ofProgram p p.decls).Calls f c := by
  obtain ⟨b, hb, hbn⟩ := hn
  have hnests := nests_of_acyclic hp hacyclic ⟨b, hb, ReflTransGen.refl⟩
  have hcalled := mem_calledBy hnests.succ hbn hc
  unfold CallGraph.Calls CallGraph.ofProgram
  dsimp only
  rw [if_pos hf]
  exact mem_calleesIn hdecl (List.mem_flatMap.2 ⟨b, hb, hcalled⟩)

/-! ## Ways down

Every node below a body is at the end of a way that passes no node twice, so the search for calls gets there also if
the nodes of the body do lead back. -/

/-- `ns` are the nodes on a way from the body of `f` down to the node, the last one first. -/
inductive Way (p : Program) (f : FuncId) : List NodeId → NodeId → Prop where
  | body {n : NodeId} (h : n ∈ (p.func f).body.getD []) : Way p f [n] n
  | part {ns : List NodeId} {n m : NodeId} (h : Way p f ns n) (hm : p.Part n m) : Way p f (m :: ns) m

variable {ns : List NodeId}

theorem exists_way (h : p.Below f n) : ∃ ns, p.Way f ns n := by
  obtain ⟨b, hb, hn⟩ := h
  induction hn with
  | refl => exact ⟨[b], .body hb⟩
  | tail _ hm ih =>
    obtain ⟨ns, hns⟩ := ih
    exact ⟨_ :: ns, hns.part hm⟩

theorem below_of_way (h : p.Way f ns n) : p.Below f n := by
  induction h with
  | body h => exact ⟨_, h, .refl⟩
  | part _ hm ih => exact ih.part hm

theorem Way.suffix (h : p.Way f ns n) (hm : m ∈ ns) : ∃ ms, p.Way f ms m ∧ ms <:+ ns := by
  induction h with
  | body h =>
    rw [List.mem_singleton.1 hm]
    exact ⟨_, .body h, List.suffix_rfl⟩
  | @part ns n k h hk ih =>
    rcases List.mem_cons.1 hm with rfl | hm
    · exact ⟨_, h.part hk, List.suffix_rfl⟩
    · obtain ⟨ms, hms, hsuffix⟩ := ih hm
      exact ⟨ms, hms, hsuffix.trans (List.suffix_cons k ns)⟩

theorem Way.simple (h : p.Way f ns n) : ∃ ms, p.Way f ms n ∧ ms.Nodup := by
  induction h with
  | body h => exact ⟨_, .body h, List.nodup_singleton _⟩
  | @part _ n m _ hm ih =>
    obtain ⟨ms, hms, hnodup⟩ := ih
    by_cases hmem : m ∈ ms
    · obtain ⟨ks, hks, hsuffix⟩ := hms.suffix hmem
      exact ⟨ks, hks, hnodup.sublist hsuffix.sublist⟩
    · exact ⟨m :: ms, hms.part hm, List.nodup_cons.2 ⟨hmem, hnodup⟩⟩

theorem Way.length_le (hp : p.Closed) (h : p.Way f ns n) (hnodup : ns.Nodup) : ns.length ≤ p.nodes.size := by
  have hsub : ns.map NodeId.index ⊆ List.range p.nodes.size := by
    intro i hi
    obtain ⟨m, hm, rfl⟩ := List.mem_map.1 hi
    obtain ⟨ms, hms, _⟩ := h.suffix hm
    exact List.mem_range.2 (hp.below (below_of_way hms))
  have hle := (List.Nodup.subperm (hnodup.map fun _ _ => NodeId.ext) hsub).length_le
  rwa [List.length_map, List.length_range] at hle

theorem calledBy_subset (n : NodeId) {k l : Nat} (h : k ≤ l) : p.calledBy k n ⊆ p.calledBy l n := by
  induction l generalizing k n with
  | zero => rw [Nat.le_zero.1 h]; exact List.Subset.refl _
  | succ l ih =>
    cases k with
    | zero => exact List.nil_subset _
    | succ k =>
      intro c hc
      rw [calledBy_succ, List.mem_append, List.mem_flatMap] at hc ⊢
      exact hc.imp_left fun ⟨m, hm, hc⟩ => ⟨m, hm, ih m (Nat.le_of_succ_le_succ h) hc⟩

/-- What is called below the end of a way is called below its start. -/
theorem Way.calledBy (h : p.Way f ns n) :
    ∃ b ∈ (p.func f).body.getD [], ∀ k, p.calledBy (k + 1) n ⊆ p.calledBy (k + ns.length) b := by
  induction h with
  | body h => exact ⟨_, h, fun k => List.Subset.refl _⟩
  | @part ns n m _ hm ih =>
    obtain ⟨b, hb, hsub⟩ := ih
    refine ⟨b, hb, fun k c hc => ?_⟩
    have hn : c ∈ p.calledBy (k + 1 + 1) n := by
      rw [calledBy_succ]
      exact List.mem_append_left _ (List.mem_flatMap.2 ⟨m, hm, hc⟩)
    have hcalled := hsub (k + 1) hn
    rwa [Nat.add_right_comm, Nat.add_assoc, ← List.length_cons] at hcalled

theorem calls_of_target (hp : p.Closed) (hf : f ∈ p.decls) (hn : p.Below f n) (hc : p.target n = some c)
    (hdecl : c ∈ p.decls) : (CallGraph.ofProgram p p.decls).Calls f c := by
  obtain ⟨_, hway⟩ := exists_way hn
  obtain ⟨ns, hway, hnodup⟩ := hway.simple
  obtain ⟨b, hb, hsub⟩ := hway.calledBy
  have htarget : c ∈ p.calledBy (0 + 1) n := by
    rw [calledBy_succ]
    exact List.mem_append_right _ (Option.mem_toList.2 hc)
  have hcalled := calledBy_subset b (Nat.le_succ_of_le (hway.length_le hp hnodup)) (Nat.zero_add _ ▸ hsub 0 htarget)
  unfold CallGraph.Calls CallGraph.ofProgram
  dsimp only
  rw [if_pos hf]
  exact mem_calleesIn hdecl (List.mem_flatMap.2 ⟨b, hb, hcalled⟩)

end Program

end EscapeAnalysis

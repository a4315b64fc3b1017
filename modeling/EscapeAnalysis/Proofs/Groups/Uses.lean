import Mathlib.Data.List.NodupEquivFin
import EscapeAnalysis.Proofs.Groups.Callees

/-!
# The uses of nodes

A node is used where it stands in a body, and where it is a part of a node that is used. A place below a body is given
by the positions that lead there, so a node that is twice a part of another one has two places.

* `Program.At p f path n` : the node stands at a place below the body of `f`;
* `Program.UsedOnce p` : whatever is no name has at most one place;
* `UsedOnce.parent_eq`, `UsedOnce.count_children` : then it is part of one node, and once;
* `usedOnce_of_table` : a table of all places shows it.
-/

namespace EscapeAnalysis.Program

variable {p : Program} {f g : FuncId} {path path' : List Nat} {n m k : NodeId}

/-! ## Places -/

/-- The node stands below the body of `f` where the positions lead, the last one first. -/
inductive At (p : Program) (f : FuncId) : List Nat → NodeId → Prop where
  | body {i : Nat} {n : NodeId} (h : ((p.func f).body.getD [])[i]? = some n) : At p f [i] n
  | part {path : List Nat} {i : Nat} {n m : NodeId} (h : At p f path n) (hm : (p.node n).children[i]? = some m) :
    At p f (i :: path) m

theorem exists_at (h : p.Below f n) : ∃ path, p.At f path n := by
  obtain ⟨b, hb, hn⟩ := h
  induction hn with
  | refl =>
    obtain ⟨i, hi⟩ := List.mem_iff_getElem?.1 hb
    exact ⟨[i], .body hi⟩
  | tail _ hm ih =>
    obtain ⟨path, hpath⟩ := ih
    obtain ⟨i, hi⟩ := List.mem_iff_getElem?.1 hm
    exact ⟨i :: path, hpath.part hi⟩

/-- At a place stands one node. -/
theorem At.eq (h : p.At f path n) (h' : p.At f path m) : n = m := by
  induction h generalizing m with
  | body h =>
    cases h' with
    | body h' => exact Option.some.inj (h.symm.trans h')
    | part h' _ => nomatch h'
  | part h hm ih =>
    cases h' with
    | body _ => nomatch h
    | part h' hm' =>
      rw [ih h'] at hm
      exact Option.some.inj (hm.symm.trans hm')

/-! ## Nodes with one place -/

/-- Whatever is no name is reached at most once from all bodies. -/
def UsedOnce (p : Program) : Prop :=
  ∀ n, (p.node n).op ≠ .name → ∀ f path, p.At f path n → ∀ g path', p.At g path' n → f = g ∧ path = path'

namespace UsedOnce

variable (hp : p.UsedOnce) (hop : (p.node m).op ≠ .name)
include hp hop

theorem func_eq (hf : p.Below f m) (hg : p.Below g m) : f = g := by
  obtain ⟨path, hpath⟩ := exists_at hf
  obtain ⟨path', hpath'⟩ := exists_at hg
  exact (hp m hop f path hpath g path' hpath').1

theorem parent_eq (hn : p.Below f n) (hk : p.Below g k) (hm : m ∈ (p.node n).children)
    (hm' : m ∈ (p.node k).children) : n = k := by
  obtain ⟨path, hpath⟩ := exists_at hn
  obtain ⟨path', hpath'⟩ := exists_at hk
  obtain ⟨i, hi⟩ := List.mem_iff_getElem?.1 hm
  obtain ⟨j, hj⟩ := List.mem_iff_getElem?.1 hm'
  obtain ⟨rfl, he⟩ := hp m hop f _ (hpath.part hi) g _ (hpath'.part hj)
  rw [List.cons.injEq] at he
  rw [← he.2] at hpath'
  exact hpath.eq hpath'

/-- A statement of a body is part of no node. -/
theorem not_mem_children (hbody : m ∈ (p.func f).body.getD []) (hn : p.Below g n) : m ∉ (p.node n).children := by
  intro hm
  obtain ⟨i, hi⟩ := List.mem_iff_getElem?.1 hbody
  obtain ⟨path, hpath⟩ := exists_at hn
  obtain ⟨j, hj⟩ := List.mem_iff_getElem?.1 hm
  obtain ⟨rfl, he⟩ := hp m hop f _ (.body hi) g _ (hpath.part hj)
  rw [List.cons.injEq] at he
  rw [← he.2] at hpath
  nomatch hpath

theorem count_children (hn : p.Below f n) : (p.node n).children.count m ≤ 1 := by
  by_contra hcount
  have htwice := List.duplicate_iff_two_le_count.2 (Nat.lt_of_not_le hcount)
  obtain ⟨i, j, hij, hi, hj⟩ := List.duplicate_iff_exists_distinct_get.1 htwice
  obtain ⟨path, hpath⟩ := exists_at hn
  have hat (k : Fin (p.node n).children.length) (hk : m = (p.node n).children.get k) : p.At f (k.val :: path) m :=
    hpath.part (by rw [hk]; exact List.getElem?_eq_getElem k.isLt)
  have he := (hp m hop f _ (hat i hi) f _ (hat j hj)).2
  rw [List.cons.injEq] at he
  exact absurd he.1 (Nat.ne_of_lt hij)

end UsedOnce

/-! ## Tables of places -/

theorem At.mem_places (places : List (FuncId × NodeId × List Nat))
    (hbody : ∀ i < p.funcs.size, ∀ x ∈ ((p.func ⟨i⟩).body.getD []).zipIdx, (⟨i⟩, x.1, [x.2]) ∈ places)
    (hpart : ∀ x ∈ places, ∀ y ∈ (p.node x.2.1).children.zipIdx, (x.1, y.1, y.2 :: x.2.2) ∈ places)
    (h : p.At f path n) : (f, n, path) ∈ places := by
  induction h with
  | @body i n h =>
    have hlt : f.index < p.funcs.size := by
      refine Nat.lt_of_not_le fun hle => ?_
      rw [p.func_of_size_le hle] at h
      cases h
    exact hbody f.index hlt (n, i) (List.mk_mem_zipIdx_iff_getElem?.2 h)
  | @part _ i n m _ hm ih => exact hpart _ ih (m, i) (List.mk_mem_zipIdx_iff_getElem?.2 hm)

/-- No two rows of a table of all places have the same node, names apart. -/
theorem usedOnce_of_table (places : List (FuncId × NodeId × List Nat))
    (hplaces : ∀ f path n, p.At f path n → (f, n, path) ∈ places)
    (honce : ∀ x ∈ places, (p.node x.2.1).op ≠ .name → ∀ y ∈ places, x.2.1 = y.2.1 → x = y) : p.UsedOnce := by
  intro n hop f path hf g path' hg
  have he := honce _ (hplaces f path n hf) hop _ (hplaces g path' n hg) rfl
  rw [Prod.mk.injEq, Prod.mk.injEq] at he
  exact ⟨he.1, he.2.2⟩

end EscapeAnalysis.Program

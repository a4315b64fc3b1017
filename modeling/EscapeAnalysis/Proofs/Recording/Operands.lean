import Mathlib.Data.Finset.Card
import EscapeAnalysis.Proofs.Recording.Edges

/-!
# Operands, and the wholes that destinations are pieces of

The value of an expression is followed from operand to operand, and so is a destination, from a field or an element to
the whole that it is a piece of. If no chain of operands leads back, a program with `k` nodes has none that is longer than
`k`, and the fuel of both searches is enough.

* `Program.Operand p n m`, `Program.OperandsEnd` : the operands of expressions, none of them below itself;
* `exists_rank`, `Program.OperandsEnd.exists_rank` : the nodes rank by how far their operands go;
* `Program.IsWhole p dst b` : the destination is a piece of `b`, and `b` is no piece of anything;
* `Program.place_of_isWhole`, `Program.exists_isWhole_or` : what a destination stands for.
-/

namespace EscapeAnalysis

open Relation (ReflTransGen TransGen)

/-! ## Expressions without cycles -/

/-- A relation that leads on from the first `k` nodes only, and not back, ranks them. -/
theorem exists_rank {R : NodeId → NodeId → Prop} {k : Nat} (hlt : ∀ n m, R n m → n.index < k)
    (hcycle : ∀ n, ¬ TransGen R n n) : ∃ rank : NodeId → Nat, (∀ n, rank n ≤ k) ∧ ∀ n m, R n m → rank m < rank n := by
  classical
  -- A node ranks by what comes after it, itself included.
  let after (n : NodeId) : Finset Nat := (Finset.range k).filter fun i => ReflTransGen R n ⟨i⟩
  refine ⟨fun n => (after n).card, fun n => ?_, fun n m hm => ?_⟩
  · calc (after n).card ≤ (Finset.range k).card := Finset.card_filter_le _ _
      _ = k := Finset.card_range k
  · refine Finset.card_lt_card (Finset.ssubset_iff_subset_ne.2 ⟨fun i hi => ?_, fun he => ?_⟩)
    · rw [Finset.mem_filter] at hi ⊢
      exact ⟨hi.1, .head hm hi.2⟩
    · have hn : n.index ∈ after m := by
        rw [he, Finset.mem_filter, Finset.mem_range]
        exact ⟨hlt n m hm, .refl⟩
      exact hcycle n (TransGen.head' hm (Finset.mem_filter.1 hn).2)

namespace Program

variable {p : Program} {n m b dst : NodeId}

def Operand (p : Program) (n m : NodeId) : Prop := m ∈ (p.node n).operands

/-- No chain of operands leads back. -/
def OperandsEnd (p : Program) : Prop := ∀ n, ¬ TransGen p.Operand n n

theorem Operand.lt_size (h : p.Operand n m) : n.index < p.nodes.size := by
  by_contra hn
  rw [Operand, p.node_of_size_le (Nat.le_of_not_lt hn)] at h
  cases h

/-- Operands that are older than their expressions do not lead back. -/
theorem operandsEnd_of_older (h : ∀ n m, p.Operand n m → m.index < n.index) : p.OperandsEnd := by
  have hpath {n m : NodeId} (hm : TransGen p.Operand n m) : m.index < n.index := by
    induction hm with
    | single hm => exact h _ _ hm
    | tail _ hm ih => exact Nat.lt_trans (h _ _ hm) ih
  exact fun n hn => Nat.lt_irrefl _ (hpath hn)

theorem OperandsEnd.exists_rank (h : p.OperandsEnd) :
    ∃ rank : NodeId → Nat, (∀ n, rank n ≤ p.nodes.size) ∧ ∀ n m, p.Operand n m → rank m < rank n :=
  EscapeAnalysis.exists_rank (fun _ _ hm => hm.lt_size) h

/-! ## Wholes -/

/-- The destination is a piece of `b`, or a piece of a piece of it and so on, and `b` is neither a field nor an element
of an array. -/
structure IsWhole (p : Program) (dst b : NodeId) : Prop where
  pieces : ReflTransGen p.PieceOf dst b
  not_field : (p.node b).op ≠ .dot
  not_piece : ∀ m, ¬ p.PieceOf b m

theorem PieceOf.operand (h : p.PieceOf n m) : p.Operand n m := by
  cases h with
  | field hop hleft | element hop hleft => simp [Operand, Node.operands, Op.passes, hop, hleft]

theorem PieceOf.place (h : p.PieceOf n m) (fuel : Nat) : p.place (fuel + 1) n = p.place fuel m := by
  rw [place_succ, pieceOf_iff.1 h]
  rfl

theorem place_of_not_pieceOf (hfield : (p.node b).op ≠ .dot) (hpiece : ∀ m, ¬ p.PieceOf b m) (fuel : Nat) :
    p.place (fuel + 1) b = p.wholePlace b := by
  have hbase : p.base? b = none := Option.eq_none_iff_forall_ne_some.2 fun m hm => hpiece m (pieceOf_iff.2 hm)
  rw [place_succ, hbase, Option.elim_none, if_neg hfield]

theorem exists_isWhole_or {rank : NodeId → Nat} (hrank : ∀ n m, p.Operand n m → rank m < rank n) (n : NodeId) :
    (∃ b, p.IsWhole n b) ∨ ∃ c, ReflTransGen p.PieceOf n c ∧ (p.node c).op = .dot ∧ (p.node c).left = none := by
  induction hk : rank n using Nat.strongRecOn generalizing n with
  | ind k ih =>
    by_cases hpiece : ∃ m, p.PieceOf n m
    · obtain ⟨m, hm⟩ := hpiece
      rcases ih (rank m) (hk ▸ hrank n m hm.operand) m rfl with ⟨b, hb⟩ | ⟨c, hc, hop⟩
      · exact Or.inl ⟨b, .head hm hb.pieces, hb.not_field, hb.not_piece⟩
      · exact Or.inr ⟨c, .head hm hc, hop⟩
    · rw [not_exists] at hpiece
      by_cases hop : (p.node n).op = .dot
      · refine Or.inr ⟨n, .refl, hop, ?_⟩
        cases hleft : (p.node n).left with
        | none => rfl
        | some m => exact absurd (.field hop hleft) (hpiece m)
      · exact Or.inl ⟨n, .refl, hop, hpiece⟩

section Ranked

variable {rank : NodeId → Nat} (hrank : ∀ n m, p.Operand n m → rank m < rank n) {fuel : Nat}
include hrank

theorem place_of_pieces {r : Except EscapeError Place} (h : ReflTransGen p.PieceOf dst b)
    (hb : ∀ fuel, p.place (fuel + 1) b = r) (hfuel : rank dst < fuel) : p.place fuel dst = r := by
  induction h using ReflTransGen.head_induction_on generalizing fuel with
  | refl =>
    cases fuel with
    | zero => exact absurd hfuel (Nat.not_lt_zero _)
    | succ fuel => exact hb fuel
  | @head n m hm _ ih =>
    cases fuel with
    | zero => exact absurd hfuel (Nat.not_lt_zero _)
    | succ fuel =>
      rw [hm.place]
      exact ih (Nat.lt_of_lt_of_le (hrank n m hm.operand) (Nat.le_of_lt_succ hfuel))

theorem place_of_isWhole (h : p.IsWhole dst b) (hfuel : rank dst < fuel) : p.place fuel dst = p.wholePlace b :=
  place_of_pieces hrank h.pieces (place_of_not_pieceOf h.not_field h.not_piece) hfuel

theorem place_of_lost_operand (h : ReflTransGen p.PieceOf dst b) (hop : (p.node b).op = .dot)
    (hleft : (p.node b).left = none) (hfuel : rank dst < fuel) : p.place fuel dst = .ok .nowhere :=
  place_of_pieces hrank h (fun fuel => by simp [place, Node.isBlank, hop, hleft]) hfuel

end Ranked

end Program

end EscapeAnalysis

import Mathlib.Data.Finset.Dedup
import EscapeAnalysis.Proofs.Groups.BottomUp

/-!
# Groups of functions with closures

A closure stays in the group of the function that defines it, although the search follows no edge back from the
closure. Where every closure is defined in one place (`Program.Nested`), the groups are therefore the components
of the call graph with such edges added (`Program.Linked`).

* `CallGraph.linked_last` : each function of a group leads to the last one, with the added edges;
* `CallGraph.calls_last` : a function that is no closure does so without them;
* `CallGraph.mem_group_iff` : a group is one component;
* `CallGraph.not_recursive_iff` : when a group is not recursive.
-/

namespace EscapeAnalysis

open Relation (ReflTransGen TransGen)

namespace Program

/-- The function is a closure inside the other one. -/
def Inside (p : Program) (c o : FuncId) : Prop := (p.func c).outer = some o

/-- Each closure is defined by the function around it and called or defined nowhere else, and lies inside a
function that is no closure. -/
structure Nested (p : Program) (funcs : List FuncId) : Prop where
  outer_mem : ∀ c ∈ funcs, ∀ o, p.Inside c o → o ∈ funcs
  defined : ∀ c ∈ funcs, ∀ o, p.Inside c o → c ∈ (CallGraph.ofProgram p funcs).callees o
  only : ∀ c ∈ funcs, ∀ o, p.Inside c o → ∀ f ∈ funcs, c ∈ (CallGraph.ofProgram p funcs).callees f → f = o
  ends : ∀ c ∈ funcs, ∃ r, (p.func r).isClosure = false ∧ ReflTransGen p.Inside c r

/-- Calls, and the edges from closures to the functions around them. -/
def Linked (p : Program) (funcs : List FuncId) (f c : FuncId) : Prop :=
  (CallGraph.ofProgram p funcs).Calls f c ∨ f ∈ funcs ∧ p.Inside f c

theorem isClosure_eq_true {p : Program} {c : FuncId} : (p.func c).isClosure = true ↔ ∃ o, p.Inside c o :=
  Option.isSome_iff_exists

end Program

namespace CallGraph

variable {p : Program} {funcs : List FuncId}

/-- What calls something is one of the functions. -/
theorem mem_of_calls {f c : FuncId} (h : (ofProgram p funcs).Calls f c) : f ∈ funcs := by
  unfold Calls ofProgram at h
  dsimp only at h
  split at h
  · assumption
  · simp at h

theorem linked_of_calls {f c : FuncId} (h : ReflTransGen (ofProgram p funcs).Calls f c) :
    ReflTransGen (p.Linked funcs) f c :=
  ReflTransGen.mono (fun _ _ h => Or.inl h) f c h

theorem reaches_of_inside (h : p.Nested funcs) {c r : FuncId} (hc : c ∈ funcs) (hcr : ReflTransGen p.Inside c r) :
    r ∈ funcs ∧ ReflTransGen (ofProgram p funcs).Calls r c := by
  induction hcr with
  | refl => exact ⟨hc, .refl⟩
  | tail _ hout ih => exact ⟨h.outer_mem _ ih.1 _ hout, ih.2.head (h.defined _ ih.1 _ hout)⟩

theorem grouped_of_mem (h : p.Nested funcs) {f : FuncId} (hf : f ∈ funcs) : Grouped (ofProgram p funcs).groups f := by
  obtain ⟨r, hr, hfr⟩ := h.ends f hf
  obtain ⟨hrf, hreach⟩ := reaches_of_inside h hf hfr
  rw [Grouped, mem_groups_iff (closed_ofProgram p funcs)]
  exact ⟨r, hrf, by rw [isClosure_ofProgram hrf, hr], hreach⟩

/-! ## One group -/

section Group

variable {G : Group} {pre : List Group} {last : FuncId} {number : FuncId → Nat} (h : p.Nested funcs)
  (hG : G.Closes (ofProgram p funcs) (Grouped pre) last number) (hmem : ∀ f ∈ G.funcs, f ∈ funcs)

include h hG hmem

/-- A closure of a group was entered from the function around it, before it. -/
theorem outer_of_closes {c o : FuncId} (hc : c ∈ G.funcs) (hout : p.Inside c o) :
    o ∈ G.funcs ∧ number o < number c := by
  have hne : c ≠ last := by
    rintro rfl
    have hcl := hG.not_closure
    rw [isClosure_ofProgram (hmem c hc), Program.isClosure_eq_true.2 ⟨o, hout⟩] at hcl
    cases hcl
  obtain ⟨f, hf, hcall, hlt⟩ := hG.caller c hc hne
  have hfo : f = o := h.only c (hmem c hc) o hout f (hmem f hf) hcall
  exact ⟨hfo ▸ hf, hfo ▸ hlt⟩

theorem linked_last {f : FuncId} (hf : f ∈ G.funcs) : ReflTransGen (p.Linked funcs) f last := by
  induction hn : number f using Nat.strongRecOn generalizing f with
  | ind n ih =>
    by_cases hlast : f = last
    · rw [hlast]
    · cases hcl : (p.func f).isClosure with
      | true =>
        obtain ⟨o, hout⟩ := Program.isClosure_eq_true.1 hcl
        obtain ⟨ho, hlt⟩ := outer_of_closes h hG hmem hf hout
        exact (ih _ (hn ▸ hlt) ho rfl).head (Or.inr ⟨hmem f hf, hout⟩)
      | false =>
        rw [← isClosure_ofProgram (hmem f hf)] at hcl
        obtain ⟨x, hx, c, hc, hfx, hxc, hlt, _⟩ := hG.back f hf hlast hcl
        exact (linked_of_calls (hfx.tail hxc)).trans (ih _ (hn ▸ hlt) hc rfl)

/-- The search comes back from a function that is no closure to one that is no closure either: a closure is only
called by the function around it, which has a smaller number. -/
theorem calls_last {f : FuncId} (hf : f ∈ G.funcs) (hcl : (p.func f).isClosure = false) :
    ReflTransGen (ofProgram p funcs).Calls f last := by
  induction hn : number f using Nat.strongRecOn generalizing f with
  | ind n ih =>
    by_cases hlast : f = last
    · rw [hlast]
    · rw [← isClosure_ofProgram (hmem f hf)] at hcl
      obtain ⟨x, hx, c, hc, hfx, hxc, hlt, hle⟩ := hG.back f hf hlast hcl
      refine (hfx.tail hxc).trans (ih _ (hn ▸ hlt) hc ?_ rfl)
      cases hcl' : (p.func c).isClosure with
      | false => rfl
      | true =>
        obtain ⟨o, hout⟩ := Program.isClosure_eq_true.1 hcl'
        have hlt' := (outer_of_closes h hG hmem hc hout).2
        rw [← h.only c (hmem c hc) o hout x (hmem x hx) hxc] at hlt'
        omega

/-- In a group that is not recursive, the last function is the only one that is no closure. -/
theorem eq_last_of_not_closure (hrec : ¬ TransGen (ofProgram p funcs).Calls last last) {f : FuncId}
    (hf : f ∈ G.funcs) (hcl : (p.func f).isClosure = false) : f = last := by
  by_contra hne
  rcases ReflTransGen.cases_head_iff.1 (calls_last h hG hmem hf hcl) with he | ⟨c, hfc, hc⟩
  · exact hne he
  · exact hrec (TransGen.trans_right (hG.reaches f hf) (TransGen.head' hfc hc))

theorem inside_last (hrec : ¬ TransGen (ofProgram p funcs).Calls last last) {f : FuncId}
    (hf : f ∈ G.funcs) : ReflTransGen p.Inside f last := by
  induction hn : number f using Nat.strongRecOn generalizing f with
  | ind n ih =>
    cases hcl : (p.func f).isClosure with
    | false => rw [eq_last_of_not_closure h hG hmem hrec hf hcl]
    | true =>
      obtain ⟨o, hout⟩ := Program.isClosure_eq_true.1 hcl
      obtain ⟨ho, hlt⟩ := outer_of_closes h hG hmem hf hout
      exact (ih _ (hn ▸ hlt) ho rfl).head hout

/-- A closure that leads back to itself does so through the function around it, which then does so too. -/
theorem not_cycle (hrec : ¬ TransGen (ofProgram p funcs).Calls last last) {f : FuncId}
    (hf : f ∈ G.funcs) : ¬ TransGen (ofProgram p funcs).Calls f f := by
  induction hn : number f using Nat.strongRecOn generalizing f with
  | ind n ih =>
    intro hcycle
    cases hcl : (p.func f).isClosure with
    | false =>
      rw [eq_last_of_not_closure h hG hmem hrec hf hcl] at hcycle
      exact hrec hcycle
    | true =>
      obtain ⟨o, hout⟩ := Program.isClosure_eq_true.1 hcl
      obtain ⟨ho, hlt⟩ := outer_of_closes h hG hmem hf hout
      obtain ⟨x, hfx, hxf⟩ := TransGen.tail'_iff.1 hcycle
      have hxo : x = o := h.only f (hmem f hf) o hout x (mem_of_calls hxf) hxf
      rw [hxo] at hfx hxf
      exact ih _ (hn ▸ hlt) ho rfl (TransGen.head' hxf hfx)

end Group

/-! ## All groups -/

theorem mem_of_mem_group {G : Group} (hG : G ∈ (ofProgram p funcs).groups) : ∀ f ∈ G.funcs, f ∈ funcs :=
  fun _ hf => mem_of_grouped ⟨G, hG, hf⟩

theorem exists_closes {G : Group} (hG : G ∈ (ofProgram p funcs).groups) : ∃ pre last number,
    (ofProgram p funcs).Built pre ∧ (ofProgram p funcs).Built (pre ++ [G]) ∧ pre ++ [G] ⊆ (ofProgram p funcs).groups ∧
      G.Closes (ofProgram p funcs) (Grouped pre) last number := by
  have hbuilt := built_groups (closed_ofProgram p funcs)
  obtain ⟨pre, post, hsplit⟩ := List.append_of_mem hG
  rw [hsplit] at hbuilt ⊢
  obtain ⟨last, number, hcloses⟩ := hbuilt.closes
  rw [List.append_cons] at hbuilt ⊢
  exact ⟨pre, last, number, hbuilt.left.left, hbuilt.left, List.subset_append_left _ _, hcloses⟩

/-- The edges back from closures stay in their groups. -/
theorem grouped_of_linked (h : p.Nested funcs) {groups : List Group} (hbuilt : (ofProgram p funcs).Built groups)
    (hsub : groups ⊆ (ofProgram p funcs).groups) {f c : FuncId} (hf : Grouped groups f)
    (hfc : ReflTransGen (p.Linked funcs) f c) : Grouped groups c := by
  induction hfc with
  | refl => exact hf
  | tail _ hlink ih =>
    obtain ⟨G, hG, hfG⟩ := ih
    rcases hlink with hcall | ⟨_, hout⟩
    · exact hbuilt.callees G hG _ hfG _ hcall
    · obtain ⟨_, _, _, _, _, _, hcloses⟩ := exists_closes (hsub hG)
      exact ⟨G, hG, (outer_of_closes h hcloses (mem_of_mem_group (hsub hG)) hfG hout).1⟩

theorem mem_group_iff (h : p.Nested funcs) {G : Group} (hG : G ∈ (ofProgram p funcs).groups) {f : FuncId}
    (hf : f ∈ G.funcs) (c : FuncId) :
    c ∈ G.funcs ↔ ReflTransGen (p.Linked funcs) f c ∧ ReflTransGen (p.Linked funcs) c f := by
  obtain ⟨pre, last, number, hpre, hbuilt, hsub, hcloses⟩ := exists_closes hG
  have hmem := mem_of_mem_group hG
  constructor
  · intro hc
    exact ⟨(linked_last h hcloses hmem hf).trans (linked_of_calls (hcloses.reaches c hc)),
      (linked_last h hcloses hmem hc).trans (linked_of_calls (hcloses.reaches f hf))⟩
  · rintro ⟨hfc, hcf⟩
    have hc := grouped_of_linked h hbuilt hsub (grouped_append.2 (Or.inr (grouped_singleton.2 hf))) hfc
    rcases grouped_append.1 hc with hc | hc
    · exact absurd (grouped_of_linked h hpre (fun H hH => hsub (List.mem_append_left _ hH)) hc hcf)
        (hcloses.not_done f hf)
    · exact grouped_singleton.1 hc

/-- A closure shares the group of the function around it. -/
theorem mem_group_of_inside (h : p.Nested funcs) {G : Group} (hG : G ∈ (ofProgram p funcs).groups) {c o : FuncId}
    (hc : c ∈ funcs) (hout : p.Inside c o) (ho : o ∈ G.funcs) : c ∈ G.funcs :=
  (mem_group_iff h hG ho c).2 ⟨.single (Or.inl (h.defined c hc o hout)), .single (Or.inr ⟨hc, hout⟩)⟩

theorem not_recursive_iff (h : p.Nested funcs) {G : Group} (hG : G ∈ (ofProgram p funcs).groups) :
    G.recursive = false ↔
      (∃ f ∈ G.funcs, (p.func f).isClosure = false ∧ ∀ c, c ∈ G.funcs ↔ c ∈ funcs ∧ ReflTransGen p.Inside c f) ∧
      ∀ f ∈ G.funcs, ¬ TransGen (ofProgram p funcs).Calls f f := by
  obtain ⟨pre, last, number, hpre, hbuilt, hsub, hcloses⟩ := exists_closes hG
  have hmem := mem_of_mem_group hG
  have hlast : last ∈ G.funcs := List.mem_of_getLast? hcloses.getLast
  rw [← Bool.not_eq_true, Group.Closes.recursive_iff hpre hcloses]
  constructor
  · intro hrec
    refine ⟨⟨last, hlast, ?_, fun c => ⟨fun hc => ⟨hmem c hc, inside_last h hcloses hmem hrec hc⟩, ?_⟩⟩,
      fun f hf => not_cycle h hcloses hmem hrec hf⟩
    · rw [← isClosure_ofProgram (hmem last hlast)]
      exact hcloses.not_closure
    · rintro ⟨hc, hin⟩
      induction hin using ReflTransGen.head_induction_on with
      | refl => exact hlast
      | head hout _ ih => exact mem_group_of_inside h hG hc hout (ih (h.outer_mem _ hc _ hout))
  · rintro ⟨_, hacyclic⟩
    exact hacyclic last hlast

/-! ## The order of the functions -/

/-- The groups as sets of functions, with their flags. -/
def components (g : CallGraph) : Finset (Finset FuncId × Bool) :=
  (g.groups.map fun G => (G.funcs.toFinset, G.recursive)).toFinset

theorem callees_congr {funcs' : List FuncId} (hmem : ∀ f, f ∈ funcs' ↔ f ∈ funcs) :
    (ofProgram p funcs').callees = (ofProgram p funcs).callees := by
  funext f
  simp only [ofProgram, Program.calleesIn_eq, Program.firsts, hmem]

theorem nested_congr {funcs' : List FuncId} (hmem : ∀ f, f ∈ funcs' ↔ f ∈ funcs) (h : p.Nested funcs) :
    p.Nested funcs' := by
  refine ⟨?_, ?_, ?_, ?_⟩
  · simpa only [hmem] using h.outer_mem
  · simpa only [hmem, callees_congr hmem] using h.defined
  · simpa only [hmem, callees_congr hmem] using h.only
  · simpa only [hmem] using h.ends

theorem linked_congr {funcs' : List FuncId} (hmem : ∀ f, f ∈ funcs' ↔ f ∈ funcs) :
    p.Linked funcs' = p.Linked funcs := by
  funext f c
  simp only [Program.Linked, Calls, hmem, callees_congr hmem]

theorem components_subset {funcs' : List FuncId} (hmem : ∀ f, f ∈ funcs' ↔ f ∈ funcs) (h : p.Nested funcs) :
    (ofProgram p funcs).components ⊆ (ofProgram p funcs').components := by
  have h' := nested_congr hmem h
  have hcalls : (ofProgram p funcs').Calls = (ofProgram p funcs).Calls := by
    funext f c
    simp only [Calls, callees_congr hmem]
  intro x hx
  obtain ⟨G, hG, rfl⟩ := List.mem_map.1 (List.mem_toFinset.1 hx)
  obtain ⟨_, last, _, _, _, _, hcloses⟩ := exists_closes hG
  have hlast : last ∈ G.funcs := List.mem_of_getLast? hcloses.getLast
  obtain ⟨G', hG', hlast'⟩ := grouped_of_mem h' ((hmem last).2 (mem_of_mem_group hG last hlast))
  have hsame (c : FuncId) : c ∈ G'.funcs ↔ c ∈ G.funcs := by
    rw [mem_group_iff h' hG' hlast', mem_group_iff h hG hlast, linked_congr hmem]
  have hrec : G'.recursive = false ↔ G.recursive = false := by
    rw [not_recursive_iff h' hG', not_recursive_iff h hG, hcalls]
    simp only [hsame, hmem]
  refine List.mem_toFinset.2 (List.mem_map.2 ⟨G', hG', ?_⟩)
  refine Prod.ext ?_ ?_
  · ext c
    simp only [List.mem_toFinset, hsame]
  · exact Bool.eq_iff_iff.2 (not_iff_not.1 (by simpa only [Bool.not_eq_true] using hrec))

/-- Functions share a group if and only if they lead to each other when closures lead to the functions around
them; closures share the group of the function around them. A group is not recursive if and only if it is a
function that is no closure with the closures inside it, and none of them leads back to itself. The groups
do not depend on the order of the functions. -/
theorem groups_are_components (p : Program) (funcs : List FuncId) (h : p.Nested funcs) :
    let g := ofProgram p funcs
    (∀ f ∈ funcs, ∀ c ∈ funcs, (∃ G ∈ g.groups, f ∈ G.funcs ∧ c ∈ G.funcs) ↔
      ReflTransGen (p.Linked funcs) f c ∧ ReflTransGen (p.Linked funcs) c f) ∧
    (∀ c ∈ funcs, ∀ o, p.Inside c o → ∃ G ∈ g.groups, c ∈ G.funcs ∧ o ∈ G.funcs) ∧
    (∀ G ∈ g.groups, G.recursive = false ↔
      (∃ f ∈ G.funcs, (p.func f).isClosure = false ∧ ∀ c, c ∈ G.funcs ↔ c ∈ funcs ∧ ReflTransGen p.Inside c f) ∧
      ∀ f ∈ G.funcs, ¬ TransGen g.Calls f f) ∧
    ∀ funcs', (∀ f, f ∈ funcs' ↔ f ∈ funcs) → (ofProgram p funcs').components = g.components := by
  intro g
  refine ⟨?_, ?_, fun G hG => not_recursive_iff h hG, ?_⟩
  · intro f hf c _
    obtain ⟨G, hG, hfG⟩ := grouped_of_mem h hf
    constructor
    · rintro ⟨H, hH, hfH, hcH⟩
      exact (mem_group_iff h hH hfH c).1 hcH
    · exact fun hmutual => ⟨G, hG, hfG, (mem_group_iff h hG hfG c).2 hmutual⟩
  · intro c hc o hout
    obtain ⟨G, hG, ho⟩ := grouped_of_mem h (h.outer_mem c hc o hout)
    exact ⟨G, hG, mem_group_of_inside h hG hc hout ho, ho⟩
  · intro funcs' hmem
    exact Finset.Subset.antisymm (components_subset (fun f => (hmem f).symm) (nested_congr hmem h))
      (components_subset hmem h)

/-- A function with two closures, one inside the other, where the inner one calls the function. -/
def nestedProgram : Program where
  nodes := #[{ op := .closure, func := some ⟨1⟩ }, { op := .closure, func := some ⟨2⟩ },
    { op := .name, cls := .func, func := some ⟨0⟩ }, { op := .callFunc, left := some ⟨2⟩ }]
  funcs := #[{ body := some [⟨0⟩] }, { body := some [⟨1⟩], outer := some ⟨0⟩ },
    { body := some [⟨3⟩], outer := some ⟨1⟩ }, {}]

theorem inside_nestedProgram : ∀ c ∈ ([⟨3⟩, ⟨2⟩, ⟨1⟩, ⟨0⟩] : List FuncId), ∀ o, nestedProgram.Inside c o →
    c = ⟨2⟩ ∧ o = ⟨1⟩ ∨ c = ⟨1⟩ ∧ o = ⟨0⟩ := by
  simp [Program.Inside, nestedProgram, Program.func, eq_comm]

theorem nested_nestedProgram : nestedProgram.Nested [⟨3⟩, ⟨2⟩, ⟨1⟩, ⟨0⟩] := by
  have hinside : nestedProgram.Inside ⟨2⟩ ⟨1⟩ ∧ nestedProgram.Inside ⟨1⟩ ⟨0⟩ := ⟨rfl, rfl⟩
  refine ⟨?_, ?_, ?_, ?_⟩
  · intro c hc o hout
    rcases inside_nestedProgram c hc o hout with ⟨rfl, rfl⟩ | ⟨rfl, rfl⟩ <;> decide
  · intro c hc o hout
    rcases inside_nestedProgram c hc o hout with ⟨rfl, rfl⟩ | ⟨rfl, rfl⟩ <;> decide +kernel
  · intro c hc o hout
    rcases inside_nestedProgram c hc o hout with ⟨rfl, rfl⟩ | ⟨rfl, rfl⟩ <;> decide +kernel
  · have hin : ReflTransGen nestedProgram.Inside ⟨1⟩ ⟨0⟩ := .single hinside.2
    simp only [List.forall_mem_cons]
    exact ⟨⟨⟨3⟩, rfl, .refl⟩, ⟨⟨0⟩, rfl, hin.head hinside.1⟩, ⟨⟨0⟩, rfl, hin⟩, ⟨⟨0⟩, rfl, .refl⟩, by simp⟩

theorem components_nestedProgram : nestedProgram.Nested [⟨3⟩, ⟨2⟩, ⟨1⟩, ⟨0⟩] ∧
    (∃ G ∈ (ofProgram nestedProgram [⟨3⟩, ⟨2⟩, ⟨1⟩, ⟨0⟩]).groups, (⟨2⟩ : FuncId) ∈ G.funcs ∧ ⟨1⟩ ∈ G.funcs) ∧
    (ofProgram nestedProgram [⟨0⟩, ⟨1⟩, ⟨2⟩, ⟨3⟩]).components =
      (ofProgram nestedProgram [⟨3⟩, ⟨2⟩, ⟨1⟩, ⟨0⟩]).components := by
  have h := groups_are_components nestedProgram [⟨3⟩, ⟨2⟩, ⟨1⟩, ⟨0⟩] nested_nestedProgram
  exact ⟨nested_nestedProgram, h.2.1 ⟨2⟩ (by decide) ⟨1⟩ rfl, h.2.2.2 [⟨0⟩, ⟨1⟩, ⟨2⟩, ⟨3⟩] (by simp; grind)⟩

end CallGraph

end EscapeAnalysis

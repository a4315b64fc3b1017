import Mathlib.Data.List.Induction
import EscapeAnalysis.Proofs.Groups.CallSearch
import EscapeAnalysis.Proofs.Groups.Search

/-!
# Groups are listed callees first

What `Group.Closes` says of each group when it is ended, put together for the list of all groups and, at the
end, for the groups of a list of functions of a program.

* `CallGraph.Built.closes` : each group of the list closes after the groups before it;
* `CallGraph.Built.mem_of_mutual` : functions that lead to each other share a group;
* `Group.Closes.recursive_iff` : a group is recursive if its last function leads back to itself.
-/

namespace EscapeAnalysis

open Relation (ReflTransGen TransGen)

namespace CallGraph

variable {g : CallGraph}

/-! ## Lists of groups -/

/-- The function is in one of the groups. -/
def Grouped (groups : List Group) (f : FuncId) : Prop := ∃ G ∈ groups, f ∈ G.funcs

theorem grouped_append {gs hs : List Group} {f : FuncId} : Grouped (gs ++ hs) f ↔ Grouped gs f ∨ Grouped hs f := by
  simp only [Grouped, List.mem_append, or_and_right, exists_or]

theorem grouped_singleton {G : Group} {f : FuncId} : Grouped [G] f ↔ f ∈ G.funcs := by
  simp [Grouped]

theorem Built.left {gs hs : List Group} (h : g.Built (gs ++ hs)) : g.Built gs := by
  induction hs using List.reverseRecOn with
  | nil => rwa [List.append_nil] at h
  | append_singleton hs G ih =>
    rw [← List.append_assoc] at h
    generalize hks : gs ++ hs ++ [G] = ks at h
    cases h with
    | nil => simp at hks
    | snoc h _ =>
      obtain ⟨rfl, _⟩ := List.append_inj' hks rfl
      exact ih h

/-- Each group closes after the groups before it. -/
theorem Built.closes {pre post : List Group} {G : Group} (h : g.Built (pre ++ G :: post)) :
    ∃ last number, G.Closes g (Grouped pre) last number := by
  rw [List.append_cons] at h
  have h := h.left
  generalize hks : pre ++ [G] = ks at h
  cases h with
  | nil => simp at hks
  | @snoc groups K last number _ hK =>
    obtain ⟨rfl, hG⟩ := List.append_inj' hks rfl
    cases hG
    exact ⟨last, number, hK⟩

/-- No function is listed twice, in one group or in two. -/
theorem Built.nodup {groups : List Group} (h : g.Built groups) : (groups.flatMap Group.funcs).Nodup := by
  induction h with
  | nil => exact List.nodup_nil
  | snoc _ hG ih =>
    rw [List.flatMap_append, List.flatMap_singleton, List.nodup_append']
    refine ⟨ih, hG.nodup, ?_⟩
    intro f hf hfG
    exact hG.not_done f hfG (List.mem_flatMap.1 hf)

theorem Built.grouped_of_reaches {groups : List Group} (h : g.Built groups) {f c : FuncId} (hf : Grouped groups f)
    (hfc : ReflTransGen g.Calls f c) : Grouped groups c := by
  induction hfc with
  | refl => exact hf
  | tail _ hc ih =>
    obtain ⟨G, hG, hfG⟩ := ih
    exact h.callees G hG _ hfG _ hc

theorem Built.mem_of_mutual {pre post : List Group} {G : Group} (h : g.Built (pre ++ G :: post)) {f c : FuncId}
    (hf : f ∈ G.funcs) (hfc : ReflTransGen g.Calls f c) (hcf : ReflTransGen g.Calls c f) : c ∈ G.funcs := by
  obtain ⟨_, _, hG⟩ := h.closes
  rw [List.append_cons] at h
  have hc := h.left.grouped_of_reaches (grouped_append.2 (Or.inr (grouped_singleton.2 hf))) hfc
  rcases grouped_append.1 hc with hc | hc
  · exact absurd (h.left.left.grouped_of_reaches hc hcf) (hG.not_done f hf)
  · exact grouped_singleton.1 hc

end CallGraph

/-- The last function of a group leads back to itself through functions of the group. -/
theorem Group.Closes.recursive_iff {g : CallGraph} {groups : List Group} (h : g.Built groups) {G : Group}
    {last : FuncId} {number : FuncId → Nat} (hG : G.Closes g (CallGraph.Grouped groups) last number) :
    G.recursive = true ↔ TransGen g.Calls last last := by
  have hlast : last ∈ G.funcs := List.mem_of_getLast? hG.getLast
  rw [hG.recursive]
  constructor
  · rintro ⟨f, hf, hc⟩
    exact TransGen.tail' (hG.reaches f hf) hc
  · intro hcycle
    obtain ⟨f, hlf, hc⟩ := TransGen.tail'_iff.1 hcycle
    have hbuilt : g.Built (groups ++ [G]) := h.snoc hG
    have hf := hbuilt.grouped_of_reaches (CallGraph.grouped_append.2 (Or.inr (CallGraph.grouped_singleton.2 hlast))) hlf
    rcases CallGraph.grouped_append.1 hf with hf | hf
    · exact absurd (h.grouped_of_reaches hf (ReflTransGen.single hc)) (hG.not_done last hlast)
    · exact ⟨f, CallGraph.grouped_singleton.1 hf, hc⟩

/-- A function that calls none is alone in its group, unless it is a closure. -/
theorem Group.Closes.eq_of_callees_eq_nil {g : CallGraph} {done : FuncId → Prop} {G : Group} {last : FuncId}
    {number : FuncId → Nat} (hG : G.Closes g done last number) {f c : FuncId} (hf : f ∈ G.funcs) (hc : c ∈ G.funcs)
    (hnone : g.callees f = []) (hclosure : g.isClosure f = false) : c = f := by
  have hstuck {x : FuncId} (h : ReflTransGen g.Calls f x) : x = f := by
    rcases h.cases_head with h | ⟨y, hy, _⟩
    · exact h.symm
    · rw [CallGraph.Calls, hnone] at hy
      cases hy
  by_cases hlast : f = last
  · exact hstuck (hlast ▸ hG.reaches c hc)
  · obtain ⟨x, _, d, _, hx, hd, _⟩ := hG.back f hf hlast hclosure
    rw [hstuck hx, hnone] at hd
    cases hd

namespace CallGraph

/-! ## The call graph of a program -/

theorem mem_of_mem_calleesIn {p : Program} {funcs : List FuncId} {f c : FuncId} (h : c ∈ p.calleesIn funcs f) :
    c ∈ funcs := by
  rw [Program.calleesIn_eq] at h
  exact (Program.mem_firsts.1 h).1

theorem closed_ofProgram (p : Program) (funcs : List FuncId) : (ofProgram p funcs).Closed := by
  intro f c hc
  unfold ofProgram at hc ⊢
  dsimp only at hc ⊢
  split at hc
  · exact mem_of_mem_calleesIn hc
  · simp at hc

theorem isClosure_ofProgram {p : Program} {funcs : List FuncId} {f : FuncId} (hf : f ∈ funcs) :
    (ofProgram p funcs).isClosure f = (p.func f).isClosure := by
  simp [ofProgram, hf]

theorem mem_of_grouped {p : Program} {funcs : List FuncId} {f : FuncId}
    (h : Grouped (ofProgram p funcs).groups f) : f ∈ funcs := by
  obtain ⟨r, hr, _, hrf⟩ := (mem_groups_iff (closed_ofProgram p funcs) f).1 h
  rcases ReflTransGen.cases_tail hrf with hf | ⟨c, _, hcf⟩
  · exact hf ▸ hr
  · exact closed_ofProgram p funcs c f hcf

/-- The groups are duplicate-free and disjoint and hold what is reached from the functions that are no closures.
Callees come no later than their callers, so that functions that lead to each other share a group. The last
function of a group is no closure, and leads back to itself if and only if the group is recursive. -/
theorem groups_bottom_up (p : Program) (funcs : List FuncId) :
    let g := ofProgram p funcs
    (g.groups.flatMap Group.funcs).Nodup ∧
    (∀ f, (∃ G ∈ g.groups, f ∈ G.funcs) ↔
      ∃ r ∈ funcs, (p.func r).isClosure = false ∧ ReflTransGen g.Calls r f) ∧
    ∀ pre G post, g.groups = pre ++ G :: post →
      (∀ f ∈ G.funcs, ∀ c ∈ g.callees f, c ∈ G.funcs ∨ ∃ H ∈ pre, c ∈ H.funcs) ∧
      (∀ f ∈ G.funcs, ∀ c, ReflTransGen g.Calls f c → ReflTransGen g.Calls c f → c ∈ G.funcs) ∧
      ∃ last, G.funcs.getLast? = some last ∧ (p.func last).isClosure = false ∧
        (G.recursive = true ↔ TransGen g.Calls last last) := by
  intro g
  have hbuilt : g.Built g.groups := built_groups (closed_ofProgram p funcs)
  refine ⟨hbuilt.nodup, ?_, ?_⟩
  · intro f
    rw [mem_groups_iff (closed_ofProgram p funcs)]
    refine exists_congr fun r => and_congr_right fun (hr : r ∈ funcs) => ?_
    rw [isClosure_ofProgram hr]
  · intro pre G post hsplit
    have hsplit' := hsplit ▸ hbuilt
    obtain ⟨last, number, hG⟩ := hsplit'.closes
    have hGmem : G ∈ g.groups := by
      rw [hsplit]
      exact List.mem_append_right _ List.mem_cons_self
    have hlast : last ∈ funcs := mem_of_grouped ⟨G, hGmem, List.mem_of_getLast? hG.getLast⟩
    refine ⟨hG.callees, fun f hf c => hsplit'.mem_of_mutual hf, last, hG.getLast, ?_,
      Group.Closes.recursive_iff hsplit'.left hG⟩
    rw [← isClosure_ofProgram hlast]
    exact hG.not_closure

end CallGraph

end EscapeAnalysis

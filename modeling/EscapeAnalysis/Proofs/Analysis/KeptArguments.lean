import EscapeAnalysis.Proofs.Analysis.Moves
import EscapeAnalysis.Proofs.Groups.Uses
import EscapeAnalysis.Proofs.Recording.ShelteredWalks

/-!
# The arguments that a group keeps

If whatever is no name is used once, then the arguments that the calls of a group keep to themselves are kept from the
recording of the group. A flood follows flows and operands, so it does not come to them either.

* `Shelter.heap_foldl_flood` : a flood puts only what is free on the heap;
* `Flow.Keeps s p funcs n` : a call below the bodies of `funcs` keeps the node, by the notes in `s`;
* `Keeps.of_part` : what is kept is an argument of that call alone, or in a conversion that is kept;
* `Run.shelter` : what the recording of a group walks over, and what is kept from it.
-/

namespace EscapeAnalysis

/-! ## Floods -/

namespace Flow

/-- An operand is among what the value of a node is made of. -/
theorem mem_upstream_of_operand {p : Program} {l k : Level} {n m : NodeId} (h : p.operand? l n = some (k, m)) :
    m ∈ (p.node n).upstream := by
  rcases operand_cases h with ⟨hop, hcls, h⟩ | ⟨hop, hcall, h⟩
  · rw [Node.upstream, if_pos hop, if_pos hcls]
    exact Option.mem_toList.2 h
  · exact (Node.mem_upstream hop hcall).2 (h.imp_right Or.inr)

namespace Shelter

variable {s t : Flow} {S : s.Shelter} {n m : NodeId}

theorem Free.not_kept {q : Program} (h : S.Free q n) : ¬ S.kept n := by
  intro hkept
  cases h with
  | old h => exact h.elim (S.unnamed n hkept) fun h => h.2 hkept
  | new hle _ _ _ => exact absurd (S.lt_size n (S.within n hkept)) (Nat.not_lt.2 hle)

variable (ht : S.Sound t)
include ht

theorem Sound.op_of_wraps (h : S.Wraps n) : (t.program.node n).op = .convNop := by
  rw [(ht.nodes.node n (S.lt_size n (S.within n h.1))).op, h.2]

/-- What flows into the node that a walk goes on from is free. -/
theorem free_of_sourceNode (hn : S.Free t.program n) (hm : t.Edge (t.sourceNode n) m) : S.Free t.program m := by
  refine (ht.edges _ m hm).resolve_right fun hwraps => ?_
  -- A conversion that is kept is neither a result, which is a name, nor free.
  have hconv := ht.op_of_wraps hwraps
  unfold sourceNode at hwraps hconv
  split at hconv
  · rename_i hcall
    rw [List.headD_eq_head?_getD] at hconv
    cases hresult : (t.results.get n.index).head? with
    | none =>
      rw [hresult, Option.getD_none] at hconv
      rw [hconv] at hcall
      cases hcall
    | some result =>
      rw [hresult, Option.getD_some, (ht.results n result (List.mem_of_mem_head? hresult)).2] at hconv
      cases hconv
  · rename_i hcall
    rw [if_neg hcall] at hwraps
    exact hn.not_kept hwraps.1

/-- A walk that starts from a name or a closure comes to what is free only. -/
theorem free_of_path {root : NodeId} {l : Level} (hroot : t.IsRoot root) (h : t.Path root l n) :
    S.Free t.program n := by
  induction h with
  | source h =>
    refine (ht.edges root _ h).resolve_right fun hwraps => ?_
    have hconv := ht.op_of_wraps hwraps
    rcases hroot.2 with hop | hop <;> rw [hop] at hconv <;> cases hconv
  | operand _ hx ih => exact ih.upstream ht (mem_upstream_of_operand hx)
  | flow _ hsrc ih => exact free_of_sourceNode ht ih hsrc

/-- The variable that an expression is part of is among what the expression is made of. -/
theorem free_of_addressed {fuel : Nat} {var : NodeId} (hn : S.Free t.program n)
    (h : t.program.addressed? fuel n = some var) : S.Free t.program var := by
  induction fuel generalizing n with
  | zero => cases h
  | succ fuel ih =>
    unfold Program.addressed? at h
    dsimp only at h
    cases hop : (t.program.node n).op with
    | name =>
      rw [hop] at h
      cases hcls : (t.program.node n).cls with
      | captured =>
        rw [hcls] at h
        obtain ⟨m, hm, h⟩ := Option.bind_eq_some_iff.1 h
        refine ih (hn.upstream ht ?_) h
        rw [Node.upstream, if_pos hop, if_pos hcls]
        exact Option.mem_toList.2 hm
      | param | result | auto =>
        rw [hcls] at h
        cases h
        exact hn
      | _ =>
        rw [hcls] at h
        cases h
    | dot | index | convNop =>
      rw [hop] at h
      obtain ⟨m, hm, h⟩ := Option.bind_eq_some_iff.1 h
      split at h
      · cases h
      · exact ih (hn.upstream ht (Node.mem_upstream_left (by simp [hop]) (by rw [hop]; rfl) hm)) h
    | _ =>
      rw [hop] at h
      cases h

/-- A flood puts only what is free on the heap. -/
theorem heap_foldl_flood (hn : ((t.dsts.foldl flood t).info.word n).cls = .heap) :
    (t.info.word n).cls = .heap ∨ S.Free t.program n := by
  revert hn
  refine foldl_flood_induction
    (P := fun u => (u.info.word n).cls = .heap → (t.info.word n).cls = .heap ∨ S.Free t.program n)
    (fun v hv u w hu hmark h hn => ?_) Or.inl
  obtain ⟨hroot, _, l, hpath, _⟩ := exists_path_of_mem_visits hv
  have hfree := free_of_path ht hroot hpath
  have hset {m : NodeId} (hm : S.Free t.program m) {x : Word} (hn : ((u.setWord m x).info.word n).cls = .heap) :
      (t.info.word n).cls = .heap ∨ S.Free t.program n := by
    by_cases he : n = m
    · exact Or.inr (he ▸ hm)
    · rw [show (u.setWord m x).info.word n = u.info.word n from
        Table.get_set_of_ne _ _ fun e => he (NodeId.ext e)] at hn
      exact h hn
  cases hmark with
  | emit => exact h hn
  | find _ => exact h hn
  | output _ _ => exact hset hfree hn
  | input _ _ _ => exact hset hfree hn
  | alloc _ => exact hset hfree hn
  | @move x var hop _ hx hvar =>
    rw [hu.program] at hop hx hvar
    have hx : x ∈ (t.program.node v.node).upstream := by
      rcases hop with hop | hop <;> exact Node.mem_upstream_left (by simp [hop]) (by rw [hop]; rfl) hx
    have hvar := free_of_addressed ht (hfree.upstream ht hx) hvar
    unfold moveToHeap at hn
    split at hn
    · exact h hn
    · split at hn
      · exact h hn
      · exact hset hvar hn

end Shelter

end Flow

/-! ## Kept arguments -/

theorem Op.ne_name_of_isCall {op : Op} (h : op.isCall = true) : op ≠ .name := by
  rintro rfl
  cases h

/-- The node is what a statement below the bodies of `funcs` defers or starts. -/
def Program.Detached (p : Program) (funcs : List FuncId) (n : NodeId) : Prop :=
  ∃ k, p.BelowAny funcs k ∧ n ∈ (p.node k).children ∧ ((p.node k).op = .deferStmt ∨ (p.node k).op = .goStmt)

/-- A call below the bodies of `funcs` keeps the node to itself: by the notes in `s` it is an argument that does not
escape, or it is what is left of one without conversions. -/
inductive Flow.Keeps (s : Flow) (p : Program) (funcs : List FuncId) : NodeId → Prop where
  | arg {call n : NodeId} {f : FuncId} (hin : p.BelowAny funcs call) (hcall : (p.node call).op.isCall = true)
    (hdetached : ¬ p.Detached funcs call) (hf : s.NotedCallee call f)
    (hn : n ∈ keptArgs (p.node call).variadic (s.program.func f).params (p.node call).list)
    (hop : (p.node n).op ≠ .name) : Keeps s p funcs n
  | conv {n m : NodeId} (hn : Keeps s p funcs n) (hconv : (p.node n).op = .convNop) (hm : (p.node n).left = some m)
    (hop : (p.node m).op ≠ .name) : Keeps s p funcs m

theorem Program.BelowAny.part {p : Program} {funcs : List FuncId} {n m : NodeId} (h : p.BelowAny funcs n)
    (hm : m ∈ (p.node n).children) : p.BelowAny funcs m := by
  obtain ⟨f, hf, hn⟩ := h
  exact ⟨f, hf, hn.part hm⟩

theorem Program.detached_iff {p : Program} (hp : p.UsedOnce) {funcs : List FuncId} {n m : NodeId}
    (hn : p.BelowAny funcs n) (hm : m ∈ (p.node n).children) (hop : (p.node m).op ≠ .name) :
    p.Detached funcs m ↔ (p.node n).op = .deferStmt ∨ (p.node n).op = .goStmt := by
  constructor
  · rintro ⟨k, hk, hmk, hop'⟩
    obtain ⟨f, _, hn⟩ := hn
    obtain ⟨g, _, hk⟩ := hk
    rw [hp.parent_eq hop hn hk hm hmk]
    exact hop'
  · intro hop
    exact ⟨n, hn, hm, hop⟩

/-- An argument that is no name is passed once. -/
theorem Program.UsedOnce.count_list {p : Program} (hp : p.UsedOnce) {funcs : List FuncId} {n m : NodeId}
    (hn : p.BelowAny funcs n) (hop : (p.node m).op ≠ .name) : (p.node n).list.count m ≤ 1 := by
  obtain ⟨f, _, hn⟩ := hn
  have hcount := hp.count_children hop hn
  simp only [Node.children, List.count_append] at hcount
  omega

namespace Flow.Keeps

variable {s : Flow} {p : Program} {funcs : List FuncId} {n m : NodeId}

theorem op_ne_name (h : s.Keeps p funcs n) : (p.node n).op ≠ .name := by
  cases h with
  | arg _ _ _ _ _ hop => exact hop
  | conv _ _ _ hop => exact hop

theorem belowAny (h : s.Keeps p funcs n) : p.BelowAny funcs n := by
  induction h with
  | arg hin _ _ _ hn _ => exact hin.part (by simp [Node.children, mem_of_mem_keptArgs hn])
  | conv _ _ hm _ ih => exact ih.part (by simp [Node.children, hm])

/-- What is kept is part of one node: of the call that keeps it, or of a conversion that is kept. -/
theorem of_part (hp : p.UsedOnce) (hm : s.Keeps p funcs m) (hn : p.BelowAny funcs n)
    (hpart : m ∈ (p.node n).children) :
    ((p.node n).op.isCall = true ∧ ¬ p.Detached funcs n ∧ ∃ f, s.NotedCallee n f ∧
      m ∈ keptArgs (p.node n).variadic (s.program.func f).params (p.node n).list) ∨
    s.Keeps p funcs n ∧ (p.node n).op = .convNop := by
  obtain ⟨f, _, hn⟩ := hn
  have hop := hm.op_ne_name
  cases hm with
  | arg hin hcall hdetached hf hkept _ =>
    obtain ⟨g, _, hin⟩ := hin
    obtain rfl := hp.parent_eq hop hn hin hpart (by simp [Node.children, mem_of_mem_keptArgs hkept])
    exact Or.inl ⟨hcall, hdetached, _, hf, hkept⟩
  | conv hk hconv hleft _ =>
    obtain ⟨g, _, hbelow⟩ := hk.belowAny
    obtain rfl := hp.parent_eq hop hn hbelow hpart (by simp [Node.children, hleft])
    exact Or.inr ⟨hk, hconv⟩

/-- An argument that is kept is kept by its call. -/
theorem of_arg (hp : p.UsedOnce) (hm : s.Keeps p funcs m) (hn : p.BelowAny funcs n)
    (hcall : (p.node n).op.isCall = true) (hlist : m ∈ (p.node n).list) :
    ¬ p.Detached funcs n ∧ ∃ f, s.NotedCallee n f ∧
      m ∈ keptArgs (p.node n).variadic (s.program.func f).params (p.node n).list := by
  rcases hm.of_part hp hn (by simp [Node.children, hlist]) with h | ⟨_, hconv⟩
  · exact h.2
  · rw [hconv] at hcall
    cases hcall

/-- The arguments that a call keeps are no other parts of it. -/
theorem not_mem_callee (hp : p.UsedOnce) (hm : s.Keeps p funcs m) (hn : p.BelowAny funcs n)
    (hcall : (p.node n).op.isCall = true) : m ∉ (p.node n).left.toList ++ (p.node n).right.toList := by
  intro hmem
  have hpart : m ∈ (p.node n).children := by
    simp only [Node.children, List.mem_append] at hmem ⊢
    tauto
  rcases hm.of_part hp hn hpart with ⟨_, _, f, _, hkept⟩ | ⟨_, hconv⟩
  · obtain ⟨g, _, hbelow⟩ := hn
    have hcount := hp.count_children hm.op_ne_name hbelow
    have hlist := List.count_pos_iff.2 (mem_of_mem_keptArgs hkept)
    have hother := List.count_pos_iff.2 hmem
    simp only [Node.children, List.count_append] at hcount hother
    omega
  · rw [hconv] at hcall
    cases hcall

end Flow.Keeps

/-! ## The shelter of a group -/

/-- The program was put together in order, whatever is no name is used once, and captured names stand for names. -/
structure Program.Linear (p : Program) : Prop where
  wellFormed : p.WellFormed
  tidy : p.Tidy
  formed : ∀ n, p.IsFormedIn (p.node n)
  once : p.UsedOnce
  captured : ∀ n m, (p.node n).origin = some m → (p.node m).op = .name

section Shelter

variable {p : Program} {before after : List Group} {group : Group} {run : Run} {n m : NodeId}

theorem sameBut_start (hrun : run.Follows p before) (hn : n.index < p.nodes.size) :
    (p.node n).SameBut ((Flow.start run group).program.node n) :=
  (hrun.nodes.trans (Flow.extends_start run group)).node n hn

theorem op_start (hrun : run.Follows p before) {op : Op} (hop : (p.node n).op = op) (hne : op ≠ .block) :
    ((Flow.start run group).program.node n).op = op := by
  rw [(sameBut_start hrun (p.lt_size_of_op_ne (by rw [hop]; exact hne))).op, hop]

theorem op_start_eq_name_or (hrun : run.Follows p before) {P : Prop} (h : (p.node n).op ≠ .name → P) :
    ((Flow.start run group).program.node n).op = .name ∨ P := by
  by_cases hop : (p.node n).op = .name
  · exact Or.inl (op_start hrun hop (by simp))
  · exact Or.inr (h hop)

variable (hp : p.Linear) (hrun : run.Follows p before) (hgrown : p.Grown run.program)
  (hright : run.KeepsRight p (group :: after))

include hp hrun hright in
/-- The nodes below the bodies of a group have been marked at most when it starts. -/
theorem node_start_of_belowAny (hn : p.BelowAny group.funcs n) :
    ∃ noEscape, (Flow.start run group).program.node n = { p.node n with noEscape } := by
  obtain ⟨f, hf, hbelow⟩ := hn
  have hlt := hp.wellFormed.refs.below hbelow
  have hr : ((Flow.start run group).program.node n).right = (p.node n).right := by
    rw [Flow.node_start_of_lt (Nat.lt_of_lt_of_le hlt hrun.nodes.size_le)]
    by_contra hne
    exact (hright n hlt hne).2 group List.mem_cons_self ⟨f, hf, hbelow⟩
  obtain ⟨right, noEscape, hsame⟩ : (p.node n).SameBut ((Flow.start run group).program.node n) := sameBut_start hrun hlt
  rw [hsame] at hr
  obtain rfl : right = (p.node n).right := hr
  exact ⟨noEscape, hsame⟩

include hp hrun hgrown in
/-- Captured names were there before the first group, and stand for names. -/
theorem op_of_captured (hn : ((Flow.start run group).program.node n).isNameOf .captured = true)
    (hm : ((Flow.start run group).program.node n).origin = some m) :
    ((Flow.start run group).program.node m).op = .name := by
  have hlt : n.index < p.nodes.size := by
    refine Nat.lt_of_not_le fun hle => ?_
    rw [((hgrown.trans (Program.grown_start run group)).new n hle).2] at hn
    cases hn
  rw [(sameBut_start hrun hlt).origin] at hm
  exact op_start hrun (hp.captured n m hm) (by simp)

include hp hrun in
/-- Inputs and outputs are names. -/
theorem op_of_param {f : FuncId} {param : Param}
    (hparam : param ∈ (run.program.func f).inputs ++ (run.program.func f).results) (hn : param.name = some n) :
    ((Flow.start run group).program.node n).op = .name := by
  have hdecl : n ∈ (p.func f).decls := by
    rcases List.mem_append.1 hparam with hparam | hparam
    · have hname := List.mem_map_of_mem (f := Param.name) hparam
      rw [(hrun.funcs f).names, hn] at hname
      obtain ⟨param, hparam, hn⟩ := List.mem_map.1 hname
      exact (hp.wellFormed.inputs f param hparam n hn).1
    · rw [(hrun.funcs f).results] at hparam
      exact (hp.tidy.results f param hparam n hn).1
  exact op_start hrun (hp.wellFormed.decls f n hdecl).1 (by simp)

/-- What the recording of a group walks over, and what its calls keep to themselves. -/
def Run.shelter : (Flow.start run group).Shelter where
  inside := p.BelowAny group.funcs
  kept := (Flow.start run group).Keeps p group.funcs
  loud := p.Detached group.funcs
  closed := Flow.closed_start hrun.closed
  lt_size n hn := by
    obtain ⟨f, _, hn⟩ := hn
    exact Nat.lt_of_lt_of_le (hp.wellFormed.refs.below hn) (hrun.nodes.trans (Flow.extends_start run group)).size_le
  part n hn m hm := by
    obtain ⟨_, he⟩ := node_start_of_belowAny hp hrun hright hn
    rw [he] at hm
    exact hn.part hm
  alone n hn m hm hcall := by
    obtain ⟨_, he⟩ := node_start_of_belowAny hp hrun hright hn
    rw [he] at hm ⊢
    obtain ⟨_, he'⟩ := node_start_of_belowAny hp hrun hright (hn.part hm)
    rw [he'] at hcall
    exact Program.detached_iff hp.once hn hm (Op.ne_name_of_isCall hcall)
  within n hn := hn.belowAny
  unnamed n hn := by
    obtain ⟨_, he⟩ := node_start_of_belowAny hp hrun hright hn.belowAny
    rw [he]
    exact hn.op_ne_name
  plain n hn hcall hconv m hm hkept := by
    obtain ⟨_, he⟩ := node_start_of_belowAny hp hrun hright hn
    rw [he] at hcall hconv hm
    rcases hkept.of_part hp.once hn hm with ⟨h, _⟩ | h
    · exact Bool.false_ne_true (hcall.symm.trans h)
    · exact hconv h
  unwraps n hn hconv m hm := by
    obtain ⟨_, he⟩ := node_start_of_belowAny hp hrun hright hn.belowAny
    rw [he] at hconv hm
    exact op_start_eq_name_or hrun fun hop => .conv hn hconv hm hop
  callee n hn hcall m hm hkept := by
    obtain ⟨_, he⟩ := node_start_of_belowAny hp hrun hright hn
    rw [he] at hcall hm
    exact hkept.not_mem_callee hp.once hn hcall hm
  arg n hn hcall m hm hkept := by
    obtain ⟨_, he⟩ := node_start_of_belowAny hp hrun hright hn
    rw [he] at hcall hm ⊢
    exact hkept.of_arg hp.once hn hcall hm
  keeps n hn hcall hloud f hf m hm := by
    obtain ⟨_, he⟩ := node_start_of_belowAny hp hrun hright hn
    rw [he] at hcall hm
    exact op_start_eq_name_or hrun fun hop => .arg hn hcall hloud hf hm hop
  once n hn _ m _ := by
    obtain ⟨_, he⟩ := node_start_of_belowAny hp hrun hright hn
    rw [he]
    exact op_start_eq_name_or hrun fun hop => hp.once.count_list hn hop
  entries n hn hop m hm := by
    obtain ⟨_, he⟩ := node_start_of_belowAny hp hrun hright hn
    rw [he] at hop hm
    exact op_start hrun ((hp.formed n).entries hop m hm) (by decide)
  clauses n hn hop m hm := by
    obtain ⟨_, he⟩ := node_start_of_belowAny hp hrun hright hn
    rw [he] at hop hm
    exact op_start hrun ((hp.formed n).clauses hop m hm) (by decide)
  captured n hn m hm := op_of_captured hp hrun hgrown hn hm
  captures f n hn := by
    have hn : n ∈ (run.program.func f).captures := hn
    rw [(hrun.funcs f).rest] at hn
    have hname := (hp.tidy.captures f n hn).1
    rw [(sameBut_start hrun (hp.wellFormed.refs n (Or.inr ⟨f, Func.mem_refs_captures hn⟩))).isNameOf]
    exact hname
  params f param hparam n hn := op_of_param hp hrun hparam hn

/-- The empty graph of a group is sound. -/
theorem sound_shelter : (Run.shelter hp hrun hgrown hright).Sound (Flow.start run group) := by
  refine ⟨.refl _, rfl, fun _ => Iff.rfl, fun dst src hedge => ?_, fun n m hm => ?_, fun n hn hcall _ m hm => ?_,
    fun _ h => Or.inl h⟩
  · change src ∈ (Table.empty : Table (Array NodeId)).get dst.index at hedge
    rw [Table.get_empty] at hedge
    exact absurd hedge (Array.not_mem_empty src)
  · change m ∈ (Table.empty : Table (List NodeId)).get n.index at hm
    rw [Table.get_empty] at hm
    cases hm
  · refine .old (Or.inr ⟨Flow.Shelter.part _ n hn m ?_, Flow.Shelter.callee _ n hn hcall m ?_⟩) <;>
      simp [Node.children, hm]

/-- The recording of a group starts from the statements of its bodies. -/
theorem stands_of_body {f : FuncId} (hf : f ∈ group.funcs)
    (hm : m ∈ ((Flow.start run group).program.func f).body.getD []) :
    (Run.shelter hp hrun hgrown hright).Stands none m := by
  have hm : m ∈ (run.program.func f).body.getD [] := hm
  rw [(hrun.funcs f).rest] at hm
  have hin : p.BelowAny group.funcs m := ⟨f, hf, m, hm, .refl⟩
  refine ⟨hin, fun hcall => ⟨?_, ?_⟩, nofun⟩
  · rintro ⟨k, ⟨g, _, hk⟩, hmk, _⟩
    obtain ⟨_, he⟩ := node_start_of_belowAny hp hrun hright hin
    rw [he] at hcall
    exact absurd hmk (hp.once.not_mem_children (Op.ne_name_of_isCall hcall) hm hk)
  · rintro ⟨_, ⟨⟩, _⟩

/-- The graph of a group is sound. -/
theorem sound_recorded_shelter {s : Flow} (hs : group.funcs.forM Flow.recordFunc (Flow.start run group) = .ok () s) :
    (Run.shelter hp hrun hgrown hright).Sound s :=
  Flow.Shelter.sound_of_recorded (sound_shelter hp hrun hgrown hright)
    (fun _ hf _ hm => stands_of_body hp hrun hgrown hright hf hm) hs

end Shelter

end EscapeAnalysis

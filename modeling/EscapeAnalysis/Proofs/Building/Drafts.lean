import EscapeAnalysis.Proofs.Building.Edits

/-!
# Programs that nothing but edits made

What edits keep beyond the references of a program: the types of nodes and functions are there, the parts of an
expression were made before it, no call has a slice for its `...` arguments yet, and every result has a name.

* `Node.inner` : the parts of an expression;
* `Program.Drafted` : what holds of a program that was built and not analyzed;
* `Program.Edits.drafted` : edits keep it.
-/

namespace EscapeAnalysis

/-- The parts of a node that are made before it. A call gets its right part, and a switch its clauses, later. -/
def Node.inner (x : Node) : List NodeId :=
  x.left.toList ++ x.origin.toList ++ (if x.op.isCall then [] else x.right.toList)
    ++ (if x.op = .switchStmt then [] else x.list)

namespace Node

variable {x : Node} {m : NodeId}

theorem mem_inner : m ∈ x.inner ↔ x.left = some m ∨ x.origin = some m ∨ x.op.isCall = false ∧ x.right = some m ∨
    x.op ≠ .switchStmt ∧ m ∈ x.list := by
  simp only [inner, List.mem_append, Option.mem_toList, or_assoc]
  by_cases hs : x.op = .switchStmt <;> cases hc : x.op.isCall <;> simp_all

theorem mem_refs_of_mem_inner (h : m ∈ x.inner) : m ∈ x.refs := by
  rcases mem_inner.1 h with h | h | h | h
  · exact mem_refs_left h
  · exact mem_refs_origin h
  · exact mem_refs_right h.2
  · exact mem_refs_list h.2

end Node

namespace Program

structure Drafted (p : Program) : Prop where
  typed : p.Typed
  ordered : ∀ n, ∀ m ∈ (p.node n).inner, m.index < n.index
  bare : ∀ n, (p.node n).op.isCall = true → (p.node n).list ≠ [] → (p.node n).right = none
  named : ∀ f, ∀ result ∈ (p.func f).results, result.name ≠ none

theorem Typed.types {p : Program} (h : p.Typed) {types : TypeStore} (hsound : types.Sound)
    (hsize : p.types.compounds.size ≤ types.compounds.size) : Typed { p with types } := by
  have hhas {ty : Option Ty} (hty : p.HasType ty) : HasType { p with types } ty := fun t ht => (hty t ht).mono hsize
  exact ⟨hsound, fun n => hhas (h.node n), fun f => hhas (h.func f), fun f param hparam => hhas (h.params f param hparam)⟩

theorem Typed.addNode {p : Program} (h : p.Typed) {x : Node} (hty : p.HasType x.ty) : (p.addNode x).2.Typed := by
  refine ⟨h.store, fun n => ?_, h.func, h.params⟩
  rw [node_addNode]
  split
  · exact hty
  · exact h.node n

theorem Typed.modifyNode {p : Program} (h : p.Typed) {n : NodeId} {g : Node → Node}
    (hg : (g (p.node n)).ty = (p.node n).ty) : (p.modifyNode n g).Typed := by
  refine ⟨h.store, fun k => ?_, h.func, h.params⟩
  rw [node_modifyNode]
  split
  · rw [hg]
    exact h.node n
  · exact h.node k

theorem Typed.modifyFunc {p : Program} (h : p.Typed) {f : FuncId} {g : Func → Func}
    (hty : (g (p.func f)).ty = (p.func f).ty)
    (hparams : ∀ param ∈ (g (p.func f)).inputs ++ (g (p.func f)).results, p.HasType param.ty) :
    (p.modifyFunc f g).Typed := by
  refine ⟨h.store, h.node, fun k => ?_, fun k => ?_⟩
  · rw [func_modifyFunc]
    split
    · rw [hty]
      exact h.func f
    · exact h.func k
  · rw [func_modifyFunc]
    split
    · exact hparams
    · exact h.params k

namespace Drafted

variable {p : Program} (h : p.Drafted)
include h

theorem addNode {x : Node} (hty : p.HasType x.ty) (hrefs : ∀ m ∈ x.refs, p.HasNode m)
    (hright : x.list ≠ [] → x.right = none ∨ x.op.isCall = false) : (p.addNode x).2.Drafted := by
  refine ⟨h.typed.addNode hty, fun n => ?_, fun n => ?_, h.named⟩
  · rw [node_addNode]
    split
    · rename_i hn
      rw [hn]
      exact fun m hm => hrefs m (Node.mem_refs_of_mem_inner hm)
    · exact h.ordered n
  · rw [node_addNode]
    split
    · intro hcall hlist
      refine (hright hlist).resolve_right fun hop => ?_
      rw [hcall] at hop
      cases hop
    · exact h.bare n

theorem modifyNode {n : NodeId} {g : Node → Node} (hty : (g (p.node n)).ty = (p.node n).ty)
    (hinner : (g (p.node n)).inner = (p.node n).inner)
    (hcall : (g (p.node n)).op.isCall = true → (p.node n).op.isCall = true ∧ (g (p.node n)).list = (p.node n).list ∧
      (g (p.node n)).right = (p.node n).right) : (p.modifyNode n g).Drafted := by
  refine ⟨h.typed.modifyNode hty, fun k => ?_, fun k => ?_, h.named⟩
  · rw [node_modifyNode]
    split
    · rename_i hk
      rw [hinner, hk.1]
      exact h.ordered n
    · exact h.ordered k
  · rw [node_modifyNode]
    split
    · intro hop hlist
      obtain ⟨hop', hlist', hright⟩ := hcall hop
      rw [hright]
      exact h.bare n hop' (hlist' ▸ hlist)
    · exact h.bare k

theorem modifyFunc {f : FuncId} {g : Func → Func} (hty : (g (p.func f)).ty = (p.func f).ty)
    (hparams : ∀ param ∈ (g (p.func f)).inputs ++ (g (p.func f)).results,
      param ∈ (p.func f).inputs ++ (p.func f).results ∨ p.HasType param.ty)
    (hnamed : ∀ result ∈ (g (p.func f)).results, result ∈ (p.func f).results ∨ result.name ≠ none) :
    (p.modifyFunc f g).Drafted := by
  refine ⟨h.typed.modifyFunc hty fun param hparam => ?_, h.ordered, h.bare, fun k => ?_⟩
  · exact (hparams param hparam).elim (h.typed.params f param) id
  · rw [func_modifyFunc]
    split
    · exact fun result hresult => (hnamed result hresult).elim (h.named f result) id
    · exact h.named k

theorem addFunc {x : Func} (hty : p.HasType x.ty) (hinputs : x.inputs = []) (hresults : x.results = []) :
    (p.addFunc x).2.Drafted := by
  refine ⟨⟨h.typed.store, h.typed.node, fun f => ?_, fun f => ?_⟩, h.ordered, h.bare, fun f => ?_⟩
  · rw [func_addFunc]
    split
    · exact hty
    · exact h.typed.func f
  · rw [func_addFunc]
    split
    · rw [hinputs, hresults]
      exact fun param hparam => absurd hparam List.not_mem_nil
    · exact h.typed.params f
  · rw [func_addFunc]
    split
    · rw [hresults]
      exact fun result hresult => absurd hresult List.not_mem_nil
    · exact h.named f

theorem declareName {f : FuncId} {x : Node} (hty : p.HasType x.ty) (hrefs : x.refs = []) :
    (p.declareName f x).2.Drafted := by
  have hnone {m : NodeId} (hm : m ∈ ({ x with op := .name, curfn := some f } : Node).refs) : False := by
    rw [show ({ x with op := .name, curfn := some f } : Node).refs = x.refs from rfl, hrefs] at hm
    exact List.not_mem_nil hm
  have hnew := h.addNode (x := { x with op := .name, curfn := some f }) hty (fun m hm => (hnone hm).elim)
    fun _ => Or.inr rfl
  exact hnew.modifyFunc rfl (fun _ hparam => Or.inl hparam) fun _ hresult => Or.inl hresult

end Drafted

theorem Edit.drafted {p q : Program} (hq : p.Edit q) (h : p.Drafted) : q.Drafted := by
  cases hq with
  | types types hsound hsize => exact ⟨h.typed.types (hsound h.typed.store) hsize, h.ordered, h.bare, h.named⟩
  | label | beginBody => exact ⟨⟨h.typed.store, h.typed.node, h.typed.func, h.typed.params⟩, h.ordered, h.bare, h.named⟩
  | node x hty hparts _ hright => exact h.addNode hty hparts.refs hright
  | stmtBody n stmts | stmtAlt n stmts => exact h.modifyNode rfl rfl fun hop => ⟨hop, rfl, rfl⟩
  | clauses n stmts hop =>
    refine h.modifyNode rfl ?_ fun hcall => ?_
    · simp [Node.inner, hop]
    · rw [hop] at hcall
      cases hcall
  | assertOk n hop =>
    refine h.modifyNode rfl ?_ nofun
    rcases hop with hop | hop <;> simp [Node.inner, hop, Op.isCall]
  | func name outer ty line hty => exact h.addFunc hty rfl rfl
  | declare f x hty _ hrefs => exact h.declareName hty hrefs
  | output f x hty _ hrefs =>
    refine (h.declareName hty hrefs).modifyFunc rfl (fun param hparam => ?_) fun result hresult => ?_
    · simp only [List.mem_append, List.mem_singleton] at hparam ⊢
      rcases hparam with hparam | hparam | rfl
      · exact Or.inl (Or.inl hparam)
      · exact Or.inl (Or.inr hparam)
      · exact Or.inr hty
    · rcases List.mem_append.1 hresult with hresult | hresult
      · exact Or.inl hresult
      · rw [List.mem_singleton.1 hresult]
        exact Or.inr nofun
  | recv f param hty =>
    refine h.modifyFunc rfl (fun other hother => ?_) fun _ hresult => Or.inl hresult
    simp only [Func.inputs, List.mem_append, Option.mem_toList, Option.some.injEq] at hother ⊢
    rcases hother with (rfl | hother) | hother
    · exact Or.inr hty
    · exact Or.inl (Or.inl (Or.inr hother))
    · exact Or.inl (Or.inr hother)
  | param f param hty =>
    refine h.modifyFunc rfl (fun other hother => ?_) fun _ hresult => Or.inl hresult
    simp only [Func.inputs, List.mem_append, List.mem_singleton] at hother ⊢
    rcases hother with (hother | hother | rfl) | hother
    · exact Or.inl (Or.inl (Or.inl hother))
    · exact Or.inl (Or.inl (Or.inr hother))
    · exact Or.inr hty
    · exact Or.inl (Or.inr hother)
  | capture f x hty _ hrefs hname =>
    have hop := (Node.isNameOf_iff.1 hname).1
    refine (h.addNode hty hrefs fun _ => Or.inr (by rw [hop]; rfl)).modifyFunc rfl (fun _ hparam => Or.inl hparam)
      fun _ hresult => Or.inl hresult
  | funcBody | imported | promised =>
    exact h.modifyFunc rfl (fun _ hparam => Or.inl hparam) fun _ hresult => Or.inl hresult
  | notes f g hg =>
    have hresults : (g (p.func f)).results = (p.func f).results := by rw [(hg _).rest]
    refine h.modifyFunc (by rw [(hg _).rest]) (fun param hparam => ?_) fun result hresult => ?_
    · rw [hresults] at hparam
      rcases List.mem_append.1 hparam with hparam | hparam
      · have hbare : param.bare ∈ (p.func f).inputs.map Param.bare := by
          rw [← (hg _).inputs]
          exact List.mem_map_of_mem hparam
        obtain ⟨other, hother, he⟩ := List.mem_map.1 hbare
        have hty : param.ty = other.ty := (congrArg Param.ty he).symm
        rw [hty]
        exact Or.inr (h.typed.params f other (List.mem_append_left _ hother))
      · exact Or.inl (List.mem_append_right _ hparam)
    · rw [hresults] at hresult
      exact Or.inl hresult

theorem Edits.drafted {p q : Program} (hq : Edits p q) (h : p.Drafted) : q.Drafted := by
  induction hq with
  | refl => exact h
  | tail _ hq ih => exact hq.drafted ih

end Program

end EscapeAnalysis

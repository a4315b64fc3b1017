import EscapeAnalysis.Proofs.Building.Drafts

/-!
# The names of functions

What edits keep about the variables of functions. Every input, output and local variable is declared by a function,
every captured name is among the captures of one, and neither has parts. Only a captured name stands for another
variable. An output is numbered within the outputs of its function.

* `Program.Placed p n` : what holds of one node;
* `Program.Tidy` : what holds of all nodes and functions;
* `Program.Edits.tidy` : edits keep it.
-/

namespace EscapeAnalysis

/-- The class of an input, an output or a local variable. -/
def NodeClass.isVariable : NodeClass → Bool
  | .param | .auto | .result => true
  | _ => false

namespace Program

/-- If the node is a variable of a function, it is where the function keeps such variables. -/
structure Placed (p : Program) (n : NodeId) : Prop where
  numbered : (p.node n).isNameOf .result = true →
    ∃ f, (p.node n).curfn = some f ∧ (p.node n).ordinal ≤ (p.func f).results.length
  declared : (p.node n).op = .name → (p.node n).cls.isVariable = true → ∃ f, n ∈ (p.func f).decls
  captured : (p.node n).isNameOf .captured = true → ∃ f, n ∈ (p.func f).captures
  origin : (p.node n).origin ≠ none → (p.node n).isNameOf .captured = true

/-- The names of functions are where they belong, and have no parts. -/
structure Tidy (p : Program) : Prop where
  placed : ∀ n, p.Placed n
  decls : ∀ f, ∀ n ∈ (p.func f).decls, (p.node n).cls.isVariable = true ∧ (p.node n).refs = []
  captures : ∀ f, ∀ n ∈ (p.func f).captures,
    (p.node n).isNameOf .captured = true ∧ (p.node n).curfn = some f ∧ (p.node n).children = []
  results : ∀ f, ∀ result ∈ (p.func f).results, ∀ n, result.name = some n →
    n ∈ (p.func f).decls ∧ (p.node n).cls = .result

/-- A node that is no name is placed if it stands for nothing. -/
theorem placed_of_op_ne {p : Program} {n : NodeId} (hop : (p.node n).op ≠ .name) (horigin : (p.node n).origin = none) :
    p.Placed n := by
  have hname {cls : NodeClass} (h : (p.node n).isNameOf cls = true) : False :=
    hop (Node.isNameOf_iff.1 h).1
  exact ⟨fun h => (hname h).elim, fun h => (hop h).elim, fun h => (hname h).elim, fun h => (h horigin).elim⟩

theorem Placed.origin_eq_none {p : Program} {n : NodeId} (h : p.Placed n) (hop : (p.node n).op ≠ .name) :
    (p.node n).origin = none := by
  refine Decidable.byContradiction fun hne => ?_
  have hname := h.origin hne
  simp [Node.isNameOf, hop] at hname

/-- A node stays placed while functions get more variables. -/
theorem Placed.mono {p q : Program} {n : NodeId} (h : p.Placed n) (hnode : q.node n = p.node n)
    (hdecls : ∀ f, ∀ m ∈ (p.func f).decls, m ∈ (q.func f).decls)
    (hcaptures : ∀ f, ∀ m ∈ (p.func f).captures, m ∈ (q.func f).captures)
    (hresults : ∀ f, (p.func f).results.length ≤ (q.func f).results.length) : q.Placed n := by
  refine ⟨fun hn => ?_, fun hop hcls => ?_, fun hn => ?_, fun hn => ?_⟩
  · rw [hnode] at hn ⊢
    obtain ⟨f, hf, hle⟩ := h.numbered hn
    exact ⟨f, hf, Nat.le_trans hle (hresults f)⟩
  · rw [hnode] at hop hcls
    obtain ⟨f, hf⟩ := h.declared hop hcls
    exact ⟨f, hdecls f n hf⟩
  · rw [hnode] at hn
    obtain ⟨f, hf⟩ := h.captured hn
    exact ⟨f, hcaptures f n hf⟩
  · rw [hnode] at hn ⊢
    exact h.origin hn

namespace Tidy

variable {p : Program} (h : p.Tidy)
include h

/-- Functions may change in what is no variable of theirs. -/
theorem of_nodes_eq {q : Program} (hnodes : q.nodes = p.nodes) (hfunc : ∀ f, (q.func f).decls = (p.func f).decls ∧
    (q.func f).captures = (p.func f).captures ∧ (q.func f).results = (p.func f).results) : q.Tidy := by
  have hnode (n : NodeId) : q.node n = p.node n := by
    unfold node
    rw [hnodes]
  refine ⟨fun n => (h.placed n).mono (hnode n) (fun f m hm => ?_) (fun f m hm => ?_) fun f => ?_, fun f n hn => ?_,
    fun f n hn => ?_, fun f result hresult n hn => ?_⟩
  · rw [(hfunc f).1]
    exact hm
  · rw [(hfunc f).2.1]
    exact hm
  · exact Nat.le_of_eq (congrArg List.length (hfunc f).2.2.symm)
  · rw [(hfunc f).1] at hn
    rw [hnode]
    exact h.decls f n hn
  · rw [(hfunc f).2.1] at hn
    rw [hnode]
    exact h.captures f n hn
  · rw [(hfunc f).2.2] at hresult
    rw [hnode, (hfunc f).1]
    exact h.results f result hresult n hn

theorem modifyFunc {f : FuncId} {g : Func → Func}
    (hg : ∀ x : Func, (g x).decls = x.decls ∧ (g x).captures = x.captures ∧ (g x).results = x.results) :
    (p.modifyFunc f g).Tidy := by
  refine h.of_nodes_eq rfl fun k => ?_
  rw [func_modifyFunc]
  split
  · rename_i hk
    rw [hk.1]
    exact hg _
  · exact ⟨rfl, rfl, rfl⟩

/-- A node that is no name may change into another such node. -/
theorem modifyNode (hwf : p.WellFormed) {n : NodeId} {g : Node → Node} (hop : (p.node n).op ≠ .name)
    (hg : (g (p.node n)).op ≠ .name ∧ (g (p.node n)).origin = (p.node n).origin) : (p.modifyNode n g).Tidy := by
  have hsame {m : NodeId} (hm : (p.node m).op = .name) : (p.modifyNode n g).node m = p.node m := by
    rw [node_modifyNode, if_neg]
    rintro ⟨rfl, _⟩
    exact hop hm
  refine ⟨fun m => ?_, fun f m hm => ?_, fun f m hm => ?_, fun f result hresult m hm => ?_⟩
  · by_cases hm : m = n ∧ n.index < p.nodes.size
    · obtain ⟨rfl, hlt⟩ := hm
      have hnode := p.node_modifyNode_self g hlt
      refine placed_of_op_ne (by rw [hnode]; exact hg.1) ?_
      rw [hnode, hg.2]
      exact (h.placed m).origin_eq_none hop
    · have hnode : (p.modifyNode n g).node m = p.node m := by rw [node_modifyNode, if_neg hm]
      exact (h.placed m).mono hnode (fun _ _ hm => hm) (fun _ _ hm => hm) fun _ => Nat.le_refl _
  · rw [hsame (hwf.decls f m hm).1]
    exact h.decls f m hm
  · rw [hsame (Node.isNameOf_iff.1 (h.captures f m hm).1).1]
    exact h.captures f m hm
  · obtain ⟨hmem, hcls⟩ := h.results f result hresult m hm
    refine ⟨hmem, ?_⟩
    rw [hsame (hwf.decls f m hmem).1]
    exact hcls

theorem addNode (hwf : p.WellFormed) {x : Node} (hname : x.op = .name → x.cls = .none ∨ x.cls = .global ∨ x.cls = .func)
    (horigin : x.origin = none) : (p.addNode x).2.Tidy := by
  have hsame {f : FuncId} {m : NodeId} (hm : m ∈ (p.func f).refs) : (p.addNode x).2.node m = p.node m :=
    node_addNode_of_lt p x (hwf.hasNode_of_mem_refs hm)
  refine ⟨fun n => ?_, fun f n hn => ?_, fun f n hn => ?_, fun f result hresult n hn => ?_⟩
  · by_cases hn : n.index = p.nodes.size
    · have hnode : (p.addNode x).2.node n = x := by rw [node_addNode, if_pos hn]
      refine ⟨fun hr => ?_, fun hop hcls => ?_, fun hc => ?_, fun ho => ?_⟩
      · rw [hnode] at hr
        rw [Node.isNameOf_iff] at hr
        have := hname hr.1
        simp [hr.2] at this
      · rw [hnode] at hop hcls
        rcases hname hop with hx | hx | hx <;> rw [hx] at hcls <;> cases hcls
      · rw [hnode] at hc
        rw [Node.isNameOf_iff] at hc
        have := hname hc.1
        simp [hc.2] at this
      · rw [hnode] at ho
        exact absurd horigin ho
    · have hnode : (p.addNode x).2.node n = p.node n := by rw [node_addNode, if_neg hn]
      exact (h.placed n).mono hnode (fun _ _ hm => hm) (fun _ _ hm => hm) fun _ => Nat.le_refl _
  · rw [hsame (Func.mem_refs_decls hn)]
    exact h.decls f n hn
  · rw [hsame (Func.mem_refs_captures hn)]
    exact h.captures f n hn
  · rw [hsame (Func.mem_refs_name (List.mem_append_right _ hresult) hn)]
    exact h.results f result hresult n hn

theorem addFunc {x : Func} (hdecls : x.decls = []) (hcaptures : x.captures = []) (hresults : x.results = []) :
    (p.addFunc x).2.Tidy := by
  have hfunc (f : FuncId) : (p.addFunc x).2.func f = p.func f ∨ p.func f = default ∧ (p.addFunc x).2.func f = x := by
    rw [func_addFunc]
    split
    · rename_i hf
      exact Or.inr ⟨func_of_size_le p (Nat.le_of_eq hf.symm), rfl⟩
    · exact Or.inl rfl
  refine h.of_nodes_eq rfl fun f => ?_
  rcases hfunc f with hf | ⟨hf, hx⟩
  · rw [hf]
    exact ⟨rfl, rfl, rfl⟩
  · rw [hf, hx]
    exact ⟨hdecls, hcaptures, hresults⟩

/-- A name is made and becomes a variable of `f`. -/
theorem addName (hwf : p.WellFormed) {q : Program} {f : FuncId} {x : Node} {y : Func}
    (hnode : ∀ n, q.node n = if n.index = p.nodes.size then x else p.node n)
    (hfunc : ∀ k, q.func k = if k = f then y else p.func k) (ds cs : List NodeId) (rs : List Param)
    (hy : y.decls = (p.func f).decls ++ ds ∧ y.captures = (p.func f).captures ++ cs ∧ y.results = (p.func f).results ++ rs)
    (hplaced : q.Placed ⟨p.nodes.size⟩)
    (hds : ∀ n ∈ ds, n = ⟨p.nodes.size⟩ ∧ x.cls.isVariable = true ∧ x.refs = [])
    (hcs : ∀ n ∈ cs, n = ⟨p.nodes.size⟩ ∧ x.isNameOf .captured = true ∧ x.curfn = some f ∧ x.children = [])
    (hrs : ∀ result ∈ rs, ∀ n, result.name = some n → n ∈ ds ∧ x.cls = .result) : q.Tidy := by
  have hnew : q.node ⟨p.nodes.size⟩ = x := by rw [hnode, if_pos rfl]
  have hsame {k : FuncId} {m : NodeId} (hm : m ∈ (p.func k).refs) : q.node m = p.node m := by
    rw [hnode, if_neg (Nat.ne_of_lt (hwf.hasNode_of_mem_refs hm))]
  -- Each list of variables is the old one, and at `f` what is added.
  have hmem {α : Type} {list : Func → List α} {more : List α} (hmore : list y = list (p.func f) ++ more) {k : FuncId}
      {a : α} : a ∈ list (q.func k) ↔ a ∈ list (p.func k) ∨ k = f ∧ a ∈ more := by
    rw [hfunc]
    by_cases hk : k = f
    · rw [if_pos hk, hmore, List.mem_append, hk]
      simp
    · rw [if_neg hk]
      simp [hk]
  refine ⟨fun n => ?_, fun k n hn => ?_, fun k n hn => ?_, fun k result hresult n hn => ?_⟩
  · by_cases hn : n.index = p.nodes.size
    · rwa [show n = ⟨p.nodes.size⟩ from NodeId.ext hn]
    · refine (h.placed n).mono (by rw [hnode, if_neg hn]) (fun _ _ hm => (hmem hy.1).2 (Or.inl hm))
        (fun _ _ hm => (hmem hy.2.1).2 (Or.inl hm)) fun k => ?_
      rw [hfunc]
      split
      · rename_i hk
        rw [hy.2.2, List.length_append, hk]
        exact Nat.le_add_right _ _
      · exact Nat.le_refl _
  · rcases (hmem hy.1).1 hn with hn | ⟨-, hn⟩
    · rw [hsame (Func.mem_refs_decls hn)]
      exact h.decls k n hn
    · obtain ⟨rfl, hx⟩ := hds n hn
      rw [hnew]
      exact hx
  · rcases (hmem hy.2.1).1 hn with hn | ⟨rfl, hn⟩
    · rw [hsame (Func.mem_refs_captures hn)]
      exact h.captures k n hn
    · obtain ⟨rfl, hx⟩ := hcs n hn
      rw [hnew]
      exact hx
  · rcases (hmem hy.2.2).1 hresult with hr | ⟨rfl, hr⟩
    · obtain ⟨hdecl, hcls⟩ := h.results k result hr n hn
      rw [hsame (Func.mem_refs_decls hdecl)]
      exact ⟨(hmem hy.1).2 (Or.inl hdecl), hcls⟩
    · obtain ⟨hdecl, hcls⟩ := hrs result hr n hn
      refine ⟨(hmem hy.1).2 (Or.inr ⟨rfl, hdecl⟩), ?_⟩
      rw [(hds n hdecl).1, hnew]
      exact hcls

end Tidy

theorem func_declareName_eq {p : Program} {f : FuncId} (hf : p.HasFunc f) (x : Node) (k : FuncId) :
    (p.declareName f x).2.func k =
      if k = f then { p.func f with decls := (p.func f).decls ++ [⟨p.nodes.size⟩] } else p.func k := by
  by_cases hk : k = f
  · rw [hk, if_pos rfl, func_declareName hf]
    rfl
  · rw [if_neg hk]
    unfold declareName
    exact (func_modifyFunc _ f k _).trans (if_neg fun h => hk h.1)

theorem func_output {p : Program} {f : FuncId} (hf : p.HasFunc f) (x : Node) (k : FuncId) :
    ((p.declareName f x).2.modifyFunc f fun y =>
        { y with results := y.results ++ [{ name := some (p.declareName f x).1, ty := x.ty }] }).func k =
      if k = f then
        { p.func f with
          decls := (p.func f).decls ++ [⟨p.nodes.size⟩]
          results := (p.func f).results ++ [{ name := some ⟨p.nodes.size⟩, ty := x.ty }] }
      else p.func k := by
  have hf' : (p.declareName f x).2.HasFunc f := by
    unfold HasFunc
    rw [size_declareName]
    exact hf
  rw [func_modifyFunc, func_declareName_eq hf, func_declareName_eq hf]
  by_cases hk : k = f
  · rw [if_pos ⟨hk, hf'⟩, if_pos hk, if_pos rfl]
    rfl
  · rw [if_neg fun e => hk e.1, if_neg hk, if_neg hk]

theorem func_capture {p : Program} {f : FuncId} (hf : p.HasFunc f) (x : Node) (k : FuncId) :
    ((p.addNode x).2.modifyFunc f fun y => { y with captures := y.captures ++ [(p.addNode x).1] }).func k =
      if k = f then { p.func f with captures := (p.func f).captures ++ [⟨p.nodes.size⟩] } else p.func k := by
  rw [func_modifyFunc]
  by_cases hk : k = f
  · rw [if_pos ⟨hk, hf⟩, if_pos hk]
    rfl
  · rw [if_neg fun e => hk e.1, if_neg hk]
    rfl

/-- A variable that is declared is placed, if it is no output. -/
theorem placed_declareName {p : Program} {f : FuncId} (hf : p.HasFunc f) {x : Node} (hrefs : x.refs = [])
    (hcls : x.cls ≠ .captured) (hresult : x.cls ≠ .result) : (p.declareName f x).2.Placed ⟨p.nodes.size⟩ := by
  have hself : (p.declareName f x).2.node ⟨p.nodes.size⟩ = { x with op := .name, curfn := some f } :=
    p.node_declareName f x
  have horigin : x.origin = none := by
    simp only [Node.refs, List.append_eq_nil_iff, Option.toList_eq_nil_iff] at hrefs
    exact hrefs.2
  refine ⟨fun h => ?_, fun _ _ => ⟨f, mem_decls_declareName hf x⟩, fun h => ?_, fun h => ?_⟩
  · rw [hself] at h
    simp [Node.isNameOf, hresult] at h
  · rw [hself] at h
    simp [Node.isNameOf, hcls] at h
  · rw [hself] at h
    exact absurd horigin h

theorem Edit.tidy {p q : Program} (hq : p.Edit q) (hwf : p.WellFormed) (h : p.Tidy) : q.Tidy := by
  cases hq with
  | types | label | beginBody => exact h.of_nodes_eq rfl fun _ => ⟨rfl, rfl, rfl⟩
  | node x _ hparts hname => exact h.addNode hwf hname hparts.1
  | stmtBody n _ hop | stmtAlt n _ hop => exact h.modifyNode hwf hop ⟨hop, rfl⟩
  | clauses n _ hop =>
    have hop' : (p.node n).op ≠ .name := by rw [hop]; nofun
    exact h.modifyNode hwf hop' ⟨hop', rfl⟩
  | assertOk n hop =>
    refine h.modifyNode hwf (fun hname => ?_) ⟨nofun, rfl⟩
    rw [hname] at hop
    exact hop.elim nofun nofun
  | func => exact h.addFunc rfl rfl rfl
  | recv | param | funcBody | imported | promised => exact h.modifyFunc fun _ => ⟨rfl, rfl, rfl⟩
  | notes f g hg =>
    refine h.modifyFunc fun x => ?_
    rw [(hg x).rest]
    exact ⟨rfl, rfl, rfl⟩
  | declare f x _ hf hrefs hcls =>
    have hvar : x.cls.isVariable = true := by rcases hcls with e | e <;> rw [e] <;> rfl
    refine h.addName hwf (fun n => p.node_addNode _ n) (func_declareName_eq hf x) [⟨p.nodes.size⟩] [] []
      ⟨rfl, by simp, by simp⟩ ?_ (List.forall_mem_singleton.2 ⟨rfl, hvar, hrefs⟩) (by simp) (by simp)
    refine placed_declareName hf hrefs ?_ ?_ <;> rcases hcls with e | e <;> simp [e]
  | output f x _ hf hrefs hcls hordinal =>
    have hvar : x.cls.isVariable = true := by rw [hcls]; rfl
    refine h.addName hwf (fun n => p.node_addNode _ n) (func_output hf x) [⟨p.nodes.size⟩] []
      [{ name := some ⟨p.nodes.size⟩, ty := x.ty }] ⟨rfl, by simp, rfl⟩ ?_
      (List.forall_mem_singleton.2 ⟨rfl, hvar, hrefs⟩) (by simp) ?_
    · have hself : ((p.declareName f x).2.modifyFunc f fun y =>
          { y with results := y.results ++ [{ name := some (p.declareName f x).1, ty := x.ty }] }).node ⟨p.nodes.size⟩ =
          { x with op := .name, curfn := some f } := p.node_declareName f x
      refine ⟨fun _ => ⟨f, by rw [hself], ?_⟩, fun _ _ => ⟨f, ?_⟩, fun hc => ?_, fun ho => ?_⟩
      · rw [hself, func_output hf, if_pos rfl]
        simp [hordinal]
      · rw [func_output hf, if_pos rfl]
        exact List.mem_append_right _ (List.mem_singleton_self _)
      · rw [hself] at hc
        simp [Node.isNameOf, hcls] at hc
      · rw [hself] at ho
        simp only [Node.refs, List.append_eq_nil_iff, Option.toList_eq_nil_iff] at hrefs
        exact absurd hrefs.2 ho
    · rintro result hresult n hn
      rw [List.mem_singleton.1 hresult] at hn
      cases hn
      exact ⟨List.mem_singleton_self _, hcls⟩
  | capture f x _ hf _ hname hcurfn hchildren =>
    have hself : ((p.addNode x).2.modifyFunc f fun y =>
        { y with captures := y.captures ++ [(p.addNode x).1] }).node ⟨p.nodes.size⟩ = x := p.node_addNode_self x
    refine h.addName hwf (fun n => p.node_addNode _ n) (func_capture hf x) [] [⟨p.nodes.size⟩] [] ⟨by simp, rfl, by simp⟩ ?_ (by simp)
      (List.forall_mem_singleton.2 ⟨rfl, hname, hcurfn, hchildren⟩) (by simp)
    rw [Node.isNameOf_iff] at hname
    refine ⟨fun hr => ?_, fun _ hcls => ?_, fun _ => ⟨f, ?_⟩, fun _ => ?_⟩
    · rw [hself] at hr
      simp [Node.isNameOf, hname] at hr
    · rw [hself, hname.2] at hcls
      cases hcls
    · rw [func_capture hf, if_pos rfl]
      exact List.mem_append_right _ (List.mem_singleton_self _)
    · rw [hself]
      simp [Node.isNameOf, hname]

theorem Edits.tidy {p q : Program} (hq : Edits p q) (hwf : p.WellFormed) (h : p.Tidy) : q.Tidy := by
  induction hq with
  | refl => exact h
  | tail hr hq ih => exact hq.tidy (Edits.wellFormed hr hwf) ih

end Program

end EscapeAnalysis

import EscapeAnalysis.Proofs.Building.Edits

/-!
# The forms of nodes

The declarations of a body and the clauses of its switches over types introduce local variables that were made for
them, so none of them gives an input or an output of a function another place. The parts of a composite literal are
entries, and nothing is marked as long as a program is built.

* `Program.KeepsForms p q` : local variables, clauses and entries of `p` are such in `q`, and if all nodes of `p` are
  formed, those of `q` are;
* `Program.Edits.keepsForms` : edits keep forms.
-/

namespace EscapeAnalysis.Program

theorem isFormedIn_of_isPlain {p : Program} {x : Node} (h : x.isPlain = true) : p.IsFormedIn x := by
  unfold Node.isPlain at h
  refine ⟨fun hop => ?_, fun hop => ?_, fun hop => ?_, ?_⟩
  · rcases hop with hop | hop <;> simp [hop] at h
  · simp [hop] at h
  · cases hx : x.op <;> simp [hx, Op.isComposite] at h hop
  · split at h
    iterate 6 cases h
    simpa using h

structure KeepsForms (p q : Program) : Prop where
  name : ∀ n, (p.node n).isNameOf .auto = true → (q.node n).isNameOf .auto = true
  op : ∀ n, (p.node n).op ≠ .block → (p.node n).op ≠ .typeAssert → (q.node n).op = (p.node n).op
  forms : (∀ n, p.IsFormedIn (p.node n)) → ∀ n, q.IsFormedIn (q.node n)

theorem KeepsForms.trans {p q r : Program} (h₁ : p.KeepsForms q) (h₂ : q.KeepsForms r) : p.KeepsForms r := by
  refine ⟨fun n hn => h₂.name n (h₁.name n hn), fun n hblock hassert => ?_, fun hp => h₂.forms (h₁.forms hp)⟩
  have hop := h₁.op n hblock hassert
  rw [h₂.op n (hop ▸ hblock) (hop ▸ hassert), hop]

/-- The form of a node stays what it is, as long as variables, clauses and entries do. -/
theorem IsFormedIn.mono {p q : Program} {x : Node} (h : p.IsFormedIn x)
    (hname : ∀ n, (p.node n).isNameOf .auto = true → (q.node n).isNameOf .auto = true)
    (hop : ∀ n, (p.node n).op ≠ .block → (p.node n).op ≠ .typeAssert → (q.node n).op = (p.node n).op) :
    q.IsFormedIn x := by
  refine ⟨fun hx var hvar => hname var (h.declares hx var hvar), fun hx clause hmem => ?_, fun hx entry hmem => ?_,
    h.unmarked⟩
  · have hclause := h.clauses hx clause hmem
    rw [hop clause (by simp [hclause]) (by simp [hclause]), hclause]
  · have hentry := h.entries hx entry hmem
    rw [hop entry (by simp [hentry]) (by simp [hentry]), hentry]

theorem KeepsForms.of_nodes_eq {p q : Program} (h : q.nodes = p.nodes) : p.KeepsForms q := by
  have hnode (n : NodeId) : q.node n = p.node n := by
    unfold node
    rw [h]
  refine ⟨fun n hn => by rwa [hnode], fun n _ _ => by rw [hnode], fun hp n => ?_⟩
  rw [hnode]
  exact (hp n).mono (fun m hm => by rwa [hnode]) fun m _ _ => by rw [hnode]

theorem node_addNode_of_op_ne (p : Program) (x : Node) {n : NodeId} (h : (p.node n).op ≠ .block) :
    (p.addNode x).2.node n = p.node n := by
  refine node_addNode_of_lt p x (Nat.lt_of_not_le fun hle => h ?_)
  rw [node_of_size_le p hle]
  rfl

theorem keepsForms_addNode {p : Program} {x : Node} (hx : p.IsFormedIn x) : p.KeepsForms (p.addNode x).2 := by
  have hname (n : NodeId) (hn : (p.node n).isNameOf .auto = true) :
      ((p.addNode x).2.node n).isNameOf .auto = true := by
    rw [node_addNode_of_op_ne p x (by simp [(Node.isNameOf_iff.1 hn).1])]
    exact hn
  have hop (n : NodeId) (hn : (p.node n).op ≠ .block) (_ : (p.node n).op ≠ .typeAssert) :
      ((p.addNode x).2.node n).op = (p.node n).op := by
    rw [node_addNode_of_op_ne p x hn]
  refine ⟨hname, hop, fun hp n => ?_⟩
  rw [node_addNode]
  split
  · exact hx.mono hname hop
  · exact (hp n).mono hname hop

/-- A change to a node that leaves local variables, clauses and entries what they are. -/
theorem keepsForms_modifyNode {p : Program} {n : NodeId} {f : Node → Node}
    (hname : (p.node n).isNameOf .auto = true → (f (p.node n)).isNameOf .auto = true)
    (hop : (p.node n).op ≠ .typeAssert → (f (p.node n)).op = (p.node n).op)
    (hnode : p.IsFormedIn (p.node n) → p.IsFormedIn (f (p.node n))) : p.KeepsForms (p.modifyNode n f) := by
  have hnames (m : NodeId) : (p.node m).isNameOf .auto = true → ((p.modifyNode n f).node m).isNameOf .auto = true :=
    rel_modifyNode (R := fun x y => x.isNameOf .auto = true → y.isNameOf .auto = true) (fun _ h => h) m hname
  have hops (m : NodeId) (_ : (p.node m).op ≠ .block) (hm : (p.node m).op ≠ .typeAssert) :
      ((p.modifyNode n f).node m).op = (p.node m).op :=
    rel_modifyNode (R := fun x y => x.op ≠ .typeAssert → y.op = x.op) (fun _ _ => rfl) m hop hm
  refine ⟨hnames, hops, fun hp m => ?_⟩
  rw [node_modifyNode]
  split
  · exact (hnode (hp n)).mono hnames hops
  · exact (hp m).mono hnames hops

theorem Edit.keepsForms {p q : Program} (h : p.Edit q) : p.KeepsForms q := by
  have hname {f : FuncId} {x : Node} (hmark : x.noEscape = false) : p.KeepsForms (p.declareName f x).2 := by
    refine (keepsForms_addNode (isFormedIn_of_isPlain ?_)).trans (.of_nodes_eq rfl)
    simp [Node.isPlain, hmark]
  cases h with
  | types | label | beginBody | func | recv | param | funcBody | notes | imported | promised => exact .of_nodes_eq rfl
  | node x _ _ _ _ _ hform => exact keepsForms_addNode hform
  | stmtBody | stmtAlt =>
    exact keepsForms_modifyNode (fun h => h) (fun _ => rfl) fun h => ⟨h.declares, h.clauses, h.entries, h.unmarked⟩
  | clauses n stmts hop hclauses =>
    refine keepsForms_modifyNode (fun h => h) (fun _ => rfl) fun h =>
      ⟨h.declares, fun _ clause hmem => (hclauses clause hmem).2, fun hop' => ?_, h.unmarked⟩
    simp [hop, Op.isComposite] at hop'
  | assertOk n hop =>
    refine keepsForms_modifyNode (fun hname => ?_) (fun hassert => (hop.resolve_left hassert).symm) fun h => ?_
    · rcases hop with hop | hop <;> simp [Node.isNameOf, hop] at hname
    · exact isFormedIn_of_isPlain (by simp [Node.isPlain, h.unmarked])
  | declare f x _ _ _ _ _ _ hmark => exact hname hmark
  | output f x _ _ _ _ _ _ _ hmark => exact (hname hmark).trans (.of_nodes_eq rfl)
  | capture f x _ _ _ hname _ _ _ _ _ hmark =>
    refine (keepsForms_addNode (isFormedIn_of_isPlain ?_)).trans (.of_nodes_eq rfl)
    simp [Node.isPlain, (Node.isNameOf_iff.1 hname).1, hmark]

theorem Edits.keepsForms {p q : Program} (h : Edits p q) : p.KeepsForms q := by
  induction h with
  | refl => exact .of_nodes_eq rfl
  | tail _ h ih => exact ih.trans h.keepsForms

/-- Only the operator of an assertion changes. -/
theorem Edits.op_eq {p q : Program} (h : Edits p q) {n : NodeId} {op : Op} (hn : p.HasNode n ∧ (p.node n).op = op)
    (hblock : op ≠ .block) (hassert : op ≠ .typeAssert) : q.HasNode n ∧ (q.node n).op = op :=
  ⟨h.hasNode hn.1, (h.keepsForms.op n (hn.2 ▸ hblock) (hn.2 ▸ hassert)).trans hn.2⟩

end EscapeAnalysis.Program

import EscapeAnalysis.Builder.Draft
import EscapeAnalysis.Proofs.Building.References
import EscapeAnalysis.Proofs.Types.Stores
import Mathlib.Logic.Relation

/-!
# Edits of a program under construction

Whatever builds a program does so by a few kinds of change, each of which takes only nodes and functions that are
there already. What the changes keep is shown here once per kind, so that the operations that build bodies and
signatures have only to be traced back to them.

* `Program.IsFormedIn p x` : the names that the node `x` introduces are local variables of `p`, and its parts are
  clauses or entries if its operator asks for them;
* `Program.Edit p q`, `Program.Edits p q` : one change, and any number of them;
* `Program.Edits.wellFormed` : changes keep a program well formed;
* `Program.edits_declare` : a signature is declared by such changes.
-/

namespace EscapeAnalysis

open Relation (ReflTransGen)

/-- The operators of composite literals. -/
def Op.isComposite : Op → Bool
  | .arrayLit | .structLit | .mapLit => true
  | _ => false

/-- The node introduces no name, has no entries and is not marked. -/
def Node.isPlain (x : Node) : Bool :=
  match x.op with
  | .decl | .caseClause | .switchStmt | .arrayLit | .structLit | .mapLit => false
  | _ => !x.noEscape

namespace Program

/-- A declaration or clause introduces a local variable, the parts of a switch are clauses, and those of a composite
literal are entries. Nothing is marked as long as a program is built. -/
structure IsFormedIn (p : Program) (x : Node) : Prop where
  declares : x.op = .decl ∨ x.op = .caseClause → ∀ var, x.left = some var → (p.node var).isNameOf .auto = true
  clauses : x.op = .switchStmt → ∀ clause ∈ x.list, (p.node clause).op = .caseClause
  entries : x.op.isComposite = true → ∀ entry ∈ x.list, (p.node entry).op = .key
  unmarked : x.noEscape = false

/-- The node is there. -/
def HasNode (p : Program) (n : NodeId) : Prop := n.index < p.nodes.size

/-- The function is there. -/
def HasFunc (p : Program) (f : FuncId) : Prop := f.index < p.funcs.size

/-- The body was begun. -/
def Begun (p : Program) (b : BodyId) : Prop := b.index < p.bodies

/-- The label is one of the body. -/
def LabelIn (p : Program) (l : LabelId) (b : BodyId) : Prop := ∃ x, p.labels[l.index]? = some x ∧ x.home = some b

/-- The parts of the node are there, it stands for no other variable, and its label is one of the body that it is made
in. -/
def HasParts (p : Program) (x : Node) : Prop :=
  x.origin = none ∧ (∀ l, x.label = some l → ∃ b, x.home = some b ∧ p.LabelIn l b) ∧ ∀ m ∈ x.children, p.HasNode m

theorem HasParts.refs {p : Program} {x : Node} (h : p.HasParts x) : ∀ m ∈ x.refs, p.HasNode m := by
  intro m hm
  unfold Node.refs at hm
  rw [h.1] at hm
  exact h.2.2 m (by simpa using hm)

/-- One change of a program under construction. -/
inductive Edit (p : Program) : Program → Prop where
  /-- Types are added, or those of the fields of a struct replaced. -/
  | types (types : TypeStore) (hsound : p.types.Sound → types.Sound)
      (hsize : p.types.compounds.size ≤ types.compounds.size) : Edit p { p with types }
  | label (name : String) (home : Option BodyId) : Edit p (p.addLabel name home).2
  | beginBody : Edit p p.beginBody.2
  /-- A node that is no variable of a function. -/
  | node (x : Node) (hty : p.HasType x.ty) (hparts : p.HasParts x)
      (hcls : x.op = .name → x.cls = .none ∨ x.cls = .global ∨ x.cls = .func)
      (hright : x.list ≠ [] → x.right = none ∨ x.op.isCall = false) (hhome : ∀ b, x.home = some b → p.Begun b)
      (hform : p.IsFormedIn x) : Edit p (p.addNode x).2
  | stmtBody (n : NodeId) (stmts : List NodeId) (hop : (p.node n).op ≠ .name) (h : ∀ m ∈ stmts, p.HasNode m) :
    Edit p (p.modifyNode n fun x => { x with body := stmts })
  | stmtAlt (n : NodeId) (stmts : List NodeId) (hop : (p.node n).op ≠ .name) (h : ∀ m ∈ stmts, p.HasNode m) :
    Edit p (p.modifyNode n fun x => { x with alt := stmts })
  | clauses (n : NodeId) (stmts : List NodeId) (hop : (p.node n).op = .switchStmt)
      (h : ∀ m ∈ stmts, p.HasNode m ∧ (p.node m).op = .caseClause) :
    Edit p (p.modifyNode n fun x => { x with list := stmts })
  | assertOk (n : NodeId) (h : (p.node n).op = .typeAssert ∨ (p.node n).op = .typeAssertOk) :
    Edit p (p.modifyNode n fun x => { x with op := .typeAssertOk })
  /-- A function that declares nothing yet. -/
  | func (name : String) (outer : Option FuncId) (ty : Option Ty) (line : UInt32) (hty : p.HasType ty)
      (houter : ∀ f, outer = some f → p.HasFunc f) : Edit p (p.addFunc { name, outer, ty, line }).2
  /-- An input or a local variable. -/
  | declare (f : FuncId) (x : Node) (hty : p.HasType x.ty) (hf : p.HasFunc f) (hrefs : x.refs = [])
      (hcls : x.cls = .param ∨ x.cls = .auto) (hlabel : x.label = none) (hhome : ∀ b, x.home = some b → p.Begun b)
      (hmark : x.noEscape = false) : Edit p (p.declareName f x).2
  /-- An output, numbered by its position. -/
  | output (f : FuncId) (x : Node) (hty : p.HasType x.ty) (hf : p.HasFunc f) (hrefs : x.refs = [])
      (hcls : x.cls = .result) (hordinal : x.ordinal = (p.func f).results.length + 1) (hlabel : x.label = none)
      (hhome : x.home = none) (hmark : x.noEscape = false) :
    Edit p ((p.declareName f x).2.modifyFunc f fun y =>
      { y with results := y.results ++ [{ name := some (p.declareName f x).1, ty := x.ty }] })
  | recv (f : FuncId) (param : Param) (hty : p.HasType param.ty) (hf : p.HasFunc f)
      (h : ∀ n, param.name = some n → n ∈ (p.func f).decls ∧ (p.node n).cls = .param ∧ (p.node n).ty = param.ty) :
    Edit p (p.modifyFunc f fun x => { x with recv := some param })
  | param (f : FuncId) (param : Param) (hty : p.HasType param.ty) (hf : p.HasFunc f)
      (h : ∀ n, param.name = some n → n ∈ (p.func f).decls ∧ (p.node n).cls = .param ∧ (p.node n).ty = param.ty) :
    Edit p (p.modifyFunc f fun x => { x with params := x.params ++ [param] })
  | capture (f : FuncId) (x : Node) (hty : p.HasType x.ty) (hf : p.HasFunc f) (hrefs : ∀ m ∈ x.refs, p.HasNode m)
      (hname : x.isNameOf .captured = true) (hcurfn : x.curfn = some f) (hchildren : x.children = [])
      (horigin : x.origin ≠ none) (hlabel : x.label = none) (hhome : ∀ b, x.home = some b → p.Begun b)
      (hmark : x.noEscape = false) :
    Edit p ((p.addNode x).2.modifyFunc f fun y => { y with captures := y.captures ++ [(p.addNode x).1] })
  | funcBody (f : FuncId) (stmts : List NodeId) (hf : p.HasFunc f) (h : ∀ m ∈ stmts, p.HasNode m) :
    Edit p (p.modifyFunc f fun x => { x with body := some stmts })
  | notes (f : FuncId) (g : Func → Func) (hg : ∀ x : Func, x.Renoted (g x)) : Edit p (p.modifyFunc f g)
  | imported (f : FuncId) : Edit p (p.modifyFunc f fun x => { x with imported := true })
  | promised (f : FuncId) : Edit p (p.modifyFunc f fun x => { x with noEscape := true })

/-- Any number of changes. -/
def Edits : Program → Program → Prop := ReflTransGen Edit

theorem Edits.refl (p : Program) : Edits p p := ReflTransGen.refl

theorem Edit.edits {p q : Program} (h : p.Edit q) : Edits p q := ReflTransGen.single h

theorem Edits.trans {p q r : Program} (h₁ : Edits p q) (h₂ : Edits q r) : Edits p r := ReflTransGen.trans h₁ h₂

/-! ## What is there stays -/

theorem size_modifyFunc (p : Program) (f : FuncId) (g : Func → Func) : (p.modifyFunc f g).funcs.size = p.funcs.size :=
  Array.size_modify ..

theorem size_addNode (p : Program) (x : Node) : (p.addNode x).2.nodes.size = p.nodes.size + 1 := Array.size_push x

theorem Edit.size_le {p q : Program} (h : p.Edit q) :
    p.nodes.size ≤ q.nodes.size ∧ p.funcs.size ≤ q.funcs.size := by
  cases h with
  | types | label | beginBody => exact ⟨Nat.le_refl _, Nat.le_refl _⟩
  | node x => exact ⟨Nat.le_of_lt (by rw [size_addNode]; exact Nat.lt_succ_self _), Nat.le_refl _⟩
  | stmtBody | stmtAlt | clauses | assertOk => exact ⟨Nat.le_of_eq (size_modifyNode ..).symm, Nat.le_refl _⟩
  | func => exact ⟨Nat.le_refl _, Nat.le_of_lt (by simp [addFunc])⟩
  | declare | output | capture =>
    exact ⟨by simp [declareName, modifyFunc, addNode], by simp [declareName, modifyFunc, addNode]⟩
  | recv | param | funcBody | notes | imported | promised =>
    exact ⟨Nat.le_refl _, Nat.le_of_eq (size_modifyFunc ..).symm⟩

theorem Edits.size_le {p q : Program} (h : Edits p q) :
    p.nodes.size ≤ q.nodes.size ∧ p.funcs.size ≤ q.funcs.size := by
  induction h with
  | refl => exact ⟨Nat.le_refl _, Nat.le_refl _⟩
  | tail _ h ih => exact ⟨Nat.le_trans ih.1 h.size_le.1, Nat.le_trans ih.2 h.size_le.2⟩

theorem Edit.types_le {p q : Program} (h : p.Edit q) : p.types.compounds.size ≤ q.types.compounds.size := by
  cases h with
  | types _ _ hsize => exact hsize
  | _ => exact Nat.le_refl _

theorem Edits.types_le {p q : Program} (h : Edits p q) : p.types.compounds.size ≤ q.types.compounds.size := by
  induction h with
  | refl => exact Nat.le_refl _
  | tail _ h ih => exact Nat.le_trans ih h.types_le

theorem Edits.has {p q : Program} (h : Edits p q) {t : Ty} (ht : p.types.Has t) : q.types.Has t :=
  Ty.Below.mono ht h.types_le

theorem Edits.hasType {p q : Program} (h : Edits p q) {ty : Option Ty} (hty : p.HasType ty) : q.HasType ty :=
  fun t ht => h.has (hty t ht)

theorem Edits.hasNode {p q : Program} {n : NodeId} (h : Edits p q) (hn : p.HasNode n) : q.HasNode n :=
  Nat.lt_of_lt_of_le hn h.size_le.1

theorem Edits.hasFunc {p q : Program} {f : FuncId} (h : Edits p q) (hf : p.HasFunc f) : q.HasFunc f :=
  Nat.lt_of_lt_of_le hf h.size_le.2

/-- A body that was begun stays begun. -/
theorem Edits.begun {p q : Program} (h : Edits p q) {b : BodyId} (hb : p.Begun b) : q.Begun b := by
  induction h with
  | refl => exact hb
  | tail _ h ih =>
    cases h with
    | beginBody => exact Nat.lt_succ_of_lt ih
    | _ => exact ih

theorem Edit.labelIn {p q : Program} (h : p.Edit q) {l : LabelId} {b : BodyId} (hl : p.LabelIn l b) : q.LabelIn l b := by
  obtain ⟨x, hx, hhome⟩ := hl
  cases h with
  | label name home =>
    have hlt := (Array.getElem?_eq_some_iff.1 hx).1
    refine ⟨x, ?_, hhome⟩
    show (p.labels.push { name, home })[l.index]? = some x
    rw [Array.getElem?_push, if_neg (Nat.ne_of_lt hlt), hx]
  | _ => exact ⟨x, hx, hhome⟩

/-- A label stays in its body. -/
theorem Edits.labelIn {p q : Program} (h : Edits p q) {l : LabelId} {b : BodyId} (hl : p.LabelIn l b) :
    q.LabelIn l b := by
  induction h with
  | refl => exact hl
  | tail _ h ih => exact h.labelIn ih

/-- The node is there and is no name. -/
def HasStmt (p : Program) (n : NodeId) : Prop := p.HasNode n ∧ (p.node n).op ≠ .name

theorem Edit.op_ne_name {p q : Program} (h : p.Edit q) {n : NodeId} (hn : p.HasStmt n) : (q.node n).op ≠ .name := by
  obtain ⟨hlt, hop⟩ := hn
  cases h with
  | types | label | beginBody | func | recv | param | funcBody | notes | imported | promised => exact hop
  | node x | declare _ x | output _ x | capture _ x =>
    exact fun e => hop ((congrArg Node.op (node_addNode_of_lt p _ hlt)).symm.trans e)
  | stmtBody k | stmtAlt k | clauses k =>
    exact rel_modifyNode (R := fun x y => x.op ≠ .name → y.op ≠ .name) (fun _ h => h) _ id hop
  | assertOk k =>
    rw [node_modifyNode]
    split
    · exact nofun
    · exact hop

/-- No other node becomes a name. -/
theorem Edits.hasStmt {p q : Program} (h : Edits p q) {n : NodeId} (hn : p.HasStmt n) : q.HasStmt n := by
  induction h with
  | refl => exact hn
  | tail _ h ih => exact ⟨h.edits.hasNode ih.1, h.op_ne_name ih⟩

theorem hasNode_addNode (p : Program) (x : Node) : (p.addNode x).2.HasNode (p.addNode x).1 := by
  unfold HasNode
  rw [size_addNode]
  exact Nat.lt_succ_self _

/-- The function is a closure without a body. -/
def Unfinished (p : Program) (f : FuncId) : Prop := (p.func f).isClosure = true ∧ (p.func f).hasBody = false

theorem unfinished_modifyFunc {p : Program} {f k : FuncId} {g : Func → Func} (h : (p.modifyFunc f g).Unfinished k)
    (hg : ∀ x : Func, (g x).outer = x.outer ∧ (x.hasBody = true → (g x).hasBody = true)) : p.Unfinished k := by
  unfold Unfinished at h ⊢
  rw [func_modifyFunc] at h
  split at h
  · rename_i hk
    obtain ⟨houter, hbody⟩ := hg (p.func f)
    rw [hk.1]
    refine ⟨?_, Bool.eq_false_iff.2 fun hb => ?_⟩
    · rw [Func.isClosure, ← houter]
      exact h.1
    · rw [hbody hb] at h
      exact nomatch h.2
  · exact h

theorem unfinished_declareName {p : Program} {f k : FuncId} {x : Node} (h : (p.declareName f x).2.Unfinished k) :
    p.Unfinished k :=
  unfinished_modifyFunc (p := (p.addNode { x with op := .name, curfn := some f }).2) h fun _ => ⟨rfl, id⟩

theorem Edit.unfinished {p q : Program} (h : p.Edit q) (hsize : q.funcs.size = p.funcs.size) {f : FuncId}
    (hf : q.Unfinished f) : p.Unfinished f := by
  cases h with
  | types | label | beginBody | node | stmtBody | stmtAlt | clauses | assertOk => exact hf
  | func => exact absurd hsize (by simp [addFunc])
  | declare => exact unfinished_declareName hf
  | output => exact unfinished_declareName (unfinished_modifyFunc hf fun _ => ⟨rfl, id⟩)
  | capture f x => exact unfinished_modifyFunc (p := (p.addNode x).2) hf fun _ => ⟨rfl, id⟩
  | recv | param | imported | promised => exact unfinished_modifyFunc hf fun _ => ⟨rfl, id⟩
  | funcBody => exact unfinished_modifyFunc hf fun _ => ⟨rfl, fun _ => rfl⟩
  | notes _ g hg =>
    refine unfinished_modifyFunc hf fun x => ?_
    rw [(hg x).rest]
    exact ⟨rfl, id⟩

/-- As long as no function is added, no closure is without a body that had one. -/
theorem Edits.unfinished {p q : Program} (h : Edits p q) (hsize : q.funcs.size = p.funcs.size) {f : FuncId}
    (hf : q.Unfinished f) : p.Unfinished f := by
  induction h with
  | refl => exact hf
  | @tail r q hr hq ih =>
    have h₁ := (Edits.size_le hr).2
    have h₂ := hq.size_le.2
    exact ih (by omega) (hq.unfinished (by omega) hf)

/-- The variables of the package are named elsewhere. -/
theorem Edits.globals {p q : Program} (h : Edits p q) : q.globals = p.globals := by
  induction h with
  | refl => rfl
  | tail _ h ih => cases h <;> exact ih

/-! ## What changes keep -/

namespace WellFormed

variable {p : Program} (h : p.WellFormed)
include h

theorem hasNode_of_mem_refs {f : FuncId} {m : NodeId} (hm : m ∈ (p.func f).refs) : p.HasNode m :=
  h.refs m (Or.inr ⟨f, hm⟩)

theorem addNode {x : Node} (hrefs : ∀ m ∈ x.refs, p.HasNode m) : (p.addNode x).2.WellFormed := by
  refine h.of_funcs_eq (fun m hm => ?_) rfl fun n hn hop => ?_
  · rw [size_addNode]
    rcases refers_addNode hm with hm | hm
    · exact Nat.lt_succ_of_lt (h.refs m hm)
    · exact Nat.lt_succ_of_lt (hrefs m hm)
  · rw [node_addNode_of_lt p x hn]
    exact ⟨hop, rfl, rfl⟩

/-- A node may change as long as a name stays the same name. -/
theorem modifyNode {n : NodeId} {g : Node → Node} (hrefs : ∀ m ∈ (g (p.node n)).refs, m ∈ (p.node n).refs ∨ p.HasNode m)
    (hname : (p.node n).op = .name → (g (p.node n)).op = .name ∧ (g (p.node n)).curfn = (p.node n).curfn ∧
      (g (p.node n)).cls = (p.node n).cls) : (p.modifyNode n g).WellFormed := by
  refine h.of_funcs_eq (fun m hm => ?_) rfl fun k hk hop => ?_
  · rw [size_modifyNode]
    rcases refers_modifyNode hm with hm | hm
    · exact h.refs m hm
    · exact (hrefs m hm).elim (fun hm => h.refs m (Or.inl ⟨n, hm⟩)) id
  · rw [node_modifyNode]
    split
    · rename_i hkn
      rw [hkn.1] at hop ⊢
      exact hname hop
    · exact ⟨hop, rfl, rfl⟩

theorem addFunc {x : Func} (hrefs : x.refs = []) : (p.addFunc x).2.WellFormed := by
  have hnone {m : NodeId} (hm : m ∈ x.refs) : False := by
    rw [hrefs] at hm
    exact List.not_mem_nil hm
  refine ⟨fun m hm => ?_, fun f n hn => ?_, fun f param hparam n hn => ?_⟩
  · rcases refers_addFunc hm with hm | hm
    · exact h.refs m hm
    · exact (hnone hm).elim
  · rw [func_addFunc] at hn
    split at hn
    · exact (hnone (Func.mem_refs_decls hn)).elim
    · exact h.decls f n hn
  · rw [func_addFunc] at hparam ⊢
    split at hparam
    · exact (hnone (Func.mem_refs_name (List.mem_append_left _ hparam) hn)).elim
    · rename_i hf
      rw [if_neg hf]
      exact h.inputs f param hparam n hn

/-- A function may change as long as what it declares then are names of it, its inputs among them. -/
theorem modifyFunc {f : FuncId} {g : Func → Func} (hrefs : ∀ m ∈ (g (p.func f)).refs, m ∈ (p.func f).refs ∨ p.HasNode m)
    (hdecls : ∀ n ∈ (g (p.func f)).decls, n ∈ (p.func f).decls ∨ (p.node n).op = .name ∧ (p.node n).curfn = some f)
    (hinputs : ∀ param ∈ (g (p.func f)).inputs, ∀ n, param.name = some n →
      n ∈ (g (p.func f)).decls ∧ (p.node n).cls = .param) : (p.modifyFunc f g).WellFormed := by
  refine ⟨fun m hm => ?_, fun k n hn => ?_, fun k param hparam n hn => ?_⟩
  · rcases refers_modifyFunc hm with hm | hm
    · exact h.refs m hm
    · exact (hrefs m hm).elim (fun hm => h.refs m (Or.inr ⟨f, hm⟩)) id
  · rw [func_modifyFunc] at hn
    split at hn
    · rename_i hk
      rw [hk.1]
      exact (hdecls n hn).elim (h.decls f n) id
    · exact h.decls k n hn
  · rw [func_modifyFunc] at hparam ⊢
    split at hparam
    · rename_i hk
      rw [if_pos hk]
      exact hinputs param hparam n hn
    · rename_i hk
      rw [if_neg hk]
      exact h.inputs k param hparam n hn

theorem declareName {f : FuncId} {x : Node} (hrefs : x.refs = []) : (p.declareName f x).2.WellFormed := by
  have hnew : (p.addNode { x with op := .name, curfn := some f }).2.WellFormed := by
    refine h.addNode fun m hm => ?_
    rw [show ({ x with op := .name, curfn := some f } : Node).refs = x.refs from rfl, hrefs] at hm
    exact absurd hm List.not_mem_nil
  have hself := p.node_addNode_self { x with op := .name, curfn := some f }
  have hhas := p.hasNode_addNode { x with op := .name, curfn := some f }
  unfold Program.declareName
  generalize p.addNode { x with op := .name, curfn := some f } = made at hnew hself hhas ⊢
  refine hnew.modifyFunc (fun m hm => ?_) (fun n hn => ?_) fun param hparam n hn => ?_
  · simp only [Func.mem_refs, List.mem_append, List.mem_singleton] at hm ⊢
    grind [Func.inputs]
  · rcases List.mem_append.1 hn with hn | hn
    · exact Or.inl hn
    · rw [List.mem_singleton.1 hn, hself]
      exact Or.inr ⟨rfl, rfl⟩
  · obtain ⟨hmem, hcls⟩ := hnew.inputs f param hparam n hn
    exact ⟨List.mem_append_left _ hmem, hcls⟩

end WellFormed

theorem Edit.wellFormed {p q : Program} (hq : p.Edit q) (h : p.WellFormed) : q.WellFormed := by
  cases hq with
  | types | label | beginBody => exact ⟨h.refs, h.decls, h.inputs⟩
  | node x _ hparts => exact h.addNode hparts.refs
  | stmtBody n stmts _ hs | stmtAlt n stmts _ hs | clauses n stmts _ hs =>
    refine h.modifyNode (fun m hm => ?_) fun hop => ⟨hop, rfl, rfl⟩
    simp only [Node.refs, Node.children, List.mem_append] at hm ⊢
    grind
  | assertOk n hop =>
    refine h.modifyNode (fun m hm => Or.inl hm) fun hop' => ?_
    rw [hop'] at hop
    rcases hop with hop | hop <;> cases hop
  | func => exact h.addFunc rfl
  | declare f x _ _ hrefs => exact h.declareName hrefs
  | output f x _ _ hrefs =>
    have hnew := h.declareName (f := f) hrefs
    refine hnew.modifyFunc (fun m hm => ?_) (fun _ hn => Or.inl hn) (hnew.inputs f)
    have hhas : (p.declareName f x).2.HasNode (p.declareName f x).1 := p.hasNode_addNode _
    simp only [Func.mem_refs, List.mem_append, List.mem_singleton] at hm ⊢
    grind [Func.inputs]
  | recv f param _ _ hparam =>
    refine h.modifyFunc (fun m hm => ?_) (fun _ hn => Or.inl hn) fun other hother n hn => ?_
    · simp only [Func.mem_refs, Func.inputs, List.mem_append] at hm ⊢
      grind
    · rcases List.mem_append.1 hother with hother | hother
      · cases (Option.mem_toList.1 hother)
        exact ⟨(hparam n hn).1, (hparam n hn).2.1⟩
      · exact h.inputs f other (List.mem_append_right _ hother) n hn
  | param f param _ _ hparam =>
    refine h.modifyFunc (fun m hm => ?_) (fun _ hn => Or.inl hn) fun other hother n hn => ?_
    · simp only [Func.mem_refs, Func.inputs, List.mem_append, List.mem_singleton] at hm ⊢
      grind
    · have hmem : other ∈ (p.func f).inputs ++ [param] := by
        rw [Func.inputs, List.append_assoc]
        exact hother
      rcases List.mem_append.1 hmem with hmem | hmem
      · exact h.inputs f other hmem n hn
      · cases List.mem_singleton.1 hmem
        exact ⟨(hparam n hn).1, (hparam n hn).2.1⟩
  | capture f x _ _ hrefs =>
    have hnew := h.addNode hrefs
    have hhas := p.hasNode_addNode x
    refine hnew.modifyFunc (fun m hm => ?_) (fun _ hn => Or.inl hn) (hnew.inputs f)
    simp only [Func.mem_refs, List.mem_append, List.mem_singleton] at hm ⊢
    grind [Func.inputs]
  | funcBody f stmts _ hs =>
    refine h.modifyFunc (fun m hm => ?_) (fun _ hn => Or.inl hn) (h.inputs f)
    simp only [Func.mem_refs] at hm ⊢
    grind [Func.inputs]
  | notes f g hg =>
    exact h.renoted rfl fun k => rel_modifyFunc Func.Renoted.refl k (hg _)
  | imported f | promised f => exact h.modifyFunc (fun m hm => Or.inl hm) (fun _ hn => Or.inl hn) (h.inputs f)

theorem Edits.wellFormed {p q : Program} (hq : Edits p q) (h : p.WellFormed) : q.WellFormed := by
  induction hq with
  | refl => exact h
  | tail _ hq ih => exact hq.wellFormed ih

/-! ## Signatures -/

theorem func_declareName {p : Program} {f : FuncId} (hf : p.HasFunc f) (x : Node) :
    (p.declareName f x).2.func f = { p.func f with decls := (p.func f).decls ++ [(p.declareName f x).1] } := by
  unfold declareName
  dsimp only
  rw [func_modifyFunc, if_pos ⟨rfl, hf⟩]
  rfl

theorem mem_decls_declareName {p : Program} {f : FuncId} (hf : p.HasFunc f) (x : Node) :
    (p.declareName f x).1 ∈ ((p.declareName f x).2.func f).decls := by
  rw [func_declareName hf]
  exact List.mem_append_right _ (List.mem_singleton_self _)

theorem node_declareName (p : Program) (f : FuncId) (x : Node) :
    (p.declareName f x).2.node (p.declareName f x).1 = { x with op := .name, curfn := some f } :=
  p.node_addNode_self _

theorem size_declareName (p : Program) (f : FuncId) (x : Node) : (p.declareName f x).2.funcs.size = p.funcs.size :=
  size_modifyFunc ..

theorem size_declareInput (p : Program) (f : FuncId) (name : String) (ty : Ty) (variadic : Bool) (line : UInt32) :
    (p.declareInput f name ty variadic line).2.funcs.size = p.funcs.size := by
  unfold declareInput
  split
  · rfl
  · exact size_declareName ..

/-- Names and parameters are declared without more functions. -/
theorem size_declareRecv (p : Program) (f : FuncId) (line : UInt32) (recv : Option (String × Ty)) :
    (declareRecv f line recv p).funcs.size = p.funcs.size := by
  cases recv with
  | none => rfl
  | some recv => exact (size_modifyFunc ..).trans (size_declareInput ..)

theorem size_declareParams (p : Program) (f : FuncId) (variadic : Bool) (line : UInt32) (params : List (String × Ty)) :
    (declareParams f variadic line params p).funcs.size = p.funcs.size := by
  induction params generalizing p with
  | nil => rfl
  | cons param rest ih => exact (ih _).trans ((size_modifyFunc ..).trans (size_declareInput ..))

theorem size_declareResults (p : Program) (f : FuncId) (line : UInt32) (i : Nat) (results : List (Option String × Ty)) :
    (declareResults f line i results p).funcs.size = p.funcs.size := by
  induction results generalizing p i with
  | nil => rfl
  | cons result rest ih => exact (ih _ _).trans ((size_modifyFunc ..).trans (size_declareName ..))

section Signature

variable {p : Program} {f : FuncId} (hf : p.HasFunc f)
include hf

/-- The name of an input is declared by its function. -/
theorem edits_declareInput (name : String) {ty : Ty} (hty : p.types.Has ty) (variadic : Bool) (line : UInt32) :
    Edits p (p.declareInput f name ty variadic line).2 ∧
    ((p.declareInput f name ty variadic line).2.func f).results = (p.func f).results ∧
    (p.declareInput f name ty variadic line).1.ty = some ty ∧
    ∀ n, (p.declareInput f name ty variadic line).1.name = some n →
      n ∈ ((p.declareInput f name ty variadic line).2.func f).decls ∧
        ((p.declareInput f name ty variadic line).2.node n).cls = .param ∧
        ((p.declareInput f name ty variadic line).2.node n).ty = (p.declareInput f name ty variadic line).1.ty := by
  unfold declareInput
  split
  · exact ⟨.refl p, rfl, rfl, fun n hn => by cases hn⟩
  · have hedit := Edit.declare (p := p) f { ty := some ty, line, cls := .param, sym := some name, variadic }
      (hasType_some hty) hf (by simp [Node.refs, Node.children]) (Or.inl rfl) rfl (by simp) rfl
    refine ⟨hedit.edits, ?_, rfl, fun n hn => ?_⟩
    · rw [func_declareName hf]
    · cases hn
      have hnode := node_declareName p f { ty := some ty, line, cls := .param, sym := some name, variadic }
      exact ⟨mem_decls_declareName hf _, congrArg Node.cls hnode, congrArg Node.ty hnode⟩

theorem edits_declareRecv (line : UInt32) {recv : Option (String × Ty)} (hrecv : ∀ r, recv = some r → p.types.Has r.2) :
    Edits p (declareRecv f line recv p) ∧ ((declareRecv f line recv p).func f).results = (p.func f).results := by
  cases recv with
  | none => exact ⟨.refl p, rfl⟩
  | some recv =>
    have hhas := hrecv recv rfl
    obtain ⟨hedits, hresults, hty, hname⟩ := edits_declareInput hf recv.1 hhas false line
    have hedit := Edit.recv f _ (by rw [hty]; exact hasType_some (hedits.has hhas)) (hedits.hasFunc hf) hname
    refine ⟨hedits.trans hedit.edits, ?_⟩
    unfold declareRecv
    rw [func_modifyFunc, if_pos ⟨rfl, hedits.hasFunc hf⟩]
    exact hresults

theorem edits_declareParams (variadic : Bool) (line : UInt32) {params : List (String × Ty)}
    (hparams : ∀ e ∈ params, p.types.Has e.2) :
    Edits p (declareParams f variadic line params p) ∧
    ((declareParams f variadic line params p).func f).results = (p.func f).results := by
  induction params generalizing p with
  | nil => exact ⟨.refl p, rfl⟩
  | cons param rest ih =>
    rw [List.forall_mem_cons] at hparams
    obtain ⟨hedits, hresults, hty, hname⟩ := edits_declareInput hf param.1 hparams.1 (variadic && rest.isEmpty) line
    have hedit := Edit.param f _ (by rw [hty]; exact hasType_some (hedits.has hparams.1)) (hedits.hasFunc hf) hname
    have hstep := hedits.trans hedit.edits
    obtain ⟨hrest, hresults'⟩ := ih (hstep.hasFunc hf) fun e he => hstep.has (hparams.2 e he)
    refine ⟨hstep.trans hrest, hresults'.trans ?_⟩
    rw [func_modifyFunc, if_pos ⟨rfl, hedits.hasFunc hf⟩]
    exact hresults

/-- The results of a function are numbered from one. -/
theorem edits_declareResults (line : UInt32) {results : List (Option String × Ty)}
    (hresults : ∀ e ∈ results, p.types.Has e.2) {i : Nat} (hi : (p.func f).results.length = i) :
    Edits p (declareResults f line i results p) := by
  induction results generalizing p i with
  | nil => exact .refl p
  | cons result rest ih =>
    obtain ⟨name, ty⟩ := result
    rw [List.forall_mem_cons] at hresults
    let x : Node :=
      { ty := some ty, line, cls := .result, sym := some (name.getD ("~r" ++ toString i)), ordinal := i + 1 }
    have hstep := (Edit.output f x (hasType_some hresults.1) hf (by simp [x, Node.refs, Node.children]) rfl
      (by rw [hi]) rfl rfl rfl).edits
    refine hstep.trans (ih (hstep.hasFunc hf) (fun e he => hstep.has (hresults.2 e he)) ?_)
    have hf' : (p.declareName f x).2.HasFunc f := by
      unfold HasFunc declareName
      rw [size_modifyFunc]
      exact hf
    rw [func_modifyFunc, if_pos ⟨rfl, hf'⟩, func_declareName hf, List.length_append, hi]
    rfl

end Signature

end Program

/-- The types of a signature are there. -/
structure Signature.Typed (sig : Signature) (s : TypeStore) : Prop where
  recv : ∀ r, sig.recv = some r → s.Has r.2
  params : ∀ e ∈ sig.params, s.Has e.2
  results : ∀ e ∈ sig.results, s.Has e.2

namespace Program

/-- A signature is declared by changes, and its function is there then. It has no body yet. -/
theorem edits_declare {p : Program} (hp : p.types.Sound) {sig : Signature} (hsig : sig.Typed p.types)
    {outer : Option FuncId} (houter : ∀ f, outer = some f → p.HasFunc f) (line : UInt32) :
    Edits p (p.declare sig outer line).2 ∧ (p.declare sig outer line).2.HasFunc (p.declare sig outer line).1 ∧
    ∀ f, (p.declare sig outer line).2.Unfinished f →
      p.Unfinished f ∨ outer.isSome = true ∧ f = (p.declare sig outer line).1 := by
  let c : Compound := .func (sig.params.map (·.2)) (sig.results.map (·.2)) sig.variadic
  let q : Program := { p with types := (p.types.intern c).2 }
  let x : Func := { name := sig.name, outer, ty := some (p.types.intern c).1, line }
  have hparts : ∀ t ∈ c.parts, p.types.Has t := by
    intro t ht
    rcases List.mem_append.1 ht with ht | ht
    · obtain ⟨e, he, rfl⟩ := List.mem_map.1 ht
      exact hsig.params e he
    · obtain ⟨e, he, rfl⟩ := List.mem_map.1 ht
      exact hsig.results e he
  have htypes : Edits p q :=
    (Edit.types _ (fun h => TypeStore.sound_intern h hparts) (p.types.size_le_intern c)).edits
  have hstart : Edits p (q.addFunc x).2 :=
    htypes.trans (Edit.func (p := q) sig.name outer _ line (hasType_some (TypeStore.has_intern hp c)) houter).edits
  have hf : (q.addFunc x).2.HasFunc (q.addFunc x).1 := by simp [HasFunc, addFunc]
  have hnone : ((q.addFunc x).2.func (q.addFunc x).1).results = [] := by
    rw [func_addFunc]
    exact congrArg Func.results (if_pos rfl)
  obtain ⟨hrecv, hresults⟩ := edits_declareRecv hf line fun r hr => hstart.has (hsig.recv r hr)
  obtain ⟨hparams, hresults'⟩ := edits_declareParams (hrecv.hasFunc hf) sig.variadic line fun e he =>
    (hstart.trans hrecv).has (hsig.params e he)
  have hinputs := hrecv.trans hparams
  have hall := hinputs.trans (edits_declareResults (hinputs.hasFunc hf) line
    (fun e he => (hstart.trans hinputs).has (hsig.results e he)) (i := 0)
    (by rw [hresults', hresults, hnone]; rfl))
  refine ⟨hstart.trans hall, hall.hasFunc hf, fun f hunfinished => ?_⟩
  have hsize : (p.declare sig outer line).2.funcs.size = (q.addFunc x).2.funcs.size :=
    (size_declareResults ..).trans ((size_declareParams ..).trans (size_declareRecv ..))
  have hnew := hall.unfinished hsize hunfinished
  unfold Unfinished at hnew
  rw [func_addFunc] at hnew
  split at hnew
  · rename_i hindex
    exact Or.inr ⟨hnew.1, FuncId.ext hindex⟩
  · exact Or.inl hnew

end Program

end EscapeAnalysis

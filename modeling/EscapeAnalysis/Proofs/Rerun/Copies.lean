import EscapeAnalysis.Proofs.Building.Drafts
import EscapeAnalysis.Proofs.Recording.Changes
import EscapeAnalysis.Proofs.Types.Likeness

/-!
# Programs analyzed twice

The second analysis of a program works on the program as the first one left it. It makes the same nodes again, behind
those of the first: the node that the first analysis has at `n` the second has at `Rerun.shift n`. Nodes that the first
one hung below a call are still there when the second one starts.

* `Program.takesRest` : the call takes some arguments as a slice, whatever is known of the callee so far;
* `Program.Stub` : such a slice, without the flows into it;
* `Rerun` : the program before both analyses, and the number of nodes the first one left;
* `Rerun.Copies R a b` : the program `a` of the first analysis and `b` of the second are at the same point.
-/

namespace EscapeAnalysis

/-! ## Calls that take a slice -/

namespace Program

/-- One of the first `k` arguments starts the `...` arguments. -/
def restAt (spread : Bool) : List Param → Nat → Bool
  | param :: params, k + 1 => param.variadic && !spread || restAt spread params k
  | _, _ => false

def resultCount (p : Program) (call : NodeId) : Nat := (p.calleeShape call).results.length

def argCount (p : Program) (call : NodeId) : Nat :=
  match (p.node call).list with
  | [arg] => if (p.node arg).op.isCall ∧ 1 < p.resultCount arg then p.resultCount arg else 1
  | list => list.length

def takesRest (p : Program) (call : NodeId) : Bool :=
  (p.node call).op.isCall && restAt (p.node call).variadic (p.calleeShape call).params (p.argCount call)

theorem list_ne_nil_of_takesRest {p : Program} {n : NodeId} (h : p.takesRest n = true) : (p.node n).list ≠ [] := by
  intro hlist
  simp [takesRest, argCount, hlist, restAt] at h

theorem isCall_of_takesRest {p : Program} {n : NodeId} (h : p.takesRest n = true) : (p.node n).op.isCall = true := by
  simp only [takesRest, Bool.and_eq_true] at h
  exact h.1

theorem lt_size_of_isCall {p : Program} {n : NodeId} (h : (p.node n).op.isCall = true) : n.index < p.nodes.size := by
  refine p.lt_size_of_op_ne fun hop => ?_
  rw [hop] at h
  cases h

/-- The node is the slice of the `...` arguments of a call, made after the first `lo` nodes. -/
def Stub (p : Program) (lo : Nat) (rest : NodeId) : Prop :=
  (p.node rest).op = .restArg ∧ ∃ array, lo ≤ array.index ∧ array.index < rest.index ∧
    (p.node rest).children = [array] ∧ (p.node array).op = .arrayLit ∧ (p.node array).children = [] ∧
    ∀ t, (p.node array).ty = some t → p.types.Has t ∧ p.types.isSlice t = false

theorem Stub.hung {p : Program} {lo : Nat} {rest : NodeId} (h : p.Stub lo rest) : p.Hung rest := by
  obtain ⟨hop, array, _, _, hchildren, harray, hnone, _⟩ := h
  exact ⟨hop, array, hchildren, harray, hnone⟩

theorem Stub.extends {p q : Program} {lo : Nat} {rest : NodeId} (h : p.Stub lo rest) (hnodes : p.Extends q)
    (htypes : p.types.Grows q.types) : q.Stub lo rest := by
  obtain ⟨hop, array, hlo, hlt, hchildren, harray, hnone, hty⟩ := h
  have hr := p.lt_size_of_op_ne (n := rest) (by simp [hop])
  have ha := p.lt_size_of_op_ne (n := array) (by simp [harray])
  have hsame : (q.node array).ty = (p.node array).ty := by
    obtain ⟨_, _, he⟩ := hnodes.node array ha
    rw [he]
  refine ⟨(hnodes.node rest hr).op.trans hop, array, hlo, hlt, ?_, (hnodes.node array ha).op.trans harray, ?_, ?_⟩
  · rw [hnodes.children hr (by rw [hop]; rfl), hchildren]
  · rw [hnodes.children ha (by rw [harray]; rfl), hnone]
  · intro t ht
    obtain ⟨hhas, hslice⟩ := hty t (hsame ▸ ht)
    exact ⟨htypes.has hhas, by rw [htypes.isSlice hhas, hslice]⟩

/-- What an analysis makes: no allocation that can be addressed, and addresses of nodes that `p` has. -/
def Made (p : Program) (x : Node) : Prop :=
  x.op ≠ .closure ∧ x.op ≠ .ptrLit ∧ (x.op = .addr → ∀ m, x.left = some m → m.index < p.nodes.size)

theorem Made.sameBut {p : Program} {x y : Node} (h : p.Made x) (hxy : x.SameBut y) : p.Made y := by
  obtain ⟨_, _, rfl⟩ := hxy
  exact h

theorem made_of_op {p : Program} {x : Node} (hop : x.op ∈ [.name, .deref, .arrayLit, .restArg, .block]) : p.Made x := by
  simp only [List.mem_cons, List.not_mem_nil, or_false] at hop
  rcases hop with hop | hop | hop | hop | hop <;> simp [Made, hop]

end Program

/-! ## Where nodes are the second time -/

structure Rerun where
  base : Program
  gap : Nat
  closed : base.Closed
  drafted : base.Drafted

namespace Rerun

variable (R : Rerun)

def shift (n : NodeId) : NodeId := if n.index < R.base.nodes.size then n else ⟨n.index + R.gap⟩

theorem shift_old {n : NodeId} (h : n.index < R.base.nodes.size) : R.shift n = n := if_pos h

theorem shift_new {n : NodeId} (h : R.base.nodes.size ≤ n.index) : R.shift n = ⟨n.index + R.gap⟩ :=
  if_neg (Nat.not_lt_of_le h)

theorem shift_injective : Function.Injective R.shift := by
  intro m n h
  unfold shift at h
  split at h <;> split at h
  · exact h
  · have := congrArg NodeId.index h
    dsimp only at this
    omega
  · have := congrArg NodeId.index h
    dsimp only at this
    omega
  · exact NodeId.ext (Nat.add_right_cancel (NodeId.mk.inj h))

theorem shift_inj {m n : NodeId} : R.shift m = R.shift n ↔ m = n := R.shift_injective.eq_iff

theorem index_shift_inj {m n : NodeId} : (R.shift m).index = (R.shift n).index ↔ m = n := by
  rw [← NodeId.ext_iff, R.shift_inj]

theorem map_shift_old {ns : List NodeId} (h : ∀ n ∈ ns, n.index < R.base.nodes.size) : ns.map R.shift = ns :=
  (List.map_congr_left (g := id) fun n hn => R.shift_old (h n hn)).trans (List.map_id ns)

end Rerun

/-- The node is another one, up to references, its type, the slice of a call and what is known to stay. -/
structure Node.Copies (ρ : NodeId → NodeId) (x y : Node) : Prop where
  op : y.op = x.op
  line : y.line = x.line
  cls : y.cls = x.cls
  sym : y.sym = x.sym
  left : y.left = x.left.map ρ
  test : y.test = x.test.map ρ
  incr : y.incr = x.incr.map ρ
  init : y.init = x.init.map ρ
  list : y.list = x.list.map ρ
  body : y.body = x.body.map ρ
  alt : y.alt = x.alt.map ρ
  rlist : y.rlist = x.rlist.map ρ
  func : y.func = x.func
  curfn : y.curfn = x.curfn
  origin : y.origin = x.origin.map ρ
  label : y.label = x.label
  ordinal : y.ordinal = x.ordinal
  variadic : y.variadic = x.variadic
  byValue : y.byValue = x.byValue

namespace Node.Copies

variable {ρ : NodeId → NodeId} {x y : Node}

theorem isNameOf (h : x.Copies ρ y) (cls : NodeClass) : y.isNameOf cls = x.isNameOf cls := by
  simp only [Node.isNameOf, h.op, h.cls]

theorem isBlank (h : x.Copies ρ y) : y.isBlank = x.isBlank := by simp only [Node.isBlank, h.op, h.sym]

theorem children (h : x.Copies ρ y) (hright : y.right = x.right.map ρ) : y.children = x.children.map ρ := by
  simp only [Node.children, h.init, h.left, hright, h.list, h.test, h.incr, h.body, h.alt, h.rlist, List.map_append,
    ← Option.toList_map]

theorem sameBut {x' y' : Node} (h : x.Copies ρ y) (hx : x.SameBut x') (hy : y.SameBut y') : x'.Copies ρ y' := by
  obtain ⟨_, _, rfl⟩ := hx
  obtain ⟨_, _, rfl⟩ := hy
  exact ⟨h.op, h.line, h.cls, h.sym, h.left, h.test, h.incr, h.init, h.list, h.body, h.alt, h.rlist, h.func, h.curfn,
    h.origin, h.label, h.ordinal, h.variadic, h.byValue⟩

/-- The parts of the node are where they were. -/
theorem of_refs (h : ∀ m ∈ x.refs, ρ m = m) : x.Copies ρ x := by
  have hlist {ms : List NodeId} (hms : ∀ m ∈ ms, m ∈ x.refs) : ms = ms.map ρ :=
    ((List.map_congr_left (g := id) fun m hm => h m (hms m hm)).trans (List.map_id ms)).symm
  have hoption {m : Option NodeId} (hm : ∀ k, m = some k → k ∈ x.refs) : m = m.map ρ := by
    cases m with
    | none => rfl
    | some k => rw [Option.map_some, h k (hm k rfl)]
  refine ⟨rfl, rfl, rfl, rfl, hoption ?_, hoption ?_, hoption ?_, hlist ?_, hlist ?_, hlist ?_, hlist ?_, hlist ?_, rfl,
    rfl, hoption ?_, rfl, rfl, rfl, rfl⟩
  all_goals
    intro k hk
    simp [Node.refs, Node.children, hk]

/-- A node that both analyses make. -/
theorem made {op : Op} {line line' : UInt32} {ty ty' : Option Ty} {cls : NodeClass} {sym : Option String}
    {left : Option NodeId} {curfn curfn' : Option FuncId} (hline : line' = line) (hcurfn : curfn' = curfn) :
    ({ op, ty, line, cls, sym, left, curfn } : Node).Copies ρ
      { op, ty := ty', line := line', cls, sym, left := left.map ρ, curfn := curfn' } :=
  ⟨rfl, hline, rfl, rfl, rfl, rfl, rfl, rfl, rfl, rfl, rfl, rfl, rfl, hcurfn, rfl, rfl, rfl, rfl, rfl⟩

end Node.Copies

/-! ## Two programs at the same point -/

namespace Rerun

variable (R : Rerun)

/-- The types are both unknown, or alike. -/
def Likes (a b : Program) (ty ty' : Option Ty) : Prop :=
  Option.Rel (TypeStore.Alike R.base.types a.types b.types) ty ty'

/-- The second analysis has still the slice that the first one hung below a call, and the first has none there yet. -/
def Stale (a b : Program) (n : NodeId) : Prop :=
  R.base.takesRest n = true ∧ (a.node n).right = none ∧ ∃ rest, (b.node (R.shift n)).right = some rest ∧
    rest.index < R.base.nodes.size + R.gap ∧ b.Stub R.base.nodes.size rest

/-- The call has the slice of its `...` arguments. -/
def Rests (a : Program) (n : NodeId) : Prop :=
  R.base.takesRest n = true ∧ ∃ rest, (a.node n).right = some rest ∧ a.Stub R.base.nodes.size rest

structure Copies (a b : Program) : Prop where
  size : b.nodes.size = a.nodes.size + R.gap
  nodes : R.base.Extends a
  grows : R.base.types.Grows a.types
  grows' : R.base.types.Grows b.types
  sound : a.types.Sound
  sound' : b.types.Sound
  node : ∀ n, (a.node n).Copies R.shift (b.node (R.shift n))
  ty : ∀ n, R.Likes a b (a.node n).ty (b.node (R.shift n)).ty
  right : ∀ n, (b.node (R.shift n)).right = (a.node n).right.map R.shift ∨ R.Stale a b n
  made : ∀ n, R.base.nodes.size ≤ n.index → R.base.Made (a.node n)
  rights : ∀ n, n.index < R.base.nodes.size → (a.node n).right = (R.base.node n).right ∨ R.Rests a n
  func : ∀ f, (R.base.func f).Renoted (a.func f)
  func' : ∀ f, (a.func f).Renoted (b.func f)

variable {R} {a b a' b' : Program}

theorem Likes.mono {ty ty' : Option Ty} (h : R.Likes a b ty ty') (hs : a.types.Grows a'.types)
    (ht : b.types.Grows b'.types) : R.Likes a' b' ty ty' := by
  cases h with
  | none => exact .none
  | some h => exact .some (h.mono hs ht)

/-- A type of the program before both analyses. -/
theorem likes_old {ty : Option Ty} (h : R.base.HasType ty) (a b : Program) : R.Likes a b ty ty := by
  cases ty with
  | none => exact .none
  | some t => exact .some (.old (h t rfl))

theorem Stale.mono {n : NodeId} (h : R.Stale a b n) (hb : b.Extends b') (ht : b.types.Grows b'.types)
    (hright : (a'.node n).right = (a.node n).right)
    (hright' : (b'.node (R.shift n)).right = (b.node (R.shift n)).right) : R.Stale a' b' n := by
  obtain ⟨htakes, hnone, rest, hrest, hlt, hstub⟩ := h
  exact ⟨htakes, hright.trans hnone, rest, hright'.trans hrest, hlt, hstub.extends hb ht⟩

section

variable (h : R.Copies a b)
include h

theorem Copies.size_le : R.base.nodes.size ≤ a.nodes.size := h.nodes.size_le

theorem Copies.shift_size : R.shift ⟨a.nodes.size⟩ = ⟨b.nodes.size⟩ :=
  (R.shift_new (n := ⟨a.nodes.size⟩) h.size_le).trans (NodeId.ext h.size.symm)

theorem Copies.index_shift_eq_size {n : NodeId} : (R.shift n).index = b.nodes.size ↔ n.index = a.nodes.size := by
  have hsize : b.nodes.size = (R.shift ⟨a.nodes.size⟩).index := by rw [h.shift_size]
  rw [hsize, R.index_shift_inj]
  exact NodeId.ext_iff

theorem Copies.shift_lt_size {n : NodeId} (hn : n.index < a.nodes.size) : (R.shift n).index < b.nodes.size := by
  unfold shift
  split
  · rw [h.size]
    exact Nat.lt_add_right _ hn
  · rw [h.size]
    exact Nat.add_lt_add_right hn _

/-- Only calls can have different slices. -/
theorem Copies.right_of_not_isCall {n : NodeId} (hop : (a.node n).op.isCall = false) :
    (b.node (R.shift n)).right = (a.node n).right.map R.shift := by
  rcases h.right n with hr | ⟨htakes, _⟩
  · exact hr
  · have hcall := Program.isCall_of_takesRest htakes
    rw [← (h.nodes.node n (Program.lt_size_of_isCall hcall)).op, hop] at hcall
    cases hcall

theorem Copies.children {n : NodeId} (hop : (a.node n).op.isCall = false) :
    (b.node (R.shift n)).children = (a.node n).children.map R.shift :=
  (h.node n).children (h.right_of_not_isCall hop)

/-- A step of both analyses that changes no function. -/
theorem Copies.step (ha : a.Extends a') (hb : b.Extends b') (hs : a.types.Grows a'.types) (ht : b.types.Grows b'.types)
    (hsound : a'.types.Sound) (hsound' : b'.types.Sound) (hf : a'.funcs = a.funcs) (hf' : b'.funcs = b.funcs)
    (hsize : b'.nodes.size = a'.nodes.size + R.gap) (hnode : ∀ n, (a'.node n).Copies R.shift (b'.node (R.shift n)))
    (hty : ∀ n, R.Likes a' b' (a'.node n).ty (b'.node (R.shift n)).ty)
    (hmade : ∀ n, (a.node n).SameBut (a'.node n) ∨ R.base.Made (a'.node n))
    (hright : ∀ n, (a'.node n).right = (a.node n).right ∧
        (b'.node (R.shift n)).right = (b.node (R.shift n)).right ∨
      (b'.node (R.shift n)).right = (a'.node n).right.map R.shift ∧ (n.index < R.base.nodes.size → R.Rests a' n)) :
    R.Copies a' b' := by
  have hfunc (f : FuncId) : a'.func f = a.func f := by
    unfold Program.func
    rw [hf]
  have hfunc' (f : FuncId) : b'.func f = b.func f := by
    unfold Program.func
    rw [hf']
  refine ⟨hsize, h.nodes.trans ha, h.grows.trans hs, h.grows'.trans ht, hsound, hsound', hnode, hty, fun n => ?_,
    fun n hn => (hmade n).elim (h.made n hn).sameBut id, fun n hn => ?_, fun f => ?_, fun f => ?_⟩
  · rcases hright n with ⟨hr, hr'⟩ | ⟨hr, _⟩
    · rcases h.right n with he | hstale
      · exact Or.inl (by rw [hr', he, hr])
      · exact Or.inr (hstale.mono hb ht hr hr')
    · exact Or.inl hr
  · rcases hright n with ⟨hr, _⟩ | ⟨_, hrests⟩
    · rw [hr]
      refine (h.rights n hn).imp_right fun ⟨htakes, rest, hrest, hstub⟩ => ?_
      exact ⟨htakes, rest, hr.trans hrest, hstub.extends ha hs⟩
    · exact Or.inr (hrests hn)
  · rw [hfunc]
    exact h.func f
  · rw [hfunc, hfunc']
    exact h.func' f

/-- Both analyses make a node. -/
theorem Copies.addNode {x y : Node} (hxy : x.Copies R.shift y) (hty : R.Likes a b x.ty y.ty) (hx : R.base.Made x)
    (hright : y.right = x.right.map R.shift) : R.Copies (a.addNode x).2 (b.addNode y).2 := by
  refine h.step (a.extends_addNode x) (b.extends_addNode y) (.refl _) (.refl _) h.sound h.sound' rfl rfl ?_ (fun n => ?_)
    (fun n => ?_) (fun n => ?_) fun n => ?_
  · simp [Program.addNode, h.size]
    omega
  · rw [Program.node_addNode, Program.node_addNode]
    simp only [h.index_shift_eq_size]
    split
    · exact hxy
    · exact h.node n
  · rw [Program.node_addNode, Program.node_addNode]
    simp only [h.index_shift_eq_size]
    split
    · exact hty
    · exact h.ty n
  · rw [Program.node_addNode]
    split
    · exact Or.inr hx
    · exact Or.inl (.refl _)
  · rw [Program.node_addNode, Program.node_addNode]
    simp only [h.index_shift_eq_size]
    split
    · rename_i hn
      exact Or.inr ⟨hright, fun hlt => absurd (hn ▸ hlt) (Nat.not_lt_of_le h.size_le)⟩
    · exact Or.inl ⟨rfl, rfl⟩

/-- Both analyses make types. -/
theorem Copies.types {s t : TypeStore} (hs : a.types.Grows s) (ht : b.types.Grows t) (hsound : s.Sound)
    (hsound' : t.Sound) : R.Copies { a with types := s } { b with types := t } :=
  h.step (.of_nodes_eq rfl) (.of_nodes_eq rfl) hs ht hsound hsound' rfl rfl h.size h.node
    (fun n => (h.ty n).mono hs ht) (fun _ => Or.inl (.refl _)) fun _ => Or.inl ⟨rfl, rfl⟩

/-- What is known to stay does not count. -/
theorem Copies.noEscape (n m : NodeId) : R.Copies (a.modifyNode n fun x => { x with noEscape := true })
    (b.modifyNode m fun x => { x with noEscape := true }) := by
  have hsame (p : Program) (n k : NodeId) : (p.node k).SameBut ((p.modifyNode n fun x => { x with noEscape := true }).node k) ∧
      ((p.modifyNode n fun x => { x with noEscape := true }).node k).right = (p.node k).right ∧
      ((p.modifyNode n fun x => { x with noEscape := true }).node k).ty = (p.node k).ty :=
    Program.rel_modifyNode (R := fun x y => x.SameBut y ∧ y.right = x.right ∧ y.ty = x.ty)
      (fun _ => ⟨.refl _, rfl, rfl⟩) k ⟨⟨_, _, rfl⟩, rfl, rfl⟩
  refine h.step (a.extends_noEscape n) (b.extends_noEscape m) (.refl _) (.refl _) h.sound h.sound' rfl rfl ?_ (fun k => ?_)
    (fun k => ?_) (fun k => Or.inl (hsame a n k).1) fun k => Or.inl ⟨(hsame a n k).2.1, (hsame b m _).2.1⟩
  · rw [Program.size_modifyNode, Program.size_modifyNode, h.size]
  · exact (h.node k).sameBut (hsame a n k).1 (hsame b m _).1
  · rw [(hsame a n k).2.2, (hsame b m _).2.2]
    exact h.ty k

theorem Copies.stub {lo : Nat} (hlo : R.base.nodes.size ≤ lo) {rest : NodeId} (hstub : a.Stub lo rest) :
    b.Stub lo (R.shift rest) := by
  obtain ⟨hop, array, hle, hlt, hchildren, harray, hnone, hty⟩ := hstub
  have hnew := R.shift_new (Nat.le_trans hlo hle)
  refine ⟨(h.node rest).op.trans hop, R.shift array, ?_, ?_, ?_, (h.node array).op.trans harray, ?_, ?_⟩
  · rw [hnew]
    exact Nat.le_add_right_of_le hle
  · rw [hnew, R.shift_new (Nat.le_trans hlo (Nat.le_of_lt (Nat.lt_of_le_of_lt hle hlt)))]
    exact Nat.add_lt_add_right hlt _
  · rw [h.children (by rw [hop]; rfl), hchildren]
    rfl
  · rw [h.children (by rw [harray]; rfl), hnone]
    rfl
  · intro t' ht'
    have hlike := h.ty array
    rw [ht'] at hlike
    generalize ha : (a.node array).ty = ty at hlike
    cases hlike with
    | some hlike =>
      rename_i t
      exact ⟨h.grows'.has_right hlike, by rw [hlike.isSlice h.grows h.grows', (hty t ha).2]⟩

theorem Copies.list_ne_nil {call : NodeId} (htakes : R.base.takesRest call = true) :
    (a.node call).list ≠ [] ∧ (b.node (R.shift call)).list ≠ [] := by
  have hlt := Program.lt_size_of_isCall (Program.isCall_of_takesRest htakes)
  have hlist : (a.node call).list ≠ [] := by
    rw [(h.nodes.node call hlt).list]
    exact Program.list_ne_nil_of_takesRest htakes
  refine ⟨hlist, ?_⟩
  rw [(h.node call).list]
  exact fun he => hlist (List.map_eq_nil_iff.1 he)

/-- Both analyses hang a slice below a call. -/
theorem Copies.setRight {call rest : NodeId} (htakes : R.base.takesRest call = true)
    (hstub : a.Stub R.base.nodes.size rest) : R.Copies (a.modifyNode call fun x => { x with right := some rest })
      (b.modifyNode (R.shift call) fun x => { x with right := some (R.shift rest) }) := by
  have hcall := Program.isCall_of_takesRest htakes
  have hlt := Program.lt_size_of_isCall hcall
  have hop : (a.node call).op.isCall = true := by rw [(h.nodes.node call hlt).op, hcall]
  have hlt' := Nat.lt_of_lt_of_le hlt h.size_le
  have hlist := h.list_ne_nil htakes
  have hext := Program.extends_right hop hlist.1 hstub.hung
  have hop' : (b.node (R.shift call)).op.isCall = true := by rw [(h.node call).op, hop]
  have hext' := Program.extends_right hop' hlist.2 (h.stub (Nat.le_refl _) hstub).hung
  have hself := a.node_modifyNode_self (n := call) (fun x => { x with right := some rest }) hlt'
  have hself' := b.node_modifyNode_self (fun x => { x with right := some (R.shift rest) }) (h.shift_lt_size hlt')
  have hother {n : NodeId} (hn : n ≠ call) := a.node_modifyNode_of_ne (fun x => { x with right := some rest }) hn
  have hother' {n : NodeId} (hn : n ≠ call) :=
    b.node_modifyNode_of_ne (fun x => { x with right := some (R.shift rest) }) fun e => hn (R.shift_injective e)
  refine h.step hext hext' (.refl _) (.refl _) h.sound h.sound' rfl rfl ?_ (fun n => ?_) (fun n => ?_) (fun n => ?_)
    fun n => ?_
  · rw [Program.size_modifyNode, Program.size_modifyNode, h.size]
  · by_cases hn : n = call
    · rw [hn, hself, hself']
      exact (h.node call).sameBut ⟨_, _, rfl⟩ ⟨_, _, rfl⟩
    · rw [hother hn, hother' hn]
      exact h.node n
  · by_cases hn : n = call
    · rw [hn, hself, hself']
      exact h.ty call
    · rw [hother hn, hother' hn]
      exact h.ty n
  · by_cases hn : n = call
    · rw [hn, hself]
      exact Or.inl ⟨_, _, rfl⟩
    · rw [hother hn]
      exact Or.inl (.refl _)
  · by_cases hn : n = call
    · rw [hn, hself, hself']
      refine Or.inr ⟨rfl, fun _ => ⟨htakes, rest, by rw [hself], hstub.extends hext (.refl _)⟩⟩
    · rw [hother hn, hother' hn]
      exact Or.inl ⟨rfl, rfl⟩

end

end Rerun

end EscapeAnalysis

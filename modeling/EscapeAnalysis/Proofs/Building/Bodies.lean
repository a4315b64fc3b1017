import EscapeAnalysis.Proofs.Building.Declarations
import EscapeAnalysis.Proofs.Building.Drafts
import EscapeAnalysis.Proofs.Triples

/-!
# Bodies are built by edits

Every operation on a body under construction changes the program by edits, as long as it is given nodes and functions
that are there, and what it returns is there then.

* `Body.Valid b` : the function of the body and its statements are there;
* `Body.Leads b c` : edits lead from the program of `b` to that of `c`, which has no more closures without a body,
  and `c` is valid and for the same function;
* `Body.Builds b m Q` : from `b` the operation `m` leads on, and `Q` holds of what it returns;
* `Body.builds_make` : the operation that all expressions and statements come down to.
-/

namespace EscapeAnalysis.Body

open Program (Edit Edits)

structure Valid (b : Body) : Prop where
  drafted : b.program.Drafted
  func : b.program.HasFunc b.func
  blocks : ∀ block ∈ b.blocks, ∀ n ∈ block, b.program.HasNode n
  labels : ∀ e ∈ b.labels, b.program.LabelIn e.2 b.id
  begun : b.program.Begun b.id

/-- What is made in a body is made in one that was begun. -/
theorem Valid.home {b : Body} (h : b.Valid) (c : BodyId) (hc : some b.id = some c) : b.program.Begun c := by
  cases hc
  exact h.begun

structure Leads (b c : Body) : Prop where
  id : c.id = b.id
  func : c.func = b.func
  edits : Edits b.program c.program
  unfinished : ∀ f, c.program.Unfinished f → b.program.Unfinished f
  valid : c.Valid

theorem Valid.refl {b : Body} (h : b.Valid) : b.Leads b := ⟨rfl, rfl, .refl _, fun _ hf => hf, h⟩

theorem Leads.trans {b c d : Body} (h₁ : b.Leads c) (h₂ : c.Leads d) : b.Leads d :=
  ⟨h₂.id.trans h₁.id, h₂.func.trans h₁.func, h₁.edits.trans h₂.edits,
    fun f hf => h₁.unfinished f (h₂.unfinished f hf), h₂.valid⟩

theorem Leads.hasNode {b c : Body} (h : b.Leads c) {n : NodeId} (hn : b.program.HasNode n) : c.program.HasNode n :=
  h.edits.hasNode hn

theorem Leads.forall_hasNode {b c : Body} (h : b.Leads c) {ns : List NodeId} (hns : ∀ n ∈ ns, b.program.HasNode n) :
    ∀ n ∈ ns, c.program.HasNode n := fun n hn => h.hasNode (hns n hn)

theorem Leads.hasType {b c : Body} (h : b.Leads c) {ty : Option Ty} (hty : b.program.HasType ty) :
    c.program.HasType ty := h.edits.hasType hty

/-- A body keeps its place while the program changes. -/
theorem Valid.leads {b c : Body} (h : b.Valid) (hedits : Edits b.program c.program)
    (hsize : c.program.funcs.size = b.program.funcs.size) (hid : c.id = b.id) (hfunc : c.func = b.func)
    (hblocks : c.blocks = b.blocks) (hlabels : c.labels = b.labels) : b.Leads c := by
  refine ⟨hid, hfunc, hedits, fun _ => hedits.unfinished hsize, hedits.drafted h.drafted, ?_,
    fun block hblock n hn => ?_, fun e he => ?_, ?_⟩
  · rw [hfunc]
    exact hedits.hasFunc h.func
  · rw [hblocks] at hblock
    exact hedits.hasNode (h.blocks block hblock n hn)
  · rw [hlabels] at he
    rw [hid]
    exact hedits.labelIn (h.labels e he)
  · rw [hid]
    exact hedits.begun h.begun

/-! ## Operations -/

instance : Conduct Leads (anyFault (φ := Empty)) where
  trans := .trans
  stop _ _ := trivial
  rest h := h.valid.refl

abbrev Builds {α : Type} (b : Body) (m : BodyM α) (Q : α → Program → Prop) : Prop :=
  Triple Leads anyFault b m fun a c => Q a c.program

section Rules

variable {α β : Type} {b : Body} {m : BodyM α} {Q : α → Program → Prop}

theorem builds_modifyGet {f : Body → α × Body} (h : b.Leads (f b).2) (hQ : Q (f b).1 (f b).2.program) :
    Builds b (modifyGet f) Q := ⟨h, hQ⟩

/-- What is collected from the front. -/
theorem Builds.cons {m : BodyM NodeId} {rest : BodyM (List NodeId)} {Q : NodeId → Program → Prop} (hm : Builds b m Q)
    (hQ : ∀ {n p q}, Edits p q → Q n p → Q n q) (hrest : ∀ c, b.Leads c → Builds c rest fun ns p => ∀ n ∈ ns, Q n p) :
    Builds b (do let n ← m; return n :: (← rest)) fun ns p => ∀ n ∈ ns, Q n p := by
  refine hm.bind fun n c hc hn => (hrest c hc).bind fun ns d hd hns => triple_pure_of hd.valid.refl ?_
  exact List.forall_mem_cons.2 ⟨hQ hd.edits hn, hns⟩

theorem builds_get (hb : b.Valid) : Builds b get fun c d => c.program = d := ⟨hb.refl, rfl⟩

theorem builds_typeOf (hb : b.Valid) (n : NodeId) : Builds b (typeOf n) fun ty p => p.HasType ty :=
  ⟨hb.refl, hb.drafted.typed.node n⟩

/-- The types are read off the program. -/
theorem builds_types (hb : b.Valid) : Builds b types fun types p => types = p.types := ⟨hb.refl, rfl⟩

theorem builds_intern (hb : b.Valid) {c : Compound} (hc : ∀ t ∈ c.parts, b.program.types.Has t) :
    Builds b (withTypes (·.intern c)) fun t p => p.types.Has t := by
  have hedit : Edit b.program { b.program with types := (b.program.types.intern c).2 } :=
    .types _ (fun h => TypeStore.sound_intern h hc) (b.program.types.size_le_intern c)
  exact ⟨hb.leads hedit.edits rfl rfl rfl rfl rfl, TypeStore.has_intern hb.drafted.typed.store c⟩

end Rules

section Nodes

variable {b : Body} (hb : b.Valid)
include hb

/-- A new node whose type and parts are there and that is no variable of a function. -/
theorem builds_makeOp {x : Node} (hty : b.program.HasType x.ty) (hparts : b.program.HasParts { x with home := some b.id })
    (hcls : x.op = .name → x.cls = .none ∨ x.cls = .func) (hright : x.list = [] ∨ x.right = none ∨ x.op.isCall = false)
    (hform : b.program.IsFormedIn x) : Builds b (make x) fun n p => p.HasNode n ∧ (p.node n).op = x.op := by
  let y : Node :=
    { x with
      line := b.line, curfn := if x.op = .name ∧ x.cls ≠ .func then some b.func else x.curfn, home := some b.id }
  have hedit : Edit b.program (b.program.addNode y).2 :=
    .node y hty hparts (fun hop => (hcls hop).imp_right Or.inr) hright.resolve_left hb.home
      ⟨hform.declares, hform.clauses, hform.entries, hform.unmarked⟩
  have hop : ((b.program.addNode y).2.node (b.program.addNode y).1).op = x.op := by rw [b.program.node_addNode_self y]
  exact ⟨hb.leads hedit.edits rfl rfl rfl rfl rfl, b.program.hasNode_addNode y, hop⟩

theorem builds_make {x : Node} (hty : b.program.HasType x.ty) (hparts : b.program.HasParts { x with home := some b.id })
    (hcls : x.op = .name → x.cls = .none ∨ x.cls = .func) (hright : x.list = [] ∨ x.right = none ∨ x.op.isCall = false)
    (hplain : x.isPlain = true) : Builds b (make x) fun n p => p.HasNode n := by
  have h := builds_makeOp hb hty hparts hcls hright (Program.isFormedIn_of_isPlain hplain)
  exact ⟨h.1, h.2.1⟩

/-- A node without a list of parts and of a type that is there. -/
theorem builds_makeSimple {x : Node} (hty : b.program.HasType x.ty) (hparts : b.program.HasParts { x with home := some b.id })
    (hcls : x.cls = .none) (hlist : x.list = []) (hplain : x.isPlain = true) :
    Builds b (make x) fun n p => p.HasNode n :=
  builds_make hb hty hparts (fun _ => Or.inl hcls) (Or.inl hlist) hplain

/-- A node that is no name, such as one that gets statements later. -/
theorem builds_makeOther {x : Node} (hty : b.program.HasType x.ty) (hparts : b.program.HasParts { x with home := some b.id })
    (hop : x.op ≠ .name) (hcall : x.op.isCall = false) (hplain : x.isPlain = true) :
    Builds b (make x) fun n p => p.HasStmt n := by
  have h := builds_makeOp hb hty hparts (fun h => absurd h hop) (Or.inr (Or.inr hcall))
    (Program.isFormedIn_of_isPlain hplain)
  exact ⟨h.1, h.2.1, by rw [h.2.2]; exact hop⟩

theorem builds_push {stmt : NodeId} (hstmt : b.program.HasNode stmt) : Builds b (push stmt) fun n p => p.HasNode n := by
  obtain ⟨program, id, func, line, blocks, labels, closures⟩ := b
  cases blocks with
  | nil =>
    exact ⟨⟨rfl, rfl, .refl _, fun _ hf => hf, hb.drafted, hb.func, fun block hblock => absurd hblock List.not_mem_nil,
      hb.labels, hb.begun⟩, hstmt⟩
  | cons first rest =>
    refine ⟨⟨rfl, rfl, .refl _, fun _ hf => hf, hb.drafted, hb.func, fun block hblock n hn => ?_, hb.labels,
      hb.begun⟩, hstmt⟩
    rcases List.mem_cons.1 hblock with rfl | hblock
    · rcases Array.mem_push.1 hn with hn | rfl
      · exact hb.blocks first List.mem_cons_self n hn
      · exact hstmt
    · exact hb.blocks block (List.mem_cons_of_mem _ hblock) n hn

/-- A statement has no type. -/
theorem builds_makeStmt {x : Node} (hty : x.ty = none) (hparts : b.program.HasParts { x with home := some b.id })
    (hcls : x.cls = .none) (hcall : x.op.isCall = false) (hplain : x.isPlain = true) :
    Builds b (makeStmt x) fun n p => p.HasNode n := by
  have hmake : Builds b (make x) fun n p => p.HasNode n :=
    builds_make hb (by rw [hty]; exact b.program.hasType_none) hparts (fun _ => Or.inl hcls) (Or.inr (Or.inr hcall))
      hplain
  exact hmake.bind fun _ _ hc hn => builds_push hc.valid hn

theorem builds_nextLine : Builds b nextLine fun _ _ => True := ⟨hb.leads (.refl _) rfl rfl rfl rfl rfl, trivial⟩

theorem builds_openBlock : Builds b openBlock fun _ _ => True := by
  refine ⟨⟨rfl, rfl, .refl _, fun _ hf => hf, hb.drafted, hb.func, fun block hblock n hn => ?_, hb.labels,
    hb.begun⟩, trivial⟩
  rcases List.mem_cons.1 hblock with rfl | hblock
  · exact absurd hn (Array.not_mem_empty n)
  · exact hb.blocks block hblock n hn

theorem builds_closeBlock : Builds b closeBlock fun stmts p => ∀ n ∈ stmts, p.HasNode n := by
  obtain ⟨program, id, func, line, blocks, labels, closures⟩ := b
  cases blocks with
  | nil => exact ⟨hb.refl, fun n hn => absurd hn List.not_mem_nil⟩
  | cons block rest =>
    refine ⟨⟨rfl, rfl, .refl _, fun _ hf => hf, hb.drafted, hb.func, fun other hother => ?_, hb.labels,
      hb.begun⟩, fun n hn => ?_⟩
    · exact hb.blocks other (List.mem_cons_of_mem _ hother)
    · exact hb.blocks block List.mem_cons_self n (Array.mem_toList_iff.1 hn)

theorem builds_modifyNode {n : NodeId} {g : Node → Node} (h : Edit b.program (b.program.modifyNode n g)) :
    Builds b (modifyNode n g) fun _ _ => True :=
  ⟨hb.leads h.edits rfl rfl rfl rfl rfl, trivial⟩

end Nodes

/-! ## Expressions -/

section Exprs

variable {b : Body} (hb : b.Valid)
include hb

theorem builds_blank : Builds b blank fun n p => p.HasNode n :=
  builds_make hb b.program.hasType_none (by simp [Program.HasParts, Node.children]) (fun _ => Or.inl rfl) (Or.inl rfl)
    rfl

theorem builds_funcValue (f : FuncId) : Builds b (funcValue f) fun n p => p.HasNode n :=
  builds_make hb (hb.drafted.typed.func f) (by simp [Program.HasParts, Node.children]) (fun _ => Or.inr rfl) (Or.inl rfl)
    rfl

theorem builds_capture {var : NodeId} (hvar : b.program.HasNode var) (byValue : Bool) :
    Builds b (capture var byValue) fun n p => p.HasNode n := by
  let x : Node :=
    { op := .name, ty := (b.program.node var).ty, line := b.line, cls := .captured, sym := (b.program.node var).sym,
      curfn := some b.func, origin := some var, byValue, home := some b.id }
  have hedit := Edit.capture (p := b.program) b.func x (hb.drafted.typed.node var) hb.func
    (by simp [x, Node.refs, Node.children, hvar]) rfl rfl rfl (by simp [x]) rfl hb.home rfl
  exact ⟨hb.leads hedit.edits (Program.size_modifyFunc ..) rfl rfl rfl rfl, b.program.hasNode_addNode x⟩

theorem builds_int (value : Int) : Builds b (int value) fun n p => p.HasNode n :=
  builds_makeSimple hb (Program.hasType_some (TypeStore.has_primitive _ rfl)) (by simp [Program.HasParts, Node.children]) rfl rfl rfl

theorem builds_str (value : String) : Builds b (str value) fun n p => p.HasNode n :=
  builds_makeSimple hb (Program.hasType_some (TypeStore.has_primitive _ rfl)) (by simp [Program.HasParts, Node.children]) rfl rfl rfl

theorem builds_nil {ty : Ty} (hty : b.program.types.Has ty) : Builds b (nil ty) fun n p => p.HasNode n :=
  builds_makeSimple hb (Program.hasType_some hty) (by simp [Program.HasParts, Node.children]) rfl rfl rfl

theorem builds_ptrTypeTo (x : NodeId) : Builds b (ptrTypeTo x) fun ty p => p.HasType ty := by
  refine (builds_typeOf hb x).bind fun ty c hc hty => ?_
  cases ty with
  | none => exact triple_pure_of hc.valid.refl c.program.hasType_none
  | some ty =>
    refine (builds_intern hc.valid (c := .ptr ty) ?_).bind fun _ _ hd ht =>
      triple_pure_of hd.valid.refl (Program.hasType_some ht)
    simpa [Compound.parts] using hty ty rfl

/-- An expression with one operand. -/
theorem builds_unary {x : NodeId} (hx : b.program.HasNode x) {op : Op} (hplain : Node.isPlain { op } = true) {ty : Option Ty}
    (hty : b.program.HasType ty) (sym : Option String) (func : Option FuncId) :
    Builds b (make { op, ty, left := some x, sym, func }) fun n p => p.HasNode n :=
  builds_makeSimple hb hty (by simp [Program.HasParts, Node.children, hx]) rfl rfl hplain

/-- An expression whose parts are a list, and maybe another operand. -/
theorem builds_list {x : Option NodeId} (hx : ∀ n, x = some n → b.program.HasNode n) {list : List NodeId}
    (hlist : ∀ n ∈ list, b.program.HasNode n) {op : Op} (hplain : Node.isPlain { op } = true) {ty : Option Ty}
    (hty : b.program.HasType ty) (variadic : Bool) :
    Builds b (make { op, ty, left := x, list, variadic }) fun n p => p.HasNode n := by
  refine builds_make hb hty ⟨rfl, by simp, fun m hm => ?_⟩ (fun _ => Or.inl rfl) (Or.inr (Or.inl rfl))
    hplain
  simp only [Node.children, List.mem_append, Option.mem_toList] at hm
  grind

section Operand

variable {x : NodeId} (hx : b.program.HasNode x)
include hx

theorem builds_addr : Builds b (addr x) fun n p => p.HasNode n :=
  (builds_ptrTypeTo hb x).bind fun _ _ hc hty => builds_unary hc.valid (hc.hasNode hx) rfl hty none none

theorem builds_deref : Builds b (deref x) fun n p => p.HasNode n :=
  builds_unary hb hx rfl (hb.drafted.typed.hasType_deref? _) none none

theorem builds_dot (field : String) : Builds b (dot x field) fun n p => p.HasNode n :=
  builds_unary hb hx rfl (hb.drafted.typed.hasType_fieldType? _ field) _ none

theorem builds_dotPtr (field : String) : Builds b (dotPtr x field) fun n p => p.HasNode n :=
  builds_unary hb hx rfl (hb.drafted.typed.hasType_fieldType? _ field) _ none

theorem builds_index {i : NodeId} (hi : b.program.HasNode i) : Builds b (index x i) fun n p => p.HasNode n := by
  refine builds_makeSimple hb (hb.drafted.typed.hasType_elem? _) (by simp [Program.HasParts, Node.children, hx, hi])
    rfl rfl ?_
  cases (b.program.node x).ty.any b.program.types.isMap <;> rfl

theorem builds_slice {lo hi : Option NodeId} (hlo : ∀ n, lo = some n → b.program.HasNode n)
    (hhi : ∀ n, hi = some n → b.program.HasNode n) : Builds b (slice x lo hi) fun n p => p.HasNode n := by
  unfold slice
  extract_lets jp
  have hjp {c : Body} (hc : b.Leads c) {lo : Option NodeId} (hlo : ∀ n, lo = some n → c.program.HasNode n) :
      Builds c (jp lo) fun n p => p.HasNode n := by
    have hx' (n : NodeId) (hn : some x = some n) : c.program.HasNode n := by
      cases hn
      exact hc.hasNode hx
    have hlist : ∀ n ∈ lo.toList ++ hi.toList, c.program.HasNode n := by
      intro n hn
      rcases List.mem_append.1 hn with hn | hn
      · exact hlo n (Option.mem_toList.1 hn)
      · exact hc.hasNode (hhi n (Option.mem_toList.1 hn))
    refine (builds_types hc.valid).bind fun types d hd htypes => (builds_typeOf hd.valid x).bind fun ty e he hty => ?_
    have hlead := hd.trans he
    have hxe (n : NodeId) (hn : some x = some n) := hlead.hasNode (hx' n hn)
    have hliste := hlead.forall_hasNode hlist
    dsimp only
    split
    · exact builds_list he.valid hxe hliste rfl hty _
    · rename_i elem _ _ helem
      obtain ⟨t, _, helem⟩ := Option.bind_eq_some_iff.1 helem
      have hhas : e.program.types.Has elem := by
        rw [htypes] at helem
        exact he.edits.has (hd.valid.drafted.typed.store.has_arrayDef? helem)
      refine (builds_intern he.valid (c := .slice elem) (by simpa [Compound.parts] using hhas)).bind
        fun _ g hg hty => ?_
      exact builds_list hg.valid (fun n hn => hg.hasNode (hxe n hn)) (hg.forall_hasNode hliste) rfl
        (Program.hasType_some hty) _
    · exact builds_list he.valid hxe hliste rfl hty _
  split
  · refine ((builds_int hb 0).map (R := fun lo c => ∀ n, lo = some n → c.program.HasNode n) ?_).bind
      fun lo c hc hlo => hjp hc hlo
    rintro n p hn m ⟨⟩
    exact hn
  · exact (triple_pure_of hb.refl (Q := fun lo c => ∀ n, lo = some n → c.program.HasNode n) hlo).bind fun lo c hc hlo => hjp hc hlo

section Convs

variable {ty : Ty} (hty : b.program.types.Has ty)
include hty

theorem builds_typeAssert : Builds b (typeAssert x ty) fun n p => p.HasNode n :=
  builds_unary hb hx rfl (Program.hasType_some hty) none none

theorem builds_conv : Builds b (conv x ty) fun n p => p.HasNode n :=
  builds_unary hb hx rfl (Program.hasType_some hty) none none

theorem builds_convNop : Builds b (convNop x ty) fun n p => p.HasNode n :=
  builds_unary hb hx rfl (Program.hasType_some hty) none none

theorem builds_convIface : Builds b (convIface x ty) fun n p => p.HasNode n :=
  builds_unary hb hx rfl (Program.hasType_some hty) none none

end Convs

theorem builds_recvFrom : Builds b (recvFrom x) fun n p => p.HasNode n :=
  builds_unary hb hx rfl (hb.drafted.typed.hasType_elem? _) none none

theorem builds_len : Builds b (len x) fun n p => p.HasNode n :=
  builds_unary hb hx rfl (Program.hasType_some (TypeStore.has_primitive _ rfl)) none none

theorem builds_ptrLit : Builds b (ptrLit x) fun n p => p.HasNode n :=
  (builds_ptrTypeTo hb x).bind fun _ _ hc hty => builds_unary hc.valid (hc.hasNode hx) rfl hty none none

theorem builds_bytesToString : Builds b (bytesToString x) fun n p => p.HasNode n :=
  builds_unary hb hx rfl (Program.hasType_some (TypeStore.has_primitive _ rfl)) none none

theorem builds_stringToBytes : Builds b (stringToBytes x) fun n p => p.HasNode n := by
  refine (builds_intern hb (c := .slice .int8) ?_).bind fun _ _ hc hty => ?_
  · exact List.forall_mem_singleton.2 (TypeStore.has_primitive _ rfl)
  exact builds_unary hc.valid (hc.hasNode hx) rfl (Program.hasType_some hty) none none

theorem builds_methodValue (f : FuncId) : Builds b (methodValue x f) fun n p => p.HasNode n :=
  builds_unary hb hx rfl (hb.drafted.typed.func f) _ _

theorem builds_binary {y : NodeId} (hy : b.program.HasNode y)
    (op : { op : Op // op.isBinary = true }) : Builds b (binary op x y) fun n p => p.HasNode n := by
  refine builds_makeSimple hb (hb.drafted.typed.node x) (by simp [Program.HasParts, Node.children, hx, hy]) rfl rfl ?_
  obtain ⟨op, hop⟩ := op
  cases op <;> simp [Op.isBinary, Op.isBinaryArith, Node.isPlain] at hop ⊢

theorem builds_entry {y : NodeId} (hy : b.program.HasNode y) :
    Builds b (entry x y) fun n p => p.HasNode n ∧ (p.node n).op = .key :=
  builds_makeOp hb (hb.drafted.typed.node y) (by simp [Program.HasParts, Node.children, hx, hy]) nofun (Or.inl rfl)
    (Program.isFormedIn_of_isPlain rfl)

end Operand

section Allocs

variable {ty : Ty} (hty : b.program.types.Has ty)
include hty

theorem builds_new : Builds b (new ty) fun n p => p.HasNode n := by
  refine (builds_intern hb (c := .ptr ty) (by simpa [Compound.parts] using hty)).bind fun _ _ hc hty => ?_
  exact builds_makeSimple hc.valid (Program.hasType_some hty) (by simp [Program.HasParts, Node.children]) rfl rfl rfl

theorem builds_makeSlice {len : NodeId} (hlen : b.program.HasNode len) :
    Builds b (makeSlice ty len) fun n p => p.HasNode n :=
  builds_list hb (x := none) (by simp) (List.forall_mem_singleton.2 hlen) rfl (Program.hasType_some hty) false

theorem builds_makeMap : Builds b (makeMap ty) fun n p => p.HasNode n :=
  builds_makeSimple hb (Program.hasType_some hty) (by simp [Program.HasParts, Node.children]) rfl rfl rfl

theorem builds_makeChan : Builds b (makeChan ty) fun n p => p.HasNode n :=
  builds_makeSimple hb (Program.hasType_some hty) (by simp [Program.HasParts, Node.children]) rfl rfl rfl

end Allocs

/-! ### Literals with entries -/

theorem builds_fieldEntries {fields : List (String × NodeId)} (hfields : ∀ e ∈ fields, b.program.HasNode e.2) :
    Builds b (fieldEntries fields) fun ns p => ∀ n ∈ ns, p.HasNode n ∧ (p.node n).op = .key := by
  induction fields generalizing b with
  | nil => exact triple_pure_of hb.refl fun n hn => absurd hn List.not_mem_nil
  | cons field rest ih =>
    rw [List.forall_mem_cons] at hfields
    have hkey : Builds b (make { op := .literal, sym := some field.1 }) fun n p => p.HasNode n :=
      builds_makeSimple hb b.program.hasType_none (by simp [Program.HasParts, Node.children]) rfl rfl rfl
    refine hkey.bind fun key c hc hk => (builds_entry hc.valid hk (hc.hasNode hfields.1)).cons (·.op_eq · (by simp) (by simp)) fun d hd => ?_
    exact ih hd.valid fun e he => (hc.trans hd).hasNode (hfields.2 e he)

theorem builds_elemEntries {elems : List NodeId} (helems : ∀ e ∈ elems, b.program.HasNode e) (i : Nat) :
    Builds b (elemEntries i elems) fun ns p => ∀ n ∈ ns, p.HasNode n ∧ (p.node n).op = .key := by
  induction elems generalizing b i with
  | nil => exact triple_pure_of hb.refl fun n hn => absurd hn List.not_mem_nil
  | cons elem rest ih =>
    rw [List.forall_mem_cons] at helems
    refine (builds_int hb i).bind fun key c hc hk =>
      (builds_entry hc.valid hk (hc.hasNode helems.1)).cons (·.op_eq · (by simp) (by simp)) fun d hd => ?_
    exact ih hd.valid ((hc.trans hd).forall_hasNode helems.2) (i + 1)

theorem builds_pairEntries {pairs : List (NodeId × NodeId)}
    (hpairs : ∀ e ∈ pairs, b.program.HasNode e.1 ∧ b.program.HasNode e.2) :
    Builds b (pairEntries pairs) fun ns p => ∀ n ∈ ns, p.HasNode n ∧ (p.node n).op = .key := by
  induction pairs generalizing b with
  | nil => exact triple_pure_of hb.refl fun n hn => absurd hn List.not_mem_nil
  | cons pair rest ih =>
    rw [List.forall_mem_cons] at hpairs
    refine (builds_entry hb hpairs.1.1 hpairs.1.2).cons (·.op_eq · (by simp) (by simp)) fun c hc => ih hc.valid fun e he => ?_
    exact ⟨hc.hasNode (hpairs.2 e he).1, hc.hasNode (hpairs.2 e he).2⟩

omit hb in
/-- A literal with its entries. -/
theorem builds_literal {entries : BodyM (List NodeId)}
    (hentries : Builds b entries fun ns p => ∀ n ∈ ns, p.HasNode n ∧ (p.node n).op = .key) {op : Op}
    (hop : op.isComposite = true) {ty : Ty} (hty : b.program.types.Has ty) :
    Builds b (do let list ← entries; make { op, ty := some ty, list }) fun n p => p.HasNode n := by
  refine hentries.bind fun ns c hc hns => ?_
  have hmake := builds_makeOp hc.valid (x := { op, ty := some ty, list := ns }) (Program.hasType_some (hc.edits.has hty))
    ⟨rfl, nofun, fun m hm => (hns m (by simpa [Node.children] using hm)).1⟩ (fun _ => Or.inl rfl) (Or.inr (Or.inl rfl))
    ⟨fun _ => nofun, fun (h : op = .switchStmt) => ?_, fun _ n hn => (hns n hn).2, rfl⟩
  · exact ⟨hmake.1, hmake.2.1⟩
  · rw [h] at hop
    cases hop

theorem builds_structLit {ty : Ty} (hty : b.program.types.Has ty) {fields : List (String × NodeId)}
    (hfields : ∀ e ∈ fields, b.program.HasNode e.2) : Builds b (structLit ty fields) fun n p => p.HasNode n :=
  builds_literal (builds_fieldEntries hb hfields) rfl hty

theorem builds_arrayLit {ty : Ty} (hty : b.program.types.Has ty) {elems : List NodeId}
    (helems : ∀ e ∈ elems, b.program.HasNode e) : Builds b (arrayLit ty elems) fun n p => p.HasNode n :=
  builds_literal (builds_elemEntries hb helems 0) rfl hty

theorem builds_mapLit {ty : Ty} (hty : b.program.types.Has ty) {pairs : List (NodeId × NodeId)}
    (hpairs : ∀ e ∈ pairs, b.program.HasNode e.1 ∧ b.program.HasNode e.2) :
    Builds b (mapLit ty pairs) fun n p => p.HasNode n :=
  builds_literal (builds_pairEntries hb hpairs) rfl hty

/-! ### Lists of arguments -/

theorem builds_resultType (f : FuncId) : Builds b (resultType f) fun ty p => p.HasType ty := by
  unfold resultType
  refine (builds_get hb).bind fun d c hc hd => ?_
  split
  · rename_i result hresult
    rw [hd] at hresult
    refine triple_pure_of hc.valid.refl (hc.valid.drafted.typed.params f result (List.mem_append_right _ ?_))
    rw [hresult]
    exact List.mem_singleton_self _
  · exact triple_pure_of hc.valid.refl c.program.hasType_none

theorem builds_resultTypeOf (ty : Option Ty) : Builds b (resultTypeOf ty) fun ty p => p.HasType ty := by
  refine (builds_types hb).bind fun types c hc htypes => ?_
  split
  · rename_i ret _ hdef
    obtain ⟨t, _, hdef⟩ := Option.bind_eq_some_iff.1 hdef
    rw [htypes] at hdef
    refine triple_pure_of hc.valid.refl (Program.hasType_some ?_)
    exact (hc.valid.drafted.typed.store.has_funcDef? hdef).2 ret (List.mem_singleton_self _)
  · exact triple_pure_of hc.valid.refl c.program.hasType_none

section Args

variable {args : List NodeId} (hargs : ∀ n ∈ args, b.program.HasNode n)
include hargs

theorem builds_append (spread : Bool) : Builds b (append args spread) fun n p => p.HasNode n := by
  unfold append
  extract_lets jp
  have hjp {c : Body} (hc : b.Leads c) {ty : Option Ty} (hty : c.program.HasType ty) :
      Builds c (jp ty) fun n p => p.HasNode n :=
    builds_list hc.valid (x := none) (by simp) (hc.forall_hasNode hargs) rfl hty spread
  split
  · exact (builds_typeOf hb _).bind fun ty c hc hty => hjp hc hty
  · exact hjp hb.refl b.program.hasType_none

theorem builds_concat : Builds b (concat args) fun n p => p.HasNode n :=
  builds_list hb (x := none) (by simp) hargs rfl (Program.hasType_some (TypeStore.has_primitive _ rfl)) false

omit hb in
/-- A call of a callee that is there. -/
theorem builds_callee {callee : NodeId} (hcallee : b.program.HasNode callee) {op : Op}
    (hplain : Node.isPlain { op } = true) {ty : BodyM (Option Ty)} (hty : Builds b ty fun ty p => p.HasType ty) (spread : Bool) :
    Builds b (do let ty ← ty; make { op, ty, left := some callee, list := args, variadic := spread })
      fun n p => p.HasNode n := by
  refine hty.bind fun ty c hc hty => builds_list hc.valid ?_ (hc.forall_hasNode hargs) hplain hty spread
  rintro n ⟨⟩
  exact hc.hasNode hcallee

theorem builds_call (f : FuncId) (spread : Bool) : Builds b (call f args spread) fun n p => p.HasNode n :=
  (builds_funcValue hb f).bind fun _ _ hc hcallee =>
    builds_callee (hc.forall_hasNode hargs) hcallee rfl (builds_resultType hc.valid f) spread

theorem builds_callMethod {recv : NodeId} (hrecv : b.program.HasNode recv) (f : FuncId) :
    Builds b (callMethod recv f args) fun n p => p.HasNode n :=
  (builds_unary hb hrecv rfl (hb.drafted.typed.func f) _ _).bind fun _ _ hc hcallee =>
    builds_callee (hc.forall_hasNode hargs) hcallee rfl (builds_resultType hc.valid f) false

theorem builds_callInterface {recv : NodeId} (hrecv : b.program.HasNode recv) (method : String) {fnTy : Ty}
    (hfnTy : b.program.types.Has fnTy) : Builds b (callInterface recv method fnTy args) fun n p => p.HasNode n :=
  (builds_unary hb hrecv rfl (Program.hasType_some hfnTy) _ none).bind fun _ _ hc hcallee =>
    builds_callee (hc.forall_hasNode hargs) hcallee rfl (builds_resultTypeOf hc.valid _) false

theorem builds_callValue {callee : NodeId} (hcallee : b.program.HasNode callee) :
    Builds b (callValue callee args) fun n p => p.HasNode n :=
  (builds_typeOf hb callee).bind fun ty _ hc _ =>
    builds_callee (hc.forall_hasNode hargs) (hc.hasNode hcallee) rfl (builds_resultTypeOf hc.valid ty) false

end Args

end Exprs

/-! ## Statements -/

section Stmts

variable {b : Body} (hb : b.Valid)
include hb

theorem builds_localName (name : String) {ty : Ty} (hty : b.program.types.Has ty) :
    Builds b (localName name ty) fun n p => p.HasNode n ∧ (p.node n).isNameOf .auto = true := by
  let x : Node := { ty := some ty, line := b.line, cls := .auto, sym := some name, home := some b.id }
  have hedit := Edit.declare (p := b.program) b.func x (Program.hasType_some hty) hb.func
    (by simp [x, Node.refs, Node.children]) (Or.inr rfl) rfl hb.home rfl
  refine ⟨hb.leads hedit.edits (Program.size_declareName ..) rfl rfl rfl rfl, b.program.hasNode_addNode _, ?_⟩
  exact (congrArg (Node.isNameOf · .auto) (b.program.node_declareName b.func x)).trans rfl

theorem builds_declare (name : String) {ty : Ty} (hty : b.program.types.Has ty) :
    Builds b (declare name ty) fun n p => p.HasNode n := by
  refine (builds_localName hb name hty).bind fun var c hc hvar => ?_
  have hform : c.program.IsFormedIn { op := .decl, left := some var } := by
    refine ⟨fun _ n hn => ?_, nofun, nofun, rfl⟩
    cases hn
    exact hvar.2
  have hdecl := builds_makeOp hc.valid c.program.hasType_none (by simp [Program.HasParts, Node.children, hvar.1])
    (by simp) (Or.inl rfl) hform
  have hstmt : Builds c (makeStmt { op := .decl, left := some var }) fun n p => p.HasNode n :=
    hdecl.bind fun _ _ hd hn => builds_push hd.valid hn.1
  exact hstmt.bind fun _ d hd _ => triple_pure_of hd.valid.refl (hd.hasNode hvar.1)

theorem builds_assign {dst : NodeId} (hdst : b.program.HasNode dst) {src : NodeId} (hsrc : b.program.HasNode src) :
    Builds b (assign dst src) fun n p => p.HasNode n :=
  builds_makeStmt hb rfl (by simp [Program.HasParts, Node.children, hdst, hsrc]) rfl rfl rfl

theorem builds_assignOp {dst : NodeId} (hdst : b.program.HasNode dst) {src : NodeId} (hsrc : b.program.HasNode src)
    (op : Op) : Builds b (assignOp dst op src) fun n p => p.HasNode n :=
  builds_makeStmt hb rfl (by simp [Program.HasParts, Node.children, hdst, hsrc]) rfl rfl rfl

/-- A statement whose operands are lists. -/
theorem builds_listStmt {list rlist : List NodeId} (hlist : ∀ n ∈ list, b.program.HasNode n)
    (hrlist : ∀ n ∈ rlist, b.program.HasNode n) {op : Op} (hplain : Node.isPlain { op } = true)
    (hcall : op.isCall = false) : Builds b (makeStmt { op, list, rlist }) fun n p => p.HasNode n := by
  refine builds_makeStmt hb rfl ⟨rfl, by simp, fun m hm => ?_⟩ rfl hcall hplain
  simp only [Node.children, List.mem_append] at hm
  grind

theorem builds_assignMany {dsts : List NodeId} (hdsts : ∀ n ∈ dsts, b.program.HasNode n) {srcs : List NodeId}
    (hsrcs : ∀ n ∈ srcs, b.program.HasNode n) : Builds b (assignMany dsts srcs) fun n p => p.HasNode n :=
  builds_listStmt hb hdsts hsrcs rfl rfl

theorem builds_assignCall {dsts : List NodeId} (hdsts : ∀ n ∈ dsts, b.program.HasNode n) {call : NodeId}
    (hcall : b.program.HasNode call) : Builds b (assignCall dsts call) fun n p => p.HasNode n :=
  builds_listStmt hb hdsts (List.forall_mem_singleton.2 hcall) rfl rfl

/-- The operators of `value, ok = src` are statements of their own, and only an assertion becomes another one. -/
theorem builds_assignOk {form : Op} {value ok src : NodeId} (hform : commaOk? (b.program.node src).op = some form)
    (hvalue : b.program.HasNode value) (hok : b.program.HasNode ok) (hsrc : b.program.HasNode src) :
    Builds b (assignOk form value ok src) fun n p => p.HasNode n := by
  have hop : Node.isPlain { op := form } = true ∧ form.isCall = false := by
    unfold commaOk? at hform
    split at hform <;> cases hform <;> exact ⟨rfl, rfl⟩
  unfold assignOk
  extract_lets jp
  have hjp {c : Body} (hc : b.Leads c) : Builds c (jp ()) fun n p => p.HasNode n :=
    builds_listStmt hc.valid (List.forall_mem_cons.2 ⟨hc.hasNode hvalue, List.forall_mem_singleton.2 (hc.hasNode hok)⟩)
      (List.forall_mem_singleton.2 (hc.hasNode hsrc)) hop.1 hop.2
  split
  · rename_i hassert
    have hsrcOp : (b.program.node src).op = .typeAssert ∨ (b.program.node src).op = .typeAssertOk := by
      rw [hassert] at hform
      unfold commaOk? at hform
      split at hform
      · cases hform
      · cases hform
      · exact Or.inl ‹_›
      · exact Or.inr ‹_›
      · cases hform
    exact (builds_modifyNode hb (Edit.assertOk src hsrcOp)).bind fun _ c hc _ => hjp hc
  · exact hjp hb.refl

theorem builds_ret {values : List NodeId} (hvalues : ∀ n ∈ values, b.program.HasNode n) :
    Builds b (ret values) fun n p => p.HasNode n :=
  builds_listStmt hb hvalues (fun _ hn => absurd hn List.not_mem_nil) rfl rfl

theorem builds_send {chan : NodeId} (hchan : b.program.HasNode chan) {value : NodeId}
    (hvalue : b.program.HasNode value) : Builds b (send chan value) fun n p => p.HasNode n :=
  builds_makeStmt hb rfl (by simp [Program.HasParts, Node.children, hchan, hvalue]) rfl rfl rfl

theorem builds_panicWith {x : NodeId} (hx : b.program.HasNode x) : Builds b (panicWith x) fun n p => p.HasNode n :=
  builds_makeStmt hb rfl (by simp [Program.HasParts, Node.children, hx]) rfl rfl rfl

theorem builds_deferCall {x : NodeId} (hx : b.program.HasNode x) : Builds b (deferCall x) fun n p => p.HasNode n :=
  builds_makeStmt hb rfl (by simp [Program.HasParts, Node.children, hx]) rfl rfl rfl

theorem builds_goCall {x : NodeId} (hx : b.program.HasNode x) : Builds b (goCall x) fun n p => p.HasNode n :=
  builds_makeStmt hb rfl (by simp [Program.HasParts, Node.children, hx]) rfl rfl rfl

omit hb in
theorem labelIn_addLabel (name : String) :
    (b.program.addLabel name (some b.id)).2.LabelIn (b.program.addLabel name (some b.id)).1 b.id :=
  ⟨{ name, home := some b.id }, Array.getElem?_push_size, rfl⟩

/-- A label that the body has not yet is made for it. -/
theorem builds_labelOf (name : String) : Builds b (labelOf name) fun l p => p.LabelIn l b.id := by
  have hedits := (Edit.label (p := b.program) name (some b.id)).edits
  refine builds_modifyGet ?_ ?_
  · dsimp only
    split
    · exact hb.refl
    · refine ⟨rfl, rfl, hedits, fun _ => hedits.unfinished rfl, hedits.drafted hb.drafted, hb.func, hb.blocks, ?_,
        hb.begun⟩
      intro e he
      rcases List.mem_cons.1 he with rfl | he
      · exact labelIn_addLabel name
      · exact hedits.labelIn (hb.labels e he)
  · dsimp only
    split
    · rename_i l hl
      exact hb.labels (name, l) (TypeStore.mem_of_lookup hl)
    · exact labelIn_addLabel name

/-- A statement with a label of the body. -/
theorem builds_jump (name : String) {op : Op} (hplain : Node.isPlain { op } = true) (hcall : op.isCall = false) :
    Builds b (do makeStmt { op, label := some (← labelOf name) }) fun n p => p.HasNode n := by
  refine (builds_labelOf hb name).bind fun l c hc hl => ?_
  rw [← hc.id] at hl
  exact builds_makeStmt hc.valid rfl (by simp [Program.HasParts, Node.children, hl]) rfl hcall hplain

theorem builds_label (name : String) : Builds b (label name) fun n p => p.HasNode n :=
  builds_jump hb name rfl rfl

theorem builds_goto (name : String) : Builds b (goto name) fun n p => p.HasNode n := builds_jump hb name rfl rfl

/-! ### Statements with blocks -/

omit hb in
/-- What opens the first block of a statement. -/
theorem builds_begin {m : BodyM NodeId} (hm : Builds b m fun n p => p.HasStmt n) :
    Builds b (do let stmt ← m; nextLine; openBlock; return stmt) fun n p => p.HasStmt n :=
  hm.bind fun _ _ hc hstmt => (builds_nextLine hc.valid).bind fun _ _ hd _ =>
    (builds_openBlock hd.valid).bind fun _ _ he _ => triple_pure_of he.valid.refl ((hd.trans he).edits.hasStmt hstmt)

theorem builds_beginFor {cond : Option NodeId} (hcond : ∀ n, cond = some n → b.program.HasNode n) :
    Builds b (beginFor cond) fun n p => p.HasStmt n :=
  builds_begin (builds_makeOther hb b.program.hasType_none (by simpa [Program.HasParts, Node.children] using hcond)
    nofun rfl rfl)

theorem builds_beginRange {key value : Option NodeId} (hkey : ∀ n, key = some n → b.program.HasNode n)
    (hvalue : ∀ n, value = some n → b.program.HasNode n) {x : NodeId} (hx : b.program.HasNode x) :
    Builds b (beginRange key value x) fun n p => p.HasStmt n := by
  unfold beginRange
  extract_lets jp
  have hjp {c : Body} (hc : b.Leads c) {key : Option NodeId} (hkey : ∀ n, key = some n → c.program.HasNode n) :
      Builds c (jp key) fun n p => p.HasStmt n := by
    refine (builds_typeOf hc.valid x).bind fun ty d hd hty =>
      builds_begin (builds_makeOther hd.valid hty ⟨rfl, by simp, ?_⟩ nofun rfl rfl)
    intro m hm
    have hx' := (hc.trans hd).hasNode hx
    have hkey' (n : NodeId) (hn : key = some n) := hd.hasNode (hkey n hn)
    have hvalue' (n : NodeId) (hn : value = some n) := (hc.trans hd).hasNode (hvalue n hn)
    simp only [Node.children, List.mem_append, Option.mem_toList] at hm
    grind
  split
  · refine ((builds_blank hb).map (R := fun key c => ∀ n, key = some n → c.program.HasNode n) ?_).bind
      fun _ _ hc hkey => hjp hc hkey
    rintro n p hn m ⟨⟩
    exact hn
  · exact (triple_pure_of hb.refl (Q := fun key c => ∀ n, key = some n → c.program.HasNode n) hkey).bind fun _ _ hc hkey => hjp hc hkey

theorem builds_endLoop {stmt : NodeId} (hstmt : b.program.HasStmt stmt) :
    Builds b (endLoop stmt) fun n p => p.HasNode n :=
  (builds_closeBlock hb).bind fun _ _ hc hbody =>
    (builds_modifyNode hc.valid (Edit.stmtBody stmt _ (hc.edits.hasStmt hstmt).2 hbody)).bind fun _ _ hd _ =>
      builds_push hd.valid ((hc.trans hd).hasNode hstmt.1)

theorem builds_beginIf {cond : NodeId} (hcond : b.program.HasNode cond) :
    Builds b (beginIf cond) fun n p => p.HasStmt n :=
  builds_begin (builds_makeOther hb b.program.hasType_none (by simp [Program.HasParts, Node.children, hcond])
    nofun rfl rfl)

theorem builds_beginElse {stmt : NodeId} (hstmt : b.program.HasStmt stmt) : Builds b (beginElse stmt) fun _ _ => True :=
  (builds_closeBlock hb).bind fun _ _ hc hbody =>
    (builds_modifyNode hc.valid (Edit.stmtBody stmt _ (hc.edits.hasStmt hstmt).2 hbody)).bind
      fun _ _ hd _ => builds_openBlock hd.valid

theorem builds_endIf {stmt : NodeId} (hstmt : b.program.HasStmt stmt) : Builds b (endIf stmt) fun n p => p.HasNode n :=
  (builds_closeBlock hb).bind fun _ _ hc hbody =>
    (builds_modifyNode hc.valid (Edit.stmtAlt stmt _ (hc.edits.hasStmt hstmt).2 hbody)).bind fun _ _ hd _ =>
      builds_push hd.valid ((hc.trans hd).hasNode hstmt.1)

theorem builds_beginSwitch {x : NodeId} (hx : b.program.HasNode x) :
    Builds b (beginSwitch x) fun n p => p.HasNode n ∧ (p.node n).op = .switchStmt := by
  have hguard : Builds b (make { op := .typeGuard, right := some x }) fun n p => p.HasNode n :=
    builds_makeSimple hb b.program.hasType_none (by simp [Program.HasParts, Node.children, hx]) rfl rfl rfl
  refine hguard.bind fun guard c hc hguard => ?_
  have hstmt : Builds c (make { op := .switchStmt, test := some guard })
      fun n p => p.HasNode n ∧ (p.node n).op = .switchStmt :=
    builds_makeOp hc.valid c.program.hasType_none (by simp [Program.HasParts, Node.children, hguard]) (by simp) (Or.inl rfl)
      ⟨by simp, by simp, by simp [Op.isComposite], rfl⟩
  exact ⟨hstmt.1.trans (builds_nextLine hstmt.1.valid).1, hstmt.2⟩

theorem builds_beginCase (x : NodeId) (name : Option String) {ty : Option Ty} (hty : b.program.HasType ty) :
    Builds b (beginCase x name ty) fun r p =>
      (p.HasNode r.1 ∧ (p.node r.1).op = .caseClause) ∧ ∀ n, r.2 = some n → p.HasNode n := by
  unfold beginCase
  extract_lets jp
  have hjp {c : Body} (hc : b.Leads c) {var : Option NodeId}
      (hvar : ∀ n, var = some n → c.program.HasNode n ∧ (c.program.node n).isNameOf .auto = true) :
      Builds c (jp var) fun r p =>
      (p.HasNode r.1 ∧ (p.node r.1).op = .caseClause) ∧ ∀ n, r.2 = some n → p.HasNode n := by
    have hclause := builds_makeOp hc.valid (x := { op := .caseClause, ty, left := var }) (hc.hasType hty)
      (by simpa [Program.HasParts, Node.children] using fun n hn => (hvar n hn).1) (by simp) (Or.inl rfl)
      ⟨fun _ n hn => (hvar n hn).2, by simp, by simp [Op.isComposite], rfl⟩
    refine hclause.bind fun clause d hd hclause => (builds_nextLine hd.valid).bind fun _ e he _ =>
      (builds_openBlock he.valid).bind fun _ g hg _ => triple_pure_of hg.valid.refl ⟨(he.trans hg).edits.op_eq hclause (by simp) (by simp), ?_⟩
    exact fun n hn => (hd.trans (he.trans hg)).hasNode (hvar n hn).1
  cases name with
  | none => exact hjp hb.refl (by simp)
  | some name =>
    refine (builds_typeOf hb x).bind fun xty c hc hxty => ?_
    have hvar : c.program.types.Has ((ty.or xty).getD .unit) := by
      cases ty with
      | some ty => exact hc.edits.has (hty ty rfl)
      | none =>
        cases xty with
        | some xty => exact hxty xty rfl
        | none => exact TypeStore.has_primitive _ rfl
    refine ((builds_localName hc.valid name hvar).map (R := fun var c => ∀ n, var = some n →
      c.program.HasNode n ∧ (c.program.node n).isNameOf .auto = true) ?_).bind
      fun var d hd hvar => hjp (hc.trans hd) hvar
    rintro n p hn m ⟨⟩
    exact hn

theorem builds_endCase {clause : NodeId} (hclause : b.program.HasStmt clause) :
    Builds b (endCase clause) fun _ _ => True :=
  (builds_closeBlock hb).bind fun _ _ hc hbody =>
    builds_modifyNode hc.valid (Edit.stmtBody clause _ (hc.edits.hasStmt hclause).2 hbody)

theorem builds_endSwitch {stmt : NodeId} (hstmt : b.program.HasNode stmt) (hop : (b.program.node stmt).op = .switchStmt)
    {clauses : List NodeId} (hclauses : ∀ n ∈ clauses, b.program.HasNode n ∧ (b.program.node n).op = .caseClause) :
    Builds b (endSwitch stmt clauses) fun n p => p.HasNode n :=
  (builds_modifyNode hb (Edit.clauses stmt clauses hop hclauses)).bind fun _ _ hc _ =>
    builds_push hc.valid (hc.hasNode hstmt)

end Stmts

/-! ## Whole bodies -/

theorem edits_start (p : Program) (f : FuncId) (line : UInt32) : Edits p (start p f line).program :=
  (Edit.beginBody).edits

theorem valid_start {p : Program} (hp : p.Drafted) {f : FuncId} (hf : p.HasFunc f) (line : UInt32) :
    (start p f line).Valid := by
  refine ⟨(edits_start p f line).drafted hp, hf, fun block hblock n hn => ?_, fun e he => absurd he List.not_mem_nil,
    Nat.lt_succ_self _⟩
  rw [List.mem_singleton.1 hblock] at hn
  exact absurd hn (Array.not_mem_empty n)

section Whole

variable {b : Body} (hb : b.Valid)
include hb

theorem edits_finish : Edits b.program b.finish := by
  refine (Edit.funcBody b.func _ hb.func fun m hm => ?_).edits
  cases h : b.blocks with
  | nil =>
    rw [h] at hm
    exact absurd hm List.not_mem_nil
  | cons block rest =>
    rw [h] at hm
    exact hb.blocks block (by rw [h]; exact List.mem_cons_self) m (Array.mem_toList_iff.1 hm)

/-- The function of a finished body has one. -/
theorem not_unfinished_finish : ¬ b.finish.Unfinished b.func := by
  rintro ⟨_, h⟩
  unfold finish at h
  rw [Program.func_modifyFunc, if_pos ⟨rfl, hb.func⟩] at h
  cases h

/-- A closure that is entered is the only one more without a body. -/
theorem enterClosure_edits {sig : Signature} (hsig : sig.Typed b.program.types) :
    Edits b.program (b.enterClosure sig).program ∧ (b.enterClosure sig).Valid ∧
    ∀ f, (b.enterClosure sig).program.Unfinished f → b.program.Unfinished f ∨ f = (b.enterClosure sig).func := by
  let named : Signature := { sig with name := (b.program.func b.func).name ++ ".func" ++ toString (b.closures + 1) }
  have hnamed : named.Typed b.program.types := ⟨hsig.recv, hsig.params, hsig.results⟩
  have houter (f : FuncId) (hf : some b.func = some f) : b.program.HasFunc f := by
    cases hf
    exact hb.func
  obtain ⟨hedits, hf, hunfinished⟩ := Program.edits_declare hb.drafted.typed.store hnamed houter b.line
  exact ⟨hedits.trans (edits_start _ _ b.line), valid_start (hedits.drafted hb.drafted) hf b.line,
    fun f h => (hunfinished f h).imp_right And.right⟩

/-- A closure is an expression of the body around it, which goes on where it was. -/
theorem leads_leaveClosure {inner : Body} (h : Edits b.program inner.program) (hinner : inner.Valid)
    (hunfinished : ∀ f, inner.program.Unfinished f → b.program.Unfinished f ∨ f = inner.func) :
    b.Leads (b.leaveClosure inner).2 ∧ Edits inner.program (b.leaveClosure inner).2.program ∧
    (b.leaveClosure inner).2.program.HasNode (b.leaveClosure inner).1 := by
  let x : Node :=
    { op := .closure, ty := (inner.finish.func inner.func).ty, line := b.line, func := some inner.func,
      curfn := some b.func, home := some b.id }
  have hfinish := edits_finish hinner
  have hedit : Edit inner.finish (inner.finish.addNode x).2 :=
    .node x ((hfinish.drafted hinner.drafted).typed.func inner.func) (by simp [x, Program.HasParts, Node.children])
      (by simp [x]) (by simp [x]) (fun c hc => (h.trans hfinish).begun (hb.home c hc)) (Program.isFormedIn_of_isPlain rfl)
  have hedits := hfinish.trans hedit.edits
  refine ⟨⟨rfl, rfl, h.trans hedits, fun f hf => ?_, hedits.drafted hinner.drafted, (h.trans hedits).hasFunc hb.func,
    fun block hblock n hn => (h.trans hedits).hasNode (hb.blocks block hblock n hn),
    fun e he => (h.trans hedits).labelIn (hb.labels e he), (h.trans hedits).begun hb.begun⟩, hedits, inner.finish.hasNode_addNode x⟩
  refine (hunfinished f (hedits.unfinished (Program.size_modifyFunc ..) hf)).resolve_right fun he => ?_
  exact not_unfinished_finish hinner (he ▸ hf)

end Whole

end EscapeAnalysis.Body

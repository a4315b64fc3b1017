import EscapeAnalysis.Proofs.Building.Scripts
import EscapeAnalysis.Proofs.Groups.Callees

/-!
# The order of the callees of a function

The search for calls comes through a body in post-order: the parts of a node, then the node. If no node of the body is
below itself, this order has all nodes of the body, and the call graph lists the functions in the order in which their
first calls come up in it.

* `Program.Targets p n c` : the node calls `c`, or is a closure of it;
* `Program.PostOrder p body order` : the order of the nodes of a body;
* `Program.CallsFirst p order c d` : in the order, `c` is called before `d`;
* `callees_in_postOrder` : the callees that a call graph lists.
-/

namespace EscapeAnalysis

open Relation (ReflTransGen TransGen)

namespace Program

variable {p : Program} {f c d : FuncId} {n m : NodeId} {k : Nat} {body order : List NodeId}

/-! ## Calls and closures -/

/-- The node calls the function by its name or as a method of an operand, or is an expression for a closure of it. -/
inductive Targets (p : Program) (n : NodeId) (c : FuncId) : Prop where
  | call {callee : NodeId} (hop : (p.node n).op = .callFunc) (hleft : (p.node n).left = some callee)
    (hname : (p.node callee).op = .name) (hcls : (p.node callee).cls = .func) (hfunc : (p.node callee).func = some c)
  | method {callee : NodeId} (hop : (p.node n).op = .callMethod) (hleft : (p.node n).left = some callee)
    (hdot : (p.node callee).op = .dotMethod) (hfunc : (p.node callee).func = some c)
  | closure (hop : (p.node n).op = .closure) (hfunc : (p.node n).func = some c)

theorem target_eq_some_iff : p.target n = some c ↔ p.Targets n c := by
  constructor
  · intro h
    unfold target calleeOf at h
    split at h
    · rename_i hop
      obtain ⟨callee, hleft, h⟩ := Option.bind_eq_some_iff.1 h
      rw [hop] at h
      dsimp only at h
      split at h
      · rename_i hname
        rw [Node.isNameOf_iff] at hname
        exact .call hop hleft hname.1 hname.2 h
      · cases h
    · rename_i hop
      obtain ⟨callee, hleft, h⟩ := Option.bind_eq_some_iff.1 h
      rw [hop] at h
      dsimp only at h
      split at h
      · exact .method hop hleft ‹_› h
      · cases h
    · exact .closure ‹_› h
    · cases h
  · intro h
    cases h with
    | call hop hleft hname hcls hfunc => simp [target, calleeOf, Node.isNameOf, hop, hleft, hname, hcls, hfunc]
    | method hop hleft hdot hfunc => simp [target, calleeOf, hop, hleft, hdot, hfunc]
    | closure hop hfunc => simp [target, hop, hfunc]

/-! ## The order of a body -/

/-- The nodes of a body in post-order: for each node first its parts, in the order of the slots that hold them, and then
the node. -/
inductive PostOrder (p : Program) : List NodeId → List NodeId → Prop where
  | nil : PostOrder p [] []
  | cons {n : NodeId} {x : Node} {body parts order : List NodeId} (hx : p.node n = x)
    (hparts : PostOrder p (x.init ++ x.left.toList ++ x.right.toList ++ x.list ++ x.test.toList ++ x.incr.toList ++
      x.body ++ x.alt ++ x.rlist) parts)
    (hbody : PostOrder p body order) : PostOrder p (n :: body) (parts ++ n :: order)

theorem PostOrder.unique {order' : List NodeId} (h : p.PostOrder body order) (h' : p.PostOrder body order') :
    order' = order := by
  induction h generalizing order' with
  | nil =>
    cases h'
    rfl
  | cons hx _ _ ihparts ihbody =>
    cases h' with
    | cons hx' hparts hbody =>
      subst hx hx'
      rw [ihparts hparts, ihbody hbody]

theorem PostOrder.mem_iff (h : p.PostOrder body order) : m ∈ order ↔ ∃ b ∈ body, ReflTransGen p.Part b m := by
  induction h with
  | nil => simp
  | @cons n x body parts order hx _ _ ihparts ihbody =>
    subst hx
    have hparts : m ∈ parts ∨ m = n ↔ ReflTransGen p.Part n m := by
      rw [ihparts, ReflTransGen.cases_head_iff, or_comm, eq_comm]
      rfl
    rw [List.mem_append, List.mem_cons, ihbody, ← or_assoc, hparts, List.exists_mem_cons_iff]

theorem postOrder_of_nests (h : ∀ n ∈ body, p.Nests k n) : p.PostOrder body (body.flatMap (p.postOrder k)) := by
  induction k generalizing body with
  | zero =>
    cases body with
    | nil => exact .nil
    | cons n body => exact absurd (h n List.mem_cons_self) id
  | succ k ih =>
    induction body with
    | nil => exact .nil
    | cons n body ihbody =>
      rw [List.forall_mem_cons] at h
      have hparts := ih fun m hm => h.1 m hm
      rw [List.flatMap_cons, postOrder, List.append_assoc, List.singleton_append]
      exact .cons rfl hparts (ihbody h.2)

theorem Acyclic.postOrder (h : p.Acyclic) (f : FuncId) :
    p.PostOrder ((p.func f).body.getD []) (((p.func f).body.getD []).flatMap (p.postOrder (p.nodes.size + 1))) :=
  postOrder_of_nests fun b hb => nests_succ_of_not_cycle fun m hm => h f m ⟨b, hb, hm⟩

/-! ## The first call of each function -/

/-- A node of the order calls `c`, and no node that comes before it calls `d`. -/
def CallsFirst (p : Program) (order : List NodeId) (c d : FuncId) : Prop :=
  ∃ earlier n later, order = earlier ++ n :: later ∧ p.Targets n c ∧ ∀ m ∈ earlier ++ [n], ¬ p.Targets m d

theorem callsFirst_of_filterMap {earlier later : List FuncId} (h : order.filterMap p.target = earlier ++ c :: later)
    (hd : d ∉ earlier) (hne : c ≠ d) : p.CallsFirst order c d := by
  obtain ⟨before, rest, rfl, hbefore, hrest⟩ := List.filterMap_eq_append_iff.1 h
  obtain ⟨between, n, after, rfl, hbetween, hn, _⟩ := List.filterMap_eq_cons_iff.1 hrest
  refine ⟨before ++ between, n, after, by rw [List.append_assoc], target_eq_some_iff.1 hn, fun m hm hmd => ?_⟩
  rw [← target_eq_some_iff] at hmd
  simp only [List.mem_append, List.mem_singleton] at hm
  rcases hm with (hm | hm) | rfl
  · refine hd ?_
    rw [← hbefore]
    exact List.mem_filterMap.2 ⟨m, hm, hmd⟩
  · rw [hbetween m hm] at hmd
    cases hmd
  · rw [hn] at hmd
    exact hne (Option.some.inj hmd)

end Program

/-! ## The callees of a call graph -/

/-- Let no node of a body be below itself. The nodes of the body of `f` come in one post-order, which has all nodes that
are in the body or below it. Of the functions of a call graph, the callees of `f` are those that a node of this order
calls by name or as a method, or is a closure of. Each is listed once, and they are listed in the order of the first
nodes that call them. A function without a body has none. -/
theorem callees_in_postOrder {p : Program} (hacyclic : p.Acyclic) {funcs : List FuncId} {f : FuncId} (hf : f ∈ funcs) :
    ((CallGraph.ofProgram p funcs).callees f).Nodup ∧
    (∀ c, c ∈ (CallGraph.ofProgram p funcs).callees f ↔ c ∈ funcs ∧ ∃ n, p.Below f n ∧ p.Targets n c) ∧
    ((p.func f).body = none → (CallGraph.ofProgram p funcs).callees f = []) ∧
    ∃ order, p.PostOrder ((p.func f).body.getD []) order ∧
      (∀ order', p.PostOrder ((p.func f).body.getD []) order' → order' = order) ∧ (∀ n, n ∈ order ↔ p.Below f n) ∧
      ((CallGraph.ofProgram p funcs).callees f).Pairwise (p.CallsFirst order) := by
  have horder := hacyclic.postOrder f
  have hcallees : (CallGraph.ofProgram p funcs).callees f = Program.firsts funcs
      ((((p.func f).body.getD []).flatMap (p.postOrder (p.nodes.size + 1))).filterMap p.target) :=
    (if_pos hf).trans (p.calleesIn_eq funcs f)
  generalize ((p.func f).body.getD []).flatMap (p.postOrder (p.nodes.size + 1)) = order at horder hcallees
  have hbelow (n : NodeId) : n ∈ order ↔ p.Below f n := horder.mem_iff
  have hnodup := Program.nodup_firsts funcs (order.filterMap p.target)
  rw [hcallees]
  refine ⟨hnodup, fun c => ?_, fun hbody => ?_, order, horder, fun _ => horder.unique, hbelow, ?_⟩
  · rw [Program.mem_firsts, List.mem_filterMap]
    simp only [hbelow, Program.target_eq_some_iff]
  · rw [hbody] at horder
    cases horder
    rfl
  · refine (hnodup.and (Program.pairwise_firsts funcs _)).imp ?_
    rintro c d ⟨hne, earlier, later, he, hd⟩
    exact Program.callsFirst_of_filterMap he hd hne

/-- `func lead() int64 { for ; test(); step() { work(item()) }; if test() { yes() } else { func() {}() };
for range all() { each() }; _, _ = left(), away() }`, with the functions that it calls. The call of `step` is made first,
and not yet part of the loop. -/
def leadSteps : List Script.Step :=
  ["lead", "test", "step", "work", "item", "yes", "all", "each", "left", "away"].map
      (fun name => .func { name, results := [(none, "int64")] } name) ++
    [.define (.key "lead")
      [.form (.call (.key "step") [] false),
        .form (.forStmt (some (.call (.key "test") [] false))
          [.form (.exprStmt (.call (.key "work") [.call (.key "item") [] false] false))]),
        .form (.ifStmt (.call (.key "test") [] false) [.form (.exprStmt (.call (.key "yes") [] false))]
          [.form (.exprStmt (.callValue (.closure {} [] none) []))]),
        .form (.rangeStmt none none (.call (.key "all") [] false) [.form (.exprStmt (.call (.key "each") [] false))]),
        .form (.assignMany [.blank, .blank] [.call (.key "left") [] false, .call (.key "away") [] false])]]

def leadProgram : Program :=
  (Script.sessionOf leadSteps).program.modifyNode ⟨14⟩ fun x => { x with incr := some ⟨11⟩ }

/-- The condition of a loop is called before its step and that before its block, an argument before the function that it
is passed to, and the block of a conditional before the other one. What is not of the graph is left out. -/
theorem callees_in_postOrder_leadSteps :
    (CallGraph.ofProgram leadProgram ((List.range 9).map .mk ++ [⟨10⟩])).callees ⟨0⟩ =
      [⟨1⟩, ⟨2⟩, ⟨4⟩, ⟨3⟩, ⟨5⟩, ⟨10⟩, ⟨6⟩, ⟨7⟩, ⟨8⟩] ∧
    ∃ order, leadProgram.PostOrder ((leadProgram.func ⟨0⟩).body.getD []) order ∧
      [⟨1⟩, ⟨2⟩, ⟨4⟩, ⟨3⟩, ⟨5⟩, ⟨10⟩, ⟨6⟩, ⟨7⟩, ⟨8⟩].Pairwise (leadProgram.CallsFirst order) := by
  have hacyclic : leadProgram.Acyclic := fun _ n _ => Program.not_cycle_of_rank
    (fun m => if (leadProgram.node m).body = [] then m.index else leadProgram.nodes.size) (by decide +kernel) n
  have hcallees : (CallGraph.ofProgram leadProgram ((List.range 9).map .mk ++ [⟨10⟩])).callees ⟨0⟩ =
      [⟨1⟩, ⟨2⟩, ⟨4⟩, ⟨3⟩, ⟨5⟩, ⟨10⟩, ⟨6⟩, ⟨7⟩, ⟨8⟩] := by decide +kernel
  obtain ⟨_, _, _, order, horder, _, _, hfirst⟩ := callees_in_postOrder hacyclic
    (show (⟨0⟩ : FuncId) ∈ (List.range 9).map .mk ++ [⟨10⟩] by decide)
  exact ⟨hcallees, order, horder, hcallees ▸ hfirst⟩

end EscapeAnalysis

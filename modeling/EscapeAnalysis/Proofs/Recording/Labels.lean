import EscapeAnalysis.Proofs.Building.Scripts
import EscapeAnalysis.Proofs.Groups.Callees
import EscapeAnalysis.Proofs.Recording.Walks

/-!
# Labels that loop

The scan of a body meets its nodes in pre-order: what initializes a node, the node, its other parts. A label loops if
a jump to it comes later in this order.

* `Program.PreOrder p body order` : the order of the nodes of a body;
* `Flow.scanOrder_of_find?_eq_none`, `Flow.scanOrder_of_find?_eq_some` : when a scan in some order stops, and where;
* `Flow.forM_scanLabels` : the scan of a body meets its nodes in their order;
* `Flow.label?_meetAll_eq_true_iff` : what it leaves of a label;
* `looping_labels` : the labels that loop after the scan of a body.
-/

namespace EscapeAnalysis

open Relation (ReflTransGen TransGen)

/-! ## Labels and jumps -/

namespace Node

variable (x : Node) (l : LabelId)

def defines : Bool := x.op == .label && x.label == some l

def jumpsTo : Bool := x.op == .goto && x.label == some l

/-- The node is a label or a jump that tells of no label. -/
def lacksLabel : Bool := (x.op == .label || x.op == .goto) && x.label.isNone

end Node

/-! ## The order of a body -/

namespace Program

/-- The nodes of a body in the order of the scan: for each node first what initializes it, then the node, and then its
other parts in the order of the slots that hold them. -/
inductive PreOrder (p : Program) : List NodeId → List NodeId → Prop where
  | nil : PreOrder p [] []
  | cons {n : NodeId} {x : Node} {body inits parts order : List NodeId} (hx : p.node n = x)
    (hinit : PreOrder p x.init inits)
    (hparts : PreOrder p (x.left.toList ++ x.right.toList ++ x.list ++ x.test.toList ++ x.incr.toList ++ x.body ++
      x.alt ++ x.rlist) parts)
    (hbody : PreOrder p body order) : PreOrder p (n :: body) (inits ++ n :: (parts ++ order))

variable {p : Program}

theorem PreOrder.unique {body order order' : List NodeId} (h : p.PreOrder body order) (h' : p.PreOrder body order') :
    order' = order := by
  induction h generalizing order' with
  | nil =>
    cases h'
    rfl
  | cons hx _ _ _ ihinit ihparts ihbody =>
    cases h' with
    | cons hx' hinit hparts hbody =>
      subst hx hx'
      rw [ihinit hinit, ihparts hparts, ihbody hbody]

theorem mem_children_scanned {x : Node} {m : NodeId} (h : m ∈ x.scanned) : m ∈ x.children := by
  simp only [Node.scanned, Node.children, List.mem_append] at h ⊢
  grind

/-- The nodes from a node down, as far as the fuel goes. -/
def preOrder (p : Program) : Nat → NodeId → List NodeId
  | 0, _ => []
  | fuel + 1, n => (p.node n).init.flatMap (p.preOrder fuel) ++ n :: (p.node n).scanned.flatMap (p.preOrder fuel)

theorem preOrder_of_nests {k : Nat} {body : List NodeId} (h : ∀ n ∈ body, p.Nests k n) :
    p.PreOrder body (body.flatMap (p.preOrder k)) := by
  induction k generalizing body with
  | zero =>
    cases body with
    | nil => exact .nil
    | cons n body => exact absurd (h n List.mem_cons_self) id
  | succ k ih =>
    induction body with
    | nil => exact .nil
    | cons n body ihbody =>
      rw [List.forall_mem_cons] at h
      have hinit := ih fun m hm => h.1 m (Flow.mem_children_init hm)
      have hparts := ih fun m hm => h.1 m (mem_children_scanned hm)
      rw [List.flatMap_cons, preOrder, List.append_assoc, List.cons_append]
      exact .cons rfl hinit hparts (ihbody h.2)

theorem preOrder_of_not_cycle {body : List NodeId}
    (h : ∀ n ∈ body, ∀ m, ReflTransGen p.Part n m → ¬ TransGen p.Part m m) :
    p.PreOrder body (body.flatMap (p.preOrder (p.nodes.size + 1))) :=
  preOrder_of_nests fun n hn => nests_succ_of_not_cycle (h n hn)

end Program

namespace Flow

variable {p : Program} {s t : Flow}

/-! ## Meeting a node -/

/-- What the scan makes of a node. -/
def meet (s : Flow) (x : Node) : Flow :=
  match x.op, x.label with
  | .label, some l => s.setLabel l false
  | .goto, some l => if (s.label? l).isSome then s.setLabel l true else s
  | _, _ => s

theorem scanNode_eq (n : NodeId) (x : Node) (s : Flow) :
    scanNode n x s = if x.lacksLabel then .error (.labelWithoutSymbol n) s else .ok () (s.meet x) := by
  unfold scanNode meet Node.lacksLabel
  cases x.op <;> cases x.label <;> rfl

theorem meet_eq (s : Flow) (x : Node) : s.meet x = { s with labels := (s.meet x).labels } := by
  unfold meet
  split
  · rfl
  · split <;> rfl
  · rfl

theorem label?_setLabel_self (s : Flow) (l : LabelId) (loops : Bool) : (s.setLabel l loops).label? l = some loops := by
  simp [label?, setLabel]

theorem lookup_filter_ne {labels : List (LabelId × Bool)} {l l' : LabelId} (h : l' ≠ l) :
    (labels.filter (·.1 ≠ l)).lookup l' = labels.lookup l' := by
  induction labels with
  | nil => rfl
  | cons label labels ih =>
    obtain ⟨k, loops⟩ := label
    by_cases hk : k = l
    · subst hk
      rw [List.filter_cons_of_neg (by simp), ih, List.lookup_cons, beq_false_of_ne h]
    · rw [List.filter_cons_of_pos (by simpa using hk), List.lookup_cons, List.lookup_cons, ih]

theorem label?_setLabel_of_ne (s : Flow) {l l' : LabelId} (h : l' ≠ l) (loops : Bool) :
    (s.setLabel l loops).label? l' = s.label? l' := by
  simp only [label?, setLabel, List.lookup_cons, beq_false_of_ne h]
  exact lookup_filter_ne h

theorem label?_meet (s : Flow) (x : Node) (l : LabelId) :
    (s.meet x).label? l =
      if x.defines l then some false else if x.jumpsTo l then (s.label? l).map fun _ => true else s.label? l := by
  unfold meet Node.defines Node.jumpsTo
  split
  · rename_i k hop hlabel
    by_cases hk : k = l
    · subst hk
      rw [label?_setLabel_self]
      simp [hop, hlabel]
    · rw [label?_setLabel_of_ne s (Ne.symm hk)]
      simp [hop, hlabel, hk]
  · rename_i k hop hlabel
    by_cases hk : k = l
    · subst hk
      cases hmet : s.label? k with
      | none => simp [hop, hlabel, hmet]
      | some loops => simp [hop, hlabel, label?_setLabel_self]
    · have hsame : (if (s.label? k).isSome then s.setLabel k true else s).label? l = s.label? l := by
        split
        · exact label?_setLabel_of_ne s (Ne.symm hk) true
        · rfl
      rw [hsame]
      simp [hop, hlabel, hk]
  · rename_i hlabel hgoto
    have hnone (op : Op) (hop : op = .label ∨ op = .goto) : (x.op == op && x.label == some l) = false := by
      rw [Bool.and_eq_false_iff]
      by_contra h
      simp only [not_or, Bool.not_eq_false, beq_iff_eq] at h
      rcases hop with rfl | rfl
      · exact hlabel l h.1 h.2
      · exact hgoto l h.1 h.2
    rw [hnone .label (Or.inl rfl), hnone .goto (Or.inr rfl)]
    rfl

/-! ## Meeting all nodes -/

section Order

variable (p) (order : List NodeId) (s)

/-- The scan of all nodes of an order. -/
def scanOrder : FlowM Unit := order.forM fun n => scanNode n (p.node n)

def meetAll : Flow := order.foldl (fun s n => s.meet (p.node n)) s

theorem meetAll_eq : s.meetAll p order = { s with labels := (s.meetAll p order).labels } := by
  unfold meetAll
  induction order generalizing s with
  | nil => rfl
  | cons n order ih =>
    rw [List.foldl_cons, ih, meet_eq]

end Order

section Find

variable {order : List NodeId}

theorem scanOrder_of_find?_eq_none (h : order.find? (fun n => (p.node n).lacksLabel) = none) (s : Flow) :
    scanOrder p order s = .ok () (s.meetAll p order) := by
  induction order generalizing s with
  | nil => rfl
  | cons n order ih =>
    rw [List.find?_cons] at h
    split at h
    · cases h
    · rename_i hn
      unfold scanOrder
      rw [forM_cons_eq, scanNode_eq, hn]
      exact ih h (s.meet (p.node n))

theorem scanOrder_of_find?_eq_some {n : NodeId} (h : order.find? (fun n => (p.node n).lacksLabel) = some n) (s : Flow) :
    ∃ t, scanOrder p order s = .error (.labelWithoutSymbol n) t := by
  induction order generalizing s with
  | nil => cases h
  | cons m order ih =>
    unfold scanOrder
    rw [List.find?_cons] at h
    rw [forM_cons_eq, scanNode_eq]
    split at h
    · rename_i hm
      cases h
      rw [hm]
      exact ⟨s, rfl⟩
    · rename_i hm
      rw [hm]
      exact ih h (s.meet (p.node m))

end Find

/-! ## The scan of a body -/

theorem program_scanOrder {order : List NodeId} (h : scanOrder p order s = .ok () t) : t.program = s.program := by
  cases hfind : order.find? (fun n => (p.node n).lacksLabel) with
  | none =>
    rw [scanOrder_of_find?_eq_none hfind, meetAll_eq] at h
    cases h
    rfl
  | some n =>
    obtain ⟨_, hs⟩ := scanOrder_of_find?_eq_some hfind s
    rw [hs] at h
    cases h

/-- The scans do the same to graphs of the program. -/
def SameScan (p : Program) (m m' : FlowM Unit) : Prop :=
  ∀ s, s.program = p → m s = m' s ∧ ∀ t, m' s = .ok () t → t.program = p

theorem SameScan.seq {m₁ m₂ m₁' m₂' : FlowM Unit} (h₁ : SameScan p m₁ m₁') (h₂ : SameScan p m₂ m₂') :
    SameScan p (do m₁; m₂) (do m₁'; m₂') := by
  intro s hs
  obtain ⟨he, hprogram⟩ := h₁ s hs
  change EStateM.bind m₁ (fun _ => m₂) s = EStateM.bind m₁' (fun _ => m₂') s ∧
    ∀ t, EStateM.bind m₁' (fun _ => m₂') s = .ok () t → t.program = p
  unfold EStateM.bind
  rw [he]
  cases hm : m₁' s with
  | error e t => exact ⟨rfl, fun _ h => nomatch h⟩
  | ok a t => exact h₂ t (hprogram t hm)

theorem sameScan_scanOrder (order : List NodeId) : SameScan p (scanOrder p order) (scanOrder p order) :=
  fun _ hs => ⟨rfl, fun _ ht => (program_scanOrder ht).trans hs⟩

theorem scanOrder_append (xs ys : List NodeId) : scanOrder p (xs ++ ys) = (do scanOrder p xs; scanOrder p ys) :=
  List.forM_append

theorem scanOrder_singleton (n : NodeId) : scanOrder p [n] = scanNode n (p.node n) := bind_pure_unit

/-- The scan of a body meets its nodes in their order. -/
theorem forM_scanLabels {body order : List NodeId} (h : p.PreOrder body order) {fuel : Nat}
    (hnests : ∀ n ∈ body, p.Nests fuel n) : SameScan p (body.forM (scanLabels fuel)) (scanOrder p order) := by
  induction h generalizing fuel with
  | nil => exact sameScan_scanOrder []
  | @cons n x body inits parts order hx _ _ _ ihinit ihparts ihbody =>
    subst hx
    rw [List.forall_mem_cons] at hnests
    cases fuel with
    | zero => exact hnests.1.elim
    | succ fuel =>
      have hnode : SameScan p (scanLabels (fuel + 1) n) (do scanOrder p inits; scanOrder p [n]; scanOrder p parts) := by
        have hscan := (ihinit fun m hm => hnests.1 m (mem_children_init hm)).seq
          ((sameScan_scanOrder [n]).seq (ihparts fun m hm => hnests.1 m (Program.mem_children_scanned hm)))
        intro s hs
        obtain ⟨he, hprogram⟩ := hscan s hs
        refine ⟨?_, hprogram⟩
        rw [← he, scanOrder_singleton, ← hs]
        rfl
      rw [show inits ++ n :: (parts ++ order) = inits ++ ([n] ++ (parts ++ order)) from rfl, scanOrder_append,
        scanOrder_append, scanOrder_append]
      have hbody := hnode.seq (ihbody hnests.2)
      simp only [bind_assoc] at hbody
      exact hbody

/-! ## What the scan leaves of a label -/

theorem label?_meetAll {order : List NodeId} {l : LabelId} (h : ∀ n ∈ order, (p.node n).defines l = false) (s : Flow) :
    (s.meetAll p order).label? l =
      if order.any fun n => (p.node n).jumpsTo l then (s.label? l).map fun _ => true else s.label? l := by
  induction order generalizing s with
  | nil => rfl
  | cons n order ih =>
    rw [List.forall_mem_cons] at h
    change ((s.meet (p.node n)).meetAll p order).label? l = _
    rw [ih h.2, label?_meet, h.1, List.any_cons]
    cases (p.node n).jumpsTo l with
    | false => rfl
    | true => cases s.label? l <;> simp

theorem meetAll_append (xs ys : List NodeId) (s : Flow) :
    s.meetAll p (xs ++ ys) = (s.meetAll p xs).meetAll p ys :=
  List.foldl_append

/-- A label that is defined once loops if a jump to it comes later. -/
theorem label?_meetAll_of_defines {before after : List NodeId} {n : NodeId} {l : LabelId}
    (hn : (p.node n).defines l = true) (h : ∀ m ∈ after, (p.node m).defines l = false) (s : Flow) :
    (s.meetAll p (before ++ n :: after)).label? l = some (after.any fun m => (p.node m).jumpsTo l) := by
  rw [meetAll_append]
  change (((s.meetAll p before).meet (p.node n)).meetAll p after).label? l = _
  rw [label?_meetAll h, label?_meet, if_pos hn]
  cases after.any fun m => (p.node m).jumpsTo l <;> rfl

theorem mem_after_of_sublist {before after : List NodeId} {n m k : NodeId} (hm : m ∉ before)
    (h : List.Sublist [m, k] (before ++ n :: after)) : k ∈ after := by
  have hlater : List.Sublist [m, k] (n :: after) := by
    induction before with
    | nil => exact h
    | cons b before ih =>
      rw [List.mem_cons, not_or] at hm
      cases h with
      | cons _ h => exact ih hm.2 h
      | cons_cons _ h => exact absurd rfl hm.1
  cases hlater with
  | cons _ h => exact h.subset (List.mem_cons_of_mem _ List.mem_cons_self)
  | cons_cons _ h => exact h.subset List.mem_cons_self

theorem label?_meetAll_eq_true_iff {order : List NodeId} {l : LabelId}
    (hcount : order.countP (fun n => (p.node n).defines l) ≤ 1)
    (hmet : s.label? l = none ∨ ∃ n ∈ order, (p.node n).defines l = true) :
    (s.meetAll p order).label? l = some true ↔ ∃ n m, List.Sublist [n, m] order ∧
      (p.node n).defines l = true ∧ (p.node m).jumpsTo l = true := by
  by_cases hdefined : ∃ n ∈ order, (p.node n).defines l = true
  · obtain ⟨n, hn, hdefines⟩ := hdefined
    obtain ⟨before, after, rfl⟩ := List.append_of_mem hn
    rw [List.countP_append, List.countP_cons, if_pos hdefines] at hcount
    have hbefore : before.countP (fun n => (p.node n).defines l) = 0 := by omega
    have hafter : after.countP (fun n => (p.node n).defines l) = 0 := by omega
    rw [List.countP_eq_zero] at hbefore hafter
    rw [label?_meetAll_of_defines hdefines (fun m hm => Bool.eq_false_iff.2 (hafter m hm)), Option.some.injEq,
      List.any_eq_true]
    constructor
    · rintro ⟨m, hm, hjumps⟩
      refine ⟨n, m, ?_, hdefines, hjumps⟩
      exact List.Sublist.trans ((List.singleton_sublist.2 hm).cons_cons n) (List.sublist_append_right _ _)
    · rintro ⟨k, m, hsub, hk, hjumps⟩
      exact ⟨m, mem_after_of_sublist (fun hmem => hbefore k hmem hk) hsub, hjumps⟩
  · have hnone : ∀ n ∈ order, (p.node n).defines l = false := fun n hn =>
      Bool.eq_false_iff.2 fun h => hdefined ⟨n, hn, h⟩
    rw [label?_meetAll hnone, hmet.resolve_right hdefined]
    constructor
    · intro h
      split at h <;> cases h
    · rintro ⟨n, m, hsub, hdefines, _⟩
      exact absurd ⟨n, hsub.subset List.mem_cons_self, hdefines⟩ hdefined

end Flow

/-! ## The labels of a body -/

/-- Let no node of a body be below itself. Its nodes come in one order: what initializes a node, the node, its other
parts. The scan stops at the first label or jump in this order that tells of no label, and for no other reason. When it
comes to its end, it changed nothing but labels; and of the labels that are defined once, those loop to which a jump
comes after their definition. -/
theorem looping_labels {s : Flow} {body : List NodeId}
    (hacyclic : ∀ n ∈ body, ∀ m, ReflTransGen s.program.Part n m → ¬ TransGen s.program.Part m m) :
    ∃ order, s.program.PreOrder body order ∧ (∀ order', s.program.PreOrder body order' → order' = order) ∧
      (∀ e, (∃ t, Flow.scanBody body s = .error e t) ↔
        ∃ n, order.find? (fun n => (s.program.node n).lacksLabel) = some n ∧ e = .labelWithoutSymbol n) ∧
      ∀ t, Flow.scanBody body s = .ok () t → t = { s with labels := t.labels } ∧
        ∀ l, order.countP (fun n => (s.program.node n).defines l) ≤ 1 →
          s.label? l = none ∨ (∃ n ∈ order, (s.program.node n).defines l = true) →
          (t.label? l = some true ↔ ∃ n m, List.Sublist [n, m] order ∧
            (s.program.node n).defines l = true ∧ (s.program.node m).jumpsTo l = true) := by
  have hnests : ∀ n ∈ body, s.program.Nests (s.program.nodes.size + 1) n := fun n hn =>
    Program.nests_succ_of_not_cycle (hacyclic n hn)
  obtain ⟨order, horder⟩ : ∃ order, s.program.PreOrder body order := ⟨_, Program.preOrder_of_nests hnests⟩
  have hscan : Flow.scanBody body s = Flow.scanOrder s.program order s :=
    (Flow.forM_scanLabels horder hnests s rfl).1
  refine ⟨order, horder, fun _ => horder.unique, fun e => ?_, fun t ht => ?_⟩
  · rw [hscan]
    cases hfind : order.find? (fun n => (s.program.node n).lacksLabel) with
    | none =>
      rw [Flow.scanOrder_of_find?_eq_none hfind]
      simp
    | some n =>
      obtain ⟨t, ht⟩ := Flow.scanOrder_of_find?_eq_some hfind s
      rw [ht]
      constructor
      · rintro ⟨_, ⟨⟩⟩
        exact ⟨n, rfl, rfl⟩
      · rintro ⟨_, ⟨⟩, rfl⟩
        exact ⟨t, rfl⟩
  · rw [hscan] at ht
    cases hfind : order.find? (fun n => (s.program.node n).lacksLabel) with
    | none =>
      rw [Flow.scanOrder_of_find?_eq_none hfind] at ht
      cases ht
      exact ⟨s.meetAll_eq s.program order, fun l hcount hmet => Flow.label?_meetAll_eq_true_iff hcount hmet⟩
    | some n =>
      obtain ⟨_, herror⟩ := Flow.scanOrder_of_find?_eq_some hfind s
      rw [herror] at ht
      cases ht

/-- `func jump() { goto done; again: for { goto again }; more: if 1 {} else { for range "" { goto more } }; _, _ = 1, 2;
done: }` -/
def jumpSteps : List Script.Step :=
  [.func { name := "jump" } "jump",
    .define (.key "jump")
      [.form (.goto "done"), .form (.label "again"), .form (.forStmt none [.form (.goto "again")]),
        .form (.label "more"), .form (.ifStmt (.int 1) []
          [.form (.rangeStmt none none (.str "") [.form (.goto "more")])]),
        .form (.assignMany [.blank, .blank] [.int 1, .int 2]), .form (.label "done")]]

/-- The jump in the loop `for` is made the step of the loop. -/
def jumpProgram : Program :=
  (Script.sessionOf jumpSteps).program.modifyNode ⟨2⟩ fun x => { x with incr := x.body.head?, body := [] }

def jumpBody : List NodeId := (jumpProgram.func ⟨0⟩).body.getD []

def jumpOrder : List NodeId := [0, 1, 2, 3, 4, 6, 5, 8, 7, 9, 14, 10, 11, 12, 13, 15].map .mk

def jumpGraph : Flow := Flow.start { program := jumpProgram } ⟨[⟨0⟩], false⟩

theorem not_cycle_jumpProgram (n : NodeId) : ¬ TransGen jumpGraph.program.Part n n :=
  Program.not_cycle_of_rank (fun n => if n = ⟨6⟩ then 17 else if n = ⟨2⟩ ∨ n = ⟨8⟩ then 16 else n.index)
    (by decide +kernel) n

/-- The jumps back to `again` and `more` come after the labels, as the step of a loop and inside of a loop in the other
block of a conditional; that to `done` comes before the label. -/
theorem looping_labels_jumpSteps : ∃ t, Flow.scanBody jumpBody jumpGraph = .ok () t ∧
    t.label? ⟨1⟩ = some true ∧ t.label? ⟨2⟩ = some true ∧ t.label? ⟨0⟩ ≠ some true := by
  obtain ⟨order, horder, _, herror, hok⟩ := @looping_labels jumpGraph jumpBody fun _ _ m _ => not_cycle_jumpProgram m
  obtain rfl : order = jumpOrder := by
    rw [(Program.preOrder_of_not_cycle fun _ _ m _ => not_cycle_jumpProgram m).unique horder]
    decide +kernel
  cases hscan : Flow.scanBody jumpBody jumpGraph with
  | error e t =>
    have hfind : jumpOrder.find? (fun n => (jumpGraph.program.node n).lacksLabel) = none := by decide +kernel
    obtain ⟨n, hn, _⟩ := (herror e).1 ⟨t, hscan⟩
    rw [hfind] at hn
    cases hn
  | ok _ t =>
    have hlabels := (hok t hscan).2
    refine ⟨t, rfl, ?_, ?_, fun h => ?_⟩
    · rw [hlabels ⟨1⟩ (by decide +kernel) (Or.inl (by decide +kernel))]
      exact ⟨⟨1⟩, ⟨3⟩, by decide, by decide +kernel, by decide +kernel⟩
    · rw [hlabels ⟨2⟩ (by decide +kernel) (Or.inl (by decide +kernel))]
      exact ⟨⟨4⟩, ⟨9⟩, by decide, by decide +kernel, by decide +kernel⟩
    · rw [hlabels ⟨0⟩ (by decide +kernel) (Or.inl (by decide +kernel))] at h
      obtain ⟨n, m, hsub, hn, hm⟩ := h
      have hnone : ∀ n ∈ jumpOrder, ∀ m ∈ jumpOrder, List.Sublist [n, m] jumpOrder →
          (jumpGraph.program.node n).defines ⟨0⟩ = true → (jumpGraph.program.node m).jumpsTo ⟨0⟩ = false := by
        decide +kernel
      have hfalse := hnone n (hsub.subset (by simp)) m (hsub.subset (by simp)) hsub hn
      rw [hm] at hfalse
      cases hfalse

end EscapeAnalysis

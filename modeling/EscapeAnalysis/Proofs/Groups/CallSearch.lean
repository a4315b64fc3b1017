import Mathlib.Data.List.Induction
import Mathlib.Data.List.Nodup
import EscapeAnalysis.CallGraph

/-!
# The search for calls

The search for calls has each node on its stack twice, before its parts and after them. It leaves the nodes of a body in
post-order, and lists the functions in the order of their first calls.

* `Program.postOrder p room n` : the nodes from a node down, the parts of a node before the node;
* `Program.firsts` : the functions that are called, each at its first call;
* `CallVisit.search_enter` : to work off a node is to leave the nodes of its post-order;
* `Program.calleesIn_eq` : the search finds the first calls along the post-order of the body.
-/

namespace EscapeAnalysis

namespace Program

variable {p : Program} {c : FuncId}

/-! ## The order of a body -/

/-- The nodes from a node down, the node last, as far as there is room. -/
def postOrder (p : Program) : (room : Nat) → NodeId → List NodeId
  | 0, _ => []
  | room + 1, n => (p.node n).children.flatMap (p.postOrder room) ++ [n]

/-- The functions that are called from a node down. -/
def calledBy (p : Program) (room : Nat) (n : NodeId) : List FuncId := (p.postOrder room n).filterMap p.target

theorem calledBy_succ (room : Nat) (n : NodeId) :
    p.calledBy (room + 1) n = (p.node n).children.flatMap (p.calledBy room) ++ (p.target n).toList := by
  have hself : [n].filterMap p.target = (p.target n).toList := by cases h : p.target n <;> simp [h]
  have hparts : p.calledBy room = fun m => (p.postOrder room m).filterMap p.target := rfl
  rw [calledBy, postOrder, List.filterMap_append, List.filterMap_flatMap, hself, hparts]

/-! ## The first call of each function -/

section Firsts

variable {members called : List FuncId}

/-- The members among some functions that are called, each at its first call. -/
def firsts (members called : List FuncId) : List FuncId :=
  called.foldl (fun found g => if g ∈ members ∧ g ∉ found then found ++ [g] else found) []

theorem firsts_append_singleton (g : FuncId) : firsts members (called ++ [g]) =
    if g ∈ members ∧ g ∉ firsts members called then firsts members called ++ [g] else firsts members called :=
  List.foldl_concat ..

theorem mem_firsts : c ∈ firsts members called ↔ c ∈ members ∧ c ∈ called := by
  induction called using List.reverseRecOn with
  | nil => simp [firsts]
  | append_singleton called g ih =>
    rw [firsts_append_singleton, List.mem_append, List.mem_singleton]
    split
    · rename_i hg
      rw [List.mem_append, List.mem_singleton, ih]
      constructor
      · rintro (⟨hc, hcalled⟩ | rfl)
        · exact ⟨hc, Or.inl hcalled⟩
        · exact ⟨hg.1, Or.inr rfl⟩
      · exact fun ⟨hc, hcalled⟩ => hcalled.imp_left fun hcalled => ⟨hc, hcalled⟩
    · rename_i hg
      rw [ih]
      refine ⟨fun ⟨hc, hcalled⟩ => ⟨hc, Or.inl hcalled⟩, ?_⟩
      rintro ⟨hc, hcalled | rfl⟩
      · exact ⟨hc, hcalled⟩
      · exact ih.1 (by_contra fun hnot => hg ⟨hc, hnot⟩)

theorem nodup_firsts (members called : List FuncId) : (firsts members called).Nodup := by
  induction called using List.reverseRecOn with
  | nil => exact List.nodup_nil
  | append_singleton called g ih =>
    rw [firsts_append_singleton]
    split
    · rename_i hg
      exact List.nodup_append.2 ⟨ih, List.nodup_singleton g, fun a ha b hb he =>
        hg.2 (List.mem_singleton.1 hb ▸ he ▸ ha)⟩
    · exact ih

/-- Before the first call of a function that comes later in the list there is one of each that comes earlier. -/
theorem pairwise_firsts (members called : List FuncId) : (firsts members called).Pairwise fun c d =>
    ∃ earlier later, called = earlier ++ c :: later ∧ d ∉ earlier := by
  induction called using List.reverseRecOn with
  | nil => exact List.Pairwise.nil
  | append_singleton called g ih =>
    have hold := ih.imp fun {c d} ⟨earlier, later, he, hd⟩ =>
      (⟨earlier, later ++ [g], by rw [he, List.append_assoc, List.cons_append], hd⟩ :
        ∃ earlier later, called ++ [g] = earlier ++ c :: later ∧ d ∉ earlier)
    rw [firsts_append_singleton]
    split
    · rename_i hg
      refine List.pairwise_append.2 ⟨hold, List.pairwise_singleton _ g, fun c hc d hd => ?_⟩
      rw [List.mem_singleton.1 hd]
      obtain ⟨earlier, later, he⟩ := List.append_of_mem (mem_firsts.1 hc).2
      refine ⟨earlier, later ++ [g], by rw [he, List.append_assoc, List.cons_append], fun hmem => ?_⟩
      have hcalled : g ∈ called := by
        rw [he]
        exact List.mem_append_left _ hmem
      exact hg.2 (mem_firsts.2 ⟨hg.1, hcalled⟩)
    · exact hold

end Firsts

end Program

/-! ## The stack -/

namespace CallVisit

variable (p : Program) (members : List FuncId)

/-- What is listed once a node is left. -/
def listed (found : List FuncId) (n : NodeId) : List FuncId :=
  match p.target n with
  | some g => if g ∈ members ∧ g ∉ found then found ++ [g] else found
  | none => found

theorem search_cons (fuel : Nat) (x : CallVisit) (stack : List CallVisit) (found : List FuncId) :
    search p members (fuel + 1) (x :: stack) found =
      search p members fuel (((run p members x).run found).1 ++ stack) ((run p members x).run found).2 := rfl

theorem search_leave (fuel : Nat) (n : NodeId) (stack : List CallVisit) (found : List FuncId) :
    search p members (fuel + 1) (.leave n :: stack) found = search p members fuel stack (listed p members found n) := by
  rw [search_cons, listed, run]
  cases p.target n <;> rfl

theorem search_enter_succ (fuel room : Nat) (n : NodeId) (stack : List CallVisit) (found : List FuncId) :
    search p members (fuel + 1) (.enter (room + 1) n :: stack) found =
      search p members fuel ((p.node n).children.map (.enter room) ++ .leave n :: stack) found := by
  have hrun : (run p members (.enter (room + 1) n)).run found =
      ((p.node n).children.map (.enter room) ++ [.leave n], found) := rfl
  rw [search_cons, hrun, List.append_assoc, List.singleton_append]

/-- The nodes of a list are worked off one after the other. -/
theorem search_map_enter {room : Nat}
    (h : ∀ n fuel stack found, search p members (p.callVisits room n + fuel) (.enter room n :: stack) found =
      search p members fuel stack ((p.postOrder room n).foldl (listed p members) found))
    (ns : List NodeId) (rest fuel : Nat) (stack : List CallVisit) (found : List FuncId) :
    search p members (ns.foldr (fun n k => p.callVisits room n + k) rest + fuel) (ns.map (.enter room) ++ stack) found =
      search p members (rest + fuel) stack ((ns.flatMap (p.postOrder room)).foldl (listed p members) found) := by
  induction ns generalizing found with
  | nil => rfl
  | cons n ns ih =>
    rw [List.foldr_cons, List.map_cons, List.cons_append, Nat.add_assoc, h, ih, List.flatMap_cons, List.foldl_append]

/-- To work off a node is to leave the nodes of its post-order. -/
theorem search_enter (room : Nat) (n : NodeId) (fuel : Nat) (stack : List CallVisit) (found : List FuncId) :
    search p members (p.callVisits room n + fuel) (.enter room n :: stack) found =
      search p members fuel stack ((p.postOrder room n).foldl (listed p members) found) := by
  induction room generalizing n fuel stack found with
  | zero =>
    rw [Program.callVisits, Nat.add_comm, search_cons]
    rfl
  | succ room ih =>
    have hparts := search_map_enter p members ih (p.node n).children 1 fuel (.leave n :: stack) found
    rw [Nat.add_comm 1, search_leave] at hparts
    rw [Program.callVisits, Nat.add_right_comm, search_enter_succ, hparts, Program.postOrder, List.foldl_append]
    rfl

theorem foldl_listed (order : List NodeId) (found : List FuncId) : order.foldl (listed p members) found =
    (order.filterMap p.target).foldl (fun found g => if g ∈ members ∧ g ∉ found then found ++ [g] else found) found := by
  induction order generalizing found with
  | nil => rfl
  | cons n order ih =>
    rw [List.foldl_cons, ih, listed]
    cases h : p.target n <;> simp [h]

end CallVisit

theorem Program.calleesIn_eq (p : Program) (members : List FuncId) (f : FuncId) : p.calleesIn members f =
    firsts members ((((p.func f).body.getD []).flatMap (p.postOrder (p.nodes.size + 1))).filterMap p.target) := by
  have hsearch := CallVisit.search_map_enter p members (CallVisit.search_enter p members (p.nodes.size + 1))
    ((p.func f).body.getD []) 0 0 [] []
  rw [List.append_nil, CallVisit.foldl_listed] at hsearch
  exact hsearch

theorem Program.calleesIn_eq_calledBy (p : Program) (members : List FuncId) (f : FuncId) : p.calleesIn members f =
    firsts members (((p.func f).body.getD []).flatMap (p.calledBy (p.nodes.size + 1))) := by
  rw [calleesIn_eq, List.filterMap_flatMap]
  rfl

end EscapeAnalysis

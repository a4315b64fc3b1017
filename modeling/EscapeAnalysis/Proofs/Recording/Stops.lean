import Mathlib.Data.List.Dedup
import EscapeAnalysis.Proofs.Recording.Visits

/-!
# The stops of a walk

A walk that keeps a log of its stops: each node it visits, the nodes it is below, and the graph when it visits the node.
Without the log it is the walk of the body. At every stop, the loop depth is that of the function, and one more for
each loop that the node is inside of and for each label passed that loops.

* `Flow.walkLog`, `Flow.walkBodyLog` : the walk with its log;
* `Flow.walkStops b body` : the stops of the walk of the body;
* `Flow.erases_walkLog` : without the log it is the walk;
* `Flow.Logs` : what holds of the graph and the log when an operation ends, and of the log when it stops;
* `Flow.Standing p b path s log` : what holds of the graph `s` when the walk is below `path`;
* `Flow.logs_walk` : it holds at every stop.
-/

namespace EscapeAnalysis

/-- A node that a walk is below. It is `inside` of the node unless it walks over what initializes the node. -/
structure Above where
  node : NodeId
  inside : Bool

/-- A node that a walk visits, what it is below, the nearest one first, and the graph at that time. -/
structure Stop where
  node : NodeId
  path : List Above
  state : Flow

/-- At every stop of the log, `P` holds of the stop and of those before it. -/
def AtStops (P : Stop → List Stop → Prop) (log : List Stop) : Prop :=
  ∀ later stop earlier, log = later ++ stop :: earlier → P stop earlier

theorem atStops_nil (P : Stop → List Stop → Prop) : AtStops P [] := by
  intro later stop earlier he
  cases later <;> cases he

theorem AtStops.cons {P : Stop → List Stop → Prop} {log : List Stop} (h : AtStops P log) {stop : Stop}
    (hstop : P stop log) : AtStops P (stop :: log) := by
  intro later stop' earlier he
  cases later with
  | nil =>
    cases he
    exact hstop
  | cons _ later =>
    cases he
    exact h later stop' earlier rfl

namespace Flow

/-! ## The walk with its log -/

/-- Operations on a graph and a log, the last stop first. -/
abbrev LogM := EStateM EscapeError (Flow × List Stop)

/-- An operation that leaves the log as it is. -/
def unlogged {α : Type} (m : FlowM α) : LogM α := fun σ =>
  match m σ.1 with
  | .ok a t => .ok a (t, σ.2)
  | .error e t => .error e (t, σ.2)

def logStop (n : NodeId) (path : List Above) : LogM Unit := modify fun σ => (σ.1, ⟨n, path, σ.1⟩ :: σ.2)

/-- The node that the walk is part of. -/
def upOf (path : List Above) : Option NodeId := path.head?.map (·.node)

def walkLog : Nat → List Above → NodeId → LogM Unit
  | 0, _, n => throw (.cyclic n)
  | fuel + 1, path, n => do
    let x := (← unlogged getProgram).node n
    x.init.forM (walkLog fuel (⟨n, false⟩ :: path))
    unlogged (deepen x.op 1)
    unlogged (placeClauseVars ((← unlogged getProgram).node n))
    ((← unlogged getProgram).node n).walked.forM (walkLog fuel (⟨n, true⟩ :: path))
    unlogged (deepen x.op (-1))
    logStop n path
    unlogged (visit n (upOf path))

def walkBodyLog (body : List NodeId) : LogM Unit := do
  body.forM (walkLog ((← unlogged getProgram).nodes.size + 3) [])

/-- The stops of the walk of the body, the last one first, also if the walk does not come to its end. -/
def walkStops (b : Flow) (body : List NodeId) : List Stop :=
  match walkBodyLog body (b, []) with
  | .ok _ τ => τ.2
  | .error _ τ => τ.2

/-! ## Without the log -/

/-- Without the log, the first operation is the second one. -/
def Erases {α : Type} (m : LogM α) (m' : FlowM α) : Prop :=
  ∀ σ, match m σ with
    | .ok a τ => m' σ.1 = .ok a τ.1
    | .error e τ => m' σ.1 = .error e τ.1

section Erases

variable {α β : Type}

theorem erases_unlogged (m : FlowM α) : Erases (unlogged m) m := by
  intro σ
  unfold unlogged
  cases m σ.1 <;> rfl

theorem Erases.bind {m : LogM α} {m' : FlowM α} {f : α → LogM β} {f' : α → FlowM β} (hm : Erases m m')
    (hf : ∀ a, Erases (f a) (f' a)) : Erases (m >>= f) (m' >>= f') := by
  intro σ
  have hσ := hm σ
  change match EStateM.bind m f σ with
    | .ok a τ => EStateM.bind m' f' σ.1 = .ok a τ.1
    | .error e τ => EStateM.bind m' f' σ.1 = .error e τ.1
  unfold EStateM.bind
  cases hmσ : m σ with
  | error e τ =>
    rw [hmσ] at hσ
    dsimp only at hσ ⊢
    rw [hσ]
  | ok a τ =>
    rw [hmσ] at hσ
    dsimp only at hσ ⊢
    rw [hσ]
    exact hf a τ

theorem erases_forM {f : β → LogM PUnit} {f' : β → FlowM PUnit} (xs : List β) (h : ∀ x, Erases (f x) (f' x)) :
    Erases (xs.forM f) (xs.forM f') := by
  induction xs with
  | nil => exact fun _ => rfl
  | cons x xs ih => exact (h x).bind fun _ => ih

theorem Erases.ok {m : LogM α} {m' : FlowM α} (h : Erases m m') {σ : Flow × List Stop} {a : α} {t : Flow}
    (ht : m' σ.1 = .ok a t) : ∃ log, m σ = .ok a (t, log) := by
  have hσ := h σ
  cases hm : m σ with
  | error e τ =>
    rw [hm, ht] at hσ
    cases hσ
  | ok a' τ =>
    rw [hm, ht] at hσ
    cases hσ
    exact ⟨τ.2, rfl⟩

theorem erases_logStop {n : NodeId} {path : List Above} {m : LogM α} {m' : FlowM α} (h : Erases m m') :
    Erases (do logStop n path; m) m' :=
  fun σ => h (σ.1, ⟨n, path, σ.1⟩ :: σ.2)

end Erases

theorem erases_walkLog (fuel : Nat) (path : List Above) (n : NodeId) :
    Erases (walkLog fuel path n) (walk fuel (upOf path) n) := by
  induction fuel generalizing path n with
  | zero => exact fun _ => rfl
  | succ fuel ih =>
    unfold walkLog walk
    refine (erases_unlogged getProgram).bind fun p => ?_
    refine (erases_forM _ fun m => ih (⟨n, false⟩ :: path) m).bind fun _ => ?_
    refine (erases_unlogged _).bind fun _ => (erases_unlogged getProgram).bind fun q => ?_
    refine (erases_unlogged _).bind fun _ => (erases_unlogged getProgram).bind fun r => ?_
    refine (erases_forM _ fun m => ih (⟨n, true⟩ :: path) m).bind fun _ => ?_
    refine (erases_unlogged _).bind fun _ => ?_
    exact erases_logStop (erases_unlogged _)

theorem erases_walkBodyLog (body : List NodeId) : Erases (walkBodyLog body) (walkBody body) :=
  (erases_unlogged getProgram).bind fun _ => erases_forM _ fun n => erases_walkLog _ [] n

/-! ## Rules -/

instance {E : List Stop → Prop} :
    Conduct (anyStep (σ := Flow × List Stop)) fun _ (e : EscapeError × Flow × List Stop) => E e.2.2 :=
  ⟨fun _ _ => trivial, fun _ h => h, fun _ => trivial⟩

/-- `Q` holds of the graph and the log that the operation leaves; if it stops, `E` holds of the log. -/
abbrev Logs (σ : Flow × List Stop) (m : LogM Unit) (Q : Flow → List Stop → Prop) (E : List Stop → Prop) : Prop :=
  Triple anyStep (fun _ e => E e.2.2) σ m fun _ τ => Q τ.1 τ.2

section Rules

variable {σ : Flow × List Stop} {Q R : Flow → List Stop → Prop} {E : List Stop → Prop}

theorem logs_getProgram {f : Program → LogM Unit} (h : Logs σ (f σ.1.program) Q E) :
    Logs σ (unlogged getProgram >>= f) Q E := h

theorem Logs.bind {m m' : LogM Unit} (hm : Logs σ m Q E) (hm' : ∀ s log, Q s log → Logs (s, log) m' R E) :
    Logs σ (do m; m') R E :=
  Triple.bind hm fun _ τ _ hτ => hm' τ.1 τ.2 hτ

theorem Logs.mono {m : LogM Unit} (hm : Logs σ m Q E) (h : ∀ s log, Q s log → R s log) : Logs σ m R E :=
  Triple.mono hm fun _ τ _ hτ => h τ.1 τ.2 hτ

theorem logs_unlogged {m : FlowM Unit} (h : ∀ t, m σ.1 = .ok () t → Q t σ.2) (hE : E σ.2) :
    Logs σ (unlogged m) Q E := by
  refine triple_of_eq (fun a τ hτ => ⟨trivial, ?_⟩) fun e τ hτ => ?_
  all_goals
    unfold unlogged at hτ
    split at hτ <;> cases hτ
  · exact h _ ‹_›
  · exact hE

theorem logs_logStop {n : NodeId} {path : List Above} {m : LogM Unit}
    (h : Logs (σ.1, ⟨n, path, σ.1⟩ :: σ.2) m Q E) : Logs σ (do logStop n path; m) Q E := h

theorem logs_forM {f : NodeId → LogM Unit} {xs : List NodeId}
    (h : ∀ x ∈ xs, ∀ s log, Q s log → Logs (s, log) (f x) Q E) (hσ : Q σ.1 σ.2) : Logs σ (xs.forM f) Q E :=
  triple_forM_inv (P := fun τ : Flow × List Stop => Q τ.1 τ.2) trivial xs (fun x hx τ _ hτ => h x hx τ.1 τ.2 hτ) hσ

theorem Logs.walkStops {b : Flow} {body : List NodeId} (h : Logs (b, []) (walkBodyLog body) Q E)
    (hQ : ∀ s log, Q s log → E log) : E (b.walkStops body) := by
  unfold Flow.walkStops
  cases he : walkBodyLog body (b, []) with
  | ok a τ => exact hQ τ.1 τ.2 (h.ok he).2
  | error e τ => exact h.error he

theorem Logs.ok_walkStops {b t : Flow} {body : List NodeId} (h : Logs (b, []) (walkBodyLog body) Q E)
    (ht : walkBody body b = .ok () t) : Q t (b.walkStops body) := by
  obtain ⟨log, hlog⟩ : ∃ log, walkBodyLog body (b, []) = .ok () (t, log) := (erases_walkBodyLog body).ok ht
  unfold Flow.walkStops
  rw [hlog]
  exact (h.ok hlog).2

end Rules

end Flow

/-! ## Where a walk is -/

/-- The label that the node is, if any. -/
def Node.defined? (x : Node) : Option LabelId := if x.op = .label then x.label else none

namespace Program

variable (p : Program)

/-- The number of loops, over a condition or over a range, that a walk is inside of. -/
def loops (path : List Above) : Nat :=
  path.countP fun a => a.inside && ((p.node a.node).op == .forStmt || (p.node a.node).op == .rangeStmt)

theorem loops_cons_outside (n : NodeId) (path : List Above) : p.loops (⟨n, false⟩ :: path) = p.loops path := by
  simp [loops]

theorem loops_cons_inside (n : NodeId) (path : List Above) :
    p.loops (⟨n, true⟩ :: path) = p.loops path + if (p.node n).op.isLoop then 1 else 0 := by
  have hloop (op : Op) : (op == .forStmt || op == .rangeStmt) = op.isLoop := by cases op <;> rfl
  rw [loops, List.countP_cons, Bool.true_and, hloop, loops]

/-- The labels that a walk has visited. -/
def passed (log : List Stop) : List LabelId := log.filterMap fun stop => (p.node stop.node).defined?

theorem passed_cons_some (stop : Stop) {l : LabelId} (h : (p.node stop.node).defined? = some l) (log : List Stop) :
    p.passed (stop :: log) = l :: p.passed log := List.filterMap_cons_some h

theorem passed_cons_none (stop : Stop) (h : (p.node stop.node).defined? = none) (log : List Stop) :
    p.passed (stop :: log) = p.passed log := List.filterMap_cons_none h

/-- The variables that a node declares: a declaration its own, a switch over a type those of its clauses. -/
def declared (x : Node) : List NodeId :=
  if x.op = .decl then x.left.toList else if (p.typeGuard? x).isSome then p.clauseVars x else []

end Program

/-- The nodes of a program, and what a recording adds to them, without the sink. -/
def Program.area (p : Program) (sink : NodeId) : Area := .all sink fun n => n.index < p.nodes.size

namespace Flow

/-- The walk started in the graph `b` with the nodes of `p`, and now the graph is `s`. -/
structure Standing (p : Program) (b : Flow) (path : List Above) (s : Flow) (log : List Stop) : Prop where
  depth : s.depth = b.depth + p.loops path + ((p.passed log).dedup.countP fun l => b.label? l = some true : Nat)
  labels : ∀ l, s.label? l = if l ∈ p.passed log then none else b.label? l
  deep : s.Deep
  declared : ∀ stop ∈ log, ∀ var ∈ p.declared (p.node stop.node), 1 ≤ s.info.depth var

/-- It stood like this at every stop of the log. -/
def Stood (p : Program) (b : Flow) : List Stop → Prop :=
  AtStops fun stop earlier => Standing p b stop.path stop.state earlier

/-- The graph `b` is over the nodes of `p`, and a walk over them may start. -/
structure Ready (p : Program) (b : Flow) : Prop where
  closed : p.Closed
  nodes : p.Extends b.program
  refs : b.Refs (p.area b.sink)
  depth : 1 ≤ b.depth

section Walk

variable {p : Program} {b s t : Flow} {path : List Above} {log : List Stop} {n : NodeId}

theorem Standing.depth_pos (h : Standing p b path s log) (hb : 1 ≤ b.depth) : 1 ≤ s.depth := by
  rw [h.depth]
  omega

/-- A change of the depth when the walk comes to a loop or leaves it. -/
theorem Standing.move (h : Standing p b path s log) {path' : List Above} {amount : Int}
    (hamount : (p.loops path' : Int) = p.loops path + amount) :
    Standing p b path' { s with depth := s.depth + amount } log := by
  refine ⟨?_, h.labels, ⟨h.deep.pending, h.deep.auto⟩, h.declared⟩
  dsimp only
  rw [h.depth, hamount]
  omega

theorem Standing.of_loops (h : Standing p b path s log) {path' : List Above} (hloops : p.loops path' = p.loops path) :
    Standing p b path' s log :=
  ⟨by rw [hloops]; exact h.depth, h.labels, h.deep, h.declared⟩

theorem deepen_eq (op : Op) (amount : Int) (s : Flow) :
    deepen op amount s = .ok () { s with depth := s.depth + if op.isLoop then amount else 0 } := by
  unfold deepen
  split
  · rfl
  · rw [Int.add_zero]
    rfl

/-! ## Nodes of the program -/

section Ready

variable (h : Ready p b) (hs : Changes (p.area b.sink) b s)
include h hs

theorem Ready.extends : p.Extends s.program := h.nodes.trans hs.frame.nodes

/-- The parts of a node are nodes that the walk may come to, also when it changed the graph in between. -/
theorem Ready.child (hn : s.Valid (p.area b.sink) n) (hin : s.program.Within (p.area b.sink).walk n) {m : NodeId}
    (hm : m ∈ (s.program.node n).children) (ht : Changes (p.area b.sink) s t) :
    t.Valid (p.area b.sink) m ∧ t.program.Within (p.area b.sink).walk m := by
  have hvalid := (h.refs.changes hs).node n hn m (Node.mem_refs_children hm)
  have hwithin := hin.child (h.closed.confines (h.extends hs)) hm
  exact ⟨ht.frame.valid hvalid, hwithin.extends ht.frame.nodes⟩

theorem Ready.lt_of_declared {m var : NodeId} (hvar : var ∈ p.declared (p.node m)) :
    var.index < s.program.nodes.size := by
  have href : p.Refers var := by
    unfold Program.declared at hvar
    split at hvar
    · exact Or.inl ⟨m, Node.mem_refs_left (Option.mem_toList.1 hvar)⟩
    · split at hvar
      · obtain ⟨clause, _, hleft⟩ := List.mem_filterMap.1 hvar
        exact Or.inl ⟨clause, Node.mem_refs_left hleft⟩
      · cases hvar
  exact Nat.lt_of_lt_of_le (h.closed var href) (h.extends hs).size_le

variable (hin : s.program.Within (p.area b.sink).walk n)
include hin

/-- The walk is at a node of the program, or at one that a recording hung below a call. -/
theorem Ready.sameBut_or : (p.node n).SameBut (s.program.node n) ∨
    p.node n = default ∧ ((s.program.node n).op = .restArg ∨ (s.program.node n).op = .arrayLit) := by
  by_cases hn : n.index < p.nodes.size
  · exact Or.inl ((h.extends hs).node n hn)
  · refine Or.inr ⟨p.node_of_size_le (Nat.le_of_not_lt hn), ?_⟩
    rcases hin with hlt | hhung | harray
    · exact absurd hlt hn
    · exact Or.inl hhung.1
    · exact Or.inr harray.1

theorem Ready.isLoop_eq : (p.node n).op.isLoop = (s.program.node n).op.isLoop := by
  rcases h.sameBut_or hs hin with hsame | ⟨hdefault, hop | hop⟩
  · rw [hsame.op]
  · rw [hdefault, hop]
    rfl
  · rw [hdefault, hop]
    rfl

theorem Ready.defined?_eq : (p.node n).defined? = (s.program.node n).defined? := by
  rcases h.sameBut_or hs hin with ⟨_, _, he⟩ | ⟨hdefault, hop | hop⟩
  · rw [he]
    rfl
  · unfold Node.defined?
    rw [hdefault, hop]
    rfl
  · unfold Node.defined?
    rw [hdefault, hop]
    rfl

theorem Ready.decl_iff : (p.node n).op = .decl ↔ (s.program.node n).op = .decl := by
  rcases h.sameBut_or hs hin with hsame | ⟨hdefault, hop | hop⟩
  · rw [hsame.op]
  · rw [hdefault, hop]
    decide
  · rw [hdefault, hop]
    decide

theorem Ready.declared_eq : p.declared (p.node n) = s.program.declared (s.program.node n) := by
  rcases h.sameBut_or hs hin with ⟨_, _, he⟩ | ⟨hdefault, hop⟩
  · have hsame {m : NodeId} (hm : p.Refers m) : (p.node m).SameBut (s.program.node m) :=
      (h.extends hs).node m (h.closed m hm)
    have hguard : s.program.typeGuard? (p.node n) = p.typeGuard? (p.node n) := by
      unfold Program.typeGuard?
      refine if_congr Iff.rfl ?_ rfl
      cases htest : (p.node n).test with
      | none => rfl
      | some guard =>
        have href : guard ∈ (p.node n).refs := by simp [Node.refs, Node.children, htest]
        simp only [Option.filter_some, (hsame (Or.inl ⟨n, href⟩)).op]
    have hclauses : s.program.clauseVars (p.node n) = p.clauseVars (p.node n) := by
      refine List.filterMap_congr fun clause hclause => ?_
      exact (hsame (Or.inl ⟨n, Node.mem_refs_list hclause⟩)).left
    rw [he]
    change _ = s.program.declared (p.node n)
    unfold Program.declared
    rw [hguard, hclauses]
  · rw [hdefault]
    unfold Program.declared Program.typeGuard?
    rcases hop with hop | hop <;> simp [hop]

end Ready

/-! ## Visits -/

section Visit

variable (h : Ready p b) (hs : Changes (p.area b.sink) b s) (hstand : Standing p b path s log)
include h hs hstand

/-- Operations that leave the walk where it is. -/
theorem Standing.settles {m : FlowM Unit} (hm : Settles s m) (ht : m s = .ok () t) :
    Standing p b path t log ∧ Deepens s t := by
  obtain ⟨⟨hdepth, hlabels, hdeepens⟩, _⟩ := hm.ok ht
  refine ⟨⟨hdepth.trans hstand.depth, fun l => ?_, hdeepens.deep hstand.deep, fun stop hstop var hvar => ?_⟩, hdeepens⟩
  · rw [← hstand.labels l, label?, hlabels]
    rfl
  · exact hdeepens.below hstand.deep var (h.lt_of_declared hs hvar) (hstand.declared stop hstop var hvar)

/-- A label that loops is passed once: then it is no label that the walk knows of. -/
theorem Standing.passLabel {l : LabelId} {stop : Stop} (hl : (p.node stop.node).defined? = some l)
    (hdeclared : p.declared (p.node stop.node) = []) (ht : passLabel l s = .ok () t) :
    Standing p b path t (stop :: log) := by
  have hpassed := p.passed_cons_some stop hl log
  have hdeepens := deepens_passLabel ht
  refine ⟨?_, fun k => ?_, hdeepens.deep hstand.deep, ?_⟩
  · rw [depth_passLabel ht, hstand.labels, hpassed]
    by_cases hmem : l ∈ p.passed log
    · rw [if_pos hmem, if_neg (by simp), List.dedup_cons_of_mem hmem]
      exact hstand.depth
    · rw [if_neg hmem, List.dedup_cons_of_notMem hmem, List.countP_cons, hstand.depth]
      split
      · rename_i hloops
        simp [hloops, Int.add_assoc]
      · rename_i hloops
        simp [hloops]
  · rw [label?_passLabel ht, hstand.labels, hpassed]
    by_cases hk : k = l
    · rw [hk, if_pos rfl, if_pos List.mem_cons_self]
    · rw [if_neg hk]
      exact if_congr (by rw [List.mem_cons, or_iff_right hk]) rfl rfl
  · rw [List.forall_mem_cons, hdeclared]
    refine ⟨fun _ hvar => absurd hvar List.not_mem_nil, fun stop hstop var hvar => ?_⟩
    exact hdeepens.below hstand.deep var (h.lt_of_declared hs hvar) (hstand.declared stop hstop var hvar)

variable (hin : s.program.Within (p.area b.sink).walk n)
include hin

theorem Standing.visit_label (hop : (s.program.node n).op = .label) {up : Option NodeId}
    (ht : Flow.visit n up s = .ok () t) : Standing p b path t (⟨n, path, s⟩ :: log) ∧ Deepens s t := by
  have hdefined : (p.node n).defined? = (s.program.node n).label := by
    rw [h.defined?_eq hs hin, Node.defined?, if_pos hop]
  have hdeclared : p.declared (p.node n) = [] := by
    rw [h.declared_eq hs hin]
    simp [Program.declared, Program.typeGuard?, hop]
  rw [Flow.visit_label hop] at ht
  cases hl : (s.program.node n).label with
  | none =>
    rw [hl] at ht hdefined
    cases ht
    have hpassed := p.passed_cons_none ⟨n, path, s⟩ hdefined log
    refine ⟨⟨by rw [hpassed]; exact hstand.depth, by rw [hpassed]; exact hstand.labels, hstand.deep, ?_⟩, .refl s⟩
    rw [List.forall_mem_cons, hdeclared]
    exact ⟨fun _ hvar => absurd hvar List.not_mem_nil, hstand.declared⟩
  | some l =>
    rw [hl] at ht hdefined
    exact ⟨hstand.passLabel h hs hdefined hdeclared ht, deepens_passLabel ht⟩

theorem Standing.place (ht : placeClauseVars (s.program.node n) s = .ok () t) :
    (Standing p b path t log ∧ Deepens s t) ∧
      ((p.node n).op ≠ .decl → ∀ var ∈ p.declared (p.node n), 1 ≤ t.info.depth var) := by
  refine ⟨hstand.settles h hs (settles_placeClauseVars (hstand.depth_pos h.depth) _) ht, fun hop var hvar => ?_⟩
  rw [Ne, h.decl_iff hs hin] at hop
  rw [h.declared_eq hs hin, Program.declared, if_neg hop] at hvar
  split at hvar
  · rename_i hguard
    rw [depth_placeClauseVars hguard ht hvar]
    exact hstand.depth_pos h.depth
  · cases hvar

variable (hplaced : (p.node n).op ≠ .decl → ∀ var ∈ p.declared (p.node n), 1 ≤ s.info.depth var)
include hplaced

theorem Standing.visit {up : Option NodeId} (ht : visit n up s = .ok () t) :
    Standing p b path t (⟨n, path, s⟩ :: log) ∧ Deepens s t := by
  by_cases hop : (s.program.node n).op = .label
  · exact hstand.visit_label h hs hin hop ht
  · have hnone : (p.node n).defined? = none := by
      rw [h.defined?_eq hs hin, Node.defined?, if_neg hop]
    obtain ⟨hsame, hdeepens⟩ := hstand.settles h hs (settles_visit (hstand.depth_pos h.depth) hop up) ht
    have hpassed := p.passed_cons_none ⟨n, path, s⟩ hnone log
    refine ⟨⟨?_, ?_, hsame.deep, ?_⟩, hdeepens⟩
    · rw [hpassed]
      exact hsame.depth
    · rw [hpassed]
      exact hsame.labels
    · rw [List.forall_mem_cons]
      refine ⟨fun var hvar => ?_, hsame.declared⟩
      by_cases hdecl : (p.node n).op = .decl
      · rw [h.decl_iff hs hin] at hdecl
        have hleft : (s.program.node n).left = some var := by
          rw [h.declared_eq hs hin, Program.declared, if_pos hdecl] at hvar
          exact Option.mem_toList.1 hvar
        rw [visit_decl hdecl hleft] at ht
        cases ht
        dsimp only
        rw [depth_setDepth, if_pos rfl]
        exact hstand.depth_pos h.depth
      · exact hdeepens.below hstand.deep var (h.lt_of_declared hs hvar) (hplaced hdecl var hvar)

end Visit

/-! ## The walk -/

/-- What the walk has done since the graph `s`, and where it is. -/
def Went (p : Program) (b s : Flow) (path : List Above) (t : Flow) (log : List Stop) : Prop :=
  (Changes (p.area b.sink) s t ∧ Deepens s t) ∧ Standing p b path t log ∧ Stood p b log

/-- Coming to a loop or leaving it. -/
theorem Went.deepen (hwent : Went p b s path t log) (path' : List Above) {op : Op} {amount : Int}
    (hamount : (p.loops path' : Int) = p.loops path + if op.isLoop then amount else 0) :
    Logs (t, log) (unlogged (deepen op amount)) (Went p b s path') (Stood p b) := by
  obtain ⟨⟨hchanges, hdeepens⟩, hstand, hstood⟩ := hwent
  refine logs_unlogged (fun u hu => ?_) hstood
  have hmoves := (records_deepen (A := p.area b.sink) (s := t) op amount).ok hu
  rw [deepen_eq] at hu
  cases hu
  exact ⟨⟨hchanges.trans hmoves.1, hdeepens.trans (t.deepens_position _ _)⟩, hstand.move hamount, hstood⟩

/-- Wherever a walk stops, it stands as it should. -/
theorem logs_walk (h : Ready p b) (fuel : Nat) (hs : Changes (p.area b.sink) b s) (hstand : Standing p b path s log)
    (hstood : Stood p b log) (hn : s.Valid (p.area b.sink) n) (hin : s.program.Within (p.area b.sink).walk n) :
    Logs (s, log) (walkLog fuel path n) (Went p b s path) (Stood p b) := by
  induction fuel generalizing path s log n with
  | zero => exact hstood
  | succ fuel ih =>
    have hparts {t : Flow} {path' : List Above} {log' : List Stop} (hwent : Went p b s path' t log') {xs : List NodeId}
        (hxs : ∀ m ∈ xs, m ∈ (t.program.node n).children) :
        Logs (t, log') (xs.forM (walkLog fuel path')) (Went p b t path') (Stood p b) := by
      obtain ⟨⟨ht, _⟩, hstand', hstood'⟩ := hwent
      refine logs_forM (fun m hm u log₂ hu => ?_) ⟨⟨.refl, .refl t⟩, hstand', hstood'⟩
      obtain ⟨⟨hu, hdeepens⟩, hstand₂, hstood₂⟩ := hu
      obtain ⟨hvalid, hwithin⟩ := h.child (hs.trans ht) (ht.frame.valid hn) (hin.extends ht.frame.nodes) (hxs m hm) hu
      refine (ih ((hs.trans ht).trans hu) hstand₂ hstood₂ hvalid hwithin).mono fun v log₃ hv => ?_
      exact ⟨⟨hu.trans hv.1.1, hdeepens.trans hv.1.2⟩, hv.2⟩
    have hloop := h.isLoop_eq hs hin
    unfold walkLog
    refine logs_getProgram ?_
    -- What initializes the node is outside of the loop.
    have henter : Went p b s (⟨n, false⟩ :: path) s log :=
      ⟨⟨.refl, .refl s⟩, hstand.of_loops (p.loops_cons_outside n path), hstood⟩
    refine (hparts henter fun m hm => mem_children_init hm).bind fun t₁ log₁ h₁ => ?_
    refine (h₁.deepen (⟨n, true⟩ :: path) ?_).bind fun t₂ log₂ h₂ => logs_getProgram ?_
    · rw [p.loops_cons_inside, p.loops_cons_outside, hloop]
      split <;> simp
    have hs₂ := hs.trans h₂.1.1
    have hin₂ := hin.extends h₂.1.1.frame.nodes
    -- The variables of clauses stay where they are put until the switch itself is visited.
    have hplace : Logs (t₂, log₂) (unlogged (placeClauseVars (t₂.program.node n))) (fun t₃ log₃ =>
        Went p b s (⟨n, true⟩ :: path) t₃ log₃ ∧
          ((p.node n).op ≠ .decl → ∀ var ∈ p.declared (p.node n), 1 ≤ t₃.info.depth var)) (Stood p b) := by
      refine logs_unlogged (fun t₃ ht₃ => ?_) h₂.2.2
      have hrecords := records_placeClauseVars (h.refs.changes hs₂) (h₂.1.1.frame.valid hn) hin₂
      obtain ⟨⟨hstand₃, hdeepens₃⟩, hplaced⟩ := h₂.2.1.place h hs₂ hin₂ ht₃
      exact ⟨⟨⟨h₂.1.1.trans (hrecords.ok ht₃).1, h₂.1.2.trans hdeepens₃⟩, hstand₃, h₂.2.2⟩, hplaced⟩
    refine hplace.bind fun t₃ log₃ h₃ => logs_getProgram ?_
    obtain ⟨h₃, hplaced⟩ := h₃
    refine (hparts h₃ fun m hm => mem_children_walked hm).bind fun t₄ log₄ h₄ => ?_
    refine (h₄.deepen path ?_).bind fun t₅ log₅ h₅ => logs_logStop ?_
    · rw [p.loops_cons_inside, hloop]
      split <;> omega
    have hs₅ := (hs.trans h₃.1.1).trans h₅.1.1
    have hin₅ := (hin.extends h₃.1.1.frame.nodes).extends h₅.1.1.frame.nodes
    have hstood₅ : Stood p b (⟨n, path, t₅⟩ :: log₅) := h₅.2.2.cons h₅.2.1
    refine logs_unlogged (fun t₆ ht₆ => ?_) hstood₅
    have hvalid₅ := h₅.1.1.frame.valid (h₃.1.1.frame.valid hn)
    have hrecords := records_visit (h.refs.changes hs₅) hvalid₅ hin₅ (upOf path)
    obtain ⟨hstand₆, hdeepens₆⟩ := h₅.2.1.visit h hs₅ hin₅ (fun hop var hvar =>
      h₅.1.2.below h₃.2.1.deep var (h.lt_of_declared (hs.trans h₃.1.1) hvar) (hplaced hop var hvar)) ht₆
    exact ⟨⟨(h₃.1.1.trans h₅.1.1).trans (hrecords.ok ht₆).1, (h₃.1.2.trans h₅.1.2).trans hdeepens₆⟩, hstand₆, hstood₅⟩

theorem logs_walkBody (h : Ready p b) (hdeep : b.Deep) {body : List NodeId}
    (hbody : ∀ n ∈ body, b.Valid (p.area b.sink) n ∧ n.index < p.nodes.size) :
    Logs (b, []) (walkBodyLog body) (Went p b b []) (Stood p b) := by
  have hstand : Standing p b [] b [] := by
    refine ⟨?_, fun l => ?_, hdeep, fun _ hstop => absurd hstop List.not_mem_nil⟩
    · simp [Program.loops, Program.passed]
    · simp [Program.passed]
  refine logs_getProgram (logs_forM (fun n hn s log hs => ?_) ⟨⟨.refl, .refl b⟩, hstand, atStops_nil _⟩)
  obtain ⟨⟨hs, hdeepens⟩, hstand, hstood⟩ := hs
  refine (logs_walk h _ hs hstand hstood (hs.frame.valid (hbody n hn).1) (Or.inl (hbody n hn).2)).mono fun t log' ht => ?_
  exact ⟨⟨hs.trans ht.1.1, hdeepens.trans ht.1.2⟩, ht.2⟩

theorem went_walkBody (h : Ready p b) (hdeep : b.Deep) {body : List NodeId}
    (hbody : ∀ n ∈ body, b.Valid (p.area b.sink) n ∧ n.index < p.nodes.size) (ht : walkBody body b = .ok () t) :
    Went p b b [] t (b.walkStops body) :=
  (logs_walkBody h hdeep hbody).ok_walkStops ht

end Walk

end Flow

end EscapeAnalysis

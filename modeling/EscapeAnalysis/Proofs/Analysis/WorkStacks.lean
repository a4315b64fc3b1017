import EscapeAnalysis.Proofs.Analysis.Runs
import EscapeAnalysis.Proofs.Recording.LoopDepths
import EscapeAnalysis.WorkStack

/-!
# The scan and the walk on work stacks

The scan for labels and the walk of a body go into the parts of a node and come back to the node. A stack of what is
still to be done takes the place of the recursion: whatever lies below on the stack waits until a node is done. The
recursion stops at a node that contains itself, where a stack would never be worked off; where it does not, the stack is
worked off and leaves the same graph, or the same error.

* `Drains run stack s r` : with fuel enough, the stack is worked off from `s` with the result `r`;
* `Simulates run xs s m Q` : to work off the entries `xs` on top of a stack is to do `m`;
* `Flow.ScanFrame`, `Flow.WalkFrame` : what is on the stacks of the scan and of the walk;
* `Flow.simulates_scanLabels`, `Flow.simulates_walk` : a node of the scan, and one of the walk;
* `Flow.stackBody fuel f` : the recording of a function with two stacks;
* `stackBody_eq_recordBody` : in every analysis it is the recording.
-/

namespace EscapeAnalysis

/-! ## Stacks that are worked off -/

section Stacks

variable {Entry : Type} {run : Entry → FlowM (List Entry)} {x : Entry} {xs ys asked stack : List Entry} {s t : Flow}
  {e : EscapeError} {r : EStateM.Result EscapeError Flow Unit}

def Drains (run : Entry → FlowM (List Entry)) (stack : List Entry) (s : Flow)
    (r : EStateM.Result EscapeError Flow Unit) : Prop :=
  ∃ k, ∀ fuel, k ≤ fuel → drain run fuel stack s = r

theorem drains_nil (s : Flow) : Drains run [] s (.ok () s) :=
  ⟨0, fun fuel _ => by cases fuel <;> rfl⟩

theorem drain_cons (fuel : Nat) :
    drain run (fuel + 1) (x :: stack) s = (run x >>= fun asked => drain run fuel (asked ++ stack)) s := rfl

/-- The entry on top is done, and what it asks for comes before the rest. -/
theorem Drains.cons (h : Drains run (asked ++ stack) t r) (hx : run x s = .ok asked t) :
    Drains run (x :: stack) s r := by
  obtain ⟨k, hk⟩ := h
  refine ⟨k + 1, fun fuel hfuel => ?_⟩
  obtain ⟨fuel, rfl⟩ := Nat.exists_eq_add_of_le' (Nat.le_trans (Nat.le_add_left 1 k) hfuel)
  rw [drain_cons, Flow.bind_of_ok hx]
  exact hk fuel (Nat.le_of_succ_le_succ hfuel)

theorem drains_of_error (hx : run x s = .error e t) (stack : List Entry) : Drains run (x :: stack) s (.error e t) := by
  refine ⟨1, fun fuel hfuel => ?_⟩
  obtain ⟨fuel, rfl⟩ := Nat.exists_eq_add_of_le' hfuel
  rw [drain_cons, Flow.bind_of_error hx]

/-- Whatever is on the stack below the entries, to work them off is to do `m`, unless `m` finds a cycle. -/
structure Simulates (run : Entry → FlowM (List Entry)) (xs : List Entry) (s : Flow) (m : FlowM Unit)
    (Q : Flow → Prop) : Prop where
  ok : ∀ t, m s = .ok () t → Q t ∧ ∀ stack r, Drains run stack t r → Drains run (xs ++ stack) s r
  error : ∀ e t, m s = .error e t → (∀ n, e ≠ .cyclic n) → ∀ stack, Drains run (xs ++ stack) s (.error e t)

variable {m m₀ m' : FlowM Unit} {Q R : Flow → Prop}

theorem Simulates.mono (h : Simulates run xs s m Q) (hQ : ∀ t, Q t → R t) : Simulates run xs s m R :=
  ⟨fun t ht => ⟨hQ t (h.ok t ht).1, (h.ok t ht).2⟩, h.error⟩

theorem Simulates.congr (h : Simulates run xs s m Q) (he : m' s = m s) : Simulates run xs s m' Q :=
  ⟨fun t ht => h.ok t (he.symm.trans ht), fun e t ht => h.error e t (he.symm.trans ht)⟩

theorem simulates_pure (h : Q s) : Simulates run [] s (pure ()) Q := by
  refine ⟨fun t ht => ?_, fun e t ht => ?_⟩ <;> cases ht
  exact ⟨h, fun _ _ hr => hr⟩

theorem Simulates.bind (h : Simulates run xs s m Q) (h' : ∀ t, Q t → Simulates run ys t m' R) :
    Simulates run (xs ++ ys) s (do m; m') R := by
  refine ⟨fun u hu => ?_, fun e u hu hcyclic stack => ?_⟩
  · obtain ⟨⟨⟩, t, ht, hu⟩ := Flow.bind_eq_ok hu
    obtain ⟨hQ, hstack⟩ := h.ok t ht
    obtain ⟨hR, hstack'⟩ := (h' t hQ).ok u hu
    refine ⟨hR, fun stack r hr => ?_⟩
    rw [List.append_assoc]
    exact hstack _ r (hstack' stack r hr)
  · rw [List.append_assoc]
    cases ht : m s with
    | ok _ t =>
      rw [Flow.bind_of_ok ht] at hu
      obtain ⟨hQ, hstack⟩ := h.ok t ht
      exact hstack _ _ ((h' t hQ).error e u hu hcyclic stack)
    | error e' t =>
      rw [Flow.bind_of_error ht] at hu
      cases hu
      exact h.error _ _ ht hcyclic _

theorem simulates_forM {α : Type} {f : α → FlowM Unit} {g : α → Entry} {as : List α}
    (h : ∀ a ∈ as, ∀ t, Q t → Simulates run [g a] t (f a) Q) (hs : Q s) :
    Simulates run (as.map g) s (as.forM f) Q := by
  induction as generalizing s with
  | nil => exact simulates_pure hs
  | cons a as ih =>
    rw [List.forall_mem_cons] at h
    exact (h.1 s hs).bind fun t ht => ih h.2 ht

/-- An entry that leads to `t` and asks for other entries there. -/
theorem Simulates.cons (h : Simulates run asked t m Q) (hx : run x s = .ok asked t) (he : m' s = m t) :
    Simulates run [x] s m' Q := by
  refine ⟨fun u hu => ?_, fun e u hu hcyclic stack => ?_⟩
  · rw [he] at hu
    exact ⟨(h.ok u hu).1, fun stack r hr => ((h.ok u hu).2 stack r hr).cons hx⟩
  · rw [he] at hu
    exact (h.error e u hu hcyclic stack).cons hx

/-- An entry that does `m₀` and then asks for other entries. -/
theorem simulates_ask (asked : Flow → List Entry) (hrun : run x s = (do m₀; return asked (← get)) s)
    (h : ∀ t, m₀ s = .ok () t → Simulates run (asked t) t m Q) : Simulates run [x] s (do m₀; m) Q := by
  cases ht : m₀ s with
  | ok _ t =>
    have hx : run x s = .ok (asked t) t := by
      rw [hrun, Flow.bind_of_ok ht]
      rfl
    exact (h t ht).cons hx (Flow.bind_of_ok ht)
  | error e t =>
    refine ⟨fun u hu => ?_, fun e' u hu _ stack => ?_⟩
    · rw [Flow.bind_of_error ht] at hu
      cases hu
    · rw [Flow.bind_of_error ht] at hu
      cases hu
      exact drains_of_error (hrun.trans (Flow.bind_of_error ht)) stack

/-- An entry that asks for nothing more. -/
theorem simulates_done (hrun : run x s = (do m; return []) s) (h : ∀ t, m s = .ok () t → Q t) :
    Simulates run [x] s m Q := by
  refine Simulates.congr (simulates_ask (fun _ => []) (m := pure ()) hrun fun t ht => simulates_pure (h t ht)) ?_
  rw [bind_pure_unit]

theorem Simulates.drains (h : Simulates run xs s m Q) (hcyclic : ∀ n t, m s ≠ .error (.cyclic n) t) :
    Drains run xs s (m s) := by
  cases hm : m s with
  | ok _ t =>
    have hstack := (h.ok t hm).2 [] _ (drains_nil t)
    rwa [List.append_nil] at hstack
  | error e t =>
    have hstack := h.error e t hm (fun n he => hcyclic n t (he ▸ hm)) []
    rwa [List.append_nil] at hstack

end Stacks

namespace Flow

variable {A : Area} {s t : Flow} {n : NodeId}

/-! ## The scan -/

/-- What the scan for labels has on its stack. -/
inductive ScanFrame where
  | enter (n : NodeId)
  /-- What initializes the node is scanned. -/
  | node (n : NodeId)

def ScanFrame.run : ScanFrame → FlowM (List ScanFrame)
  | .enter n => do
    let x := (← getProgram).node n
    return x.init.map .enter ++ .node n :: x.scanned.map .enter
  | .node n => do
    scanNode n ((← getProgram).node n)
    return []

theorem program_scanNode {x : Node} (h : scanNode n x s = .ok () t) : t.program = s.program := by
  rw [scanNode_eq] at h
  split at h
  · cases h
  · cases h
    rw [meet_eq]

theorem simulates_scanLabels (fuel : Nat) (n : NodeId) (s : Flow) :
    Simulates ScanFrame.run [.enter n] s (scanLabels fuel n) fun t => t.program = s.program := by
  induction fuel generalizing n s with
  | zero =>
    refine ⟨fun t ht => ?_, fun e t ht hcyclic => ?_⟩ <;> cases ht
    exact absurd rfl (hcyclic n)
  | succ fuel ih =>
    have hparts {t : Flow} (ht : t.program = s.program) (xs : List NodeId) :
        Simulates ScanFrame.run (xs.map .enter) t (xs.forM (scanLabels fuel)) fun u => u.program = s.program :=
      simulates_forM (fun m _ u hu => (ih m u).mono fun v hv => hv.trans hu) ht
    refine Simulates.cons ((hparts rfl (s.program.node n).init).bind fun t ht => ?_) rfl (by rw [scanLabels]; rfl)
    refine Simulates.bind (simulates_done (x := .node n) ?_ fun u hu => (program_scanNode hu).trans ht)
      fun u hu => hparts hu _
    rw [← ht]
    rfl

theorem drains_scanBody (body : List NodeId) (h : ∀ n t, scanBody body s ≠ .error (.cyclic n) t) :
    Drains ScanFrame.run (body.map .enter) s (scanBody body s) :=
  (simulates_forM (Q := fun t => t.program = s.program)
    (fun n _ t ht => (simulates_scanLabels _ n t).mono fun _ hu => hu.trans ht) rfl).drains h

/-! ## The walk -/

/-- What the walk of a body has on its stack. -/
inductive WalkFrame where
  | enter (n : NodeId) (up : Option NodeId)
  /-- What initializes the node is walked over. -/
  | descend (n : NodeId)
  /-- All parts of the node are walked over. -/
  | leave (n : NodeId) (up : Option NodeId)

def WalkFrame.run : WalkFrame → FlowM (List WalkFrame)
  | .enter n up => do
    return ((← getProgram).node n).init.map (.enter · (some n)) ++ [.descend n, .leave n up]
  | .descend n => do
    deepen ((← getProgram).node n).op 1
    placeClauseVars ((← getProgram).node n)
    return ((← getProgram).node n).walked.map (.enter · (some n))
  | .leave n up => do
    deepen ((← getProgram).node n).op (-1)
    visit n up
    return []

/-- What the walk does to a node, besides its parts. -/
theorem walk_succ (fuel : Nat) (up : Option NodeId) (n : NodeId) (s : Flow) : walk (fuel + 1) up n s = (do
    (s.program.node n).init.forM (walk fuel (some n))
    (do
      (do deepen (s.program.node n).op 1; placeClauseVars ((← getProgram).node n))
      (do ((← getProgram).node n).walked.forM (walk fuel (some n))))
    (do deepen (s.program.node n).op (-1); visit n up)) s := by
  rw [walk]
  simp only [bind_assoc]
  rfl

/-- A node stays what it is while its parts are walked over, so the stack need not remember it. -/
theorem simulates_walk (hclosed : A.closed) (fuel : Nat) (up : Option NodeId) (hs : s.Refs A)
    (hW : s.program.Confines A.walk) (hn : s.Valid A n) (hin : s.program.Within A.walk n) :
    Simulates WalkFrame.run [.enter n up] s (walk fuel up n) (Changes A s) := by
  induction fuel generalizing s up n with
  | zero =>
    refine ⟨fun t ht => ?_, fun e t ht hcyclic => ?_⟩ <;> cases ht
    exact absurd rfl (hcyclic n)
  | succ fuel ih =>
    have hop {t : Flow} (ht : Changes A s t) : (t.program.node n).op = (s.program.node n).op :=
      (ht.frame.node n (hn.2 hclosed)).op
    have hparts {t : Flow} (ht : Changes A s t) {xs : List NodeId} (hxs : ∀ m ∈ xs, m ∈ (t.program.node n).children) :
        Simulates WalkFrame.run (xs.map (.enter · (some n))) t (xs.forM (walk fuel (some n))) (Changes A s) := by
      have hst := hs.changes ht
      have hWt := hW.extends ht.frame.nodes
      refine (simulates_forM (Q := Changes A t) (fun m hm u hu => ?_) .refl).mono fun _ hu => ht.trans hu
      refine (ih _ (hst.changes hu) (hWt.extends hu.frame.nodes)
        (hu.frame.valid (hst.node n (ht.frame.valid hn) m (Node.mem_refs_children (hxs m hm)))) ?_).mono
        fun _ hv => hu.trans hv
      exact ((hin.extends ht.frame.nodes).child hWt (hxs m hm)).extends hu.frame.nodes
    have hplace {t : Flow} (ht : Changes A s t) : Records A t (do
        deepen (s.program.node n).op 1
        placeClauseVars ((← getProgram).node n)) fun _ _ => True := by
      refine (records_deepen _ 1).bind fun _ u hu _ => triple_getProgram ?_
      exact records_placeClauseVars (hs.changes (ht.trans hu)) ((ht.trans hu).frame.valid hn)
        (hin.extends (ht.trans hu).frame.nodes)
    have hvisit {t : Flow} (ht : Changes A s t) :
        Records A t (do deepen (s.program.node n).op (-1); visit n up) fun _ _ => True := by
      refine (records_deepen _ (-1)).bind fun _ u hu _ => ?_
      exact records_visit (hs.changes (ht.trans hu)) ((ht.trans hu).frame.valid hn)
        (hin.extends (ht.trans hu).frame.nodes) up
    refine Simulates.cons ((hparts .refl fun m hm => mem_children_init hm).bind fun t ht => ?_) rfl
      (walk_succ fuel up n s)
    refine Simulates.bind (Q := Changes A s) (simulates_ask (x := WalkFrame.descend n)
      (fun u => (u.program.node n).walked.map (WalkFrame.enter · (some n))) ?_ fun u hu => ?_) fun u hu => ?_
    · rw [← hop ht, bind_assoc]
      rfl
    · exact (hparts (ht.trans ((hplace ht).ok hu).1) fun m hm => mem_children_walked hm).congr rfl
    · refine simulates_done ?_ fun v hv => hu.trans ((hvisit hu).ok hv).1
      rw [← hop hu, bind_assoc]
      rfl

theorem drains_walkBody (hclosed : A.closed) (hs : s.Refs A) (hW : s.program.Confines A.walk) {body : List NodeId}
    (hbody : ∀ n ∈ body, s.Valid A n ∧ A.walk n) (h : ∀ n t, walkBody body s ≠ .error (.cyclic n) t) :
    Drains WalkFrame.run (body.map (.enter · none)) s (walkBody body s) := by
  refine (simulates_forM (Q := Changes A s) (fun n hn t ht => ?_) .refl).drains h
  exact (simulates_walk hclosed _ none (hs.changes ht) (hW.extends ht.frame.nodes) (ht.frame.valid (hbody n hn).1)
    (Or.inl (hbody n hn).2)).mono fun _ hu => ht.trans hu

/-! ## Functions -/

/-- Records the flows of a function with a stack for the scan and one for the walk. -/
def stackBody (fuel : Nat) (f : FuncId) : FlowM Unit := do
  let body := ((← getProgram).func f).body.getD []
  declareNames f
  drain ScanFrame.run fuel (body.map .enter)
  drain WalkFrame.run fuel (body.map (.enter · none))

/-- With fuel enough for both stacks, the recording of a function is the same. -/
theorem stackBody_eq (hclosed : A.closed) (hs : s.Refs A) (hW : s.program.Confines A.walk) {f : FuncId} (hf : A.func f)
    (hbody : ∀ n ∈ (s.program.func f).body.getD [], A.walk n) (h : ∀ n t, recordBody f s ≠ .error (.cyclic n) t) :
    ∃ k, ∀ fuel, k ≤ fuel → stackBody fuel f s = recordBody f s := by
  have hstack (fuel : Nat) : stackBody fuel f s = (do
      declareNames f
      drain ScanFrame.run fuel (((s.program.func f).body.getD []).map .enter)
      drain WalkFrame.run fuel (((s.program.func f).body.getD []).map (.enter · none))) s := rfl
  have hbind : recordBody f s = (do
      declareNames f
      scanBody ((s.program.func f).body.getD [])
      walkBody ((s.program.func f).body.getD [])) s := by
    rw [← bind_assoc]
    rfl
  rw [hbind] at h ⊢
  cases ht : declareNames f s with
  | error e t => exact ⟨0, fun fuel _ => by rw [hstack, bind_of_error ht, bind_of_error ht]⟩
  | ok _ t =>
    rw [bind_of_ok ht] at h ⊢
    have hscan : Drains ScanFrame.run _ t (scanBody ((s.program.func f).body.getD []) t) :=
      drains_scanBody _ fun n u hu => h n u (bind_of_error hu)
    obtain ⟨k, hk⟩ := hscan
    cases hb : scanBody ((s.program.func f).body.getD []) t with
    | error e u =>
      rw [hb] at hk
      exact ⟨k, fun fuel hfuel => by rw [hstack, bind_of_ok ht, bind_of_error (hk fuel hfuel), bind_of_error hb]⟩
    | ok _ b =>
      rw [bind_of_ok hb] at h ⊢
      rw [hb] at hk
      have henter : enterBody f s = .ok () b := (bind_of_ok (m := declareNames f) ht).trans hb
      have hchanges := ((records_enterBody hs hf).ok henter).1
      obtain ⟨k', hk'⟩ := drains_walkBody hclosed (hs.changes hchanges) (hW.extends hchanges.frame.nodes)
        (fun n hn => ⟨hchanges.frame.valid (hs.func f hf n (Func.mem_refs_body hn)), hbody n hn⟩) h
      refine ⟨max k k', fun fuel hfuel => ?_⟩
      rw [hstack, bind_of_ok ht, bind_of_ok (hk fuel (Nat.le_trans (Nat.le_max_left k k') hfuel))]
      exact hk' fuel (Nat.le_trans (Nat.le_max_right k k') hfuel)

end Flow

/-- Wherever the recording of a group has come to a function, the flows of the function can be recorded with two stacks,
unless a node contains itself. -/
theorem stackBody_eq_recordBody {run : Run} (hrun : run.program.Closed) {group : Group} {done : List FuncId} {t : Flow}
    (ht : done.forM Flow.recordFunc (Flow.start run group) = .ok () t) (f : FuncId)
    (h : ∀ n u, Flow.recordBody f (t.startFunc f) ≠ .error (.cyclic n) u) :
    ∃ k, ∀ fuel, k ≤ fuel → Flow.stackBody fuel f (t.startFunc f) = Flow.recordBody f (t.startFunc f) := by
  have hstarts := Flow.starts_funcs (Flow.refs_start_all run group hrun fun _ => True) (Program.confines_true _)
    (fun _ _ _ _ => trivial) ht
  exact Flow.stackBody_eq trivial (hstarts.refs.startFunc trivial) (Program.confines_true _) trivial
    (fun _ _ => trivial) h

end EscapeAnalysis

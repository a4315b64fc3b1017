import EscapeAnalysis.Proofs.Groups.Callees
import EscapeAnalysis.Proofs.Recording.Changes
import EscapeAnalysis.Proofs.Recording.ToldFlows

/-!
# What applying a note does to the graph

A caller that applies the note on a parameter records the flows that the note tells of and no others.

* `Flow.Completes s m Q` : the operation `m` does not stop, adds nodes only, and `Q` holds of what it leaves;
* `Flow.Performs src flows s t` : recording the flows of `src` leads from `s` to `t`;
* `Flow.applyNote_performs` : what applying a note does to the graph, and when it stops.
-/

namespace EscapeAnalysis

open Relation (ReflTransGen TransGen)

/-! ## Operations that do not stop -/

namespace Program

/-- `q` has the nodes of `p` as they are, and may have more. -/
structure Prolongs (p q : Program) : Prop where
  size_le : p.nodes.size ≤ q.nodes.size
  node : ∀ n, n.index < p.nodes.size → q.node n = p.node n

theorem Prolongs.refl (p : Program) : p.Prolongs p := ⟨Nat.le_refl _, fun _ _ => rfl⟩

theorem Prolongs.trans {p q r : Program} (h₁ : p.Prolongs q) (h₂ : q.Prolongs r) : p.Prolongs r := by
  refine ⟨Nat.le_trans h₁.size_le h₂.size_le, fun n hn => ?_⟩
  rw [h₂.node n (Nat.lt_of_lt_of_le hn h₁.size_le), h₁.node n hn]

theorem prolongs_addNode (p : Program) (x : Node) : p.Prolongs (p.addNode x).2 :=
  ⟨by simp [addNode], fun _ hn => node_addNode_of_lt p x hn⟩

/-- The node stands for what lies behind so many dereferences of `n`. -/
inductive Derefs (p : Program) (n : NodeId) : Nat → NodeId → Prop where
  | zero : Derefs p n 0 n
  | succ {k : Nat} {a m : NodeId} (h : Derefs p n k a) (hop : (p.node m).op = .deref)
    (hleft : (p.node m).left = some a) : Derefs p n (k + 1) m

theorem Derefs.head {p : Program} {n a m : NodeId} {k : Nat} (hop : (p.node a).op = .deref)
    (hleft : (p.node a).left = some n) (h : p.Derefs a k m) : p.Derefs n (k + 1) m := by
  induction h with
  | zero => exact .succ .zero hop hleft
  | succ _ hop' hleft' ih => exact .succ ih hop' hleft'

end Program

namespace Flow

def Prolongs (s t : Flow) : Prop := s.program.Prolongs t.program

instance : Std.Refl Prolongs := ⟨fun s => .refl s.program⟩

instance : Conduct Prolongs (noFault (φ := EscapeError × Flow)) where
  trans h₁ h₂ := Program.Prolongs.trans h₁ h₂
  stop _ h := h.elim
  rest {_ t} _ := .refl t.program

/-- The operation does not stop at `s` and adds nodes at most, and `Q` holds of its result and the graph it leaves. -/
abbrev Completes {α : Type} (s : Flow) (m : FlowM α) (Q : α → Flow → Prop) : Prop := Triple Prolongs noFault s m Q

theorem completes_addNode (s : Flow) (x : Node) : Completes s (addNode x) fun n t => t.program.node n = x :=
  ⟨s.program.prolongs_addNode x, s.program.node_addNode_self x⟩

theorem completes_setDepth (s : Flow) (n : NodeId) (d : Int) :
    Completes s (setDepth n d) fun _ t => t.program = s.program :=
  ⟨.refl s.program, rfl⟩

theorem completes_ptrTo (s : Flow) (ty : Option Ty) : Completes s (ptrTo ty) fun _ _ => True := by
  cases ty with
  | none => exact triple_pure trivial
  | some ty => exact ⟨⟨Nat.le_refl _, fun _ _ => rfl⟩, trivial⟩

variable {s : Flow}

theorem completes_link (s : Flow) (dst src : NodeId) : Completes s (link dst src) fun _ _ => True := by
  refine triple_modify ?_
  split
  · exact .refl s.program
  · exact .refl s.program

theorem completes_closureAddress (s : Flow) (src : NodeId) (x : Node) :
    Completes s (closureAddress src x) fun _ _ => True := by
  unfold closureAddress
  refine (completes_ptrTo s x.ty).bind fun ty t _ _ => ?_
  refine (completes_addNode t _).bind fun addr u _ _ => ?_
  exact triple_depthOf ((completes_setDepth u addr _).bind fun _ v _ _ => triple_pure trivial)

/-- The value of an expression that does not contain itself is followed to the end. -/
theorem completes_carry {p : Program} (hp : p.Closed) (dst : NodeId) (fuel : Nat) {src : NodeId}
    (hsrc : src.index < p.nodes.size) (hnests : p.Nests fuel src) (hs : p.Prolongs s.program) :
    Completes s (carry dst fuel src) fun _ _ => True := by
  induction fuel generalizing s src with
  | zero => exact hnests.elim
  | succ fuel ih =>
    rw [carry_succ]
    refine triple_getProgram ?_
    dsimp only
    split
    · exact completes_link s dst src
    split
    · exact (completes_closureAddress s src _).bind fun addr t _ _ => completes_link t dst addr
    split
    · exact triple_resultsOf (triple_forM _ fun m _ t _ => completes_link t dst m)
    · refine triple_forM _ fun m hm t ht => ?_
      have hpart := Program.mem_children_of_mem_givers hm
      rw [hs.node src hsrc] at hpart
      exact ih (hp.part hpart) (hnests m hpart) (hs.trans ht)

/-! ## Performing flows -/

/-- The value can be followed to its end: it is a dereference, or an expression of `p` that does not contain itself. -/
def Ends (p : Program) (s : Flow) (n : NodeId) : Prop :=
  (s.program.node n).op = .deref ∨ n.index < p.nodes.size ∧ p.Nests p.nodes.size n

/-- Recording the flows of `src`, one after the other, leads from one graph to another. Each of them is recorded for a
node that stands for what lies behind the dereferences. -/
inductive Performs (src : NodeId) : List Told → Flow → Flow → Prop where
  | nil (s : Flow) : Performs src [] s s
  | cons {x : Told} {xs : List Told} {s t u v : Flow} {n : NodeId} (hn : derefTimes x.derefs src s = .ok n t)
    (hderefs : t.program.Derefs src x.derefs n) (hstore : storeIn n x.result t = .ok () u) (hrest : Performs src xs u v) :
    Performs src (x :: xs) s v

section Performing

variable {p : Program} (hp : p.Closed) (hs : p.Prolongs s.program)

theorem completes_derefNode (s : Flow) (n : NodeId) :
    Completes s (derefNode n) fun m t => (t.program.node m).op = .deref ∧ (t.program.node m).left = some n := by
  unfold derefNode
  refine triple_getProgram ((completes_addNode s _).bind fun m t _ hm => ?_)
  refine triple_depthOf ((completes_setDepth t m _).bind fun _ u _ hu => triple_pure ?_)
  rw [hu, hm]
  exact ⟨rfl, rfl⟩

theorem completes_derefTimes (s : Flow) (k : Nat) (n : NodeId) :
    Completes s (derefTimes k n) fun m t => t.program.Derefs n k m ∧ (m = n ∨ (t.program.node m).op = .deref) := by
  induction k generalizing s n with
  | zero => exact triple_pure ⟨.zero, Or.inl rfl⟩
  | succ k ih =>
    refine (completes_derefNode s n).bind fun a t _ ha => ?_
    refine (ih t a).mono fun m u hu hm => ?_
    have hnode := hu.node a (t.program.lt_size_of_op_ne (by simp [ha.1]))
    refine ⟨.head (by rw [hnode, ha.1]) (by rw [hnode, ha.2]) hm.1, Or.inr ?_⟩
    rcases hm.2 with rfl | hop
    · rw [hnode, ha.1]
    · exact hop

include hp hs

theorem completes_carryAll (dst : NodeId) {n : NodeId} (hn : Ends p s n) :
    Completes s (carryAll dst n) fun _ _ => True := by
  refine triple_getProgram ?_
  rcases hn with hop | ⟨hlt, hnests⟩
  · rw [carry]
    refine triple_getProgram ?_
    dsimp only
    rw [hop]
    exact completes_link s dst n
  · have hle := hs.size_le
    exact completes_carry hp dst _ hlt (hnests.mono (by omega)) hs

/-- Names take every value. -/
theorem completes_storeIn {result : Option NodeId} (hresult : ∀ out, result = some out → (s.program.node out).op = .name)
    {n : NodeId} (hn : Ends p s n) : Completes s (storeIn n result) fun _ _ => True := by
  cases result with
  | none => exact triple_get (completes_carryAll hp hs _ hn)
  | some out =>
    have hplace : s.program.place (s.program.nodes.size + 1) out = .ok .nowhere ∨
        s.program.place (s.program.nodes.size + 1) out = .ok (.tracked out) ∨
          s.program.place (s.program.nodes.size + 1) out = .ok (.lost none) := by
      rw [Program.place, hresult out rfl]
      split
      · exact Or.inl rfl
      · dsimp only
        split
        · exact Or.inr (Or.inr rfl)
        · exact Or.inr (Or.inl rfl)
    show Completes s (assign out n) _
    unfold assign
    refine triple_getProgram ?_
    rcases hplace with h | h | h
    · rw [h]
      exact triple_pure trivial
    · rw [h]
      exact completes_carryAll hp hs out hn
    · rw [h]
      exact triple_get (completes_carryAll hp hs _ hn)

/-- Flows to names can be recorded. -/
theorem exists_performs {src : NodeId} (hsrc : src.index < p.nodes.size) (hnests : p.Nests p.nodes.size src)
    (xs : List Told) (hxs : ∀ x ∈ xs, ∀ out, x.result = some out → (p.node out).op = .name) :
    ∃ t, xs.forM (perform src) s = .ok () t ∧ Performs src xs s t := by
  induction xs generalizing s with
  | nil => exact ⟨s, rfl, .nil s⟩
  | cons x xs ih =>
    obtain ⟨n, t, hn, ht, hderefs, hlast⟩ := (completes_derefTimes s x.derefs src).exists_ok
    have hends : Ends p t n := by
      rcases hlast with rfl | hop
      · exact Or.inr ⟨hsrc, hnests⟩
      · exact Or.inl hop
    have hout : ∀ out, x.result = some out → (t.program.node out).op = .name := by
      intro out hx
      have hop := hxs x List.mem_cons_self out hx
      rw [(hs.trans ht).node out (p.lt_size_of_op_eq_name hop), hop]
    obtain ⟨_, u, hstore, hu, _⟩ := (completes_storeIn hp (hs.trans ht) hout hends).exists_ok
    obtain ⟨v, hrest, hperforms⟩ := ih ((hs.trans ht).trans hu) fun y hy => hxs y (List.mem_cons_of_mem _ hy)
    refine ⟨v, ?_, .cons hn hderefs hstore hperforms⟩
    show EStateM.bind (EStateM.bind (derefTimes x.derefs src) fun n => storeIn n x.result)
      (fun _ => xs.forM (perform src)) s = _
    simp only [EStateM.bind, hn, hstore]
    exact hrest

end Performing

/-- Let `src` be an expression that does not contain itself, and let the results of a call be names. A caller that
applies a note to `src` records the flows that the note tells of, in their order, and nothing else. Then it stops if the
note tells of a result that is not there, and else goes on with the word of the note. -/
theorem applyNote_performs {s : Flow} (hp : s.program.Closed) {src : NodeId} (hsrc : src.index < s.program.nodes.size)
    (hnests : s.program.Nests s.program.nodes.size src) {outs : List NodeId}
    (houts : ∀ out ∈ outs, (s.program.node out).op = .name) (note : Option String) :
    ∃ t, Performs src ((Word.ofNote note).told outs) s t ∧
      applyNote note outs src s =
        if (Word.ofNote note).cls ≠ .unknown ∧ ¬ (Word.ofNote note).TellsFirst outs.length then
          .error (.corruptNote (note.getD "")) t
        else .ok (Word.ofNote note) t := by
  have hresults : ∀ x ∈ (Word.ofNote note).told outs, ∀ out, x.result = some out → (s.program.node out).op = .name :=
    fun x hx out hout => houts out (Word.mem_of_mem_told hx hout)
  obtain ⟨t, ht, hperforms⟩ := exists_performs hp (.refl _) hsrc hnests _ hresults
  refine ⟨t, hperforms, ?_⟩
  rw [applyNote_eq]
  show EStateM.bind (((Word.ofNote note).told outs).forM (perform src)) _ s = _
  simp only [EStateM.bind, ht]
  split
  · rfl
  · rfl

/-- The graph of a call that passes `a` and has two results, before it is recorded. -/
def passGraph : Flow where
  program :=
    { nodes := #[{ op := .name, cls := .global }, { op := .name, cls := .param }, { op := .name, cls := .auto },
        { op := .name, cls := .auto }] }
  sink := ⟨0⟩
  recursive := false

theorem closed_passGraph : passGraph.program.Closed := by
  have hnodes : ∀ i < 4, (passGraph.program.node ⟨i⟩).refs = [] := by decide
  rintro m (⟨n, hm⟩ | ⟨f, hm⟩)
  · by_cases hn : n.index < 4
    · rw [hnodes n.index hn] at hm
      cases hm
    · rw [passGraph.program.node_of_size_le (Nat.le_of_not_lt hn)] at hm
      cases hm
  · cases hm

/-- What `a` points to is lost, `a` itself flows to the first result and `**a` to the second one. A call with one result
does not go with this note. -/
theorem applyNote_passGraph :
    (∃ t, Performs ⟨1⟩ [⟨none, 1⟩, ⟨some ⟨2⟩, 0⟩, ⟨some ⟨3⟩, 2⟩] passGraph t ∧
      applyNote (some "esc:0x19a") [⟨2⟩, ⟨3⟩] ⟨1⟩ passGraph = .ok (Word.ofNat 0x19a) t) ∧
    ∃ t, Performs ⟨1⟩ [⟨none, 1⟩, ⟨some ⟨2⟩, 0⟩] passGraph t ∧
      applyNote (some "esc:0x19a") [⟨2⟩] ⟨1⟩ passGraph = .error (.corruptNote "esc:0x19a") t := by
  have hnests : passGraph.program.Nests passGraph.program.nodes.size ⟨1⟩ := fun m hm => by cases hm
  have htwo : ∀ out ∈ ([⟨2⟩, ⟨3⟩] : List NodeId), (passGraph.program.node out).op = .name := by decide
  have hone : ∀ out ∈ ([⟨2⟩] : List NodeId), (passGraph.program.node out).op = .name := by decide
  exact ⟨applyNote_performs closed_passGraph (by decide) hnests htwo (some "esc:0x19a"),
    applyNote_performs closed_passGraph (by decide) hnests hone (some "esc:0x19a")⟩

end Flow

end EscapeAnalysis

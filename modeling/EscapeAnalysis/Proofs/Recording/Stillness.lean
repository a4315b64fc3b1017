import EscapeAnalysis.Proofs.Recording.Flows
import EscapeAnalysis.Proofs.Recording.Statements

/-!
# What leaves the walk where it is

Assignments and calls change neither the loop depth nor the labels, and they give depths to new nodes only. The names
that they make, and what they mark as an allocation, are at the depth of the walk.

* `Flow.Still s t` : the walk is where it was, and what was there has its depth;
* `Flow.Stays s m` : the operation comes to a graph where the walk is still where it was, unless it stops;
* `Flow.stays_assign`, `Flow.stays_call` : assignments and calls.
-/

namespace EscapeAnalysis.Flow

structure Still (s t : Flow) : Prop where
  depth : t.depth = s.depth
  labels : t.labels = s.labels
  size_le : s.program.nodes.size ≤ t.program.nodes.size
  node : ∀ n : NodeId, n.index < s.program.nodes.size → (s.program.node n).SameBut (t.program.node n)
  old : ∀ n : NodeId, n.index < s.program.nodes.size → t.info.depth n = s.info.depth n
  name : ∀ n : NodeId, s.program.nodes.size ≤ n.index → (t.program.node n).op = .name → t.info.depth n = s.depth
  pending : ∀ x ∈ t.pending, x ∈ s.pending ∨ s.program.nodes.size ≤ x.1.index ∧ x.1.index < t.program.nodes.size ∧
    (t.program.node x.1).op ≠ .name ∧ t.info.depth x.1 = s.depth

section Still

variable {s t u : Flow}

theorem Still.trans (h₁ : Still s t) (h₂ : Still t u) : Still s u := by
  refine ⟨h₂.depth.trans h₁.depth, h₂.labels.trans h₁.labels, Nat.le_trans h₁.size_le h₂.size_le, fun n hn => ?_,
    fun n hn => ?_, fun n hn hop => ?_, fun x hx => ?_⟩
  · exact (h₁.node n hn).trans (h₂.node n (Nat.lt_of_lt_of_le hn h₁.size_le))
  · rw [h₂.old n (Nat.lt_of_lt_of_le hn h₁.size_le), h₁.old n hn]
  · by_cases ht : n.index < t.program.nodes.size
    · rw [(h₂.node n ht).op] at hop
      rw [h₂.old n ht, h₁.name n hn hop]
    · rw [h₂.name n (Nat.le_of_not_lt ht) hop, h₁.depth]
  · rcases h₂.pending x hx with hx | ⟨hle, hlt, hop, hdepth⟩
    · refine (h₁.pending x hx).imp_right fun ⟨hle, hlt, hop, hdepth⟩ => ?_
      rw [(h₂.node x.1 hlt).op, h₂.old x.1 hlt]
      exact ⟨hle, Nat.lt_of_lt_of_le hlt h₂.size_le, hop, hdepth⟩
    · exact Or.inr ⟨Nat.le_trans h₁.size_le hle, hlt, hop, by rw [hdepth, h₁.depth]⟩

/-- A change that makes no node and gives no depth. -/
theorem still_of_size_eq (hdepth : t.depth = s.depth) (hlabels : t.labels = s.labels)
    (hsize : t.program.nodes.size = s.program.nodes.size)
    (hnode : ∀ n, (s.program.node n).SameBut (t.program.node n)) (hdepths : t.info.depths = s.info.depths)
    (hpending : t.pending = s.pending) : Still s t := by
  refine ⟨hdepth, hlabels, Nat.le_of_eq hsize.symm, fun n _ => hnode n, fun n _ => ?_, fun n hn hname => ?_,
    fun x hx => Or.inl (hpending ▸ hx)⟩
  · unfold Info.depth
    rw [hdepths]
  · rw [t.program.node_of_size_le (hsize ▸ hn)] at hname
    cases hname

/-- A change that touches neither nodes nor depths. -/
theorem still_of_nodes_eq (hdepth : t.depth = s.depth) (hlabels : t.labels = s.labels)
    (hnodes : t.program.nodes = s.program.nodes) (hdepths : t.info.depths = s.info.depths)
    (hpending : t.pending = s.pending) : Still s t := by
  refine still_of_size_eq hdepth hlabels (by rw [hnodes]) (fun n => ?_) hdepths hpending
  unfold Program.node
  rw [hnodes]
  exact .refl _

theorem Still.refl (s : Flow) : Still s s := still_of_nodes_eq rfl rfl rfl rfl rfl

/-- A node that is made and put somewhere. -/
theorem still_addNode (s : Flow) (x : Node) {d : Int} (hx : x.op = .name → d = s.depth) :
    Still s { s with
      program := (s.program.addNode x).2
      info := s.info.setDepth ⟨s.program.nodes.size⟩ d } := by
  refine ⟨rfl, rfl, (s.program.extends_addNode x).size_le, fun n hn => ?_, fun n hn => ?_, fun n hn hop => ?_,
    fun _ h => Or.inl h⟩
  · exact (s.program.extends_addNode x).node n hn
  · exact Table.get_set_of_ne _ _ (Nat.ne_of_lt hn)
  · dsimp only at hop
    rw [Program.node_addNode] at hop
    split at hop
    · rename_i he
      obtain rfl : n = ⟨s.program.nodes.size⟩ := NodeId.ext he
      exact (Table.get_set_self _ _ _).trans (hx hop)
    · rw [s.program.node_of_size_le hn] at hop
      cases hop

end Still

/-! ## Rules -/

instance : Std.Refl Still := ⟨.refl⟩

instance : Conduct Still (anyFault (φ := EscapeError × Flow)) where
  trans := .trans
  stop _ _ := trivial
  rest {_ t} _ := .refl t

abbrev Stays {α : Type} (s : Flow) (m : FlowM α) : Prop := Triple Still anyFault s m fun _ _ => True

/-! ## Assignments -/

variable {s : Flow}

theorem stays_place {α : Type} {x : Node} {d : Int} (hx : x.op = .name → d = s.depth) {f : NodeId → FlowM α}
    (h : ∀ t, Still s t → Stays t (f ⟨s.program.nodes.size⟩)) :
    Stays s (do let n ← addNode x; setDepth n d; f n) :=
  (h _ (s.still_addNode x hx)).after (s.still_addNode x hx) rfl

theorem stays_withTypes {α : Type} (f : TypeStore → α × TypeStore) : Stays s (withTypes f) :=
  ⟨still_of_nodes_eq rfl rfl rfl rfl rfl, trivial⟩

theorem stays_ptrTo (ty : Option Ty) : Stays s (ptrTo ty) := by
  cases ty with
  | none => exact triple_pure trivial
  | some ty => exact (stays_withTypes _).map fun _ _ h => h

theorem stays_link (dst src : NodeId) : Stays s (link dst src) := by
  refine triple_modify ?_
  split
  · exact .refl s
  · exact still_of_nodes_eq rfl rfl rfl rfl rfl

theorem stays_closureAddress (src : NodeId) (x : Node) : Stays s (closureAddress src x) := by
  refine (stays_ptrTo x.ty).bind fun ty t _ _ => ?_
  exact triple_placeAt (stays_place (by simp) fun _ _ => triple_pure trivial)

theorem stays_carry (dst : NodeId) (fuel : Nat) (src : NodeId) : Stays s (carry dst fuel src) := by
  induction fuel generalizing s src with
  | zero => exact triple_throw trivial
  | succ fuel ih =>
    rw [carry_succ]
    refine triple_getProgram ?_
    dsimp only
    split
    · exact stays_link dst src
    split
    · exact (stays_closureAddress src _).bind fun addr _ _ _ => stays_link dst addr
    split
    · exact triple_resultsOf (triple_forM _ fun m _ _ _ => stays_link dst m)
    · exact triple_forM _ fun m _ _ _ => ih m

theorem stays_lose (src : NodeId) : Stays s (lose src) := triple_get (triple_getProgram (stays_carry _ _ src))

theorem stays_assign (dst src : NodeId) : Stays s (assign dst src) := by
  unfold assign
  refine triple_getProgram ?_
  split
  · exact triple_throw trivial
  · exact triple_pure trivial
  · exact triple_getProgram (stays_carry _ _ src)
  · exact (triple_optionForM _ fun key _ => stays_lose key).bind fun _ _ _ _ => stays_lose src

theorem stays_derefNode (n : NodeId) : Stays s (derefNode n) :=
  triple_getProgram (triple_placeAt (stays_place (by simp) fun _ _ => triple_pure trivial))

/-! ## Calls -/

theorem stays_callArgs (x : Node) : Stays s (callArgs x) := by
  unfold callArgs
  split
  · exact triple_resultsOf (triple_getProgram (triple_pure trivial))
  · exact triple_pure trivial

/-- The node is made and hung below the call, as the slice of its `...` arguments. -/
def hang (s : Flow) (call : NodeId) (x : Node) : Flow :=
  { s with
    program := (s.program.addNode x).2.modifyNode call fun y => { y with right := some ⟨s.program.nodes.size⟩ }
    info := (s.info.setWord ⟨s.program.nodes.size⟩ (.plain .none)).setDepth ⟨s.program.nodes.size⟩ s.depth
    pending := s.pending.push (⟨s.program.nodes.size⟩, s.curfn) }

theorem still_hang (s : Flow) (x : Node) (hx : x.op ≠ .name) (call : NodeId) : Still s (s.hang call x) := by
  have hsame (n : NodeId) : ((s.program.addNode x).2.node n).SameBut ((s.hang call x).program.node n) :=
    Program.rel_modifyNode Node.SameBut.refl n ⟨_, _, rfl⟩
  have hsize : (s.hang call x).program.nodes.size = s.program.nodes.size + 1 := by
    unfold hang
    rw [Program.size_modifyNode]
    simp [Program.addNode]
  refine ⟨rfl, rfl, ?_, fun n hn => ?_, fun n hn => ?_, fun n hn hname => ?_, fun y hy => ?_⟩
  · omega
  · exact ((s.program.extends_addNode x).node n hn).trans (hsame n)
  · exact Table.get_set_of_ne _ _ (Nat.ne_of_lt hn)
  · rw [(hsame n).op, Program.node_addNode] at hname
    split at hname
    · exact absurd hname hx
    · rw [s.program.node_of_size_le hn] at hname
      cases hname
  · rcases Array.mem_push.1 hy with hy | rfl
    · exact Or.inl hy
    · refine Or.inr ⟨Nat.le_refl _, ?_, ?_, Table.get_set_self _ _ _⟩
      · dsimp only
        omega
      · rw [(hsame _).op, Program.node_addNode, if_pos rfl]
        exact hx

theorem stays_restArg (call : NodeId) (sliceTy : Option Ty) (args : List NodeId) : Stays s (restArg call sliceTy args) := by
  unfold restArg
  refine triple_getProgram ?_
  extract_lets line jp
  have hjp (arrayTy : Option Ty) (t : Flow) : Stays t (jp arrayTy) := by
    refine (stays_ptrTo arrayTy).bind fun ty u _ _ => triple_get (stays_place (by simp) fun v _ => ?_)
    refine (triple_forM args fun m _ _ _ => stays_assign _ m).bind fun _ w _ _ => ?_
    exact Triple.after (triple_pure trivial) (w.still_hang _ (by simp) call) rfl
  split
  · exact Triple.bind (Q := fun _ _ => True) ((stays_withTypes _).map fun _ _ h => h) fun arrayTy t _ _ => hjp arrayTy t
  · exact hjp none s

theorem stays_passingValue (call : NodeId) (x : Passing) : Stays s (passingValue call x) := by
  cases x with
  | one _ arg => exact triple_pure trivial
  | rest param args => exact stays_restArg call param.ty args

theorem stays_bindParams (call : NodeId) (spread : Bool) (params : List Param) (args : List NodeId) :
    Stays s (bindParams call spread params args) := by
  rw [bindParams_eq]
  refine (triple_forM _ fun x _ _ _ => (stays_passingValue call x).bind fun src _ _ _ =>
    triple_optionForM _ fun name _ => stays_assign name src).bind fun _ _ _ _ => ?_
  split
  · exact triple_throw trivial
  · exact triple_pure trivial

theorem stays_setResults (n : NodeId) (results : List NodeId) : Stays s (setResults n results) :=
  triple_modify (still_of_nodes_eq rfl rfl rfl rfl rfl)

theorem stays_callInGroup (call : NodeId) (callee : FuncId) (args : List NodeId) :
    Stays s (callInGroup call callee args) := by
  rw [callInGroup_eq]
  refine triple_get ?_
  split
  · exact triple_throw trivial
  · refine (stays_setResults call _).bind fun _ t _ _ => ?_
    refine (triple_optionForM _ fun (x : Param × NodeId) _ => triple_optionForM x.1.name fun name _ =>
      stays_assign name x.2).bind fun _ u _ _ => ?_
    exact stays_bindParams call _ _ args

theorem stays_derefTimes (k : Nat) (n : NodeId) : Stays s (derefTimes k n) := by
  induction k generalizing s n with
  | zero => exact triple_pure trivial
  | succ k ih => exact (stays_derefNode n).bind fun m _ _ _ => ih m

theorem stays_perform (src : NodeId) (x : Told) : Stays s (perform src x) := by
  refine (stays_derefTimes x.derefs src).bind fun n _ _ _ => ?_
  cases x.result with
  | none => exact stays_lose n
  | some out => exact stays_assign out n

theorem stays_applyNote (note : Option String) (outs : List NodeId) (src : NodeId) :
    Stays s (applyNote note outs src) := by
  rw [applyNote_eq]
  refine (triple_forM _ fun x _ _ _ => stays_perform src x).bind fun _ _ _ _ => ?_
  split
  · exact triple_throw trivial
  · exact triple_pure trivial

theorem stays_markStatementLocal (src : NodeId) : Stays s (markStatementLocal src) := by
  rcases markStatementLocal_eq s src with he | ⟨n, _, _, he⟩
  · exact triple_of_eq_ok he (.refl s) trivial
  · exact triple_of_eq_ok he (still_of_size_eq rfl rfl (Program.size_modifyNode ..)
      (fun m => Program.rel_modifyNode Node.SameBut.refl m ⟨_, _, rfl⟩) rfl rfl) trivial

theorem stays_noteValue (p : Program) (detached : Bool) (outs : List NodeId) (param : Param) (src : NodeId) :
    Stays s (noteValue p detached outs param src) := by
  unfold noteValue
  split
  · refine (stays_applyNote _ outs src).bind fun w t _ _ => ?_
    split
    · exact stays_markStatementLocal src
    · exact triple_pure trivial
  · exact triple_pure trivial

theorem stays_applyNotes (call : NodeId) (spread detached : Bool) (outs : List NodeId) (params : List Param)
    (args : List NodeId) : Stays s (applyNotes call spread detached outs params args) := by
  rw [applyNotes_eq]
  refine (triple_forM _ fun x _ _ _ => (stays_passingValue call x).bind fun src _ _ _ =>
    triple_getProgram (stays_noteValue _ detached outs x.param src)).bind fun _ _ _ _ => ?_
  split
  · exact triple_throw trivial
  · exact triple_pure trivial

theorem stays_makeOuts (line : UInt32) (i : Nat) (tys : List (Option Ty)) : Stays s (makeOuts line i tys) := by
  induction tys generalizing s i with
  | nil => exact triple_pure trivial
  | cons ty tys ih =>
    unfold makeOuts
    refine triple_get (stays_place (fun _ => rfl) fun t _ => ?_)
    exact (ih (i + 1)).bind fun _ _ _ _ => triple_pure trivial

theorem stays_callByNotes (call : NodeId) (detached : Bool) (args : List NodeId) :
    Stays s (callByNotes call detached args) := by
  rw [callByNotes_eq]
  refine triple_get ?_
  split
  · exact triple_throw trivial
  · refine (stays_makeOuts _ _ _).bind fun outs t _ _ => (stays_setResults call outs).bind fun _ u _ _ => ?_
    refine (triple_optionForM _ fun (x : Param × NodeId) _ =>
      stays_noteValue s.program true outs x.1 x.2).bind fun _ v _ _ => ?_
    exact stays_applyNotes call _ _ outs _ args

theorem stays_call (n : NodeId) (up : Option NodeId) : Stays s (call n up) := by
  unfold call
  refine (triple_modify (still_of_nodes_eq rfl rfl rfl rfl rfl)).bind fun _ t _ _ => triple_get ?_
  refine (stays_callArgs _).bind fun args u _ _ => ?_
  extract_lets detached
  split
  · split
    · exact stays_callInGroup n _ args
    · exact stays_callByNotes n _ args
  · exact stays_callByNotes n _ args

/-! ## Statements -/

theorem stays_assignEach (dsts srcs : List NodeId) : Stays s (assignEach dsts srcs) := by
  rw [assignEach_eq]
  exact triple_forM _ fun x _ _ _ => stays_assign x.1 x.2

theorem stays_loseCall (call : Option NodeId) : Stays s (loseCall call) := by
  cases call with
  | none => exact triple_pure trivial
  | some call => exact triple_getProgram (triple_forM _ fun m _ _ _ => stays_lose m)

theorem stays_returnValues (n : NodeId) (x : Node) : Stays s (returnValues n x) := by
  rw [returnValues_eq]
  refine triple_get (triple_optionForM _ fun f _ => ?_)
  split
  · exact triple_throw trivial
  · exact stays_assignEach _ _

theorem stays_captureVars (n : NodeId) (names : List NodeId) : Stays s (captureVars n names) := by
  rw [captureVars_eq]
  refine triple_forM _ fun name _ _ _ => triple_get (triple_optionForM _ fun var _ => ?_)
  split
  · exact stays_assign n var
  · exact (stays_ptrTo _).bind fun ty t _ _ => stays_place (by simp) fun u _ => stays_assign n _

end EscapeAnalysis.Flow

import EscapeAnalysis.Proofs.Recording.Edges

/-!
# The destination of an assignment

An assignment to a variable of a function gives sources to no other node. This is so for captured names, too: the
variable that the name stands for gets none.

* `Flow.FeedsOnly dst s m` : the operation gives sources to no node but `dst`;
* `Flow.feedsOnly_visit_assign` : the visit of an assignment.
-/

namespace EscapeAnalysis

namespace Flow

variable {p : Program} {s : Flow}

/-- The nodes other than `dst` have the sources that they had. -/
def SameSources (dst : NodeId) (s t : Flow) : Prop := ∀ d, d ≠ dst → t.sources.get d.index = s.sources.get d.index

section FeedsOnly

variable {dst : NodeId}

instance : Std.Refl (SameSources dst) := ⟨fun _ _ _ => rfl⟩

instance : Conduct (SameSources dst) fun s (e : EscapeError × Flow) => SameSources dst s e.2 where
  trans h₁ h₂ d hd := (h₂ d hd).trans (h₁ d hd)
  stop h₁ h₂ d hd := (h₂ d hd).trans (h₁ d hd)
  rest _ _ _ := rfl

variable (dst) in
/-- However the operation ends, the nodes other than `dst` have the sources that they had. -/
abbrev FeedsOnly {α : Type} (s : Flow) (m : FlowM α) : Prop :=
  Triple (SameSources dst) (fun s e => SameSources dst s e.2) s m fun _ _ => True

theorem feedsOnly_link (src : NodeId) : FeedsOnly dst s (link dst src) := by
  refine triple_modify fun d hd => ?_
  split
  · rfl
  · exact Table.get_set_of_ne _ _ fun e => hd (NodeId.ext e)

theorem feedsOnly_closureAddress (src : NodeId) (x : Node) : FeedsOnly dst s (closureAddress src x) := by
  unfold closureAddress
  cases x.ty with
  | none => exact ⟨fun _ _ => rfl, trivial⟩
  | some ty => exact ⟨fun _ _ => rfl, trivial⟩

theorem feedsOnly_carry (fuel : Nat) (src : NodeId) : FeedsOnly dst s (carry dst fuel src) := by
  induction fuel generalizing s src with
  | zero => exact triple_throw fun _ _ => rfl
  | succ fuel ih =>
    rw [carry_succ]
    refine triple_getProgram ?_
    dsimp only
    split
    · exact feedsOnly_link src
    split
    · exact (feedsOnly_closureAddress src _).bind fun addr _ _ _ => feedsOnly_link addr
    split
    · exact triple_resultsOf (triple_forM _ fun m _ _ _ => feedsOnly_link m)
    · exact triple_forM _ fun m _ _ _ => ih m

end FeedsOnly

/-- An assignment to a variable feeds this variable only. -/
theorem feedsOnly_visit_assign (hs : s.Over p) {stmt dst : NodeId} (hop : (p.node stmt).op = .assign)
    (hleft : (p.node stmt).left = some dst) (hdst : p.IsLocal dst) (up : Option NodeId) :
    FeedsOnly dst s (visit stmt up) := by
  have hblock : (p.node stmt).op ≠ .block := by simp [hop]
  unfold visit
  refine triple_get ?_
  dsimp only
  rw [hs.op hop (by simp), hs.left hblock, hleft]
  dsimp only
  split
  · rename_i d src he _
    cases he
    rw [isSelfReslice_eq_false (hs.op hdst.op (by simp)) src, if_neg Bool.false_ne_true]
    exact Triple.congr (triple_getProgram (feedsOnly_carry _ src)) (assign_eq_carryAll (hs.place_local hdst _))
  · exact triple_pure trivial
end Flow

end EscapeAnalysis

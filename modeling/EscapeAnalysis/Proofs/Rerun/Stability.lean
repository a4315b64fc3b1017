import EscapeAnalysis.Proofs.Rerun.Groups

/-!
# Analyses of a program that was analyzed

The first analysis leaves notes, nodes of its own and slices below calls. These change neither the call graph nor what a
second analysis finds: it starts with the nodes of the program, and then those of the first one.

That the program left by the first analysis is like the one before it is a fact about a single analysis. It comes from
the same proof, for an analysis that is its own copy.

* `Rerun.Leaves R last` : what the first analysis leaves of the program;
* `Rerun.copies_start` : the program before the first analysis and the one that it left are at the same point;
* `Rerun.groups_eq_of_leaves` : bodies call what they called, so the groups are the same;
* `second_analysis_same` : the second analysis gives what the first one gave.
-/

namespace EscapeAnalysis

namespace Rerun

variable {R : Rerun}

/-! ## The start of both analyses -/

structure Leaves (R : Rerun) (last : Program) : Prop where
  nodes : R.base.Extends last
  grows : R.base.types.Grows last.types
  sound : last.types.Sound
  rights : ∀ n, n.index < R.base.nodes.size → (last.node n).right = (R.base.node n).right ∨ R.Rests last n
  func : ∀ f, (R.base.func f).Renoted (last.func f)

theorem leaves_base (R : Rerun) : R.Leaves R.base :=
  ⟨.refl _, .refl _, R.drafted.typed.store, fun _ _ => Or.inl rfl, fun _ => .refl _⟩

theorem Copies.leaves {a b : Program} (h : R.Copies a b) : R.Leaves a := ⟨h.nodes, h.grows, h.sound, h.rights, h.func⟩

theorem copies_start {last : Program} (h : R.Leaves last) (hsize : last.nodes.size = R.base.nodes.size + R.gap) :
    R.Copies R.base last := by
  have hnew {n : NodeId} (hn : R.base.nodes.size ≤ n.index) :
      R.base.node n = default ∧ last.node (R.shift n) = default := by
    refine ⟨R.base.node_of_size_le hn, last.node_of_size_le ?_⟩
    rw [R.shift_new hn, hsize]
    exact Nat.add_le_add_right hn _
  have hold {n m : NodeId} (hm : m ∈ (R.base.node n).refs) : R.shift m = m := R.shift_old (R.closed m (Or.inl ⟨n, hm⟩))
  refine ⟨hsize, .refl _, .refl _, h.grows, R.drafted.typed.store, h.sound, fun n => ?_, fun n => ?_, fun n => ?_,
    fun n hn => ?_, fun n _ => Or.inl rfl, fun f => .refl _, h.func⟩
  · have hself : (R.base.node n).Copies R.shift (R.base.node n) := .of_refs fun m => hold
    by_cases hn : n.index < R.base.nodes.size
    · rw [R.shift_old hn]
      exact hself.sameBut (.refl _) (h.nodes.node n hn)
    · obtain ⟨hbase, hlast⟩ := hnew (Nat.le_of_not_lt hn)
      rw [hbase] at hself ⊢
      rwa [hlast]
  · by_cases hn : n.index < R.base.nodes.size
    · obtain ⟨_, _, he⟩ := h.nodes.node n hn
      rw [R.shift_old hn, he]
      exact likes_old (R.drafted.typed.node n) _ _
    · obtain ⟨hbase, hlast⟩ := hnew (Nat.le_of_not_lt hn)
      rw [hbase, hlast]
      exact .none
  · by_cases hn : n.index < R.base.nodes.size
    · rw [R.shift_old hn]
      rcases h.rights n hn with hright | ⟨htakes, rest, hrest, hstub⟩
      · left
        rw [hright]
        cases hr : (R.base.node n).right with
        | none => rfl
        | some m => rw [Option.map_some, hold (n := n) (by simp [Node.refs, Node.children, hr])]
      · refine Or.inr ⟨htakes, ?_, rest, ?_, ?_, hstub⟩
        · exact R.drafted.bare n (Program.isCall_of_takesRest htakes) (Program.list_ne_nil_of_takesRest htakes)
        · rw [R.shift_old hn, hrest]
        · rw [← hsize]
          exact last.lt_size_of_op_ne (by simp [hstub.1])
    · obtain ⟨hbase, hlast⟩ := hnew (Nat.le_of_not_lt hn)
      rw [hbase, hlast]
      exact Or.inl rfl
  · rw [(hnew hn).1]
    exact Program.made_of_op (by decide)

theorem Copies.echoes_start {last : Program} (h : R.Copies R.base last) (config : Config) (observer observer' : Observer) :
    R.Echoes { program := R.base, config, observer } { program := last, config, observer := observer' } :=
  ⟨h, fun _ => (Table.get_empty _).trans (Table.get_empty _).symm,
    fun _ => (Table.get_empty _).trans (Table.get_empty _).symm, rfl,
    fun n hn => absurd hn (Array.not_mem_empty n), rfl, rfl, rfl⟩

/-! ## The call graph -/

section Calls

variable {last : Program} (h : R.Leaves last)
include h

theorem target_eq {n : NodeId} (hn : n.index < R.base.nodes.size) : last.target n = R.base.target n := by
  obtain ⟨_, _, he⟩ := h.nodes.node n hn
  unfold Program.target
  rw [h.nodes.calleeOf R.closed hn, he]

omit h in
/-- A slice of `...` arguments calls none. -/
theorem calledBy_stub {lo : Nat} {rest : NodeId} (hstub : last.Stub lo rest) (fuel : Nat) :
    last.calledBy fuel rest = [] := by
  obtain ⟨hop, array, _, _, hchildren, harray, hnone, _⟩ := hstub
  cases fuel with
  | zero => rfl
  | succ fuel =>
    have hrest : last.calledBy fuel array = [] := by
      cases fuel with
      | zero => rfl
      | succ fuel => simp [Program.calledBy_succ, Program.target, harray, hnone]
    simp [Program.calledBy_succ, Program.target, hop, hchildren, hrest]

/-- The search for calls sees what it saw before, if it is deep enough both times. -/
theorem calledBy_eq {k : Nat} {n : NodeId} (hn : n.index < R.base.nodes.size) (hnests : R.base.Nests k n) {fuel fuel' : Nat}
    (hfuel : k ≤ fuel) (hfuel' : k ≤ fuel') : last.calledBy fuel' n = R.base.calledBy fuel n := by
  induction k generalizing n fuel fuel' with
  | zero => exact hnests.elim
  | succ k ih =>
    obtain ⟨fuel, rfl⟩ : ∃ l, fuel = l + 1 := ⟨fuel - 1, by omega⟩
    obtain ⟨fuel', rfl⟩ : ∃ l, fuel' = l + 1 := ⟨fuel' - 1, by omega⟩
    have hparts : (R.base.node n).children.flatMap (last.calledBy fuel') =
        (R.base.node n).children.flatMap (R.base.calledBy fuel) := by
      refine List.flatMap_congr fun m hm => ih (R.closed.part hm) (hnests m hm) ?_ ?_ <;> omega
    have hchildren : (last.node n).children.flatMap (last.calledBy fuel') =
        (R.base.node n).children.flatMap (last.calledBy fuel') := by
      obtain ⟨right, _, he⟩ := h.nodes.node n hn
      rcases h.rights n hn with hright | ⟨htakes, rest, hrest, hstub⟩
      · rw [he] at hright ⊢
        dsimp only at hright
        rw [hright]
        rfl
      · rw [he] at hrest ⊢
        have hbare := R.drafted.bare n (Program.isCall_of_takesRest htakes) (Program.list_ne_nil_of_takesRest htakes)
        dsimp only at hrest
        simp only [Node.children, hrest, hbare, Option.toList_some, Option.toList_none, List.append_nil,
          List.flatMap_append, List.flatMap_singleton, calledBy_stub hstub]
    rw [Program.calledBy_succ, Program.calledBy_succ, hchildren, hparts, target_eq h hn]

theorem groups_eq_of_leaves (hsize : last.funcs.size = R.base.funcs.size)
    (hnests : ∀ G ∈ R.base.groups, ∀ f ∈ G.funcs, ∀ m ∈ (R.base.func f).body.getD [], ∃ k, R.base.Nests k m) :
    last.groups = R.base.groups := by
  have hrest (f : FuncId) := (h.func f).rest
  have hdecls : last.decls = R.base.decls := by
    unfold Program.decls
    rw [hsize]
    refine List.filter_congr fun f _ => ?_
    rw [hrest]
  unfold Program.groups
  rw [hdecls]
  refine CallGraph.groups_congr (CallGraph.closed_ofProgram _ _) rfl ?_ fun G hG f hf => ?_
  · funext f
    change (f ∈ R.base.decls && (last.func f).isClosure) = (f ∈ R.base.decls && (R.base.func f).isClosure)
    rw [hrest]
    rfl
  · have hcalled : ((last.func f).body.getD []).flatMap (last.calledBy (last.nodes.size + 1)) =
        ((R.base.func f).body.getD []).flatMap (R.base.calledBy (R.base.nodes.size + 1)) := by
      rw [show (last.func f).body = (R.base.func f).body by rw [hrest]]
      refine List.flatMap_congr fun m hm => ?_
      obtain ⟨_, hm'⟩ := hnests G hG f hf m hm
      have hlt := R.closed m (Or.inr ⟨f, Func.mem_refs_body hm⟩)
      have hle := h.nodes.size_le
      exact calledBy_eq h hlt (hm'.le_size R.closed hlt) (by omega) (by omega)
    unfold CallGraph.ofProgram
    dsimp only
    rw [Program.calleesIn_eq_calledBy, Program.calleesIn_eq_calledBy, hcalled]

end Calls

end Rerun

/-! ## Both analyses -/

/-- An analysis adds no function. -/
theorem size_funcs_groups {groups : List Group} {run run' : Run} (h : groups.forM analyzeGroup run = .ok () run') :
    run'.program.funcs.size = run.program.funcs.size := by
  refine groups_invariant (P := fun r => r.program.funcs.size = run.program.funcs.size) (fun hsize hgroup => ?_) rfl h
  obtain ⟨s, hs, rfl⟩ := analyzeGroup_eq_ok hgroup
  obtain ⟨_, _, _, he, hnotes⟩ := Flow.foldl_noteFunc_eq (s.dsts.foldl Flow.flood s) _
  rw [← hsize, (Flow.conclude_eq s _).1, he, hnotes, (Flow.marked_foldl_flood s).program, (Flow.frame_recorded hs).funcs]
  rfl

section Again

variable {p : Program} (hclosed : p.Closed) (hdrafted : p.Drafted)
  (hclosures : ∀ f, (p.func f).isClosure = true → (p.func f).hasBody = true)
include hclosures

/-- An analysis that ends leaves of a program what a second one can start with, and the same groups. -/
theorem leaves_of_groups {config : Config} {observer : Observer} {final : Run}
    (h : p.groups.forM analyzeGroup { program := p, config, observer } = .ok () final) (gap : Nat) :
    (Rerun.mk p gap hclosed hdrafted).Leaves final.program ∧ final.program.groups = p.groups := by
  -- Without a gap, an analysis is the copy of itself.
  let R : Rerun := ⟨p, 0, hclosed, hdrafted⟩
  have hstart : R.Between final.program p.groups { program := p, config, observer } { program := p, config, observer } :=
    ⟨(Rerun.copies_start R.leaves_base rfl).echoes_start config observer observer, hdrafted.ordered, fun f => Or.inl rfl,
      fun f _ => rfl⟩
  obtain ⟨_, _, hend, hnests⟩ := hstart.groups (follows_nil hclosed config observer)
    (List.nil_append _).symm hclosures h
  have hleaves := hend.echoes.program.leaves
  have hgroups := Rerun.groups_eq_of_leaves hleaves (size_funcs_groups h) hnests
  exact ⟨⟨hleaves.nodes, hleaves.grows, hleaves.sound, hleaves.rights, hleaves.func⟩, hgroups⟩

/-- A second analysis gets to the end, and there it is where the first one was. -/
theorem between_of_groups {config : Config} {observer : Observer} (observer' : Observer) {final : Run}
    (h : p.groups.forM analyzeGroup { program := p, config, observer } = .ok () final) :
    ∃ final', final.program.groups.forM analyzeGroup { program := final.program, config, observer := observer' } =
        .ok () final' ∧
      (Rerun.mk p (final.program.nodes.size - p.nodes.size) hclosed hdrafted).Between final.program [] final final' := by
  let R : Rerun := ⟨p, final.program.nodes.size - p.nodes.size, hclosed, hdrafted⟩
  obtain ⟨hleaves, hgroups⟩ := leaves_of_groups hclosed hdrafted hclosures h R.gap
  have hsize : final.program.nodes.size = R.base.nodes.size + R.gap :=
    (Nat.add_sub_cancel' hleaves.nodes.size_le).symm
  have hstart : R.Between final.program p.groups { program := p, config, observer }
      { program := final.program, config, observer := observer' } :=
    ⟨(Rerun.copies_start hleaves hsize).echoes_start config observer observer', hdrafted.ordered, fun f => Or.inr rfl,
      fun f hf => func_of_not_mem_groups h hf⟩
  obtain ⟨final', hfinal', hend, _⟩ := hstart.groups (follows_nil hclosed config observer)
    (List.nil_append _).symm hclosures h
  exact ⟨final', hgroups ▸ hfinal', hend⟩

end Again

/-- If the analysis of a program that a script builds ends well, then an analysis of the program as it was left ends well
too, and gives the same: every function makes the same steps and has the same notes, the same variables are moved in the
same order, the nodes of the program have the same words and loop depths, and the diagnostics are the same. -/
theorem second_analysis_same {steps : List Script.Step} {session : Script.Session}
    (hsteps : Script.run steps = .ok session) (config : Config) (observer observer' : Observer) {info : Info}
    (h : (escapesWith config observer session.program).result = .ok info) :
    ∃ info', (escapesWith config observer' (escapesWith config observer session.program).program).result = .ok info' ∧
      (∀ f, info'.state f = info.state f ∧ info'.history f = info.history f ∧
        (escapesWith config observer' (escapesWith config observer session.program).program).program.func f =
          (escapesWith config observer session.program).program.func f) ∧
      info'.moved = info.moved ∧
      (∀ n, n.index < session.program.nodes.size → info'.word n = info.word n ∧ info'.depth n = info.depth n) ∧
      info'.report = info.report := by
  obtain ⟨final, hfinal, hprogram, rfl⟩ := escapesWith_eq_ok h
  have hclosed := (Script.wellFormed_of_run hsteps).refs
  have hdrafted := Script.drafted_of_run hsteps
  obtain ⟨final', hfinal', hend⟩ := between_of_groups hclosed hdrafted (fun f => Script.hasBody_of_run hsteps)
    observer' hfinal
  have hechoes := hend.echoes
  have hagain : escapesWith config observer' final.program =
      ⟨final'.program, final'.observer.kept, .ok final'.info⟩ := by
    unfold escapesWith
    rw [hfinal']
  rw [hprogram, hagain]
  refine ⟨final'.info, rfl, fun f => ⟨?_, ?_, hend.func f fun _ hG => by cases hG⟩, hechoes.moved, fun n hn => ?_,
    hechoes.report⟩
  · rw [Info.state, hechoes.states, Info.state]
  · rw [Info.history, hechoes.states, Info.history]
  · have hword := hechoes.word n
    have hdepth := hechoes.depthOf n
    rw [Rerun.shift_old _ hn] at hword hdepth
    exact ⟨hword, hdepth⟩

/-- `func hold(ps ...*int64) { keep = ps }` and `func f(p *int64) *int64 { var x int64; hold(&x); return p }`. -/
def holdSteps : List Script.Step :=
  [.type "P" (.ptr (.named "int64")), .type "S" (.slice (.named "P")), .global "keep" "S" "keep",
    .func { name := "hold", params := [{ name := "ps", ty := "S", variadic := true }] } "hold",
    .func { name := "f", params := [{ name := "p", ty := "P" }], results := [(none, "P")] } "f",
    .define (.key "hold") [.form (.assign (.ref (.key "keep")) (.param 0))],
    .define (.key "f") [.form (.declare "x" "int64" "x"),
      .form (.exprStmt (.call (.key "hold") [.addr (.ref (.key "x"))] false)), .form (.ret [.param 0])]]

def holdSession : Script.Session := Script.sessionOf holdSteps

theorem run_holdSteps : Script.run holdSteps = .ok holdSession :=
  Script.run_eq_sessionOf (by decide +kernel)

/-- The first analysis hangs a slice below the call of `hold`, notes that `f` returns its input and moves `x`. The second
one finds all this done, and moves `x` again. -/
theorem second_analysis_holdSession :
    let first := escapes holdSession.program (.ofLevel .summary)
    (holdSession.program.node ⟨9⟩).right = none ∧ (first.program.node ⟨9⟩).right = some ⟨14⟩ ∧
    (first.program.func ⟨1⟩).params.map (·.note) = [some "esc:0x12"] ∧
    ∃ info, (escapes first.program (.ofLevel .summary)).result = .ok info ∧ info.moved = #[⟨5⟩] ∧
      info.word ⟨5⟩ = .plain .heap ∧ info.report.diagnostics.length = 5 := by
  obtain ⟨info, hinfo, hmoved, hword, hreport⟩ : ∃ info, (escapes holdSession.program (.ofLevel .summary)).result = .ok info ∧
      info.moved = #[⟨5⟩] ∧ info.word ⟨5⟩ = .plain .heap ∧ info.report.diagnostics.length = 5 :=
    Script.exists_eq_ok_of_any (by decide +kernel)
  obtain ⟨info', hinfo', _, hmoved', hold, hreport'⟩ := second_analysis_same run_holdSteps (.ofLevel .summary) .silent
    .silent hinfo
  exact ⟨by decide +kernel, by decide +kernel, by decide +kernel, info', hinfo', hmoved'.trans hmoved,
    (hold ⟨5⟩ (by decide +kernel)).1.trans hword, by rw [hreport', hreport]⟩

end EscapeAnalysis

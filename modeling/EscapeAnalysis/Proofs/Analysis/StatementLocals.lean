import EscapeAnalysis.Proofs.Analysis.KeptArguments

/-!
# Arguments that are local to a statement

A call marks the arguments that it keeps to itself: what they allocate lives no longer than the statement. If whatever
is no name is used once, then no group puts such an argument on the heap, neither the one that marks it nor a later one.
It is not enough to count the uses below bodies, since a closure may capture an expression.

* `Run.Shelters p done rest run` : what is marked is not on the heap, and is no part of what is still to come;
* `shelters_analyzeGroup`, `shelters_groups` : one group, and one group after the other;
* `marked_not_heap` : what is marked is not on the heap.
-/

namespace EscapeAnalysis

theorem Program.UsedOnce.not_belowAny {p : Program} (hp : p.UsedOnce) {n : NodeId} (hop : (p.node n).op ≠ .name)
    {funcs funcs' : List FuncId} (hn : p.BelowAny funcs n) (hne : ∀ f ∈ funcs, f ∉ funcs') : ¬ p.BelowAny funcs' n := by
  rintro ⟨g, hg, hn'⟩
  obtain ⟨f, hf, hn⟩ := hn
  exact hne f hf (hp.func_eq hop hn hn' ▸ hg)

/-- What holds between the groups `done` and `rest`: nothing is marked that is on the heap, or is a name. What is marked
or on the heap, names apart, is below a body of `done`, or was made by a recording. -/
structure Run.Shelters (p : Program) (done rest : List Group) (run : Run) : Prop where
  follows : run.Follows p done
  grown : p.Grown run.program
  right : run.KeepsRight p rest
  marked : ∀ n, (run.program.node n).noEscape = true →
    (run.info.word n).cls ≠ .heap ∧ (run.program.node n).op ≠ .name
  met : ∀ n : NodeId, n.index < p.nodes.size → (run.program.node n).op ≠ .name →
    (run.program.node n).noEscape = true ∨ (run.info.word n).cls = .heap → ∃ G ∈ done, p.BelowAny G.funcs n
  fresh : ∀ n : NodeId, run.program.nodes.size ≤ n.index → (run.info.word n).cls ≠ .heap

theorem shelters_start {p : Program} (hp : p.Linear) (rest : List Group) (config : Config) (observer : Observer) :
    Run.Shelters p [] rest { program := p, config, observer } := by
  have hword (n : NodeId) : (({} : Info).word n).cls ≠ .heap := by
    rw [show ({} : Info).word n = .plain .unknown from Table.get_empty n.index]
    decide
  have hmark (n : NodeId) : (p.node n).noEscape ≠ true := by
    rw [(hp.formed n).unmarked]
    exact Bool.false_ne_true
  exact ⟨follows_nil hp.wellFormed.refs config observer, .refl p, fun _ _ hne => absurd rfl hne,
    fun n h => absurd h (hmark n), fun n _ _ h => absurd h (not_or.2 ⟨hmark n, hword n⟩), fun n _ => hword n⟩

section Groups

variable {p : Program} (hp : p.Linear)

section Group

variable {before after : List Group} {group : Group} {run : Run} {s : Flow} {n : NodeId}

theorem noEscape_start (h : ((Flow.start run group).program.node n).noEscape = true) :
    (run.program.node n).noEscape = true := by
  rw [Flow.program_start, Program.node_addNode] at h
  split at h
  · cases h
  · exact h

variable (hgroups : p.groups = before ++ group :: after) (hrun : run.Shelters p before (group :: after))
  (hs : group.funcs.forM Flow.recordFunc (Flow.start run group) = .ok () s)

include hp hrun hs in
/-- Recording puts inputs on the heap at most. -/
theorem heap_recorded (hop : (s.program.node n).op ≠ .name) (h : (s.info.word n).cls = .heap) :
    (run.info.word n).cls = .heap := by
  have hstarts := hrun.follows.starts_area hp.wellFormed hp.tidy hs
  have hnodes := (hrun.follows.nodes.trans (Flow.extends_start run group)).trans hstarts.frame.nodes
  rcases hstarts.steps.word trivial n with he | ⟨_, ⟨_, f, _, hdecl⟩ | ⟨_, _, hnone⟩⟩
  · obtain ⟨_, hinfo⟩ := Flow.info_start run group
    rw [he, hinfo] at h
    exact h
  · have hdecl : n ∈ (run.program.func f).decls := hdecl
    rw [(hrun.follows.funcs f).decls] at hdecl
    have hname := (hp.wellFormed.decls f n hdecl).1
    rw [(hnodes.node n (p.lt_size_of_op_eq_name hname)).op] at hop
    exact absurd hname hop
  · rw [hnone] at h
    cases h

include hp hgroups hrun in
/-- What is below a body of the group was not met before. -/
theorem not_met_of_belowAny (hop : (p.node n).op ≠ .name) (hn : p.BelowAny group.funcs n) :
    (run.program.node n).noEscape = false ∧ (run.info.word n).cls ≠ .heap := by
  obtain ⟨f, hf, hbelow⟩ := hn
  have hlt := hp.wellFormed.refs.below hbelow
  have hop' : (run.program.node n).op ≠ .name := by rwa [(hrun.follows.nodes.node n hlt).op]
  have hnot : ¬ ((run.program.node n).noEscape = true ∨ (run.info.word n).cls = .heap) := by
    intro h
    obtain ⟨G, hG, hn⟩ := hrun.met n hlt hop' h
    refine hp.once.not_belowAny hop ⟨f, hf, hbelow⟩ (fun g hg => ?_) hn
    exact ((Program.nodup_groups hgroups).2 g hg).1 G hG
  rwa [not_or, Bool.not_eq_true] at hnot

/-- The node was not on the heap before the group, and the group does not put it there. -/
structure Run.Spared (S : (Flow.start run group).Shelter) (q : Program) (n : NodeId) : Prop where
  op : (q.node n).op ≠ .name
  word : (run.info.word n).cls ≠ .heap
  free : ¬ S.Free q n

include hgroups hs in
/-- What is marked is spared, whichever group marked it. -/
theorem spared_of_noEscape (h : (s.program.node n).noEscape = true) :
    Run.Spared (Run.shelter hp hrun.follows hrun.grown hrun.right) s.program n ∧
      (n.index < p.nodes.size → ∃ G ∈ before ++ [group], p.BelowAny G.funcs n) := by
  have hsound := sound_recorded_shelter hp hrun.follows hrun.grown hrun.right hs
  have hsize := (Flow.extends_start run group).size_le
  rcases hsound.marks n h with hold | hkept | ⟨hle, hop⟩
  · -- An earlier group marked the node, so it is below no body of this one.
    have hold := noEscape_start hold
    have hlt := run.program.lt_size_of_noEscape hold
    obtain ⟨hword, hop⟩ := hrun.marked n hold
    have hop' : (s.program.node n).op ≠ .name := by
      rwa [(hsound.nodes.node n (Nat.lt_of_lt_of_le hlt hsize)).op, Flow.node_start_of_lt hlt]
    refine ⟨⟨hop', hword, fun hfree => ?_⟩, fun hn => ?_⟩
    · cases hfree with
      | old hopen =>
        rcases hopen with hname | ⟨hin, _⟩
        · rw [Flow.node_start_of_lt hlt] at hname
          exact hop hname
        · obtain ⟨f, _, hbelow⟩ := id hin
          rw [(hrun.follows.nodes.node n (hp.wellFormed.refs.below hbelow)).op] at hop
          rw [(not_met_of_belowAny hp hgroups hrun hop hin).1] at hold
          cases hold
      | new hle _ _ _ => exact absurd (Nat.lt_of_lt_of_le hlt hsize) (Nat.not_lt.2 hle)
    · obtain ⟨G, hG, hbelow⟩ := hrun.met n hn hop (Or.inl hold)
      exact ⟨G, List.mem_append_left _ hG, hbelow⟩
  · -- A call of this group keeps the node.
    have hkept : (Flow.start run group).Keeps p group.funcs n := hkept
    have hbelow := hkept.belowAny
    have hop := hkept.op_ne_name
    refine ⟨⟨?_, (not_met_of_belowAny hp hgroups hrun hop hbelow).2, fun hfree => hfree.not_kept hkept⟩,
      fun _ => ⟨group, by simp, hbelow⟩⟩
    obtain ⟨f, _, hn⟩ := hbelow
    have hnodes := (hrun.follows.nodes.trans (Flow.extends_start run group)).trans hsound.nodes
    rwa [(hnodes.node n (hp.wellFormed.refs.below hn)).op]
  · -- The node is a slice that was made and marked at once; what is free is not marked.
    refine ⟨⟨hop, hrun.fresh n (Nat.le_trans hsize hle), fun hfree => ?_⟩, fun hn => ?_⟩
    · cases hfree with
      | old hopen => exact absurd hopen.lt_size (Nat.not_lt.2 hle)
      | new _ _ hmark _ => exact Bool.false_ne_true (hmark.symm.trans h)
    · have := hrun.follows.nodes.size_le
      omega

include hp hgroups hrun in
/-- After a group, what is marked is not on the heap. -/
theorem shelters_analyzeGroup {run' : Run} (h : analyzeGroup group run = .ok () run') :
    run'.Shelters p (before ++ [group]) after := by
  have hfollows := hrun.follows.analyzeGroup h
  have hspares := spares_analyzeGroup hrun.follows hp.wellFormed hp.tidy (Program.nodup_groups hgroups).1 (Or.inl h)
  obtain ⟨s, hs, rfl⟩ := analyzeGroup_eq_ok h
  have hsound := sound_recorded_shelter hp hrun.follows hrun.grown hrun.right hs
  have hgrown : p.Grown s.program :=
    (hrun.grown.trans (Program.grown_start run group)).trans
      (.of_frame (hrun.follows.starts_area hp.wellFormed hp.tidy hs).frame)
  have hnode := Flow.node_conclude s group
  -- What is on the heap after the group was there before, or is free.
  have hheap {n : NodeId} (hop : (s.program.node n).op ≠ .name)
      (hn : ((s.conclude group).info.word n).cls = .heap) : (run.info.word n).cls = .heap ∨
        (Run.shelter hp hrun.follows hrun.grown hrun.right).Free s.program n := by
    rw [(Flow.conclude_eq s group).2.2] at hn
    exact (Flow.Shelter.heap_foldl_flood hsound hn).imp_left (heap_recorded hp hrun hs hop)
  refine ⟨hfollows, hgrown.trans (Program.grown_conclude s group),
    hrun.right.spares hspares hrun.follows.nodes fun n hn hop G hG => ?_, fun n hmark => ?_, fun n hn hop h => ?_,
    fun n hn h => ?_⟩
  · exact hp.once.not_belowAny hop hn fun f hf => ((Program.nodup_groups hgroups).2 f hf).2 G hG
  · rw [show (s.conclude group).toRun.program.node n = s.program.node n from hnode n] at hmark ⊢
    obtain ⟨⟨hop, hword, hfree⟩, _⟩ := spared_of_noEscape hp hgroups hrun hs hmark
    refine ⟨fun h => ?_, hop⟩
    rcases hheap hop h with h | h
    · exact hword h
    · exact hfree h
  · rw [show (s.conclude group).toRun.program.node n = s.program.node n from hnode n] at hop h
    rcases h with h | h
    · exact (spared_of_noEscape hp hgroups hrun hs h).2 hn
    · have hop' : (run.program.node n).op ≠ .name := by
        rwa [(hrun.follows.nodes.node n hn).op, ← (hgrown.nodes.node n hn).op]
      rcases hheap hop h with h | h
      · obtain ⟨G, hG, hbelow⟩ := hrun.met n hn hop' (Or.inr h)
        exact ⟨G, List.mem_append_left _ hG, hbelow⟩
      · cases h with
        | old hopen =>
          rcases hopen with hname | ⟨hin, _⟩
          · rw [(sameBut_start hrun.follows hn).op, ← (hgrown.nodes.node n hn).op] at hname
            exact absurd hname hop
          · exact ⟨group, by simp, hin⟩
        | new hle _ _ _ =>
          have hsize := (hrun.follows.nodes.trans (Flow.extends_start run group)).size_le
          omega
  · have hn : s.program.nodes.size ≤ n.index := by
      rw [← Flow.nodes_conclude s group]
      exact hn
    have hop : (s.program.node n).op ≠ .name := fun hop =>
      absurd (s.program.lt_size_of_op_eq_name hop) (Nat.not_lt.2 hn)
    rcases hheap hop h with h | h
    · exact hrun.fresh n (Nat.le_trans ((Flow.extends_start run group).trans hsound.nodes).size_le hn) h
    · exact absurd (h.lt_size hsound) (Nat.not_lt.2 hn)

end Group

include hp in
theorem shelters_groups {done groups : List Group} {run run' : Run} (hgroups : p.groups = done ++ groups)
    (hrun : run.Shelters p done groups) (h : groups.forM analyzeGroup run = .ok () run') :
    run'.Shelters p p.groups [] :=
  groups_induct (motive := fun done groups run => run.Shelters p done groups)
    (fun hgroups hrun hgroup => shelters_analyzeGroup hp hgroups hrun hgroup) hgroups hrun h

end Groups

/-- If whatever is no name is used once and captured names stand for names, then what is marked after an analysis is not
on the heap. -/
theorem marked_not_heap {steps : List Script.Step} {session : Script.Session}
    (hsession : Script.run steps = .ok session) (honce : session.program.UsedOnce)
    (hcaptured : ∀ n m, (session.program.node n).origin = some m → (session.program.node m).op = .name)
    (config : Config) (observer : Observer) {info : Info}
    (h : (escapesWith config observer session.program).result = .ok info) {n : NodeId}
    (hn : ((escapesWith config observer session.program).program.node n).noEscape = true) :
    (info.word n).cls ≠ .heap := by
  have hp : session.program.Linear :=
    ⟨Script.wellFormed_of_run hsession, Script.tidy_of_run hsession, Script.isFormedIn_of_run hsession, honce,
      hcaptured⟩
  obtain ⟨run, hrun, hprogram, rfl⟩ := escapesWith_eq_ok h
  have hshelters := shelters_groups hp (List.nil_append _).symm (shelters_start hp _ config observer) hrun
  rw [hprogram] at hn
  exact (hshelters.marked n hn).1

/-- A call that keeps its argument, and a closure that is stored:
`func f() { var v *T; look(&T{}); keep = func() { v } }`. With `literal`, the closure captures the argument of the call
and not `v`. -/
def lookSteps (literal : Bool) : List Script.Step :=
  [.struct "T" [("a", "int64")], .type "P" (.ptr (.named "T")), .type "F" (.func [] [] false),
    .global "keep" "F" "keep",
    .importFunc { name := "look", params := [{ name := "p", ty := "P" }] } "look", .paramNote (.key "look") 0 "esc:0x1",
    .func { name := "f" } "f",
    .define (.key "f")
      [.form (.declare "v" "P" "v"), .form (.bind "x" (.ptrLit (.structLit "T" []))),
        .form (.exprStmt (.call (.key "look") [.ref (.key "x")] false)),
        .form (.assign (.ref (.key "keep")) (.closure {}
          [.form (.exprStmt (.capture (.ref (.key (if literal then "x" else "v"))) true))] none))]]

def lookSession (literal : Bool) : Script.Session := Script.sessionOf (lookSteps literal)

theorem run_lookSteps (literal : Bool) : Script.run (lookSteps literal) = .ok (lookSession literal) := by
  cases literal <;> exact Script.run_eq_sessionOf (by decide +kernel)

theorem usedOnce_lookSession (literal : Bool) : (lookSession literal).program.UsedOnce := by
  refine Program.usedOnce_of_table [(⟨1⟩, ⟨3⟩, [0]), (⟨1⟩, ⟨2⟩, [0, 0]), (⟨1⟩, ⟨7⟩, [1]), (⟨1⟩, ⟨6⟩, [0, 1]),
    (⟨1⟩, ⟨5⟩, [1, 1]), (⟨1⟩, ⟨4⟩, [0, 1, 1]), (⟨1⟩, ⟨10⟩, [2]), (⟨1⟩, ⟨0⟩, [0, 2]), (⟨1⟩, ⟨9⟩, [1, 2]),
    (⟨2⟩, ⟨8⟩, [0])] (fun f path n h => h.mem_places _ ?_ ?_) ?_
  all_goals cases literal <;> decide +kernel

theorem captured_lookSession (n m : NodeId) (h : ((lookSession false).program.node n).origin = some m) :
    ((lookSession false).program.node m).op = .name := by
  have hall : ∀ i < (lookSession false).program.nodes.size, ((lookSession false).program.node ⟨i⟩).origin.all
      (fun m => ((lookSession false).program.node m).op = .name) = true := by decide +kernel
  have hlt : n.index < (lookSession false).program.nodes.size := by
    refine Nat.lt_of_not_le fun hle => ?_
    rw [Program.node_of_size_le _ hle] at h
    cases h
  have hn := hall n.index hlt
  rw [h, Option.all_some] at hn
  exact of_decide_eq_true hn

/-- The argument of `look` is marked and is not on the heap, unlike the closure. -/
theorem marked_not_heap_lookSession : ∃ info, (escapes (lookSession false).program).result = .ok info ∧
    ((escapes (lookSession false).program).program.node ⟨5⟩).noEscape = true ∧
    (info.word ⟨5⟩).cls ≠ .heap ∧ (info.word ⟨9⟩).cls = .heap := by
  obtain ⟨info, hinfo⟩ := Script.exists_eq_ok (x := (escapes (lookSession false).program).result) (by decide +kernel)
  have hmark : ((escapes (lookSession false).program).program.node ⟨5⟩).noEscape = true := by decide +kernel
  have hclosure : ((escapes (lookSession false).program).result.toOption.map fun info => (info.word ⟨9⟩).cls) =
      some .heap := by decide +kernel
  rw [hinfo] at hclosure
  exact ⟨info, hinfo, hmark, marked_not_heap (run_lookSteps false) (usedOnce_lookSession false) captured_lookSession
    default .silent hinfo hmark, Option.some.inj hclosure⟩

/-- If the closure captures the argument, then the argument is on the heap and is still marked. -/
theorem captured_literal_on_heap : Script.run (lookSteps true) = .ok (lookSession true) ∧
    (lookSession true).program.UsedOnce ∧ ∃ info, (escapes (lookSession true).program).result = .ok info ∧
      ((escapes (lookSession true).program).program.node ⟨5⟩).noEscape = true ∧ (info.word ⟨5⟩).cls = .heap := by
  obtain ⟨info, hinfo⟩ := Script.exists_eq_ok (x := (escapes (lookSession true).program).result) (by decide +kernel)
  have hheap : ((escapes (lookSession true).program).result.toOption.map fun info => (info.word ⟨5⟩).cls) =
      some .heap := by decide +kernel
  rw [hinfo] at hheap
  exact ⟨run_lookSteps true, usedOnce_lookSession true, info, hinfo, by decide +kernel, Option.some.inj hheap⟩

end EscapeAnalysis

import EscapeAnalysis.Proofs.Analysis.RestArguments
import EscapeAnalysis.Proofs.Recording.NoteFlows

/-!
# Arguments for noted parameters

Of a function without a body a caller knows the notes on the parameters. If the word of a note is unknown, the caller
takes the argument for one that escapes. The words of all other classes are applied alike, whatever the class says: the
argument itself is not taken for lost.

* `Program.HasGraph.known_by_notes` : calls of a function without a body go by its notes;
* `Program.HasGraph.edge_sink_of_unknown`, `Program.HasGraph.gathers_sink_of_unknown` : what is passed for a parameter
  with an unknown word flows into the sink;
* `noted_argument_lost` : which arguments are lost by the notes of a callee;
* `heap_note_not_assumed` : an argument for a parameter whose note says that it reaches the heap.
-/

namespace EscapeAnalysis

theorem Func.Renoted.exists_param {x y : Func} (h : x.Renoted y) {k : Nat} {param : Param}
    (hparam : y.params[k]? = some param) : ∃ old ∈ x.params, old.ty = param.ty := by
  have hget : (x.params.map Param.bare)[k]? = some param.bare := by
    rw [← h.params, List.getElem?_map, hparam]
    rfl
  rw [List.getElem?_map] at hget
  obtain ⟨old, hold, hbare⟩ := Option.map_eq_some_iff.1 hget
  have hty : old.bare.ty = param.bare.ty := by rw [hbare]
  exact ⟨old, List.mem_of_getElem? hold, hty⟩

/-- After the analysis an input of `g` with this name is unknown to the callers, unless it had a note before. -/
def Program.LeaksInput (p : Program) (c : Config) (o : Observer) (g : FuncId) (n : NodeId) : Prop :=
  ∀ (i : Nat) (param : Param), (p.func g).inputs[i]? = some param → param.name = some n → param.note = none →
    ∃ param' : Param, ((escapesWith c o p).program.func g).inputs[i]? = some param' ∧
      Word.ofNote param'.note = .plain .unknown

namespace Program.HasGraph

variable {p : Program} (hp : p.WellFormed) {c : Config} {o : Observer} {group : Group} {s : Flow}
  (h : p.HasGraph c o group s)
include hp h

/-- The functions in a graph are those of the program up to their notes. -/
theorem renoted (f : FuncId) : (p.func f).Renoted (s.program.func f) := by
  obtain ⟨before, after, run, _, hrun, hs⟩ := h
  rw [func_recorded hs f]
  exact (follows_groups (follows_nil hp.refs _ _) hrun).funcs f

omit hp in
/-- An imported function has the notes that it was given. -/
theorem func_of_imported {f : FuncId} (hf : (p.func f).imported = true) : s.program.func f = p.func f := by
  obtain ⟨before, after, run, hgroups, hrun, hs⟩ := h
  rw [func_recorded hs f]
  refine func_of_not_mem_groups hrun fun G hG hmem => ?_
  have hdecl := (List.mem_filter.1 (mem_decls_of_mem_groups (by rw [hgroups]; simp [hG]) hmem)).2
  rw [hf] at hdecl
  cases hdecl

theorem hasType_param (hd : p.Drafted) {f : FuncId} {k : Nat} {param : Param}
    (hparam : (s.program.func f).params[k]? = some param) : p.HasType param.ty := by
  obtain ⟨old, hold, hsame⟩ := (h.renoted hp f).exists_param hparam
  rw [← hsame]
  exact hd.typed.params f old (List.mem_append_left _ (List.mem_append_right _ hold))

theorem leaksInput_of_path {info : Info} (hinfo : (escapesWith c o p).result = .ok info) {g : FuncId} (hg : g ∈ group.funcs)
    {call : NodeId} (hcall : p.Below g call) {n : NodeId} {l : Level} (hroot : s.IsRoot s.sink)
    (hpath : s.Path s.sink l n) (hl : l.suffix ≤ 0) : p.LeaksInput c o g n := by
  intro i param hparam hname hnote
  obtain ⟨param', hparam', hword⟩ := h.ofNote_of_sink hp hinfo hg hcall.hasBody hparam hname hnote hroot hpath
  exact ⟨param', hparam', hword.resolve_right fun ⟨hlt, _⟩ => absurd hlt (Int.not_lt.2 hl)⟩

variable (hd : p.Drafted) {g : FuncId} (hg : g ∈ group.funcs) {call : NodeId} (hcall : p.Below g call) {f : FuncId}
  (hf : p.isGroupCandidate f = false)
include hf

/-- Calls of a function without a body go by its notes. -/
theorem known_by_notes {t : Flow} (ht : p.Recording s group.funcs g t) :
    ¬ (t.program.isGroupCandidate f = true ∧ t.info.state f ≠ .noted) := by
  rintro ⟨hcand, _⟩
  rw [isGroupCandidate, ht.func, (h.renoted hp f).rest] at hcand
  exact absurd hcand (Bool.eq_false_iff.1 hf)

variable {k : Nat} {n : NodeId} {param : Param} (hpointers : p.hasPointers param.ty = true)
  (hty : p.hasNoPointers (p.node n).ty = false) (hnote : (Word.ofNote param.note).cls = .unknown)
include hd hg hcall hpointers hty hnote

/-- An argument for a parameter with an unknown word flows into the sink. -/
theorem edge_sink_of_unknown (hpass : p.PassesAt call f k n)
    (htakes : (s.program.func f).TakesAt (p.node call).variadic k param) : s.Edge s.sink n := by
  have hlt : n.index < p.nodes.size := by
    obtain ⟨_, _, hc⟩ := hpass.arg
    refine p.lt_size_of_op_ne fun hblock => ?_
    have hsource := hc.isSource
    rw [hblock] at hsource
    cases hsource
  have hparamTy := h.hasType_param hp hd htakes.get
  refine h.holds hp hd (Flow.lasting_edge s.sink n) hg hcall fun t up ht => ?_
  rw [← ht.sink]
  exact Flow.records_call_loses hd.typed hp.refs ht.belongs hpass hty (ht.sink ▸ h.sink_ne hp hlt)
    (ht.func f ▸ htakes) (h.known_by_notes hp hf ht) hnote hpointers hparamTy up

/-- The slice of the arguments for a `...` parameter with an unknown word flows into the sink. -/
theorem gathers_sink_of_unknown (hpass : p.PassesFrom call f k n) (hname : (p.node n).op = .name)
    (hrest : (s.program.func f).RestAt k param) : s.Gathers s.sink n := by
  refine h.holds hp hd (Flow.lasting_gathers s.sink n) hg hcall fun t up ht => ?_
  rw [← ht.sink]
  exact Flow.records_call_byNotes hd.typed hp.refs ht.belongs hpass hname hty (ht.func f ▸ hrest)
    (h.known_by_notes hp hf ht) hnote hpointers (h.hasType_param hp hd hrest.get) ht.isName up

end Program.HasGraph

/-- Let a call in an analysed function pass a value for a parameter of a function without a body. If the word of the
note on the parameter is unknown, the value flows into the sink, as it is or among the `...` arguments, and an input of
the caller is unknown in turn. By the notes of all other words the argument itself is not lost: what is lost and what
flows to the results is told by the content flag and the output fields alone. -/
theorem noted_argument_lost {steps : List Script.Step} {session : Script.Session}
    (hsteps : Script.run steps = .ok session) {c : Config} {o : Observer} {info : Info}
    (hinfo : (escapesWith c o session.program).result = .ok info) :
    (∀ group ∈ session.program.groups, ∃ s, session.program.HasGraph c o group s ∧
      (∀ f, (session.program.func f).imported = true → s.program.func f = session.program.func f) ∧
      ∀ g ∈ group.funcs, ∀ {call : NodeId} {f : FuncId} {k : Nat} {param : Param} {n : NodeId},
        session.program.Below g call → session.program.isGroupCandidate f = false →
        session.program.hasPointers param.ty = true →
        session.program.hasNoPointers (session.program.node n).ty = false →
        (Word.ofNote param.note).cls = .unknown →
        (session.program.PassesAt call f k n →
          (s.program.func f).TakesAt (session.program.node call).variadic k param →
          s.Edge s.sink n ∧ session.program.LeaksInput c o g n) ∧
        (session.program.PassesFrom call f k n → (session.program.node n).op = .name →
          (s.program.func f).RestAt k param → s.Gathers s.sink n ∧ session.program.LeaksInput c o g n)) ∧
    ∀ (note : Option String) (outs : List NodeId) (src : NodeId),
      (Flow.applyNote note outs src = do
        ((Word.ofNote note).told outs).forM (Flow.perform src)
        if (Word.ofNote note).cls ≠ .unknown ∧ ¬ (Word.ofNote note).TellsFirst outs.length then
          throw (.corruptNote (note.getD ""))
        else return Word.ofNote note) ∧
      (⟨none, 0⟩ ∈ (Word.ofNote note).told outs ↔ (Word.ofNote note).cls = .unknown) := by
  have hp := Script.wellFormed_of_run hsteps
  have hd := Script.drafted_of_run hsteps
  refine ⟨fun group hgroup => ?_, fun note outs src => ⟨Flow.applyNote_eq note outs src, Word.lost_mem_told⟩⟩
  obtain ⟨s, h⟩ := Program.exists_hasGraph hinfo hgroup
  refine ⟨s, h, fun f => h.func_of_imported, ?_⟩
  intro g hg call f k param n hcall hf hpointers hty hnote
  refine ⟨fun hpass htakes => ?_, fun hpass hname hrest => ?_⟩
  · have hedge := h.edge_sink_of_unknown hp hd hg hcall hf hpointers hty hnote hpass htakes
    exact ⟨hedge, h.leaksInput_of_path hp hinfo hg hcall (h.isRoot_sink hedge) (.source hedge) (by decide)⟩
  · have hgathers := h.gathers_sink_of_unknown hp hd hg hcall hf hpointers hty hnote hpass hname hrest
    refine ⟨hgathers, ?_⟩
    obtain ⟨slice, hslice, hrestOf⟩ := hgathers
    exact h.leaksInput_of_path hp hinfo hg hcall (h.isRoot_sink hslice) (hrestOf.path (.source hslice)) (by decide)

/-- `func take(p *int64)` with this note, which has no body here, and `func give(a *int64) { take(a) }`. -/
def takeSteps (note : String) : List Script.Step :=
  [.type "P" (.ptr (.named "int64")), .importFunc { name := "take", params := [{ name := "p", ty := "P" }] } "take",
    .paramNote (.key "take") 0 note, .func { name := "give", params := [{ name := "a", ty := "P" }] } "give",
    .define (.key "give") [.form (.exprStmt (.call (.key "take") [.param 0] false))]]

def takeSession : Script.Session := Script.sessionOf (takeSteps "esc:")

theorem run_takeSteps : Script.run (takeSteps "esc:") = .ok takeSession := Script.run_eq_sessionOf (by decide +kernel)

/-- A note that tells nothing makes the input of `give` unknown. -/
theorem noted_argument_takeSteps : (Word.ofNote (some "esc:")).cls = .unknown ∧
    takeSession.program.groups = [⟨[⟨1⟩], false⟩] ∧ takeSession.program.LeaksInput default .silent ⟨1⟩ ⟨1⟩ := by
  obtain ⟨info, hinfo⟩ := Script.exists_eq_ok (x := (escapes takeSession.program).result) (by decide +kernel)
  have hgroups : takeSession.program.groups = [⟨[⟨1⟩], false⟩] := by decide +kernel
  obtain ⟨s, _, himported, hlost⟩ := (noted_argument_lost run_takeSteps hinfo).1 ⟨[⟨1⟩], false⟩ (by rw [hgroups]; simp)
  have hbelow : takeSession.program.Below ⟨1⟩ ⟨3⟩ := ⟨⟨3⟩, by decide +kernel, .refl⟩
  have hpass : takeSession.program.PassesAt ⟨3⟩ ⟨0⟩ 0 ⟨1⟩ :=
    ⟨by decide +kernel, ⟨1⟩, by decide +kernel, .self (by decide +kernel)⟩
  have htakes : (s.program.func ⟨0⟩).TakesAt (takeSession.program.node ⟨3⟩).variadic 0
      { name := some ⟨0⟩, ty := some (.compound ⟨0⟩), note := some "esc:" } := by
    rw [himported ⟨0⟩ (by decide +kernel)]
    exact ⟨by decide +kernel, by decide +kernel⟩
  refine ⟨by decide, hgroups, ?_⟩
  exact ((hlost ⟨1⟩ List.mem_cons_self hbelow (by decide +kernel) (by decide +kernel) (by decide +kernel)
    (by decide)).1 hpass htakes).2

/-- A note of the class `heap` tells no caller that the argument is on the heap: the input of `give` is noted as staying
where it is. -/
theorem heap_note_not_assumed : (Word.ofNote (some "esc:0x4")).cls = .heap ∧
    ((escapes (Script.sessionOf (takeSteps "esc:0x4")).program).program.func ⟨1⟩).inputs.map
      (fun param => Word.ofNote param.note) = [.plain .none] := by decide +kernel

end EscapeAnalysis

import EscapeAnalysis.Proofs.Analysis.Statements
import EscapeAnalysis.Proofs.Recording.Arguments

/-!
# `...` arguments that a callee stores

A function that stores the slice of its `...` arguments in a global variable lets all of them escape. The array of the
arguments is made by the caller, and there is one path from the sink to each of them: through the parameter, if the two
functions share a group, and else through what the caller knows of the parameter by its note.

* `Program.StoresRest p f k rest xs` : `f` stores the slice of the arguments from position `k` on;
* `Flow.RestOf.path` : a path to the slice goes on to the arguments;
* `rest_argument_unknown` : what is passed to such a function is unknown to the callers of the caller.
-/

namespace EscapeAnalysis

/-! ## The parameter -/

namespace Func

variable {x y : Func} {k : Nat} {param param' : Param}

theorem RestAt.inputs (h : x.RestAt k param) : x.inputs[x.recv.toList.length + k]? = some param := by
  rw [Func.inputs, List.getElem?_append_right (Nat.le_add_right _ _), Nat.add_sub_cancel_left]
  exact h.get

theorem Renoted.restAt (h : x.Renoted y) (hrest : x.RestAt k param)
    (hparam : y.inputs[x.recv.toList.length + k]? = some param') : y.RestAt k param' ∧ param'.ty = param.ty := by
  have hlength : y.recv.toList.length = x.recv.toList.length := by
    rw [← List.length_map Param.bare, ← Option.toList_map, h.recv, Option.toList_map, List.length_map]
  rw [Func.inputs, List.getElem?_append_right (by omega), hlength, Nat.add_sub_cancel_left] at hparam
  have hbare : param'.bare = param.bare := by
    have hget := congrArg (·[k]?) h.params
    simpa [List.getElem?_map, hparam, hrest.get] using hget
  have hvariadic : param'.bare.variadic = param.bare.variadic := by rw [hbare]
  have hty : param'.bare.ty = param.bare.ty := by rw [hbare]
  refine ⟨⟨hparam, hvariadic.trans hrest.variadic, fun before hbefore => ?_⟩, hty⟩
  have htake : (y.params.take k).map Param.bare = (x.params.take k).map Param.bare := by
    rw [List.map_take, List.map_take, h.params]
  have hmem := List.mem_map_of_mem (f := Param.bare) hbefore
  rw [htake] at hmem
  obtain ⟨old, hold, he⟩ := List.mem_map.1 hmem
  have hsame : old.bare.variadic = before.bare.variadic := by rw [he]
  exact hsame.symm.trans (hrest.first old hold)

end Func

namespace Program

/-- The function takes the arguments from position `k` on in `xs`, and stores `xs` or a part of it in a global
variable. -/
structure StoresRest (p : Program) (f : FuncId) (k : Nat) (rest : Param) (xs : NodeId) : Prop where
  takes : (p.func f).RestAt k rest
  name : rest.name = some xs
  blank : (p.node xs).isBlank = false
  stores : ∃ stmt dst src, p.Below f stmt ∧ p.Assigns stmt dst src ∧ p.IsGlobal dst ∧ p.Carries src xs

variable {p : Program} (hp : p.WellFormed) (hd : p.Drafted) (htyped : p.InputsTyped) {c : Config} {o : Observer}
  {info : Info} (hinfo : (escapesWith c o p).result = .ok info) {f : FuncId} {k : Nat} {rest : Param} {xs : NodeId}
  (hstores : p.StoresRest f k rest xs) (hpointers : p.hasPointers rest.ty = true)
include hp hd htyped hstores hpointers

theorem StoresRest.edge {group : Group} {s : Flow} (h : p.HasGraph c o group s) (hf : f ∈ group.funcs) :
    s.Edge s.sink xs := by
  obtain ⟨stmt, dst, src, hm, hassigns, hdst, hc⟩ := hstores.stores
  obtain ⟨_, _, hty⟩ := input_name hp htyped (List.mem_of_getElem? hstores.takes.inputs) hstores.name hpointers
  exact h.edge_sink_of_assigns hp hd hf hm hc hty hassigns hdst

include hinfo in
/-- After the analysis the parameter is unknown to the callers. -/
theorem StoresRest.unknown (hnote : rest.note = none) :
    ∃ rest', ((escapesWith c o p).program.func f).RestAt k rest' ∧ rest'.ty = rest.ty ∧
      Word.ofNote rest'.note = .plain .unknown := by
  by_cases hgroup : ∃ group ∈ p.groups, f ∈ group.funcs
  · obtain ⟨group, hgroup, hf⟩ := hgroup
    obtain ⟨s, h⟩ := exists_hasGraph hinfo hgroup
    have hedge := hstores.edge hp hd htyped hpointers h hf
    obtain ⟨_, _, _, hm, _⟩ := hstores.stores
    obtain ⟨rest', hrest', hword⟩ := h.ofNote_of_sink hp hinfo hf hm.hasBody hstores.takes.inputs hstores.name hnote
      (h.isRoot_sink hedge) (.source hedge)
    obtain ⟨hat, hty⟩ := (renoted_escapes hp.refs hinfo f).restAt hstores.takes hrest'
    exact ⟨rest', hat, hty, hword.resolve_right fun ⟨hlt, _⟩ => absurd hlt (by decide)⟩
  · have hfunc := func_escapes_of_not_mem hinfo fun G hG hf => hgroup ⟨G, hG, hf⟩
    exact ⟨rest, hfunc ▸ hstores.takes, rfl, by rw [hnote]; rfl⟩

end Program

/-! ## The arguments -/

/-- A path to the slice goes on to the arguments, one address up. -/
theorem Flow.RestOf.path {s : Flow} {root slice n : NodeId} {l : Level} (h : s.RestOf slice n)
    (hpath : s.Path root l slice) : s.Path root l.dec.copy n := by
  obtain ⟨array, hop, hleft, harray, hstored⟩ := h
  have hoperand : s.program.operand? l slice = some (l.dec, array) := by simp [Program.operand?, hop, hleft]
  exact (hpath.operand hoperand).along (by rw [harray]; rfl) hstored

namespace Program

variable {p : Program} (hp : p.WellFormed) (hd : p.Drafted) (htyped : p.InputsTyped) {c : Config} {o : Observer}
  {info : Info} (hinfo : (escapesWith c o p).result = .ok info) {f : FuncId} {k : Nat} {rest : Param} {xs : NodeId}
  (hstores : p.StoresRest f k rest xs) (hpointers : p.hasPointers rest.ty = true) (hnote : rest.note = none)
  {group : Group} {s : Flow} (h : p.HasGraph c o group s) {g : FuncId} (hg : g ∈ group.funcs) {call : NodeId}
  (hcall : p.Below g call) {a : NodeId} (hpass : p.PassesFrom call f k a) (hname : (p.node a).op = .name)
  (hty : p.hasNoPointers (p.node a).ty = false)
include hp hd htyped hinfo hstores hpointers hnote h hg hcall hpass hname hty

/-- The arguments flow to the sink, and on their way no dereference is passed. -/
theorem StoresRest.path : s.IsRoot s.sink ∧ ∃ l : Level, l.suffix ≤ 0 ∧ s.Path s.sink l a := by
  by_cases hf : f ∈ group.funcs
  · have hparam := List.mem_of_getElem? hstores.takes.inputs
    obtain ⟨hxs, hcls, _⟩ := input_name hp htyped hparam hstores.name hpointers
    have hedge := hstores.edge hp hd htyped hpointers h hf
    have hgathers : s.Gathers xs a := by
      refine h.holds hp hd (Flow.lasting_gathers xs a) hg hcall fun t up ht => ?_
      have hfunc : t.program.func f = p.func f := (ht.func f).trans (h.func hf)
      have hcand : t.program.isGroupCandidate f = true := by
        obtain ⟨_, _, _, hm, _⟩ := hstores.stores
        have hdecl := mem_decls_of_mem_groups h.mem_groups hf
        rw [isGroupCandidate, hfunc, hm.hasBody, Bool.and_true]
        exact (List.mem_filter.1 hdecl).2
      exact Flow.records_call_inGroup hd.typed hp.refs ht.belongs hpass hname hty (hfunc ▸ hstores.takes) hcand
        (ht.group f hf) hstores.name ⟨hxs, by simp [hcls], hstores.blank⟩ up
    obtain ⟨slice, hslice, hrest⟩ := hgathers
    have hpath : s.Path s.sink Level.zero.copy slice :=
      Flow.Path.along (.source hedge) (by rw [(h.belongs hp).op hxs (by simp)]; rfl) hslice
    exact ⟨h.isRoot_sink hedge, _, by decide, hrest.path hpath⟩
  · obtain ⟨hfunc, hcand⟩ := h.callee hp hinfo hg hcall hpass.callee hf
    obtain ⟨rest', hrest', hty', hword⟩ := hstores.unknown hp hd htyped hinfo hpointers hnote
    have hparamTy := hd.typed.params f rest (List.mem_append_left _ (List.mem_of_getElem? hstores.takes.inputs))
    have hgathers : s.Gathers s.sink a := by
      refine h.holds hp hd (Flow.lasting_gathers s.sink a) hg hcall fun t up ht => ?_
      have hcand' : ¬ (t.program.isGroupCandidate f = true ∧ t.info.state f ≠ .noted) := by
        rw [isGroupCandidate, ht.func, ht.other f hf]
        exact hcand
      rw [← ht.sink]
      exact Flow.records_call_byNotes hd.typed hp.refs ht.belongs hpass hname hty ((ht.func f).trans hfunc ▸ hrest') hcand'
        (by rw [hword]; rfl) (hty' ▸ hpointers) (hty' ▸ hparamTy) ht.isName up
    obtain ⟨slice, hslice, hrest⟩ := hgathers
    exact ⟨h.isRoot_sink hslice, _, by decide, hrest.path (.source hslice)⟩

end Program

/-- Let a function store the slice of its `...` arguments, or a part of it, in a global variable. After an analysis of
a program that a script built, an input that is passed to it as one of these arguments is unknown to the callers. A
read of elements of a slice has no part in this: its visit changes no graph. -/
theorem rest_argument_unknown {steps : List Script.Step} {session : Script.Session}
    (hsteps : Script.run steps = .ok session) {c : Config} {o : Observer} {info : Info}
    (hinfo : (escapesWith c o session.program).result = .ok info) :
    (∀ {f : FuncId} {k : Nat} {rest : Param} {xs : NodeId}, session.program.StoresRest f k rest xs →
      session.program.hasPointers rest.ty = true → rest.note = none →
      ∀ {g : FuncId} {call a : NodeId}, session.program.Below g call → session.program.PassesFrom call f k a →
      ∀ {i : Nat} {param : Param}, (session.program.func g).inputs[i]? = some param → param.name = some a →
        param.note = none →
        ∃ param', ((escapesWith c o session.program).program.func g).inputs[i]? = some param' ∧
          Word.ofNote param'.note = .plain .unknown) ∧
    ∀ {n xs : NodeId}, session.program.ReadsElements n xs → ∀ s up, Flow.Over session.program s →
      s.Idle (Flow.visit n up) := by
  have hp := Script.wellFormed_of_run hsteps
  have hd := Script.drafted_of_run hsteps
  have htyped := (Script.laid_of_run hsteps).inputs
  refine ⟨?_, fun hreads s up hs => Flow.visit_readsElements hs hd.typed hp.refs hreads up⟩
  intro f k rest xs hstores hpointers hnote g call a hcall hpass i param hparam hname hnone
  by_cases hgroup : ∃ group ∈ session.program.groups, g ∈ group.funcs
  · obtain ⟨group, hgroup, hg⟩ := hgroup
    obtain ⟨s, h⟩ := Program.exists_hasGraph hinfo hgroup
    cases hparamPointers : session.program.hasPointers param.ty with
    | false => exact h.ofNote_of_pointerless hp hinfo hg hcall.hasBody hparam hnone hd hparamPointers
    | true =>
      obtain ⟨hop, _, hty⟩ := Program.input_name hp htyped (List.mem_of_getElem? hparam) hname hparamPointers
      obtain ⟨hroot, l, hl, hpath⟩ := hstores.path hp hd htyped hinfo hpointers hnote h hg hcall hpass hop hty
      obtain ⟨param', hparam', hword⟩ := h.ofNote_of_sink hp hinfo hg hcall.hasBody hparam hname hnone hroot hpath
      exact ⟨param', hparam', hword.resolve_right fun ⟨hlt, _⟩ => absurd hlt (Int.not_lt.2 hl)⟩
  · have hfunc := Program.func_escapes_of_not_mem hinfo fun G hG hg => hgroup ⟨G, hG, hg⟩
    exact ⟨param, hfunc ▸ hparam, by rw [hnone]; rfl⟩

/-- `func hoard(xs ...*int64) { one = xs[0] }` and `func give(a, b *int64) { hoard(a, b) }`, where `one` and `all` are
global variables. With `whole`, `hoard` goes on with `all = xs[:]`. -/
def hoardSteps (whole : Bool) : List Script.Step :=
  [.type "P" (.ptr (.named "int64")), .type "S" (.slice (.named "P")), .global "all" "S" "all", .global "one" "P" "one",
    .func { name := "hoard", params := [{ name := "xs", ty := "S", variadic := true }] } "hoard",
    .func { name := "give", params := [{ name := "a", ty := "P" }, { name := "b", ty := "P" }] } "give",
    .define (.key "hoard")
      (.form (.assign (.ref (.key "one")) (.index (.param 0) (.int 0))) ::
        if whole then [.form (.assign (.ref (.key "all")) (.slice (.param 0) none none))] else []),
    .define (.key "give") [.form (.exprStmt (.call (.key "hoard") [.param 0, .param 1] false))]]

def hoardSession : Script.Session := Script.sessionOf (hoardSteps true)

theorem run_hoardSteps : Script.run (hoardSteps true) = .ok hoardSession := Script.run_eq_sessionOf (by decide +kernel)

theorem storesRest_hoardSteps :
    hoardSession.program.StoresRest ⟨0⟩ 0 { name := some ⟨2⟩, ty := some (.compound ⟨1⟩), variadic := true } ⟨2⟩ := by
  refine ⟨⟨by decide +kernel, rfl, by decide +kernel⟩, rfl, by decide +kernel, ⟨9⟩, ⟨0⟩, ⟨8⟩,
    ⟨⟨9⟩, by decide +kernel, .refl⟩, .one (by decide +kernel) (by decide +kernel) (by decide +kernel),
    ⟨by decide +kernel, by decide +kernel, by decide +kernel⟩, ?_⟩
  exact .operand (by decide +kernel) (m := ⟨2⟩) (by decide +kernel) (.self (by decide +kernel))

theorem passesFrom_hoardSteps : hoardSession.program.PassesFrom ⟨11⟩ ⟨0⟩ 0 ⟨4⟩ :=
  ⟨by decide +kernel, by decide +kernel, 1, ⟨4⟩, by decide, by decide +kernel, .self (by decide +kernel)⟩

theorem readsElements_hoardSteps : hoardSession.program.ReadsElements ⟨7⟩ ⟨2⟩ := by
  have hdst : (hoardSession.program.node ⟨7⟩).left = some ⟨1⟩ := by decide +kernel
  have hsrc : (hoardSession.program.node ⟨7⟩).right = some ⟨6⟩ := by decide +kernel
  exact .assign (by decide +kernel) hdst (by decide +kernel) hsrc (by decide +kernel) (by decide +kernel)
    (by decide +kernel)

/-- The second input of `give` is unknown, and it is not the assignment of `xs[0]` that makes it so. -/
theorem rest_argument_hoardSteps :
    (∃ param, ((escapes hoardSession.program).program.func ⟨1⟩).inputs[1]? = some param ∧
      Word.ofNote param.note = .plain .unknown) ∧
    ∀ s up, Flow.Over hoardSession.program s → s.Idle (Flow.visit ⟨7⟩ up) := by
  obtain ⟨info, hinfo⟩ := Script.exists_eq_ok (x := (escapes hoardSession.program).result) (by decide +kernel)
  obtain ⟨hunknown, hidle⟩ := rest_argument_unknown run_hoardSteps hinfo
  have hbelow : hoardSession.program.Below ⟨1⟩ ⟨11⟩ := ⟨⟨11⟩, by decide +kernel, .refl⟩
  have hinput : (hoardSession.program.func ⟨1⟩).inputs[1]? =
      some { name := some ⟨4⟩, ty := some (.compound ⟨0⟩) } := by
    decide +kernel
  exact ⟨hunknown storesRest_hoardSteps (by decide +kernel) rfl hbelow passesFrom_hoardSteps hinput rfl rfl,
    hidle readsElements_hoardSteps⟩

/-- A store of an element alone is not seen: both inputs of `give` are noted as staying where they are. -/
theorem element_store_unseen : ((escapes (Script.sessionOf (hoardSteps false)).program).program.func ⟨1⟩).inputs.map
    (fun param => Word.ofNote param.note) = [.plain .none, .plain .none] := by decide +kernel

end EscapeAnalysis

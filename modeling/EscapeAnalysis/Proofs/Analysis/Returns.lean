import EscapeAnalysis.Proofs.Analysis.Statements
import EscapeAnalysis.Proofs.Building.Scripts
import EscapeAnalysis.Proofs.Building.Layout
import EscapeAnalysis.Proofs.Recording.Depths

/-!
# Inputs that are returned

A return statement stores its values in the outputs of the function, so an input among them has a note that tells of
the output, or none that callers could rely on. This holds for outputs that move to the heap as well: an output is
outside of the scope of the inputs. A value that is returned in a blank result is stored nowhere, and its input has a
note as if it were not returned.

* `Program.atHome_of_follows` : the depths of inputs and outputs when the flood starts;
* `returned_input_told` : the notes of inputs that are returned;
* `blank_result_not_told` : an input that is returned in a blank result.
-/

namespace EscapeAnalysis

namespace Program

variable {p : Program}

/-! ## Outputs -/

/-- The name of a result is the output at its position, and numbered by it. -/
theorem Laid.output_of_result (h : p.Laid) (hwf : p.WellFormed) {f : FuncId} {k : Nat} {result : Param} {out : NodeId}
    (hresult : (p.func f).results[k]? = some result) (hname : result.name = some out) :
    (p.outputs (p.func f))[k]? = some out ∧ (p.node out).ordinal = k + 1 := by
  have hlaid := h.func f
  have houtputs : p.outputs (p.func f) = p.outputNames (p.func f) := by
    refine List.filter_congr fun n hn => ?_
    rw [Node.isNameOf, (hwf.decls f n hn).1, Bool.eq_iff_iff]
    simp
  have hget : (p.outputNames (p.func f))[k]? = some out := by
    have hnames := congrArg (fun xs : List (Option NodeId) => xs[k]?) hlaid.results
    simp only [List.getElem?_map, hresult, Option.map_some, hname] at hnames
    obtain ⟨m, hm, hsome⟩ := Option.map_eq_some_iff.1 hnames.symm
    cases hsome
    exact hm
  refine ⟨by rw [houtputs, hget], ?_⟩
  have hordinals := congrArg (fun xs : List Nat => xs[k]?) hlaid.ordinals
  have hk : k < (p.func f).results.length := by
    obtain ⟨hk, _⟩ := List.getElem?_eq_some_iff.1 hresult
    exact hk
  simp only [List.getElem?_map, hget, Option.map_some, List.getElem?_range' hk, Option.some.injEq] at hordinals
  omega

/-! ## Depths -/

/-- What the nodes of a program introduce are local variables. -/
theorem isNameOf_introduced (hp : ∀ n, p.IsFormedIn (p.node n)) {n m : NodeId} (hn : n ∈ p.introduced (p.node m)) :
    (p.node n).isNameOf .auto = true := by
  unfold introduced at hn
  split at hn
  · rename_i hop
    exact (hp m).declares (Or.inl hop) n (Option.mem_toList.1 hn)
  · rename_i hop
    obtain ⟨clause, hclause, hleft⟩ := List.mem_filterMap.1 hn
    exact (hp clause).declares (Or.inr ((hp m).clauses hop clause hclause)) n hleft
  · exact absurd hn List.not_mem_nil

/-- The inputs and outputs of the functions of a group are at their depths when the flood starts. -/
theorem atHome_of_follows (hp : p.WellFormed) (hlocal : ∀ n, p.IsFormedIn (p.node n))
    {groups : List Group} {run : Run} (hrun : run.Follows p groups) {group : Group} {s : Flow}
    (hs : group.funcs.forM Flow.recordFunc (Flow.start run group) = .ok () s) {f : FuncId} (hf : f ∈ group.funcs)
    {n : NodeId} (hdecl : n ∈ (p.func f).decls) (hcls : (p.node n).cls = .param ∨ (p.node n).cls = .result) :
    s.info.depth n = (p.node n).cls.homeDepth := by
  have hextends := hrun.nodes.trans (Flow.extends_start run group)
  have hop := (hp.decls f n hdecl).1
  have hlt := p.lt_size_of_op_eq_name hop
  have hfunc (g : FuncId) : (p.func g).Renoted ((Flow.start run group).program.func g) := hrun.funcs g
  have hfixed : Flow.Fixed (.all (Flow.start run group).sink fun m => m.index < p.nodes.size)
      (Flow.start run group) n := by
    refine ⟨(hextends.node n hlt).op.trans hop, ?_, fun q hq m hm hintro => ?_⟩
    · rw [(hextends.node n hlt).cls]
      rcases hcls with hcls | hcls <;> simp [hcls]
    · have hauto := isNameOf_introduced hlocal ((hextends.trans hq).introduced_of_lt hp.refs hm hintro)
      rcases hcls with hcls | hcls <;> simp [Node.isNameOf, hcls] at hauto
  have hhome := Flow.atHome_recorded (Flow.refs_start_all run group hrun.closed _) (hp.refs.confines hextends)
    (fun g _ m hm => ?_) hs hf trivial ?_ hfixed ?_
  · unfold Flow.AtHome at hhome
    rw [hhome, ((hextends.trans (Flow.frame_recorded hs).nodes).node n hlt).cls]
  · rw [(hfunc g).body] at hm
    exact hp.refs m (Or.inr ⟨g, Func.mem_refs_body hm⟩)
  · rw [(hfunc f).decls]
    exact hdecl
  · rw [(hextends.node n hlt).cls]
    exact hcls

/-- The outputs of a function are at a lower depth than its inputs when the flood starts. -/
theorem HasGraph.depth_output_lt (hp : p.WellFormed) (hlocal : ∀ n, p.IsFormedIn (p.node n))
    {c : Config} {o : Observer} {group : Group} {s : Flow} (h : p.HasGraph c o group s) {f : FuncId}
    (hf : f ∈ group.funcs) {out n : NodeId}
    (hout : out ∈ (p.func f).decls) (houtCls : (p.node out).cls = .result) (hn : n ∈ (p.func f).decls)
    (hcls : (p.node n).cls = .param) : s.info.depth out < s.info.depth n := by
  obtain ⟨_, _, run, _, hrun, hs⟩ := h
  have hfollows := follows_groups (follows_nil hp.refs _ _) hrun
  rw [atHome_of_follows hp hlocal hfollows hs hf hout (Or.inr houtCls),
    atHome_of_follows hp hlocal hfollows hs hf hn (Or.inl hcls), houtCls, hcls]
  decide

/-- An input that flows to an output as it is has a note that tells of the output, or is unknown. -/
theorem HasGraph.ofNote_of_returned (hp : p.WellFormed) {c : Config} {o : Observer} {group : Group} {s : Flow}
    (h : p.HasGraph c o group s)
    {info : Info} (hinfo : (escapesWith c o p).result = .ok info) {f : FuncId} (hf : f ∈ group.funcs)
    (hbody : (p.func f).hasBody = true) {i : Nat} {param : Param} (hparam : (p.func f).inputs[i]? = some param)
    {n : NodeId} (hname : param.name = some n) (hnote : param.note = none) {out : NodeId} (hedge : s.Edge out n)
    (hout : out ∈ p.outputs (p.func f)) (hdepth : out ∈ info.moved → s.info.depth out < s.info.depth n) :
    ∃ param', ((escapesWith c o p).program.func f).inputs[i]? = some param' ∧ (Word.ofNote param'.note = .plain .unknown ∨
      ∃ j : Fin 4, j.val + 1 = (p.node out).ordinal ∧ 0 < ((Word.ofNote param'.note).outputs.get j).val) := by
  refine h.exists_ofNote hp hinfo hf hbody hparam hname hnote
    (P := fun w => ∃ j : Fin 4, j.val + 1 = (p.node out).ordinal ∧ 0 < (w.outputs.get j).val) fun hscope => ?_
  obtain ⟨hn, hcurfn⟩ := h.input hp hf (List.mem_of_getElem? hparam) hname
  obtain ⟨hresult, hcurfn', hordinal⟩ := h.output hp hf hout
  have hboth : s.program.isOutputAndInput out n = true := by
    simp [isOutputAndInput, hresult, hn, hcurfn, hcurfn']
  have hop : (p.node out).op = .name := (hp.decls f out (List.mem_filter.1 hout).1).1
  have hroot := h.isRoot hp hop hedge
  have htells : ((s.dsts.foldl Flow.flood s).info.word n).Tells (s.program.node out).ordinal .zero := by
    by_cases hmoved : out ∈ info.moved
    · have hleaks : Level.leaks .zero (s.info.depth out) (s.info.depth n) = true := by
        simp [Level.leaks, Level.zero, hdepth hmoved]
      exact Flow.tells_foldl_flood_of_leaks hroot (.source hedge) hboth hleaks hscope
    · have hstays := (h.inputs hp hinfo hf hbody).2 out
      exact Flow.tells_foldl_flood hroot (.source hedge) hboth (h.sound hp).1.moved (fun hout => hmoved (hstays hout))
        hscope
  rw [hordinal] at htells
  rcases htells with ⟨_, j, hj, hpos, _⟩ | ⟨hsuffix, _⟩
  · exact ⟨j, hj, hpos⟩
  · exact absurd hsuffix (by decide)

end Program

/-! ## Returns -/

/-- Let a return statement of a function list as many values as the function has results, and let the value at some
position be an input without a note. After an analysis the note of the input is unknown or tells of the output at that
position, unless the result there is blank. An output that moves to the heap is told of because it is at a lower depth
than the inputs. -/
theorem returned_input_told {steps : List Script.Step} {session : Script.Session}
    (hsteps : Script.run steps = .ok session) {c : Config} {o : Observer} {info : Info}
    (hinfo : (escapesWith c o session.program).result = .ok info) {f : FuncId} {i : Nat} {param : Param}
    (hparam : (session.program.func f).inputs[i]? = some param) {n : NodeId} (hname : param.name = some n)
    (hnote : param.note = none) {stmt : NodeId} (hstmt : session.program.Below f stmt)
    (hop : (session.program.node stmt).op = .returnStmt)
    (hlength : (session.program.node stmt).list.length = (session.program.func f).results.length) {k : Nat}
    {src : NodeId} (hsrc : (session.program.node stmt).list[k]? = some src) (hcarries : session.program.Carries src n)
    {result : Param} (hresult : (session.program.func f).results[k]? = some result) {out : NodeId}
    (hout : result.name = some out) (hblank : (session.program.node out).isBlank = false) :
    ∃ param', ((escapesWith c o session.program).program.func f).inputs[i]? = some param' ∧
      (Word.ofNote param'.note = .plain .unknown ∨
        ∃ j : Fin 4, j.val = k ∧ 0 < ((Word.ofNote param'.note).outputs.get j).val) := by
  have hp := Script.wellFormed_of_run hsteps
  have hd := Script.drafted_of_run hsteps
  have hlaid := Script.laid_of_run hsteps
  have hlocal := Script.isFormedIn_of_run hsteps
  generalize session.program = p at *
  obtain ⟨hget, hordinal⟩ := hlaid.output_of_result hp hresult hout
  obtain ⟨houtDecl, houtName⟩ := List.mem_filter.1 (List.mem_of_getElem? hget)
  by_cases hgroup : ∃ G ∈ p.groups, f ∈ G.funcs
  · obtain ⟨G, hG, hf⟩ := hgroup
    obtain ⟨s, h⟩ := Program.exists_hasGraph hinfo hG
    cases hpointers : p.hasPointers param.ty with
    | false =>
      obtain ⟨param', hparam', hunknown⟩ := h.ofNote_of_pointerless hp hinfo hf hstmt.hasBody hparam hnote hd hpointers
      exact ⟨param', hparam', Or.inl hunknown⟩
    | true =>
      have hmem := List.mem_of_getElem? hparam
      obtain ⟨_, hcls, hty⟩ := Program.input_name hp hlaid.inputs hmem hname hpointers
      obtain ⟨houtOp, houtCls⟩ := Node.isNameOf_iff.1 houtName
      have hne : out ≠ n := by
        rintro rfl
        rw [hcls] at houtCls
        cases houtCls
      have hedge : s.Edge out n :=
        h.edge_of_returns hp hd hf hstmt hcarries hty ⟨hop, hlength, k, hget, hsrc⟩
          ⟨houtOp, by simp [houtCls], hblank⟩ hne
      have hdepth (hmoved : out ∈ info.moved) : s.info.depth out < s.info.depth n :=
        h.depth_output_lt hp hlocal hf houtDecl houtCls (hp.inputs f param hmem n hname).1 hcls
      obtain ⟨param', hparam', hword⟩ := h.ofNote_of_returned hp hinfo hf hstmt.hasBody hparam hname hnote hedge
        (List.mem_of_getElem? hget) hdepth
      refine ⟨param', hparam', hword.imp_right fun htold => ?_⟩
      obtain ⟨j, hj, hpos⟩ := htold
      exact ⟨j, by omega, hpos⟩
  · refine ⟨param, ?_, Or.inl ?_⟩
    · rw [Program.func_escapes_of_not_mem hinfo fun G hG hf => hgroup ⟨G, hG, hf⟩]
      exact hparam
    · rw [hnote]
      rfl

/-- `func f(p *int64)` with these results and the body `return values`. -/
def returnSteps (results : List (Option String × String)) (values : List Script.Form) : List Script.Step :=
  [.type "P" (.ptr (.named "int64")), .type "Q" (.ptr (.named "P")),
    .func { name := "f", params := [{ name := "p", ty := "P" }], results } "f",
    .define (.key "f") [.form (.ret values)]]

/-- `func f(p *int64) (r *int64, q **int64) { return p, &r }` -/
def returnSession : Script.Session :=
  Script.sessionOf (returnSteps [(some "r", "P"), (some "q", "Q")] [.param 0, .addr (.result 0)])

/-- The output `r` moves to the heap, since its address is returned, and the note of `p` hides nothing from the
callers. -/
theorem returned_input_returnSession : (∃ info, (escapes returnSession.program).result = .ok info ∧ ⟨1⟩ ∈ info.moved) ∧
    ∃ param', ((escapes returnSession.program).program.func ⟨0⟩).inputs[0]? = some param' ∧
      (Word.ofNote param'.note = .plain .unknown ∨
        ∃ j : Fin 4, j.val = 0 ∧ 0 < ((Word.ofNote param'.note).outputs.get j).val) := by
  obtain ⟨info, hinfo⟩ := Script.exists_eq_ok (x := (escapes returnSession.program).result) (by decide +kernel)
  have hmoved : ((escapes returnSession.program).result.toOption.map (·.moved.toList)) = some [⟨1⟩] := by decide +kernel
  refine ⟨⟨info, hinfo, ?_⟩, ?_⟩
  · rw [hinfo] at hmoved
    have hlist : info.moved.toList = [⟨1⟩] := Option.some.inj hmoved
    exact Array.mem_toList_iff.1 (by rw [hlist]; exact List.mem_singleton_self _)
  · have hparam : (returnSession.program.func ⟨0⟩).inputs[0]? =
        some { name := some ⟨0⟩, ty := some (.compound ⟨0⟩) } := by
      decide +kernel
    have hresult : (returnSession.program.func ⟨0⟩).results[0]? =
        some { name := some ⟨1⟩, ty := some (.compound ⟨0⟩) } := by
      decide +kernel
    have hbelow : returnSession.program.Below ⟨0⟩ ⟨4⟩ := ⟨⟨4⟩, by decide +kernel, .refl⟩
    exact returned_input_told (Script.run_eq_sessionOf (by decide +kernel)) hinfo hparam rfl rfl hbelow
      (by decide +kernel) (by decide +kernel) (by decide +kernel) (.self (by decide +kernel)) hresult rfl
      (by decide +kernel)

/-- An input that is returned in a blank result is noted as one that is not returned. -/
theorem blank_result_not_told :
    ((escapes (Script.sessionOf (returnSteps [(some "_", "P")] [.param 0])).program).program.func ⟨0⟩).inputs.map
      (fun param => Word.ofNote param.note) = [.plain .none] := by decide +kernel

end EscapeAnalysis

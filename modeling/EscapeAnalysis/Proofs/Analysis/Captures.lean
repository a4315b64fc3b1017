import EscapeAnalysis.Proofs.Analysis.Statements
import EscapeAnalysis.Proofs.Recording.Destinations

/-!
# Writes to captured variables

A walk goes from a captured name to the variable that it stands for, and not back. So what is assigned to a variable is
seen wherever the variable or a name that stands for it is read; what is assigned to a captured name is seen where this
name, or one that stands for it, is read, and not where the variable itself is.

* `Program.StandsFor p n m` : the name `n` is the variable `m`, or stands for it;
* `Program.Loads p d n` : the expression `d` reads what the variable `n` points to;
* `Program.StandsFor.path` : paths go on from a name to the variable;
* `captured_write_told` : an input that is read into a variable has a note that tells of it, if the variable is
  returned or stored.
-/

namespace EscapeAnalysis

open Relation (ReflTransGen)

namespace Program

/-- The name is captured from the variable. -/
def CapturedFrom (p : Program) (n m : NodeId) : Prop :=
  (p.node n).isNameOf .captured = true ∧ (p.node n).origin = some m

/-- The name is the variable, or stands for it through one capture or more. -/
def StandsFor (p : Program) : NodeId → NodeId → Prop := ReflTransGen p.CapturedFrom

/-- The expression reads what the variable points to, or a field of it. -/
def Loads (p : Program) (d n : NodeId) : Prop :=
  ((p.node d).op = .deref ∨ (p.node d).op = .dotPtr) ∧ ∃ q, (p.node d).left = some q ∧ p.StandsFor q n

/-- The function assigns to the variable `w` what the variable `n` points to, and that holds pointers. -/
def LoadsInto (p : Program) (f : FuncId) (w n : NodeId) : Prop :=
  p.IsLocal w ∧ ∃ stmt src d, p.Below f stmt ∧ p.Assigns stmt w src ∧ p.Carries src d ∧ p.Loads d n ∧
    p.hasNoPointers (p.node d).ty = false

/-- A function of the group assigns the value of the variable to a global variable. -/
def StoredBy (p : Program) (group : Group) (n : NodeId) : Prop :=
  ∃ f ∈ group.funcs, ∃ stmt dst src, p.Below f stmt ∧ p.Assigns stmt dst src ∧ p.IsGlobal dst ∧ p.Carries src n

/-- The function returns the value of the variable in the output. -/
def ReturnedBy (p : Program) (f : FuncId) (n out : NodeId) : Prop :=
  ∃ stmt src, p.Below f stmt ∧ p.Returns f stmt out src ∧ p.IsLocal out ∧ p.Carries src n

variable {p : Program} {s : Flow}

theorem StandsFor.path (hs : s.Over p) {n m : NodeId} (h : p.StandsFor n m) {root : NodeId} {l : Level}
    (hpath : s.Path root l n) : s.Path root l m := by
  induction h with
  | refl => exact hpath
  | @tail n m _ h ih =>
    obtain ⟨hname, horigin⟩ := h
    obtain ⟨hop, hcls⟩ := Node.isNameOf_iff.1 hname
    obtain ⟨_, _, he⟩ := hs.node (n := n) (by simp [hop])
    refine ih.operand ?_
    unfold operand?
    rw [he]
    simp [hop, hcls, horigin]

/-- An output stands for no other variable. -/
theorem StandsFor.eq_of_result {n m : NodeId} (h : p.StandsFor n m) (hn : (p.node n).isNameOf .result = true) :
    n = m := by
  rcases h.cases_head with h | ⟨_, ⟨hcaptured, _⟩, _⟩
  · exact h
  · rw [Node.isNameOf_iff] at hn hcaptured
    rw [hn.2] at hcaptured
    cases hcaptured.2

theorem Loads.path (hs : s.Over p) {d n : NodeId} (h : p.Loads d n) {root : NodeId} {l : Level}
    (hpath : s.Path root l d) : s.Path root l.inc n := by
  obtain ⟨hop, q, hq, hstands⟩ := h
  have hleft : (s.program.node d).left = some q := by
    rw [hs.left (by rcases hop with hop | hop <;> simp [hop]), hq]
  refine hstands.path hs (hpath.operand ?_)
  rcases hop with hop | hop
  · simp [operand?, hs.op hop (by simp), hleft]
  · simp [operand?, hs.op hop (by simp), hleft]

theorem LoadsInto.edge (hp : p.WellFormed) (hd : p.Drafted) {c : Config} {o : Observer} {group : Group}
    (h : p.HasGraph c o group s) {f : FuncId}
    (hf : f ∈ group.funcs) {w n : NodeId} (hloads : p.LoadsInto f w n) : ∃ d, p.Loads d n ∧ s.Edge w d := by
  obtain ⟨hw, stmt, src, d, hstmt, hassigns, hc, hload, hty⟩ := hloads
  have hne : w ≠ d := by
    rintro rfl
    rcases hload.1 with hop | hop <;> simp [hw.op] at hop
  exact ⟨d, hload, h.edge_of_assigns hp hd hf hstmt hc hty hassigns hw hne⟩

end Program

/-- Let a function of a group assign to a variable or captured name what an input of a function of the group points to,
and let a name that stands for this one be stored in a global variable by a function of the group, or be returned by
the function of the input in an output that stays on the stack. After an analysis of a program that a script built, the
input is unknown to the callers, or its note tells of a flow to an output or of content that escapes. Only the name that
is assigned to is fed by an assignment, also if it stands for another variable. -/
theorem captured_write_told {steps : List Script.Step} {session : Script.Session}
    (hsteps : Script.run steps = .ok session) {c : Config} {o : Observer} {info : Info}
    (hinfo : (escapesWith c o session.program).result = .ok info) :
    (∀ group ∈ session.program.groups, ∀ f ∈ group.funcs, (session.program.func f).hasBody = true →
      ∀ {i : Nat} {param : Param} {n : NodeId}, (session.program.func f).inputs[i]? = some param →
        param.name = some n → param.note = none →
      ∀ g ∈ group.funcs, ∀ {w r : NodeId}, session.program.LoadsInto g w n → session.program.StandsFor r w →
        session.program.hasNoPointers (session.program.node r).ty = false →
        (session.program.StoredBy group r ∨ ∃ out, session.program.ReturnedBy f r out ∧ out ∉ info.moved) →
        ∃ param', ((escapesWith c o session.program).program.func f).inputs[i]? = some param' ∧
          (Word.ofNote param'.note = .plain .unknown ∨ (∃ k, 0 < ((Word.ofNote param'.note).outputs.get k).val) ∨
            (Word.ofNote param'.note).content = true)) ∧
    ∀ {stmt w : NodeId}, (session.program.node stmt).op = .assign → (session.program.node stmt).left = some w →
      session.program.IsLocal w → ∀ s up, Flow.Over session.program s → s.FeedsOnly w (Flow.visit stmt up) := by
  have hp := Script.wellFormed_of_run hsteps
  have hd := Script.drafted_of_run hsteps
  refine ⟨?_, fun hop hleft hw s up hs => Flow.feedsOnly_visit_assign hs hop hleft hw up⟩
  intro group hgroup f hf hbody i param n hparam hname hnote g hg w r hloads hr hty huse
  obtain ⟨s, h⟩ := Program.exists_hasGraph hinfo hgroup
  have hs := h.belongs hp
  have hw : (session.program.node w).op = .name := hloads.1.op
  obtain ⟨d, hload, hedge⟩ := hloads.edge hp hd h hg
  have hpath {root : NodeId} (hroot : s.Path root .zero r) : s.Path root Level.zero.copy.inc n :=
    hload.path hs ((hr.path hs hroot).along (by rw [hs.op hw (by simp)]; rfl) hedge)
  rcases huse with ⟨reader, hreader, stmt, dst, src, hstmt, hassigns, hdst, hc⟩ |
    ⟨out, ⟨stmt, src, hstmt, hreturns, hout, hc⟩, hstays⟩
  · have hsink := h.edge_sink_of_assigns hp hd hreader hstmt hc hty hassigns hdst
    obtain ⟨param', hparam', hword⟩ := h.ofNote_of_sink hp hinfo hf hbody hparam hname hnote (h.isRoot_sink hsink)
      (hpath (.source hsink))
    exact ⟨param', hparam', hword.imp_right fun hcontent => Or.inr hcontent.2⟩
  · obtain ⟨_, hget, _⟩ := hreturns.values
    have hmem := List.mem_of_getElem? hget
    have htold {l : Level} {m : NodeId} (hsource : s.Edge out m) (hn : s.Path out l n) :=
      h.ofNote_of_output hp hinfo hf hbody hparam hname hnote (h.isRoot hp hout.op hsource) hn hmem hstays
    by_cases he : out = r
    · -- A return of the output itself is no flow, and what is assigned is assigned to the output.
      have hself : out = w := (he ▸ hr : session.program.StandsFor out w).eq_of_result (List.mem_filter.1 hmem).2
      rw [← hself] at hedge
      exact htold hedge (hload.path hs (.source hedge))
    · have hreturned := h.edge_of_returns hp hd hf hstmt hc hty hreturns hout he
      exact htold hreturned (hpath (.source hreturned))

/-- A closure that assigns to the captured `x` what the captured `p` points to, with a closure that stores it:
`func stash(p **int64) { var x *int64; func() { x = *p; func() { g = x }() }() }`. With `outside`, the function stores
it: `func stash(p **int64) { var x *int64; func() { x = *p }(); g = x }`. -/
def stashSteps (outside : Bool) : List Script.Step :=
  [.type "P" (.ptr (.named "int64")), .type "PP" (.ptr (.named "P")), .global "g" "P" "g",
    .func { name := "stash", params := [{ name := "p", ty := "PP" }] } "stash",
    .define (.key "stash")
      ([.form (.bind "p" (.param 0)), .form (.declare "x" "P" "x"),
        .form (.exprStmt (.callValue (.closure {}
          ([.form (.bind "y" (.capture (.ref (.key "x")) false)),
            .form (.assign (.ref (.key "y")) (.deref (.capture (.ref (.key "p")) true)))] ++
            if outside then [] else [.form (.exprStmt (.callValue (.closure {}
              [.form (.assign (.ref (.key "g")) (.capture (.ref (.key "y")) true))] none) []))]) none) []))] ++
        if outside then [.form (.assign (.ref (.key "g")) (.ref (.key "x")))] else [])]

def stashSession : Script.Session := Script.sessionOf (stashSteps false)

theorem run_stashSteps : Script.run (stashSteps false) = .ok stashSession := Script.run_eq_sessionOf (by decide +kernel)

def stashGroup : Group := ⟨[⟨2⟩, ⟨1⟩, ⟨0⟩], false⟩

theorem loadsInto_stashSteps : stashSession.program.LoadsInto ⟨1⟩ ⟨4⟩ ⟨1⟩ := by
  refine ⟨⟨by decide +kernel, by decide +kernel, by decide +kernel⟩, ⟨7⟩, ⟨6⟩, ⟨6⟩, ⟨⟨7⟩, by decide +kernel, .refl⟩,
    .one (by decide +kernel) (by decide +kernel) (by decide +kernel), .self (by decide +kernel), ?_, by decide +kernel⟩
  exact ⟨by decide +kernel, ⟨5⟩, by decide +kernel, .single ⟨by decide +kernel, by decide +kernel⟩⟩

theorem storedBy_stashSteps : stashSession.program.StoredBy stashGroup ⟨8⟩ :=
  ⟨⟨2⟩, by decide, ⟨9⟩, ⟨0⟩, ⟨8⟩, ⟨⟨9⟩, by decide +kernel, .refl⟩,
    .one (by decide +kernel) (by decide +kernel) (by decide +kernel),
    ⟨by decide +kernel, by decide +kernel, by decide +kernel⟩, .self (by decide +kernel)⟩

/-- The inner closure reads the name that the outer one assigns to, so the note of `p` tells of the store. The variable
`x` itself is not fed. -/
theorem captured_write_stashSteps :
    (∃ param, ((escapes stashSession.program).program.func ⟨0⟩).inputs[0]? = some param ∧
      (Word.ofNote param.note = .plain .unknown ∨ (∃ k, 0 < ((Word.ofNote param.note).outputs.get k).val) ∨
        (Word.ofNote param.note).content = true)) ∧
    ∀ s up, Flow.Over stashSession.program s → s.FeedsOnly ⟨4⟩ (Flow.visit ⟨7⟩ up) := by
  obtain ⟨info, hinfo⟩ := Script.exists_eq_ok (x := (escapes stashSession.program).result) (by decide +kernel)
  obtain ⟨htold, hfeeds⟩ := captured_write_told run_stashSteps hinfo
  have hinput : (stashSession.program.func ⟨0⟩).inputs[0]? =
      some { name := some ⟨1⟩, ty := some (.compound ⟨1⟩) } := by
    decide +kernel
  have hstands : stashSession.program.StandsFor ⟨8⟩ ⟨4⟩ := .single ⟨by decide +kernel, by decide +kernel⟩
  exact ⟨htold stashGroup (by decide +kernel) ⟨0⟩ (by decide) (by decide +kernel) hinput rfl rfl ⟨1⟩ (by decide)
      loadsInto_stashSteps hstands (by decide +kernel) (Or.inl storedBy_stashSteps),
    hfeeds (by decide +kernel) (by decide +kernel) loadsInto_stashSteps.1⟩

/-- If the function itself reads `x`, the assignment of the closure is not seen, and `p` is noted as staying where it
is. -/
theorem captured_write_unseen : ((escapes (Script.sessionOf (stashSteps true)).program).program.func ⟨0⟩).inputs.map
    (fun param => Word.ofNote param.note) = [.plain .none] := by decide +kernel

end EscapeAnalysis

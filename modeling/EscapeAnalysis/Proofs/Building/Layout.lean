import EscapeAnalysis.Proofs.Building.Scripts

/-!
# The layout of a program that a script builds

What a script leaves behind, whatever it declares, however deep its closures are nested and however often it defines a
function again. Chains of parts go down, a function declares exactly its own variables in the order in which they were
made, its outputs are numbered from one, captures stand for a variable, closures come after the function around them,
and a label belongs to one body.

* `Program.Arranged` : the layout;
* `Script.arranged_of_run` : every script leaves it.
-/

namespace EscapeAnalysis

structure Program.Arranged (p : Program) : Prop where
  /-- What a node is made with was made before it. -/
  earlier : ∀ n, ∀ m ∈ (p.node n).earlier, m.index < n.index
  chains : WellFounded fun m n => m ∈ (p.node n).earlier
  increasing : ∀ f, (p.func f).decls.Pairwise fun m n => m.index < n.index
  declared : ∀ f n, n ∈ (p.func f).decls ↔
    (p.node n).op = .name ∧ (p.node n).cls.isVariable = true ∧ (p.node n).curfn = some f
  /-- The outputs of a function are named in the order of its results, and numbered. -/
  outputs : ∀ f, ∃ names : List NodeId, (p.func f).results.map (·.name) = names.map some ∧
    names.Pairwise (fun m n => m.index < n.index) ∧
    (∀ n, n ∈ names ↔ (p.node n).isNameOf .result = true ∧ (p.node n).curfn = some f) ∧
    names.map (fun n => (p.node n).ordinal) = List.range' 1 names.length
  captures : ∀ f, ∀ n ∈ (p.func f).captures,
    (p.node n).isNameOf .captured = true ∧ (p.node n).curfn = some f ∧ (p.node n).origin ≠ none
  outer : ∀ f g, (p.func f).outer = some g → g.index < f.index
  /-- Nodes with the same label were made in the same body. -/
  labels : ∀ m n l, (p.node m).label = some l → (p.node n).label = some l →
    ∃ b, (p.node m).home = some b ∧ (p.node n).home = some b
  /-- No node was made in a body that is still to be begun. -/
  homes : ∀ n b, (p.node n).home = some b → p.Begun b

namespace Program

variable {p : Program}

/-- A label is in one body only. -/
theorem LabelIn.unique {l : LabelId} {b c : BodyId} (hb : p.LabelIn l b) (hc : p.LabelIn l c) : b = c := by
  obtain ⟨x, hx, hb⟩ := hb
  obtain ⟨y, hy, hc⟩ := hc
  rw [hx] at hy
  cases hy
  exact Option.some.inj (hb.symm.trans hc)

theorem Laid.wellFounded_earlier (h : p.Laid) : WellFounded fun m n => m ∈ (p.node n).earlier :=
  Subrelation.wf (fun {m n} hm => (h.node n).earlier m hm) (measure NodeId.index).wf

theorem Tidy.mem_decls_iff (h : p.Tidy) (hwf : p.WellFormed) (f : FuncId) (n : NodeId) : n ∈ (p.func f).decls ↔
    (p.node n).op = .name ∧ (p.node n).cls.isVariable = true ∧ (p.node n).curfn = some f := by
  constructor
  · intro hn
    obtain ⟨hop, hcurfn⟩ := hwf.decls f n hn
    exact ⟨hop, (h.decls f n hn).1, hcurfn⟩
  · rintro ⟨hop, hcls, hcurfn⟩
    obtain ⟨g, hg⟩ := (h.placed n).declared hop hcls
    have hown := (hwf.decls g n hg).2
    rw [hcurfn] at hown
    cases hown
    exact hg

theorem Tidy.mem_outputNames_iff (h : p.Tidy) (hwf : p.WellFormed) (f : FuncId) (n : NodeId) :
    n ∈ p.outputNames (p.func f) ↔ (p.node n).isNameOf .result = true ∧ (p.node n).curfn = some f := by
  unfold outputNames
  rw [List.mem_filter, h.mem_decls_iff hwf, Node.isNameOf]
  simp only [Bool.and_eq_true, beq_iff_eq, decide_eq_true_eq]
  constructor
  · rintro ⟨⟨hop, _, hcurfn⟩, hcls⟩
    exact ⟨⟨hop, hcls⟩, hcurfn⟩
  · rintro ⟨⟨hop, hcls⟩, hcurfn⟩
    exact ⟨⟨hop, by rw [hcls]; rfl, hcurfn⟩, hcls⟩

/-- The results of a function have as many names. -/
theorem FuncLaid.length_outputNames {f : FuncId} {x : Func} (h : p.FuncLaid f x) :
    (p.outputNames x).length = x.results.length := by
  have hlength := congrArg List.length h.results
  rw [List.length_map, List.length_map] at hlength
  exact hlength.symm

theorem Laid.arranged (h : p.Laid) (htidy : p.Tidy) (hwf : p.WellFormed) : p.Arranged where
  earlier n := (h.node n).earlier
  chains := h.wellFounded_earlier
  increasing f := (h.func f).decls
  declared := htidy.mem_decls_iff hwf
  outputs f := by
    have hlaid := h.func f
    refine ⟨p.outputNames (p.func f), hlaid.results, hlaid.decls.filter _, htidy.mem_outputNames_iff hwf f, ?_⟩
    rw [hlaid.ordinals, hlaid.length_outputNames]
  captures f n hn := by
    obtain ⟨hname, hcurfn, _⟩ := htidy.captures f n hn
    exact ⟨hname, hcurfn, (h.func f).captures n hn⟩
  outer f := (h.func f).outer
  labels m n l hm hn := by
    obtain ⟨b, hb, hlb⟩ := (h.node m).label l hm
    obtain ⟨c, hc, hlc⟩ := (h.node n).label l hn
    rw [hlb.unique hlc] at hb
    exact ⟨c, hb, hc⟩
  homes n := (h.node n).home

end Program

namespace Script

/-- A script leaves a program in which everything has its place. -/
theorem arranged_of_run {steps : List Step} {session : Session} (h : run steps = .ok session) :
    session.program.Arranged :=
  (laid_of_run h).arranged (tidy_of_run h) (wellFormed_of_run h)

/-- A closure captures a variable and an input, and jumps to a label of the same name as the function around it, which is
then defined once more. -/
def nestedSteps : List Step :=
  [.type "P" (.ptr (.named "int64")), .global "g" "P" "g",
    .func
      { name := "f", params := [{ name := "p", ty := "P" }, { name := "q", ty := "P" }],
        results := [(some "r", "P"), (none, "P")] } "f",
    .define (.key "f")
      [.form (.declare "x" "P" "x"), .form (.bind "p" (.param 0)), .form (.label "L"),
        .form (.exprStmt (.closure {}
          [.form (.label "L"), .form (.assign (.capture (.ref (.key "x")) false) (.capture (.ref (.key "p")) true)),
            .form (.goto "L")] none)),
        .form (.goto "L"), .form (.ret [.ref (.key "x"), .param 1])],
    .define (.key "f") [.form (.label "L"), .form (.goto "L"), .form (.ret [.param 1, .param 1])]]

def nestedSession : Session := sessionOf nestedSteps

/-- Three bodies have three labels of one name. -/
theorem arranged_nestedSession : nestedSession.program.Arranged ∧
    nestedSession.program.labels.map (·.name) = #["L", "L", "L"] ∧ nestedSession.program.bodies = 3 :=
  ⟨arranged_of_run (run_eq_sessionOf (by decide +kernel)), by decide +kernel, by decide +kernel⟩

end Script

end EscapeAnalysis

import EscapeAnalysis.Proofs.Flood.Visits
import EscapeAnalysis.Proofs.Reporting.Twins

/-!
# Diagnostics do not influence the analysis

The flood, the notes and the end of a group take twins to twins (`Flow.Twin`), so the analyses of a program under any
two configurations and observers differ only in their reports; and these are related by what one finding adds to them.

* `escapesWith_twin` : two analyses of a program;
* `Config.pairs_off`, `Config.pairs_limit`, `Config.pairs_verbose` : how reports under two configurations are related.
-/

namespace EscapeAnalysis

variable {c c' : Config} {R : Report → Report → Prop}

namespace Flow

/-! ## What twins share -/

section Twin

variable {s t : Flow} (h : Twin c c' R s t)
include h

theorem Twin.program : t.program = s.program := by
  obtain ⟨_, _, _, _, rfl⟩ := h
  rfl

theorem Twin.word (n : NodeId) : t.info.word n = s.info.word n := by
  obtain ⟨_, _, _, _, rfl⟩ := h
  rfl

theorem Twin.depth (n : NodeId) : t.info.depth n = s.info.depth n := by
  obtain ⟨_, _, _, _, rfl⟩ := h
  rfl

theorem Twin.nextVisits (l : Level) (n : NodeId) : t.nextVisits l n = s.nextVisits l n := by
  obtain ⟨_, _, _, _, rfl⟩ := h
  rfl

theorem Twin.setWord (n : NodeId) (w : Word) : Twin c c' R (s.setWord n w) (t.setWord n w) := by
  obtain ⟨rfl, observer, report, hR, rfl⟩ := h
  exact ⟨rfl, observer, report, hR, rfl⟩

end Twin

theorem twin_ite {p q : Prop} [Decidable p] [Decidable q] (hpq : p ↔ q) {s t s' t' : Flow} (h : Twin c c' R s t)
    (h' : Twin c c' R s' t') : Twin c c' R (if p then s else s') (if q then t else t') := by
  by_cases hp : p
  · rw [if_pos hp, if_pos (hpq.1 hp)]
    exact h
  · rw [if_neg hp, if_neg fun hq => hp (hpq.2 hq)]
    exact h'

theorem twin_foldl {α : Type} {g : Flow → α → Flow} (hg : ∀ x s t, Twin c c' R s t → Twin c c' R (g s x) (g t x))
    (xs : List α) {s t : Flow} (h : Twin c c' R s t) : Twin c c' R (xs.foldl g s) (xs.foldl g t) := by
  induction xs generalizing s t with
  | nil => exact h
  | cons x xs ih => exact ih (hg x s t h)

/-! ## The flood -/

section Flood

variable (hc : c.Pairs c' R) {s t : Flow} (h : Twin c c' R s t)
include hc h

theorem twin_moveToHeap (n : NodeId) : Twin c c' R (s.moveToHeap n) (t.moveToHeap n) := by
  have hmoved : Hushed fun s => { s with info := { s.info with moved := s.info.moved.push n } } :=
    fun _ _ _ _ => ⟨rfl, rfl, rfl⟩
  have hfound := ((hmoved.twin h).setWord n (.plain .heap)).find hc (.moved n)
  have hmoves := h
  obtain ⟨_, _, _, _, rfl⟩ := h
  exact twin_ite Iff.rfl hmoves (twin_ite Iff.rfl hmoves hfound)

theorem twin_addressEscapes (n : NodeId) : Twin c c' R (s.addressEscapes n) (t.addressEscapes n) := by
  unfold addressEscapes
  rw [h.program]
  split
  · exact twin_moveToHeap hc h _
  · exact h

theorem twin_reachOutput (l : Level) (dst src : NodeId) :
    Twin c c' R (s.reachOutput l dst src) (t.reachOutput l dst src) := by
  have hfind := h.find hc (.leaksToResult src dst l)
  simp only [reachOutput, hfind.word, hfind.program]
  exact hfind.setWord _ _

theorem twin_leakParam (l : Level) (dst src : NodeId) :
    Twin c c' R (s.leakParam l dst src) (t.leakParam l dst src) := by
  simp only [leakParam, h.word, h.depth]
  exact (h.setWord src _).find hc _

theorem twin_reachName (l : Level) (dst src : NodeId) (inScope : Bool) :
    Twin c c' R (s.reachName l dst src inScope) (t.reachName l dst src inScope) := by
  simp only [reachName, h.depth, h.program]
  split
  · split
    · exact twin_leakParam hc h l dst src
    · exact h
  · split
    · exact h.find hc _
    · exact h
  · exact h

theorem twin_reachAddress (l : Level) (dst src : NodeId) :
    Twin c c' R (s.reachAddress l dst src) (t.reachAddress l dst src) := by
  have hword := h.setWord src (.plain .heap)
  simp only [reachAddress, h.depth, h.program]
  split
  · refine Twin.find hc _ ?_
    cases (s.program.node src).left with
    | none => exact hword
    | some x => exact twin_addressEscapes hc hword x
  · exact h

theorem twin_reachAlloc (l : Level) (dst src : NodeId) :
    Twin c c' R (s.reachAlloc l dst src) (t.reachAlloc l dst src) := by
  simp only [reachAlloc, h.depth]
  split
  · exact (h.setWord src _).find hc _
  · exact h

theorem twin_reachContent (l : Level) (dst src : NodeId) :
    Twin c c' R (s.reachContent l dst src) (t.reachContent l dst src) := by
  simp only [reachContent, h.word, h.program]
  split
  · exact (h.setWord src _).find hc _
  · exact h

theorem twin_reachNode (l : Level) (dst src : NodeId) (inScope : Bool) :
    Twin c c' R (s.reachNode l dst src inScope) (t.reachNode l dst src inScope) := by
  rw [reachNode_eq, reachNode_eq, h.program]
  split
  · exact twin_reachName hc h l dst src inScope
  split
  · exact twin_reachAddress hc h l dst src
  split
  · exact twin_reachAlloc hc h l dst src
  · exact h

theorem twin_reach (l : Level) (dst src : NodeId) : Twin c c' R (s.reach l dst src) (t.reach l dst src) := by
  simp only [reach, h.word, h.program]
  split
  · exact twin_reachOutput hc h l dst src
  · exact twin_reachNode hc (twin_reachContent hc h l dst src) l dst src _

theorem twin_walkBack (dst : NodeId) (fuel : Nat) (rest : List (Level × NodeId)) (memo : Table (Option Level)) :
    Twin c c' R (walkBack dst fuel rest memo s) (walkBack dst fuel rest memo t) := by
  induction fuel generalizing rest memo s t with
  | zero => exact h
  | succ fuel ih =>
    cases rest with
    | nil => exact h
    | cons v rest =>
      obtain ⟨l, src⟩ := v
      unfold walkBack
      split
      · exact ih h rest memo
      · rename_i m _
        have hreach := twin_reach hc (h.emit (.reach m dst src)) m dst src
        dsimp only
        rw [hreach.nextVisits]
        exact ih hreach _ _

theorem twin_flood (dst : NodeId) : Twin c c' R (s.flood dst) (t.flood dst) := by
  have hwalks : Twin c c' R
      ((s.sources.get dst.index).foldl (fun u src => walkBack dst s.walkFuel [(.zero, src)] .empty u) s)
      ((s.sources.get dst.index).foldl (fun u src => walkBack dst s.walkFuel [(.zero, src)] .empty u) t) := by
    rw [← Array.foldl_toList, ← Array.foldl_toList]
    exact twin_foldl (fun src u v huv => twin_walkBack hc huv dst s.walkFuel [(.zero, src)] .empty) _ h
  unfold flood
  rw [h.program]
  split
  · obtain ⟨_, _, _, _, rfl⟩ := h
    exact hwalks
  · obtain ⟨_, _, _, _, rfl⟩ := h
    exact hwalks
  · exact h

end Flood

/-! ## Notes and the end of a group -/

theorem Twin.writeNote {s t : Flow} (h : Twin c c' R s t) (f : FuncId) (param : Param) (note : String)
    (set : String → Program → Program) : Twin c c' R (s.writeNote f param note set) (t.writeNote f param note set) := by
  obtain ⟨rfl, observer, report, hR, rfl⟩ := h
  exact ⟨rfl, _, report, hR, rfl⟩

theorem Twin.noteFor? {s t : Flow} (h : Twin c c' R s t) (param : Param) : t.noteFor? param = s.noteFor? param := by
  obtain ⟨_, _, _, _, rfl⟩ := h
  rfl

theorem twin_noteRecv (f : FuncId) (recv : Option Param) {s t : Flow} (h : Twin c c' R s t) :
    Twin c c' R (noteRecv f recv s) (noteRecv f recv t) := by
  unfold noteRecv
  split
  · rw [h.noteFor?]
    split
    · exact h.writeNote f _ _ _
    · exact h
  · exact h

theorem twin_noteParams (f : FuncId) {note? : Flow → Param → Option String}
    (hnote : ∀ {s t : Flow}, Twin c c' R s t → ∀ param, note? t param = note? s param) (i : Nat) (params : List Param)
    {s t : Flow} (h : Twin c c' R s t) : Twin c c' R (noteParams f note? i params s) (noteParams f note? i params t) := by
  induction params generalizing i s t with
  | nil => exact h
  | cons param params ih =>
    unfold noteParams
    rw [hnote h]
    dsimp only
    refine ih (i + 1) ?_
    split
    · exact h.writeNote f _ _ _
    · exact h

theorem twin_noteFunc (f : FuncId) {s t : Flow} (h : Twin c c' R s t) : Twin c c' R (s.noteFunc f) (t.noteFunc f) := by
  have hstate : Hushed fun s => { s with info := s.info.setState f .noted } := fun _ _ _ _ => ⟨rfl, rfl, rfl⟩
  have hnoted := hstate.twin h
  obtain ⟨_, _, _, _, rfl⟩ := h
  refine twin_ite Iff.rfl ?_ (twin_ite Iff.rfl ?_ hnoted)
  · exact twin_noteParams f (fun h param => h.noteFor? param) 0 _ (twin_noteRecv f _ hnoted)
  · exact twin_noteParams f (fun h param => by rw [h.program]) 0 _ hnoted

/-- Finding what stays changes nothing if nothing is reported, so it may be done in any case. -/
theorem findStays_eq (s : Flow) : s.findStays = s.pending.foldl
    (fun s (n, f) => if s.info.word n = .plain .none then s.find (.stays n f) else s) s := by
  unfold findStays
  split
  · rfl
  · rename_i hoff
    have hfind (x : Finding) : s.find x = s := by
      simp [find, Config.record, hoff]
    rw [← Array.foldl_toList]
    induction s.pending.toList with
    | nil => rfl
    | cons x xs ih =>
      obtain ⟨n, f⟩ := x
      rw [List.foldl_cons]
      dsimp only
      rw [hfind, ite_self]
      exact ih

theorem twin_findStays (hc : c.Pairs c' R) {s t : Flow} (h : Twin c c' R s t) :
    Twin c c' R s.findStays t.findStays := by
  have hpending : t.pending = s.pending := by
    obtain ⟨_, _, _, _, rfl⟩ := h
    rfl
  rw [findStays_eq, findStays_eq, hpending, ← Array.foldl_toList, ← Array.foldl_toList]
  refine twin_foldl (fun x u v huv => ?_) _ h
  dsimp only
  rw [huv.word]
  split
  · exact huv.find hc _
  · exact huv

theorem twin_conclude (hc : c.Pairs c' R) {s t : Flow} (h : Twin c c' R s t) (group : Group) :
    Twin c c' R (s.conclude group) (t.conclude group) := by
  have hdsts : t.dsts = s.dsts := by
    obtain ⟨_, _, _, _, rfl⟩ := h
    rfl
  unfold conclude
  refine twin_findStays hc (twin_foldl (fun f _ _ huv => twin_noteFunc f huv) _ ?_)
  rw [hdsts, ← Array.foldl_toList, ← Array.foldl_toList]
  exact twin_foldl (fun dst _ _ huv => twin_flood hc huv dst) _ h

theorem steady_recordFunc (hc : c.Pairs c' R) (f : FuncId) : Steady (Twin c c' R) (recordFunc f) := by
  refine steady_read (fun _ _ _ _ => rfl) fun s => ?_
  extract_lets join
  have hstart : Hushed (·.startFunc f) := fun _ _ _ _ => ⟨rfl, rfl, rfl⟩
  have hjoin : Steady (Twin c c' R) (join ()) :=
    (steady_update hstart).bind fun _ => (steady_recordBody hc f).bind fun _ =>
      steady_update fun _ _ _ _ => ⟨rfl, rfl, rfl⟩
  split
  · exact (steady_throw _).bind fun _ => hjoin
  · exact hjoin

end Flow

/-! ## Programs -/

/-- The runs differ only in configuration, observer and report. -/
def Run.Twin (c c' : Config) (R : Report → Report → Prop) (run run' : Run) : Prop :=
  run.config = c ∧ ∃ observer report, R run.info.report report ∧
    run' = { run with config := c', observer, info := { run.info with report } }

theorem Flow.Twin.toRun {s t : Flow} (h : Flow.Twin c c' R s t) : Run.Twin c c' R s.toRun t.toRun := by
  obtain ⟨hc, observer, report, hR, rfl⟩ := h
  exact ⟨hc, observer, report, hR, rfl⟩

theorem twin_plan (funcs : List FuncId) (info : Info) (report : Report) :
    funcs.foldl (fun info f => info.setState f .planned) { info with report } =
      { funcs.foldl (fun info f => info.setState f .planned) info with report } ∧
    (funcs.foldl (fun info f => info.setState f .planned) info).report = info.report := by
  induction funcs generalizing info with
  | nil => exact ⟨rfl, rfl⟩
  | cons f funcs ih => exact ih (info.setState f .planned)

theorem Run.Twin.start {run run' : Run} (h : Run.Twin c c' R run run') (group : Group) :
    Flow.Twin c c' R (Flow.start run group) (Flow.start run' group) := by
  obtain ⟨rfl, observer, report, hR, rfl⟩ := h
  obtain ⟨hplan, hkeep⟩ := twin_plan group.funcs (run.info.setDepth ⟨run.program.nodes.size⟩ (-1)) report
  refine ⟨rfl, observer.watch run.program (.group group), report, ?_, ?_⟩
  · rw [show (Flow.start run group).info.report = run.info.report from hkeep]
    exact hR
  · unfold Flow.start Flow.dress
    dsimp only [Program.addNode]
    congr 1
    exact congrArg (Run.mk _ · _ _) hplan

theorem steady_analyzeGroup (hc : c.Pairs c' R) (group : Group) : Steady (Run.Twin c c' R) (analyzeGroup group) := by
  intro run run' h
  have hrecord := steady_forM group.funcs (Flow.steady_recordFunc hc) _ _ (h.start group)
  unfold analyzeGroup
  cases hs : group.funcs.forM Flow.recordFunc (Flow.start run group) with
  | ok _ s =>
    cases ht : group.funcs.forM Flow.recordFunc (Flow.start run' group) with
    | ok _ t =>
      rw [hs, ht] at hrecord
      exact ⟨rfl, (Flow.twin_conclude hc hrecord.2 group).toRun⟩
    | error e t =>
      rw [hs, ht] at hrecord
      exact hrecord.elim
  | error e s =>
    cases ht : group.funcs.forM Flow.recordFunc (Flow.start run' group) with
    | ok _ t =>
      rw [hs, ht] at hrecord
      exact hrecord.elim
    | error e t =>
      rw [hs, ht] at hrecord
      exact ⟨hrecord.1, hrecord.2.toRun⟩

/-- Two analyses of a program leave the same program, and stop at the same fault or know the same but for the report. -/
theorem escapesWith_twin (hc : c.Pairs c' R) (hR : R {} {}) (o o' : Observer) (p : Program) :
    (escapesWith c o p).program = (escapesWith c' o' p).program ∧
      ((∃ e, (escapesWith c o p).result = .error e ∧ (escapesWith c' o' p).result = .error e) ∨
        ∃ info report, (escapesWith c o p).result = .ok info ∧
          (escapesWith c' o' p).result = .ok { info with report } ∧ R info.report report) := by
  have hruns := steady_forM p.groups (steady_analyzeGroup hc)
    { program := p, config := c, observer := o } { program := p, config := c', observer := o' }
    ⟨rfl, o', {}, hR, rfl⟩
  unfold escapesWith
  cases hs : p.groups.forM analyzeGroup { program := p, config := c, observer := o } with
  | ok _ run =>
    cases ht : p.groups.forM analyzeGroup { program := p, config := c', observer := o' } with
    | ok _ run' =>
      rw [hs, ht] at hruns
      obtain ⟨_, _, observer, report, hR, rfl⟩ := hruns
      exact ⟨rfl, Or.inr ⟨run.info, report, rfl, rfl, hR⟩⟩
    | error e run' =>
      rw [hs, ht] at hruns
      exact hruns.elim
  | error e run =>
    cases ht : p.groups.forM analyzeGroup { program := p, config := c', observer := o' } with
    | ok _ run' =>
      rw [hs, ht] at hruns
      exact hruns.elim
    | error e' run' =>
      rw [hs, ht] at hruns
      obtain ⟨rfl, _, observer, report, _, rfl⟩ := hruns
      exact ⟨rfl, Or.inl ⟨e, rfl, rfl⟩⟩

/-! ## How reports are related -/

namespace Config

theorem pairs_true (c c' : Config) : c.Pairs c' fun _ _ => True := fun _ _ _ _ _ => trivial

theorem pairs_off (max : Nat) (c' : Config) : (Config.mk .off max).Pairs c' fun r _ => r = {} := by
  rintro p x r r' rfl
  rfl

theorem pairs_limit (debug : DebugLevel) (max : Nat) : (Config.mk debug (max + 1)).Pairs ⟨debug, 0⟩
    fun r r' => r.diagnostics = r'.diagnostics.take (max + 1) := by
  intro p x r r' hr
  have hlength := congrArg List.length hr
  rw [List.length_take] at hlength
  unfold record
  by_cases hreport : (Config.mk debug 0).shouldReport = true
  · rw [if_pos (show (Config.mk debug (max + 1)).shouldReport = true from hreport), if_pos hreport]
    simp only [Report.push, true_or, if_true, Nat.add_one_ne_zero, false_or]
    split
    · have hall : r'.diagnostics.length < max + 1 := by omega
      rw [List.take_of_length_le (Nat.le_of_lt hall)] at hr
      rw [List.take_of_length_le (by simp; omega), hr]
      rfl
    · rw [List.take_append_of_le_length (by omega), hr]
  · rw [if_neg (show ¬ (Config.mk debug (max + 1)).shouldReport = true from hreport), if_neg hreport]
    exact hr

/-- The wording of a diagnostic is the only thing that depends on the level of detail. -/
theorem pairs_verbose : (Config.mk .summary 0).Pairs ⟨.verbose, 0⟩ fun r r' =>
    r.diagnostics.map (fun d => (d.kind, d.line, d.func)) = r'.diagnostics.map fun d => (d.kind, d.line, d.func) := by
  intro p x r r' hr
  simp [record, shouldReport, Report.push, Finding.diagnostic, hr]

end Config

/-! ## Reports -/

/-- All that is known, without the report. -/
def Info.unreported (i : Info) : Info := { i with report := {} }

/-- The diagnostics of an analysis in their order, or the fault at which it stopped. -/
def Outcome.diagnostics (o : Outcome) : Except EscapeError (List Diagnostic) := o.result.map (·.report.diagnostics)

/-- Under any two configurations and observers an analysis stops at the same fault or finds the same, and leaves the
same program. Without reports there are no diagnostics; a limit keeps the first diagnostics; and a summary has a
diagnostic of the same kind, line and function for each one of a verbose report. -/
theorem diagnostics_do_not_influence (p : Program) :
    (∀ c c' o o', (escapesWith c o p).program = (escapesWith c' o' p).program ∧
      (escapesWith c o p).result.map Info.unreported = (escapesWith c' o' p).result.map Info.unreported) ∧
    (∀ max o, (escapesWith ⟨.off, max⟩ o p).diagnostics = (escapesWith ⟨.off, max⟩ o p).result.map fun _ => []) ∧
    (∀ debug max o o', (escapesWith ⟨debug, max + 1⟩ o p).diagnostics =
      (escapesWith ⟨debug, 0⟩ o' p).diagnostics.map (List.take (max + 1))) ∧
    ∀ o o', (escapesWith ⟨.summary, 0⟩ o p).diagnostics.map (List.map fun d => (d.kind, d.line, d.func)) =
      (escapesWith ⟨.verbose, 0⟩ o' p).diagnostics.map (List.map fun d => (d.kind, d.line, d.func)) := by
  refine ⟨fun c c' o o' => ?_, fun max o => ?_, fun debug max o o' => ?_, fun o o' => ?_⟩
  · obtain ⟨hprogram, hresult⟩ := escapesWith_twin (Config.pairs_true c c') trivial o o' p
    refine ⟨hprogram, ?_⟩
    rcases hresult with ⟨e, he, he'⟩ | ⟨info, report, hinfo, hinfo', _⟩
    · rw [he, he']
    · rw [hinfo, hinfo']
      rfl
  · obtain ⟨_, ⟨e, he, _⟩ | ⟨info, report, hinfo, _, hempty⟩⟩ :=
      escapesWith_twin (Config.pairs_off max ⟨.off, max⟩) rfl o o p
    · rw [Outcome.diagnostics, he]
      rfl
    · rw [Outcome.diagnostics, hinfo]
      change Except.ok info.report.diagnostics = _
      rw [hempty]
      rfl
  · obtain ⟨_, ⟨e, he, he'⟩ | ⟨info, report, hinfo, hinfo', htake⟩⟩ :=
      escapesWith_twin (Config.pairs_limit debug max) rfl o o' p
    · rw [Outcome.diagnostics, Outcome.diagnostics, he, he']
      rfl
    · rw [Outcome.diagnostics, Outcome.diagnostics, hinfo, hinfo']
      exact congrArg Except.ok htake
  · obtain ⟨_, ⟨e, he, he'⟩ | ⟨info, report, hinfo, hinfo', hsame⟩⟩ := escapesWith_twin Config.pairs_verbose rfl o o' p
    · rw [Outcome.diagnostics, Outcome.diagnostics, he, he']
    · rw [Outcome.diagnostics, Outcome.diagnostics, hinfo, hinfo']
      exact congrArg Except.ok hsame

end EscapeAnalysis

import EscapeAnalysis.Analysis
import EscapeAnalysis.Proofs.Recording.Passing
import EscapeAnalysis.Proofs.Recording.Statements
import EscapeAnalysis.Proofs.Recording.ToldFlows
import EscapeAnalysis.Proofs.Recording.Values

/-!
# Recording under two configurations

Two analyses of one program under different configurations and observers go through the same graphs, up to the report
and what the observers kept. Both record the same findings, so a relation between the reports that holds when both
record one finding holds all along.

* `Config.Pairs c c' R` : the relation `R` between reports under `c` and `c'` is kept by every finding;
* `Flow.Twin c c' R s t` : the graphs differ only in configuration, observer and report;
* `Steady T m` : the operation `m` takes related states to the same answer, or the same fault, and related states.
-/

namespace EscapeAnalysis

/-! ## Related runs of an operation -/

section Steady

variable {ε σ α β : Type} {T : σ → σ → Prop}

/-- The two runs end the same way, and in related states. -/
def SameResult (T : σ → σ → Prop) : EStateM.Result ε σ α → EStateM.Result ε σ α → Prop
  | .ok a s, .ok b t => a = b ∧ T s t
  | .error e s, .error d t => e = d ∧ T s t
  | _, _ => False

def Steady (T : σ → σ → Prop) (m : EStateM ε σ α) : Prop := ∀ s t, T s t → SameResult T (m s) (m t)

theorem steady_pure (a : α) : Steady T (pure a : EStateM ε σ α) := fun _ _ h => ⟨rfl, h⟩

theorem steady_throw (e : ε) : Steady T (throw e : EStateM ε σ α) := fun _ _ h => ⟨rfl, h⟩

theorem steady_modify {g : σ → σ} (hg : ∀ s t, T s t → T (g s) (g t)) :
    Steady T (modify g : EStateM ε σ PUnit) :=
  fun s t h => ⟨rfl, hg s t h⟩

theorem Steady.bind {m : EStateM ε σ α} {f : α → EStateM ε σ β} (hm : Steady T m) (hf : ∀ a, Steady T (f a)) :
    Steady T (m >>= f) := by
  intro s t h
  have hst := hm s t h
  change SameResult T (EStateM.bind m f s) (EStateM.bind m f t)
  unfold EStateM.bind
  cases hs : m s with
  | ok a s' =>
    cases ht : m t with
    | ok b t' =>
      rw [hs, ht] at hst
      obtain ⟨rfl, hst⟩ := hst
      exact hf a s' t' hst
    | error d t' =>
      rw [hs, ht] at hst
      exact hst.elim
  | error e s' =>
    cases ht : m t with
    | ok b t' =>
      rw [hs, ht] at hst
      exact hst.elim
    | error d t' =>
      rw [hs, ht] at hst
      exact hst

theorem Steady.map {m : EStateM ε σ α} (f : α → β) (hm : Steady T m) : Steady T (f <$> m) := by
  rw [← bind_pure_comp]
  exact hm.bind fun a => steady_pure (f a)

/-- What is read has to be the same in related states. -/
theorem steady_get {f : σ → EStateM ε σ α} (hf : ∀ s t, T s t → f t = f s) (h : ∀ s, Steady T (f s)) :
    Steady T (get >>= f) := by
  intro s t hst
  change SameResult T (f s s) (f t t)
  rw [hf s t hst]
  exact h s s t hst

theorem steady_forM {f : β → EStateM ε σ PUnit} (xs : List β) (h : ∀ x, Steady T (f x)) : Steady T (xs.forM f) := by
  induction xs with
  | nil => exact steady_pure _
  | cons x xs ih => exact (h x).bind fun _ => ih

theorem steady_optionForM {f : β → EStateM ε σ PUnit} (x : Option β) (h : ∀ y, Steady T (f y)) :
    Steady T (x.forM f) := by
  cases x with
  | none => exact steady_pure _
  | some y => exact h y

end Steady

/-! ## Reports under two configurations -/

/-- Recording a finding keeps the relation. -/
def Config.Pairs (c c' : Config) (R : Report → Report → Prop) : Prop :=
  ∀ p x r r', R r r' → R (c.record p x r) (c'.record p x r')

namespace Flow

/-- The graph with another configuration, observer and report. -/
def dress (s : Flow) (config : Config) (observer : Observer) (report : Report) : Flow :=
  { s with config, observer, info := { s.info with report } }

/-- The graphs differ only in configuration, observer and report. -/
def Twin (c c' : Config) (R : Report → Report → Prop) (s t : Flow) : Prop :=
  s.config = c ∧ ∃ observer report, R s.info.report report ∧ t = s.dress c' observer report

variable {c c' : Config} {R : Report → Report → Prop}

/-! ## Parts of the graph -/

/-- Nothing is reported or shown. -/
def Hushed (g : Flow → Flow) : Prop :=
  ∀ s config observer report, g (s.dress config observer report) = (g s).dress config observer report ∧
    (g s).config = s.config ∧ (g s).info.report = s.info.report

theorem Hushed.twin {g : Flow → Flow} (hg : Hushed g) {s t : Flow} (h : Twin c c' R s t) :
    Twin c c' R (g s) (g t) := by
  obtain ⟨hc, observer, report, hR, rfl⟩ := h
  obtain ⟨hdress, hconfig, hreport⟩ := hg s c' observer report
  exact ⟨hconfig.trans hc, observer, report, by rw [hreport]; exact hR, hdress⟩

theorem Twin.find (hc : c.Pairs c' R) (x : Finding) {s t : Flow} (h : Twin c c' R s t) :
    Twin c c' R (s.find x) (t.find x) := by
  obtain ⟨rfl, observer, report, hR, rfl⟩ := h
  exact ⟨rfl, observer, _, hc _ _ _ _ hR, rfl⟩

theorem Twin.emit (e : Event) {s t : Flow} (h : Twin c c' R s t) : Twin c c' R (s.emit e) (t.emit e) := by
  obtain ⟨rfl, observer, report, hR, rfl⟩ := h
  exact ⟨rfl, _, report, hR, rfl⟩

theorem Twin.addEdge (dst src : NodeId) {s t : Flow} (h : Twin c c' R s t) :
    Twin c c' R (s.addEdge dst src) (t.addEdge dst src) := by
  obtain ⟨rfl, observer, report, hR, rfl⟩ := h
  exact ⟨rfl, _, report, hR, rfl⟩

section Parts

/-- What is read is neither configuration nor observer nor report. -/
theorem steady_read {α : Type} {f : Flow → FlowM α}
    (hf : ∀ s config observer report, f (s.dress config observer report) = f s)
    (h : ∀ s, Steady (Twin c c' R) (f s)) : Steady (Twin c c' R) (get >>= f) := by
  refine steady_get (fun s t hst => ?_) h
  obtain ⟨_, observer, report, _, rfl⟩ := hst
  exact hf s c' observer report

theorem steady_getProgram {α : Type} {f : Program → FlowM α} (h : ∀ p, Steady (Twin c c' R) (f p)) :
    Steady (Twin c c' R) (getProgram >>= f) :=
  steady_read (fun _ _ _ _ => rfl) fun s => h s.program

theorem steady_resultsOf {α : Type} {n : NodeId} {f : List NodeId → FlowM α}
    (h : ∀ rs, Steady (Twin c c' R) (f rs)) : Steady (Twin c c' R) (resultsOf n >>= f) :=
  steady_read (fun _ _ _ _ => rfl) fun s => h (s.results.get n.index)

theorem steady_depthOf {α : Type} {n : NodeId} {f : Int → FlowM α} (h : ∀ d, Steady (Twin c c' R) (f d)) :
    Steady (Twin c c' R) (depthOf n >>= f) :=
  steady_read (fun _ _ _ _ => rfl) fun s => h (s.info.depth n)

theorem steady_update {g : Flow → Flow} (hg : Hushed g) : Steady (Twin c c' R) (modify g : FlowM Unit) :=
  steady_modify fun _ _ h => hg.twin h

theorem steady_modifyProgram (g : Program → Program) : Steady (Twin c c' R) (modifyProgram g) :=
  steady_update fun _ _ _ _ => ⟨rfl, rfl, rfl⟩

theorem steady_setDepth (n : NodeId) (d : Int) : Steady (Twin c c' R) (setDepth n d) :=
  steady_update fun _ _ _ _ => ⟨rfl, rfl, rfl⟩

theorem steady_setResults (n : NodeId) (rs : List NodeId) : Steady (Twin c c' R) (setResults n rs) :=
  steady_update fun _ _ _ _ => ⟨rfl, rfl, rfl⟩

theorem steady_addNode (x : Node) : Steady (Twin c c' R) (addNode x) := by
  rintro s _ ⟨rfl, observer, report, hR, rfl⟩
  exact ⟨rfl, rfl, observer, report, hR, rfl⟩

theorem steady_withTypes {α : Type} (f : TypeStore → α × TypeStore) : Steady (Twin c c' R) (withTypes f) := by
  rintro s _ ⟨rfl, observer, report, hR, rfl⟩
  exact ⟨rfl, rfl, observer, report, hR, rfl⟩

theorem steady_ptrTo (ty : Option Ty) : Steady (Twin c c' R) (ptrTo ty) := by
  cases ty with
  | none => exact steady_pure none
  | some ty => exact (steady_withTypes (·.ptr ty)).map some

theorem steady_link (dst src : NodeId) : Steady (Twin c c' R) (link dst src) := by
  refine steady_modify fun s t h => ?_
  have hcond : (dst = src ∨ t.program.hasNoPointers (t.program.node src).ty = true) ↔
      (dst = src ∨ s.program.hasNoPointers (s.program.node src).ty = true) := by
    obtain ⟨_, _, _, _, rfl⟩ := h
    exact Iff.rfl
  simp only [hcond]
  split
  · exact h
  · exact h.addEdge dst src

theorem steady_markPending (n : NodeId) : Steady (Twin c c' R) (markPending n) :=
  steady_update fun _ _ _ _ => ⟨rfl, rfl, rfl⟩

end Parts

/-! ## Assignments -/

theorem steady_closureAddress (src : NodeId) (x : Node) : Steady (Twin c c' R) (closureAddress src x) := by
  refine (steady_ptrTo x.ty).bind fun ty => (steady_addNode _).bind fun addr => steady_depthOf fun d => ?_
  exact (steady_setDepth addr d).bind fun _ => steady_pure addr

theorem steady_carry (dst : NodeId) (fuel : Nat) (src : NodeId) : Steady (Twin c c' R) (carry dst fuel src) := by
  induction fuel generalizing src with
  | zero => exact steady_throw _
  | succ fuel ih =>
    rw [carry_succ]
    refine steady_getProgram fun p => ?_
    dsimp only
    split
    · exact steady_link dst src
    split
    · exact (steady_closureAddress src _).bind fun addr => steady_link dst addr
    split
    · exact steady_resultsOf fun rs => steady_forM rs (steady_link dst)
    · exact steady_forM _ ih

theorem steady_carryAll (dst src : NodeId) : Steady (Twin c c' R) (carryAll dst src) :=
  steady_getProgram fun _ => steady_carry dst _ src

theorem steady_lose (src : NodeId) : Steady (Twin c c' R) (lose src) :=
  steady_read (fun _ _ _ _ => rfl) fun s => steady_carryAll s.sink src

theorem steady_assign (dst src : NodeId) : Steady (Twin c c' R) (assign dst src) := by
  refine steady_getProgram fun p => ?_
  split
  · exact steady_throw _
  · exact steady_pure _
  · exact steady_carryAll _ src
  · exact (steady_optionForM _ steady_lose).bind fun _ => steady_lose src

theorem steady_derefNode (n : NodeId) : Steady (Twin c c' R) (derefNode n) := by
  refine steady_getProgram fun p => (steady_addNode _).bind fun deref => steady_depthOf fun d => ?_
  exact (steady_setDepth deref d).bind fun _ => steady_pure deref

/-! ## Calls -/

theorem steady_callArgs (x : Node) : Steady (Twin c c' R) (callArgs x) := by
  unfold callArgs
  split
  · exact steady_resultsOf fun rs => steady_getProgram fun p => steady_pure _
  · exact steady_pure _

theorem steady_restArg (call : NodeId) (sliceTy : Option Ty) (args : List NodeId) :
    Steady (Twin c c' R) (restArg call sliceTy args) := by
  refine steady_getProgram fun p => ?_
  extract_lets line jp
  have hjp (arrayTy : Option Ty) : Steady (Twin c c' R) (jp arrayTy) := by
    refine (steady_ptrTo arrayTy).bind fun ty => steady_read (fun _ _ _ _ => rfl) fun s => ?_
    refine (steady_addNode _).bind fun array => (steady_setDepth array _).bind fun _ => ?_
    refine (steady_forM args (steady_assign array)).bind fun _ => (steady_addNode _).bind fun rest => ?_
    exact (steady_modifyProgram _).bind fun _ => (steady_markPending rest).bind fun _ => steady_pure rest
  split
  · exact ((steady_withTypes _).map some).bind hjp
  · exact hjp none

theorem steady_passingValue (call : NodeId) (x : Passing) : Steady (Twin c c' R) (passingValue call x) := by
  cases x with
  | one _ arg => exact steady_pure arg
  | rest param args => exact steady_restArg call param.ty args

theorem steady_bindParams (call : NodeId) (spread : Bool) (params : List Param) (args : List NodeId) :
    Steady (Twin c c' R) (bindParams call spread params args) := by
  rw [bindParams_eq]
  refine (steady_forM _ fun x => (steady_passingValue call x).bind fun src =>
    steady_optionForM _ fun n => steady_assign n src).bind fun _ => ?_
  split
  · exact steady_throw _
  · exact steady_pure _

theorem steady_callInGroup (call : NodeId) (callee : FuncId) (args : List NodeId) :
    Steady (Twin c c' R) (callInGroup call callee args) := by
  rw [callInGroup_eq]
  refine steady_read (fun _ _ _ _ => rfl) fun s => ?_
  split
  · exact steady_throw _
  · refine (steady_setResults call _).bind fun _ => ?_
    refine (steady_optionForM _ fun (x : Param × NodeId) => steady_optionForM x.1.name fun n =>
      steady_assign n x.2).bind fun _ => ?_
    exact steady_bindParams call _ _ args

theorem steady_derefTimes (k : Nat) (n : NodeId) : Steady (Twin c c' R) (derefTimes k n) := by
  induction k generalizing n with
  | zero => exact steady_pure n
  | succ k ih => exact (steady_derefNode n).bind ih

theorem steady_perform (src : NodeId) (x : Told) : Steady (Twin c c' R) (perform src x) := by
  refine (steady_derefTimes x.derefs src).bind fun n => ?_
  cases x.result with
  | none => exact steady_lose n
  | some out => exact steady_assign out n

theorem steady_applyNote (note : Option String) (outs : List NodeId) (src : NodeId) :
    Steady (Twin c c' R) (applyNote note outs src) := by
  rw [applyNote_eq]
  refine (steady_forM _ (steady_perform src)).bind fun _ => ?_
  split
  · exact steady_throw _
  · exact steady_pure _

theorem steady_noteValue (p : Program) (detached : Bool) (outs : List NodeId) (param : Param) (src : NodeId) :
    Steady (Twin c c' R) (noteValue p detached outs param src) := by
  unfold noteValue
  split
  · refine (steady_applyNote _ outs src).bind fun w => ?_
    split
    · exact steady_modifyProgram _
    · exact steady_pure _
  · exact steady_pure _

theorem steady_applyNotes (call : NodeId) (spread detached : Bool) (outs : List NodeId) (params : List Param)
    (args : List NodeId) : Steady (Twin c c' R) (applyNotes call spread detached outs params args) := by
  rw [applyNotes_eq]
  refine (steady_forM _ fun x => (steady_passingValue call x).bind fun src =>
    steady_getProgram fun p => steady_noteValue p detached outs x.param src).bind fun _ => ?_
  split
  · exact steady_throw _
  · exact steady_pure _

theorem steady_makeOuts (line : UInt32) (i : Nat) (tys : List (Option Ty)) :
    Steady (Twin c c' R) (makeOuts line i tys) := by
  induction tys generalizing i with
  | nil => exact steady_pure _
  | cons ty tys ih =>
    refine steady_read (fun _ _ _ _ => rfl) fun s => (steady_addNode _).bind fun out => ?_
    exact (steady_setDepth out _).bind fun _ => (ih (i + 1)).bind fun outs => steady_pure _

theorem steady_callByNotes (call : NodeId) (detached : Bool) (args : List NodeId) :
    Steady (Twin c c' R) (callByNotes call detached args) := by
  rw [callByNotes_eq]
  refine steady_read (fun _ _ _ _ => rfl) fun s => ?_
  split
  · exact steady_throw _
  · refine (steady_makeOuts _ _ _).bind fun outs => (steady_setResults call outs).bind fun _ => ?_
    refine (steady_optionForM _ fun (x : Param × NodeId) =>
      steady_noteValue s.program true outs x.1 x.2).bind fun _ => ?_
    exact steady_applyNotes call _ detached outs _ args

theorem steady_call (n : NodeId) (up : Option NodeId) : Steady (Twin c c' R) (call n up) := by
  have hmet : Hushed fun s => { s with calls := n :: s.calls } := fun _ _ _ _ => ⟨rfl, rfl, rfl⟩
  refine (steady_update hmet).bind fun _ => ?_
  refine steady_read (fun _ _ _ _ => rfl) fun s => (steady_callArgs _).bind fun args => ?_
  extract_lets detached
  split
  · split
    · exact steady_callInGroup n _ args
    · exact steady_callByNotes n _ args
  · exact steady_callByNotes n _ args

/-! ## Labels -/

theorem steady_scanNode (n : NodeId) (x : Node) : Steady (Twin c c' R) (scanNode n x) := by
  unfold scanNode
  split
  · exact steady_update fun _ _ _ _ => ⟨rfl, rfl, rfl⟩
  · refine steady_modify fun s t h => ?_
    obtain ⟨hc, observer, report, hR, rfl⟩ := h
    change Twin c c' R _ (if (s.label? _).isSome then _ else _)
    split
    · exact ⟨hc, observer, report, hR, rfl⟩
    · exact ⟨hc, observer, report, hR, rfl⟩
  · exact steady_throw _
  · exact steady_throw _
  · exact steady_pure _

theorem steady_scanLabels (fuel : Nat) (n : NodeId) : Steady (Twin c c' R) (scanLabels fuel n) := by
  induction fuel generalizing n with
  | zero => exact steady_throw _
  | succ fuel ih =>
    refine steady_getProgram fun p => (steady_forM _ ih).bind fun _ => ?_
    exact (steady_scanNode n _).bind fun _ => steady_forM _ ih

theorem steady_scanBody (body : List NodeId) : Steady (Twin c c' R) (scanBody body) :=
  steady_getProgram fun _ => steady_forM body (steady_scanLabels _)

/-! ## Statements -/

theorem steady_assignEach (dsts srcs : List NodeId) : Steady (Twin c c' R) (assignEach dsts srcs) := by
  rw [assignEach_eq]
  exact steady_forM _ fun x => steady_assign x.1 x.2

theorem steady_loseCall (call : Option NodeId) : Steady (Twin c c' R) (loseCall call) := by
  cases call with
  | none => exact steady_pure _
  | some call => exact steady_getProgram fun p => steady_forM _ steady_lose

theorem steady_returnValues (n : NodeId) (x : Node) : Steady (Twin c c' R) (returnValues n x) := by
  rw [returnValues_eq]
  refine steady_read (fun _ _ _ _ => rfl) fun s => steady_optionForM _ fun f => ?_
  split
  · exact steady_throw _
  · exact steady_assignEach _ _

theorem steady_captureVars (n : NodeId) (names : List NodeId) : Steady (Twin c c' R) (captureVars n names) := by
  rw [captureVars_eq]
  refine steady_forM _ fun name => steady_read (fun _ _ _ _ => rfl) fun s => steady_optionForM _ fun var => ?_
  split
  · exact steady_assign n var
  · refine (steady_ptrTo _).bind fun ty => (steady_addNode _).bind fun addr => ?_
    exact (steady_setDepth addr _).bind fun _ => steady_assign n addr

theorem steady_addressDepth (n : NodeId) (var : Option NodeId) : Steady (Twin c c' R) (addressDepth n var) := by
  rw [addressDepth_eq]
  exact steady_read (fun _ _ _ _ => rfl) fun s => steady_optionForM _ fun d => steady_setDepth n d

theorem steady_passLabel (l : LabelId) : Steady (Twin c c' R) (passLabel l) :=
  steady_update fun _ _ _ _ => ⟨rfl, rfl, rfl⟩

theorem steady_visit (hc : c.Pairs c' R) (n : NodeId) (up : Option NodeId) : Steady (Twin c c' R) (visit n up) := by
  unfold visit
  refine steady_read (fun _ _ _ _ => rfl) fun s => ?_
  have hassign : Steady (Twin c c' R) ((s.program.node n).left.forM (assign n)) :=
    steady_optionForM _ (steady_assign n)
  have hlose : Steady (Twin c c' R) ((s.program.node n).left.forM lose) := steady_optionForM _ steady_lose
  dsimp only
  cases (s.program.node n).op with
  | decl => exact steady_optionForM _ fun var => steady_setDepth var _
  | label => exact steady_optionForM _ steady_passLabel
  | rangeStmt =>
    dsimp only
    split
    · split
      · exact steady_assign _ _
      · exact steady_pure _
    · exact steady_pure _
  | switchStmt =>
    dsimp only
    split
    · exact steady_forM _ fun var => steady_assign var _
    · exact steady_pure _
  | assign | assignOp =>
    dsimp only
    split
    · split
      · exact steady_modify fun _ _ h => h.find hc _
      · exact steady_assign _ _
    · exact steady_pure _
  | assignMany =>
    dsimp only
    split
    · exact steady_assignEach _ _
    · exact steady_pure _
  | assignRecv | assignLookup | assignAssert =>
    dsimp only
    split
    · exact steady_assign _ _
    · exact steady_pure _
  | send => exact steady_optionForM _ steady_lose
  | deferStmt =>
    dsimp only
    split
    · exact steady_loseCall _
    · exact steady_pure _
  | goStmt => exact steady_loseCall _
  | callFunc | callMethod | callInterface => exact steady_call n up
  | assignCall =>
    dsimp only
    split
    · exact steady_throw _
    · split
      · exact (steady_throw _).bind fun _ => steady_assignEach _ _
      · exact steady_assignEach _ _
  | returnStmt => exact steady_returnValues n _
  | panicStmt => exact hlose
  | append =>
    dsimp only
    split
    · exact steady_pure _
    · exact steady_forM _ steady_lose
  | conv | convNop => exact hassign
  | convIface | ptrLit => exact (steady_markPending n).bind fun _ => hassign
  | arrayLit =>
    dsimp only
    split
    · exact (steady_markPending n).bind fun _ => steady_forM _ steady_lose
    · exact steady_forM _ (steady_assign n)
  | structLit => exact steady_forM _ (steady_assign n)
  | methodValue => exact (steady_markPending n).bind fun _ => hlose
  | mapLit => exact (steady_markPending n).bind fun _ => steady_forM _ steady_lose
  | closure =>
    exact (steady_optionForM _ fun f => steady_captureVars n _).bind fun _ => steady_markPending n
  | makeChan | makeMap | makeSlice | new | runesToString | bytesToString | stringToRunes | stringToBytes | runeToString
  | concat => exact steady_markPending n
  | addr => exact (steady_markPending n).bind fun _ => steady_addressDepth n _
  | _ => exact steady_pure _

/-! ## Bodies -/

theorem steady_deepen (op : Op) (amount : Int) : Steady (Twin c c' R) (deepen op amount) := by
  unfold deepen
  split
  · exact steady_update fun _ _ _ _ => ⟨rfl, rfl, rfl⟩
  · exact steady_pure _

theorem steady_placeClauseVars (x : Node) : Steady (Twin c c' R) (placeClauseVars x) := by
  refine steady_read (fun _ _ _ _ => rfl) fun s => ?_
  split
  · exact steady_forM _ fun var => steady_setDepth var _
  · exact steady_pure _

theorem steady_walk (hc : c.Pairs c' R) (fuel : Nat) (up : Option NodeId) (n : NodeId) :
    Steady (Twin c c' R) (walk fuel up n) := by
  induction fuel generalizing up n with
  | zero => exact steady_throw _
  | succ fuel ih =>
    refine steady_getProgram fun p => (steady_forM _ fun m => ih (some n) m).bind fun _ => ?_
    refine (steady_deepen _ 1).bind fun _ => steady_getProgram fun p' => ?_
    refine (steady_placeClauseVars _).bind fun _ => steady_getProgram fun q => ?_
    refine (steady_forM _ fun m => ih (some n) m).bind fun _ => ?_
    exact (steady_deepen _ (-1)).bind fun _ => steady_visit hc n up

theorem steady_walkBody (hc : c.Pairs c' R) (body : List NodeId) : Steady (Twin c c' R) (walkBody body) :=
  steady_getProgram fun _ => steady_forM body fun n => steady_walk hc _ none n

theorem steady_declareWord (w : Word) (n : NodeId) : Steady (Twin c c' R) (declareWord w n) := by
  refine steady_read (fun _ _ _ _ => rfl) fun s => ?_
  dsimp only
  split
  · split
    · exact steady_setDepth n 0
    · refine (steady_setDepth n 1).bind fun _ => ?_
      split
      · exact steady_pure _
      · have hword : Hushed fun s => { s with info := s.info.setWord n w } := fun _ _ _ _ => ⟨rfl, rfl, rfl⟩
        exact (steady_update hword).bind fun _ => steady_update fun _ _ _ _ => ⟨rfl, rfl, rfl⟩
    · exact steady_pure _
  · exact steady_pure _

theorem steady_declareNames (f : FuncId) : Steady (Twin c c' R) (declareNames f) := by
  refine steady_read (fun _ _ _ _ => rfl) fun s => ?_
  extract_lets decl w
  refine (steady_forM _ (steady_declareWord w)).bind fun _ => ?_
  split
  · exact steady_forM _ (steady_link s.sink)
  · exact steady_pure _

theorem steady_recordBody (hc : c.Pairs c' R) (f : FuncId) : Steady (Twin c c' R) (recordBody f) :=
  steady_getProgram fun _ => Steady.bind
    (steady_getProgram fun _ => (steady_declareNames f).bind fun _ => steady_scanBody _) fun _ => steady_walkBody hc _

end Flow

end EscapeAnalysis

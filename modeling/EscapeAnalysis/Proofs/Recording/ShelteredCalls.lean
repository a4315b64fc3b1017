import EscapeAnalysis.Proofs.Recording.Shelters

/-!
# Calls that keep arguments to themselves

The arguments of a call are free where they flow anywhere, and kept where the notes of the callee let them be. A callee
of the group has no notes yet, and one that is not known never has any; to them nothing is passed that is kept. A call
that runs on its own marks nothing, and its arguments are lost with it.

* `Shelter.Passes` : arguments that may be passed to parameters with notes;
* `guards_callInGroup`, `guards_callByNotes` : the two kinds of callees;
* `guards_call` : calls keep the graph sound.
-/

namespace EscapeAnalysis.Flow.Shelter

variable {s : Flow} {S : s.Shelter} {t u : Flow} {m : NodeId}

/-! ## Callees of the group -/

theorem guards_passingValue (ht : S.Sound t) {call : NodeId} (hin : S.inside call)
    (hcall : (s.program.node call).op.isCall = true) (hlist : (s.program.node call).list ≠ []) {x : Passing}
    (hargs : ∀ a ∈ x.args, S.Free t.program a) :
    S.Guards t (passingValue call x) fun src u => S.Free u.program src := by
  cases x with
  | one _ arg => exact triple_pure_of ht.rest (hargs arg List.mem_cons_self)
  | rest param args => exact (guards_restArg ht hin hcall hlist param.ty hargs).mono fun _ _ _ h => h.1

/-- What is passed goes one by one, and then an argument too many stops the call. -/
theorem guards_passings (ht : S.Sound t) {call : NodeId} {spread : Bool} {params : List Param} {args : List NodeId}
    (hlist : args ≠ [] → (s.program.node call).list ≠ []) {f : Passing → FlowM PUnit}
    (hf : ∀ x ∈ passings spread params args, (s.program.node call).list ≠ [] → ∀ u, s.Grows t u → S.Sound u →
      S.Guards u (f x) fun _ _ => True) :
    S.Guards t (do
      (passings spread params args).forM f
      if leftOver spread params args then throw (.argCount call) else return ()) fun _ _ => True := by
  refine (guards_forM ht _ fun x hx => hf x hx (hlist (args_ne_nil_of_mem_passings hx))).bind fun _ u _ hu _ => ?_
  split
  · exact triple_throw trivial
  · exact triple_pure_of hu.rest trivial

theorem guards_bindParams (ht : S.Sound t) {call : NodeId} (hin : S.inside call)
    (hcall : (s.program.node call).op.isCall = true) (spread : Bool) {params : List Param}
    (hparams : ∀ param ∈ params, ∀ n, param.name = some n → (s.program.node n).op = .name) {args : List NodeId}
    (hlist : args ≠ [] → (s.program.node call).list ≠ []) (hargs : ∀ a ∈ args, S.Free t.program a) :
    S.Guards t (bindParams call spread params args) fun _ _ => True := by
  rw [bindParams_eq]
  refine guards_passings ht hlist fun x hx hlist u htu hu => ?_
  obtain ⟨hparam, hmem⟩ := mem_of_mem_passings hx
  refine (guards_passingValue hu hin hcall hlist fun a ha => (hargs a (hmem a ha)).mono htu).bind
    fun src v _ hv hsrc => ?_
  exact triple_optionForM_of hv.rest _ fun n hn => guards_assign hv (.old (Or.inl (hparams _ hparam n hn))) hsrc

theorem guards_setResults (ht : S.Sound t) (n : NodeId) {results : List NodeId}
    (h : ∀ m ∈ results, S.Free t.program m ∧ (t.program.node m).op = .name) :
    S.Guards t (setResults n results) fun _ _ => True := by
  have htu : s.Grows t { t with results := t.results.set n.index results } := ⟨.refl _, fun _ _ _ => rfl⟩
  refine triple_modify ⟨htu, ht.grow htu rfl (fun _ => Iff.rfl) (fun _ _ h => Or.inl h) (fun k m hm => ?_)
    (fun _ _ _ _ h => Or.inl h) fun _ h => Or.inl h⟩
  by_cases hk : k.index = n.index
  · dsimp only at hm
    rw [hk, Table.get_set_self] at hm
    exact Or.inr (h m hm)
  · dsimp only at hm
    rw [Table.get_set_of_ne _ _ hk] at hm
    exact Or.inl hm

/-- The receiver of a method is not kept: it is part of the selection of the method. -/
theorem free_of_recvExpr (ht : S.Sound t) {call : NodeId} (hin : S.inside call)
    (hcall : (s.program.node call).op.isCall = true) {recv : NodeId}
    (h : t.program.recvExpr (t.program.node call) = some recv) : S.Free t.program recv := by
  obtain ⟨m, hm, hrecv⟩ := Option.bind_eq_some_iff.1 h
  rw [(ht.nodes.node call (S.lt_size call hin)).left] at hm
  have hpart : m ∈ (s.program.node call).children := by simp [Node.children, hm]
  have hkept := S.callee call hin hcall m (by simp [hm])
  have hinm := S.part call hin m hpart
  rw [(ht.nodes.node m (S.lt_size m hinm)).left] at hrecv
  have hpart' : recv ∈ (s.program.node m).children := by simp [Node.children, hrecv]
  cases hop : (s.program.node m).op.isCall with
  | true => exact .old (Or.inr ⟨S.part m hinm recv hpart', S.callee m hinm hop recv (by simp [hrecv])⟩)
  | false => exact .old (open_of_part hinm hop (fun hwraps => hkept hwraps.1) hpart')

theorem guards_callInGroup (ht : S.Sound t) {call : NodeId} (hin : S.inside call)
    (hcall : (s.program.node call).op.isCall = true) (callee : FuncId) {args : List NodeId}
    (hlist : args ≠ [] → (s.program.node call).list ≠ []) (hargs : ∀ a ∈ args, S.Free t.program a) :
    S.Guards t (callInGroup call callee args) fun _ _ => True := by
  have hnames (param : Param) (hparam : param ∈ (t.program.func callee).inputs ++ (t.program.func callee).results)
      (n : NodeId) (hn : param.name = some n) : (s.program.node n).op = .name := by
    rw [ht.func callee] at hparam
    exact S.params callee param hparam n hn
  rw [callInGroup_eq]
  refine triple_get ?_
  split
  · exact triple_throw trivial
  · refine (guards_setResults ht call fun m hm => ?_).bind fun _ u htu hu _ => ?_
    · obtain ⟨param, hparam, hname⟩ := List.mem_filterMap.1 hm
      have hop := hnames param (List.mem_append_right _ hparam) m hname
      exact ⟨.old (Or.inl hop), ht.name hop⟩
    · refine (triple_optionForM_of hu.rest _ fun (x : Param × NodeId) hx => triple_optionForM_of hu.rest x.1.name fun n hn =>
        guards_assign hu (.old (Or.inl (hnames x.1 ?_ n hn))) ?_).bind fun _ v hv _ => ?_
      · simp [Func.inputs, (recv_of_recvPassing hx).1]
      · exact (free_of_recvExpr ht hin hcall (recv_of_recvPassing hx).2).mono htu
      · refine guards_bindParams hv.2 hin hcall _ (fun param hparam => hnames param ?_) hlist
          fun a ha => (hargs a ha).mono (htu.trans hv.1)
        exact List.mem_append_left _ (List.mem_append_right _ hparam)

/-! ## Callees known by their notes -/

theorem guards_perform (ht : S.Sound t) {src : NodeId} (hsrc : S.Free t.program src) {x : Told}
    (hx : ∀ out, x.result = some out → S.Free t.program out) : S.Guards t (perform src x) fun _ _ => True := by
  refine (guards_derefTimes ht x.derefs hsrc).bind fun n u htu hu hn => ?_
  cases hresult : x.result with
  | none => exact guards_lose hu hn
  | some out => exact guards_assign hu ((hx out hresult).mono htu) hn

/-- Nothing is recorded for an argument that does not escape. -/
theorem guards_applyNote (ht : S.Sound t) (note : Option String) {src : NodeId}
    (hsrc : Word.ofNote note ≠ .plain .none → S.Free t.program src) {outs : List NodeId}
    (houts : ∀ out ∈ outs, S.Free t.program out) :
    S.Guards t (applyNote note outs src) fun w u => w = Word.ofNote note ∧ (w = .plain .none → u = t) := by
  by_cases hnone : Word.ofNote note = .plain .none
  · unfold applyNote
    rw [hnone]
    exact triple_pure_of ht.rest ⟨rfl, fun _ => rfl⟩
  · rw [applyNote_eq]
    refine (guards_forM ht _ fun x hx u htu hu => guards_perform hu ((hsrc hnone).mono htu) fun out hout =>
      (houts out (Word.mem_of_mem_told hx hout)).mono htu).bind fun _ u _ hu _ => ?_
    split
    · exact triple_throw trivial
    · exact triple_pure_of hu.rest ⟨rfl, fun h => absurd h hnone⟩

variable (S) in
/-- The arguments are free where notes let them flow, and may be marked where notes keep them. -/
def Passes (q : Program) (spread detached : Bool) : List Param → List NodeId → Prop
  | param :: params, arg :: args =>
    if param.variadic && !spread then ∀ a ∈ arg :: args, S.Free q a
    else (if Word.ofNote param.note = .plain .none ∧ detached = false then S.Local q arg else S.Free q arg) ∧
      Passes q spread detached params args
  | _, _ => True

variable (S) in
/-- The same for one parameter, and what is passed for it. -/
def MayPass (q : Program) (detached : Bool) : Passing → Prop
  | .one param arg => if Word.ofNote param.note = .plain .none ∧ detached = false then S.Local q arg else S.Free q arg
  | .rest _ args => ∀ a ∈ args, S.Free q a

theorem passes_iff {q : Program} {spread detached : Bool} {params : List Param} {args : List NodeId} :
    S.Passes q spread detached params args ↔ ∀ x ∈ passings spread params args, S.MayPass q detached x := by
  induction params generalizing args with
  | nil => simp [Passes, passings]
  | cons param params ih =>
    cases args with
    | nil => simp [Passes, passings]
    | cons arg args =>
      rw [Passes, passings]
      split
      · rw [List.forall_mem_singleton]
        rfl
      · rw [List.forall_mem_cons, ih]
        rfl

theorem MayPass.mono (htu : s.Grows t u) {detached : Bool} {x : Passing} (h : S.MayPass t.program detached x) :
    S.MayPass u.program detached x := by
  cases x with
  | one param arg =>
    rw [MayPass] at h ⊢
    split
    · rename_i hkept
      rw [if_pos hkept] at h
      exact h.imp_left htu.name
    · rename_i hkept
      rw [if_neg hkept] at h
      exact h.mono htu
  | rest _ args => exact fun a ha => (h a ha).mono htu

/-- Arguments that are free may be passed, unless one is kept that is no name. -/
theorem passes_of_free {q : Program} {spread detached : Bool} {params : List Param} {args : List NodeId}
    (hargs : ∀ a ∈ args, S.Free q a) (h : (∀ a ∈ args, (q.node a).op = .name) ∨ detached = true ∨
      ∀ param ∈ params, Word.ofNote param.note ≠ .plain .none) : S.Passes q spread detached params args := by
  rw [passes_iff]
  intro x hx
  obtain ⟨hparam, hmem⟩ := mem_of_mem_passings hx
  cases x with
  | one param arg =>
    have harg : arg ∈ args := hmem arg List.mem_cons_self
    rw [MayPass]
    split
    · rename_i hkept
      rcases h with h | h | h
      · exact Or.inl (h arg harg)
      · rw [hkept.2] at h
        cases h
      · exact absurd hkept.1 (h param hparam)
    · exact hargs arg harg
  | rest param rest => exact fun a ha => hargs a (hmem a ha)

/-- Arguments are passed if the kept ones are those that notes keep, and all but names are different. -/
theorem passes_of_keptArgs (ht : S.Sound t) {spread : Bool} {params : List Param} {args : List NodeId}
    (hopen : ∀ a ∈ args, S.kept a ∨ S.Open a)
    (hkeeps : ∀ a ∈ keptArgs spread params args, (s.program.node a).op = .name ∨ S.kept a)
    (hkept : ∀ a ∈ args, S.kept a → (s.program.node a).op = .name ∨ a ∈ keptArgs spread params args)
    (honce : ∀ a ∈ args, (s.program.node a).op = .name ∨ args.count a ≤ 1) :
    S.Passes t.program spread false params args := by
  induction params generalizing args with
  | nil => trivial
  | cons param params ih =>
    cases args with
    | nil => trivial
    | cons arg args =>
      have hfree {a : NodeId} (ha : a ∈ arg :: args) (hnot : S.kept a → (s.program.node a).op = .name) :
          S.Free t.program a := by
        rcases hopen a ha with hk | ho
        · exact .old (Or.inl (hnot hk))
        · exact .old ho
      unfold Passes
      unfold keptArgs at hkeeps hkept
      split
      · rename_i hrest
        rw [if_pos hrest] at hkept
        exact fun a ha => hfree ha fun hk => (hkept a ha hk).resolve_right List.not_mem_nil
      · rename_i hrest
        rw [if_neg hrest] at hkeeps hkept
        -- An argument that comes later is another one.
        have hlater {a : NodeId} (ha : a ∈ args) (hop : (s.program.node a).op ≠ .name) : a ≠ arg := by
          rintro rfl
          have hcount := (honce a List.mem_cons_self).resolve_left hop
          have hpos := List.count_pos_iff.2 ha
          rw [List.count_cons_self] at hcount
          omega
        refine ⟨?_, ih (fun a ha => hopen a (List.mem_cons_of_mem arg ha))
          (fun a ha => hkeeps a (List.mem_append_right _ ha)) (fun a ha hk => ?_) fun a ha => ?_⟩
        · split
          · rename_i hnone
            exact (hkeeps arg (by simp [hnone.1])).imp_left ht.name
          · rename_i hnone
            have hnone' : Word.ofNote param.note ≠ .plain .none := fun h => hnone ⟨h, rfl⟩
            refine hfree List.mem_cons_self fun hk => ?_
            rcases hkept arg List.mem_cons_self hk with hop | hmem
            · exact hop
            · rw [if_neg hnone', List.nil_append] at hmem
              by_contra hop
              exact hlater (mem_of_mem_keptArgs hmem) hop rfl
        · by_cases hop : (s.program.node a).op = .name
          · exact Or.inl hop
          · refine Or.inr ?_
            rcases List.mem_append.1 ((hkept a (List.mem_cons_of_mem arg ha) hk).resolve_left hop) with hmem | hmem
            · split at hmem
              · exact absurd (List.mem_singleton.1 hmem) (hlater ha hop)
              · cases hmem
            · exact hmem
        · refine (honce a (List.mem_cons_of_mem arg ha)).imp_right fun hcount => ?_
          exact Nat.le_trans (List.count_le_count_cons) hcount

/-- A slice is marked right after it is made, so the graph grows from before it was made. -/
theorem guards_noteValue {v : Flow} (htu : s.Grows t u) (hu : S.Sound u) (p : Program) {detached : Bool}
    {outs : List NodeId} (houts : ∀ out ∈ outs, S.Free u.program out) {param : Param} {src : NodeId}
    (hmark : Word.ofNote param.note = .plain .none → detached = false →
      ∀ a w, markStatementLocal src u = .ok a w → s.Grows t w ∧ S.Sound w)
    (hfree : ¬ (Word.ofNote param.note = .plain .none ∧ detached = false) → S.Free u.program src) {a : Unit}
    (h : noteValue p detached outs param src u = .ok a v) : s.Grows t v ∧ S.Sound v := by
  unfold noteValue at h
  split at h
  · obtain ⟨w, u', hw, h⟩ := bind_eq_ok h
    obtain ⟨⟨huu', hu'⟩, rfl, hsame⟩ := (guards_applyNote hu param.note (fun hne => hfree fun hk => hne hk.1) houts).ok hw
    split at h
    · rename_i hkept
      rw [Bool.not_eq_true'] at hkept
      rw [hsame hkept.1] at h
      exact hmark hkept.1 hkept.2 a v h
    · cases h
      exact ⟨htu.trans huu', hu'⟩
  · cases h
    exact ⟨htu, hu⟩

theorem guards_notePassing (ht : S.Sound t) {call : NodeId} (hin : S.inside call)
    (hcall : (s.program.node call).op.isCall = true) {detached : Bool} (hloud : detached = false → ¬ S.loud call)
    {outs : List NodeId} (houts : ∀ out ∈ outs, S.Free t.program out) (hlist : (s.program.node call).list ≠ [])
    {x : Passing} (hx : S.MayPass t.program detached x) :
    S.Guards t (notePassing call detached outs x) fun _ _ => True := by
  refine triple_of_ok fun a v h => ⟨?_, trivial⟩
  obtain ⟨src, u, hsrc, h⟩ := bind_eq_ok h
  cases x with
  | one param arg =>
    cases hsrc
    rw [MayPass] at hx
    refine guards_noteValue (.refl t) ht t.program houts (fun hnone hdet b w hw => ?_) (fun hnot => ?_) h
    · rw [if_pos ⟨hnone, hdet⟩] at hx
      exact ((guards_markStatementLocal ht hx).ok hw).1
    · dsimp only [Passing.param] at hnot
      rwa [if_neg hnot] at hx
  | rest param args =>
    obtain ⟨⟨htu, hu⟩, hfree, hmark⟩ := (guards_restArg ht hin hcall hlist _ hx).ok hsrc
    exact guards_noteValue htu hu u.program (fun o ho => (houts o ho).mono htu) (fun _ hdet => hmark (hloud hdet))
      (fun _ => hfree) h

theorem guards_applyNotes (ht : S.Sound t) {call : NodeId} (hin : S.inside call)
    (hcall : (s.program.node call).op.isCall = true) {spread detached : Bool}
    (hloud : detached = false → ¬ S.loud call) {outs : List NodeId} (houts : ∀ out ∈ outs, S.Free t.program out)
    {params : List Param} {args : List NodeId} (hlist : args ≠ [] → (s.program.node call).list ≠ [])
    (hpasses : ∀ x ∈ passings spread params args, S.MayPass t.program detached x) :
    S.Guards t (applyNotes call spread detached outs params args) fun _ _ => True := by
  rw [applyNotes_eq]
  refine guards_passings ht hlist fun x hx hlist u htu hu => ?_
  exact guards_notePassing hu hin hcall hloud (fun o ho => (houts o ho).mono htu) hlist ((hpasses x hx).mono htu)

theorem guards_makeOuts (ht : S.Sound t) (line : UInt32) (i : Nat) (tys : List (Option Ty)) :
    S.Guards t (makeOuts line i tys) fun outs u => ∀ m ∈ outs, S.Free u.program m ∧ (u.program.node m).op = .name := by
  induction tys generalizing t i with
  | nil => exact triple_pure_of ht.rest fun _ h => absurd h List.not_mem_nil
  | cons ty tys ih =>
    unfold makeOuts
    refine triple_get (guards_place ht rfl fun out u _ hu hmade => ?_)
    have hout : S.Free u.program out ∧ (u.program.node out).op = .name := by
      refine ⟨free_of_made hmade rfl fun m hm => ?_, by rw [hmade.node]⟩
      simp [Node.upstream] at hm
    refine (ih hu (i + 1)).bind fun outs v huv hv houts => triple_pure_of hv.rest ?_
    exact List.forall_mem_cons.2 ⟨⟨hout.1.mono huv, huv.name hout.2⟩, houts⟩

theorem guards_callByNotes (ht : S.Sound t) {call : NodeId} (hin : S.inside call)
    (hcall : (s.program.node call).op.isCall = true) {detached : Bool} (hloud : detached = false → ¬ S.loud call)
    {args : List NodeId} (hlist : args ≠ [] → (s.program.node call).list ≠ [])
    (hpasses : S.Passes t.program (t.program.node call).variadic detached (t.program.calleeShape call).params args) :
    S.Guards t (callByNotes call detached args) fun _ _ => True := by
  rw [callByNotes_eq]
  refine triple_get ?_
  split
  · exact triple_throw trivial
  · refine (guards_makeOuts ht _ _ _).bind fun outs u htu hu houts => ?_
    refine (guards_setResults hu call houts).bind fun _ v huv hv _ => ?_
    have htv := htu.trans huv
    have houts' (o : NodeId) (ho : o ∈ outs) : S.Free v.program o := (houts o ho).1.mono huv
    refine (triple_optionForM_of hv.rest _ fun (x : Param × NodeId) hx => triple_of_ok fun a w hw => ⟨?_, trivial⟩).bind
      fun _ w hw _ => ?_
    · have hfree := (free_of_recvExpr ht hin hcall (recv_of_recvPassing hx).2).mono htv
      exact guards_noteValue (.refl v) hv t.program houts' (by simp) (fun _ => hfree) hw
    · exact guards_applyNotes hw.2 hin hcall hloud (fun o ho => (houts' o ho).mono hw.1) hlist
        fun x hx => (passes_iff.1 hpasses x hx).mono (htv.trans hw.1)

/-! ## Calls -/

/-- A callee that is not known has no notes. -/
theorem note_of_calleeOf_eq_none {p : Program} {call : NodeId} (h : p.calleeOf call = none) {param : Param}
    (hparam : param ∈ (p.calleeShape call).params) : Word.ofNote param.note ≠ .plain .none := by
  unfold Program.calleeShape at hparam
  simp only [h, List.mem_mapIdx] at hparam
  obtain ⟨_, _, rfl⟩ := hparam
  show Word.ofNote none ≠ .plain .none
  decide

theorem Sound.notedCallee (ht : S.Sound t) {call : NodeId} (hin : S.inside call) {f : FuncId} :
    t.NotedCallee call f ↔ s.NotedCallee call f := by
  unfold NotedCallee Program.isGroupCandidate
  rw [ht.nodes.calleeOf S.closed (S.lt_size call hin), ht.func f, ne_eq, ht.noted f]

/-- What is not kept of the arguments is open. -/
theorem open_of_arg {call : NodeId} (hin : S.inside call) (hm : m ∈ (s.program.node call).list) (hkept : ¬ S.kept m) :
    S.Open m :=
  Or.inr ⟨S.part call hin m (by simp [Node.children, hm]), hkept⟩

/-- The arguments of a call, or the results of the only one, which are names. -/
theorem guards_callArgs (ht : S.Sound t) {call : NodeId} (hin : S.inside call) :
    S.Guards t (callArgs (t.program.node call)) fun args u => u = t ∧
      (args = (s.program.node call).list ∨ ∀ a ∈ args, S.Free t.program a ∧ (t.program.node a).op = .name) ∧
      (args ≠ [] → (s.program.node call).list ≠ []) := by
  have hlist := (ht.nodes.node call (S.lt_size call hin)).list
  unfold callArgs
  split
  · rename_i arg harg
    have hne : (s.program.node call).list ≠ [] := by
      rw [← hlist, harg]
      exact List.cons_ne_nil _ _
    refine triple_resultsOf (triple_getProgram (triple_pure_of ht.rest ⟨rfl, ?_, fun _ => hne⟩))
    split
    · exact Or.inr (ht.results arg)
    · exact Or.inl (by rw [← hlist, harg])
  · exact triple_pure_of ht.rest ⟨rfl, Or.inl hlist, fun h => hlist ▸ h⟩

section Calls

variable {call : NodeId} (hin : S.inside call) (hcall : (s.program.node call).op.isCall = true)
include hin hcall

/-- A callee of the group gets nothing that is kept, and neither does one that is not known. -/
theorem open_of_not_noted (hnot : ∀ f, ¬ s.NotedCallee call f) (hm : m ∈ (s.program.node call).list) : S.Open m := by
  refine open_of_arg hin hm fun hkept => ?_
  obtain ⟨_, f, hf, _⟩ := S.arg call hin hcall m hm hkept
  exact hnot f hf

theorem open_of_loud (hloud : S.loud call) (hm : m ∈ (s.program.node call).list) : S.Open m := by
  refine open_of_arg hin hm fun hkept => ?_
  exact (S.arg call hin hcall m hm hkept).1 hloud

variable (ht : S.Sound t)
include ht

/-- The arguments of a call are passed to a callee that is known by its notes. -/
theorem passes_list {detached : Bool} (hup : S.loud call ↔ detached = true) {f : FuncId} (hf : s.NotedCallee call f) :
    S.Passes t.program (s.program.node call).variadic detached (s.program.func f).params (s.program.node call).list := by
  cases detached with
  | true =>
    exact passes_of_free (fun a ha => .old (open_of_loud hin hcall (hup.2 rfl) ha)) (Or.inr (Or.inl rfl))
  | false =>
    have hloud : ¬ S.loud call := fun h => Bool.false_ne_true (hup.1 h)
    refine passes_of_keptArgs ht (fun a ha => ?_) (S.keeps call hin hcall hloud f hf) (fun a ha hk => ?_)
      (S.once call hin hcall)
    · by_cases hk : S.kept a
      · exact Or.inl hk
      · exact Or.inr (open_of_arg hin ha hk)
    · obtain ⟨_, g, hg, hmem⟩ := S.arg call hin hcall a ha hk
      rw [Option.some.inj (hf.1.symm.trans hg.1)]
      exact Or.inr hmem

theorem guards_call {up : Option NodeId} (hup : S.loud call ↔
    (up.any fun up => (t.program.node up).op = .deferStmt ∨ (t.program.node up).op = .goStmt) = true) :
    S.Guards t (Flow.call call up) fun _ _ => True := by
  have hmet : S.Guards t (modify fun t => { t with calls := call :: t.calls })
      fun _ u => u = { t with calls := call :: t.calls } :=
    ⟨ht.of_nodes_eq (u := { t with calls := call :: t.calls }) rfl rfl rfl rfl rfl, rfl⟩
  unfold Flow.call
  refine hmet.bind fun _ u _ hu he => triple_get ?_
  have hprogram : u.program = t.program := by rw [he]
  rw [← hprogram] at hup
  have hvariadic : (u.program.node call).variadic = (s.program.node call).variadic := by
    obtain ⟨_, _, he⟩ := hu.nodes.node call (S.lt_size call hin)
    rw [he]
  refine (guards_callArgs hu hin).bind fun args v _ hv hargs => ?_
  obtain ⟨rfl, hargs, hlist⟩ := hargs
  extract_lets detached
  have hloud (hdet : detached = false) : ¬ S.loud call := fun h => Bool.false_ne_true (hdet.symm.trans (hup.1 h))
  -- Names may be passed to any callee.
  have hpasses (params : List Param) (hnames : ∀ a ∈ args, S.Free v.program a ∧ (v.program.node a).op = .name)
      (spread : Bool) : S.Passes v.program spread detached params args :=
    passes_of_free (fun a ha => (hnames a ha).1) (Or.inl fun a ha => (hnames a ha).2)
  split
  · rename_i f hf
    split
    · rename_i hgroup
      refine guards_callInGroup hv hin hcall f hlist fun a ha => ?_
      rcases hargs with rfl | hnames
      · refine .old (open_of_not_noted hin hcall (fun g hg => ?_) ha)
        have hg := (hv.notedCallee hin).2 hg
        cases hf.symm.trans hg.1
        exact hg.2 hgroup
      · exact (hnames a ha).1
    · rename_i hgroup
      have hnoted := (hv.notedCallee hin).1 ⟨hf, hgroup⟩
      refine guards_callByNotes hv hin hcall hloud hlist ?_
      rcases hargs with rfl | hnames
      · have hshape : (v.program.calleeShape call).params = (s.program.func f).params := by
          rw [← hv.func f]
          simp [Program.calleeShape, hf]
        rw [hshape, hvariadic]
        exact passes_list hin hcall hv hup hnoted
      · exact hpasses _ hnames _
  · rename_i hnone
    refine guards_callByNotes hv hin hcall hloud hlist ?_
    rcases hargs with rfl | hnames
    · refine passes_of_free (fun a ha => .old (open_of_not_noted hin hcall (fun g hg => ?_) ha))
        (Or.inr (Or.inr fun param hparam => note_of_calleeOf_eq_none hnone hparam))
      have hg := (hv.notedCallee hin).2 hg
      cases hnone.symm.trans hg.1
    · exact hpasses _ hnames _

end Calls

end EscapeAnalysis.Flow.Shelter

import EscapeAnalysis.Proofs.Recording.Walks

/-!
# The depths of inputs and outputs

When the flows of a function are recorded, its inputs are put at depth 1 and its outputs at depth 0, and only what
introduces a name puts it somewhere else. So they are there when the flood starts, if no node of the group introduces
them again.

* `Flow.Fixed A s n` : the name is no local variable, and no node of the walk introduces it;
* `Flow.AtHome s n` : the name is at the depth of the inputs, or of the outputs;
* `Flow.atHome_step`, `Flow.Steps.atHome` : a fixed name stays there;
* `Flow.atHome_recorded` : it is there when the flows of a group are recorded.
-/

namespace EscapeAnalysis.Flow

variable {A : Area} {s t : Flow} {n : NodeId}

/-- However the program grows, no node of the walk introduces the name. -/
structure Fixed (A : Area) (s : Flow) (n : NodeId) : Prop where
  op : (s.program.node n).op = .name
  cls : (s.program.node n).cls ≠ .auto
  free : ∀ q, s.program.Extends q → ∀ m, A.walk m → n ∉ q.introduced (q.node m)

theorem Fixed.sameBut (hn : Fixed A s n) (h : Frame s t) : (s.program.node n).SameBut (t.program.node n) :=
  h.node n (s.program.lt_size_of_op_eq_name hn.op)

theorem Fixed.frame (hn : Fixed A s n) (h : Frame s t) : Fixed A t n := by
  have hsame := hn.sameBut h
  refine ⟨hsame.op.trans hn.op, ?_, fun q hq => hn.free q (h.nodes.trans hq)⟩
  rw [hsame.cls]
  exact hn.cls

def AtHome (s : Flow) (n : NodeId) : Prop := s.info.depth n = (s.program.node n).cls.homeDepth

theorem atHome_step (h : Step A s t) (hn : Fixed A s n) (hs : s.AtHome n) : t.AtHome n := by
  unfold AtHome at hs ⊢
  rw [(hn.sameBut (frame_step h)).cls, ← hs]
  cases h with
  | start _ | leave _ _ => rfl
  | change h =>
    cases h with
    | @depthOf m hm d hd =>
      by_cases hmn : m = n
      · subst hmn
        have hset : ({ s with info := s.info.setDepth m d } : Flow).info.depth m = d := Table.get_set_self _ _ _
        rw [hset]
        rcases hd hn.op with hauto | ⟨k, hk, hintro⟩ | ⟨_, hhome⟩
        · exact absurd hauto hn.cls
        · exact absurd hintro (hn.free s.program (.refl _) k hk)
        · rw [hhome, hs]
      · exact Table.get_set_of_ne _ _ fun e => hmn (NodeId.ext e).symm
    | _ => rfl

theorem Steps.atHome (h : Steps A s t) (hn : Fixed A s n) (hs : s.AtHome n) : t.AtHome n := by
  induction h with
  | refl => exact hs
  | tail hsteps hstep ih => exact atHome_step hstep (hn.frame (Steps.frame hsteps)) ih

/-! ## Declarations -/

theorem atHome_declareWord {w : Word} (h : declareWord w n s = .ok () t) (hop : (s.program.node n).op = .name)
    (hcls : (s.program.node n).cls = .param ∨ (s.program.node n).cls = .result) : t.AtHome n := by
  unfold declareWord at h
  change (if (s.program.node n).op = .name then _ else _ : FlowM Unit) s = _ at h
  rw [if_pos hop] at h
  unfold AtHome
  rcases hcls with hcls | hcls
  · rw [hcls] at h
    change (if s.program.hasNoPointers (s.program.node n).ty = true then _ else _ : FlowM Unit)
      { s with info := s.info.setDepth n 1 } = _ at h
    split at h <;> cases h <;> rw [hcls] <;> exact Table.get_set_self _ _ _
  · rw [hcls] at h
    cases h
    rw [hcls]
    exact Table.get_set_self _ _ _

section Func

variable (hs : s.Refs A) {f : FuncId} (hf : A.func f) (hdecl : n ∈ (s.program.func f).decls) (hn : Fixed A s n)
  (hcls : (s.program.node n).cls = .param ∨ (s.program.node n).cls = .result)
include hs hf hdecl hn hcls

/-- The declarations of a function put its inputs and outputs at their depths. -/
theorem records_decls_atHome {c : EscapeClass} (hc : c = .none ∨ c = .heap) :
    Records A s ((s.program.func f).decls.forM (declareWord (.plain c))) fun _ t => t.AtHome n := by
  have hvalid : ∀ m ∈ (s.program.func f).decls, s.Valid A m := fun m hm => hs.func f hf m (Func.mem_refs_decls hm)
  have hdeclare {t : Flow} (ht : Changes A s t) {m : NodeId} (hm : m ∈ (s.program.func f).decls) :
      Records A t (declareWord (.plain c) m) fun _ _ => True :=
    records_declareWord hc (ht.frame.valid (hvalid m hm)) hf (by rw [ht.frame.func]; exact hm)
  refine triple_forM_keeps (fun t u ht hu hhome => Steps.atHome hu.steps (hn.frame ht.frame) hhome) hdecl
    (fun m hm t ht => hdeclare ht hm) fun t ht => ?_
  refine (hdeclare ht hdecl).of_ok fun _ u hu => atHome_declareWord hu (hn.frame ht.frame).op ?_
  rw [(hn.sameBut ht.frame).cls]
  exact hcls

theorem atHome_recordFunc (hW : s.program.Confines A.walk) (hbody : ∀ m ∈ (s.program.func f).body.getD [], A.walk m)
    (h : recordFunc f s = .ok () t) : t.AtHome n := by
  have hstart : Fixed A (s.startFunc f) n := hn.frame (frame_startFunc s f)
  have hrecords := records_recordBody_of_decls (s := s.startFunc f) (hs.startFunc hf) hf hW hbody
    (fun t u ht hu hhome => Steps.atHome hu.steps (hstart.frame ht.frame) hhome)
    fun _ hc => records_decls_atHome (hs.startFunc hf) hf hdecl hstart hcls hc
  rw [recordFunc_eq] at h
  split at h
  · cases h
  · split at h
    · rename_i u hu
      cases h
      exact (hrecords.ok hu).2
    · cases h

end Func

/-- When the flows of a group are recorded, the inputs and outputs of its functions are at their depths. -/
theorem atHome_recorded (hs : s.Refs A) (hW : s.program.Confines A.walk) {funcs : List FuncId}
    (hbody : ∀ f ∈ funcs, ∀ m ∈ (s.program.func f).body.getD [], A.walk m)
    (h : funcs.forM recordFunc s = .ok () t) {f : FuncId} (hf : f ∈ funcs) (hfunc : A.func f)
    (hdecl : n ∈ (s.program.func f).decls) (hn : Fixed A s n)
    (hcls : (s.program.node n).cls = .param ∨ (s.program.node n).cls = .result) : t.AtHome n := by
  induction funcs generalizing s with
  | nil => cases hf
  | cons g funcs ih =>
    rw [List.forall_mem_cons] at hbody
    rw [forM_cons_eq] at h
    split at h
    · rename_i u hu
      have hstarts := (starts_recordFunc hs hW hbody.1 hu).2
      have hframe := hstarts.frame
      have hW' := hW.extends hframe.nodes
      have hbody' : ∀ g ∈ funcs, ∀ m ∈ (u.program.func g).body.getD [], A.walk m := by
        intro k hk
        rw [hframe.func]
        exact hbody.2 k hk
      rcases List.mem_cons.1 hf with rfl | hf
      · have hhome := atHome_recordFunc hs hfunc hdecl hn hcls hW hbody.1 hu
        exact (starts_funcs hstarts.refs hW' hbody' h).steps.atHome (hn.frame hframe) hhome
      · refine ih hstarts.refs hW' hbody' h hf ?_ (hn.frame hframe) ?_
        · rw [hframe.func]
          exact hdecl
        · rw [(hn.sameBut hframe).cls]
          exact hcls
    · cases h

end EscapeAnalysis.Flow

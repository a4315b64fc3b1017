import EscapeAnalysis.Proofs.Recording.LabelCounts

/-!
# Loop depths in the functions of a group

The recording of a function declares its inputs and outputs and scans its labels, at depth 1, and then walks over its
body. When it ends, the walk is where it was before. What is marked on the way is at depth 1 or deeper, from function to
function.

* `Flow.Based p s` : what holds of a graph over the nodes of `p` between the functions of a group;
* `Flow.Based.ready` : the walk of a body may start;
* `Flow.Based.recordFunc`, `Flow.Based.recorded` : one function, and several.
-/

namespace EscapeAnalysis.Flow

variable {A : Area} {s t : Flow} {f : FuncId} {n : NodeId}

/-! ## Before the walk -/

theorem recordBody_of_enterBody {b : Flow} (h : enterBody f s = .ok () b) :
    recordBody f s = walkBody ((s.program.func f).body.getD []) b := bind_of_ok h

/-- A function is entered, its body is walked over, and the walk is where it was before. -/
theorem recordFunc_eq_ok (h : recordFunc f s = .ok () t) : ∃ b w, enterBody f (s.startFunc f) = .ok () b ∧
    walkBody ((s.program.func f).body.getD []) b = .ok () w ∧ t = { w with depth := s.depth, curfn := s.curfn } := by
  rw [recordFunc_eq] at h
  split at h
  · cases h
  · split at h
    · rename_i w hw
      cases h
      obtain ⟨_, b, hb, hw⟩ := bind_eq_ok (m := enterBody f) hw
      exact ⟨b, w, hb, hw, rfl⟩
    · cases h

/-- The walk is at depth `d`, and all that is marked is deep enough. -/
def DeepAt (d : Int) (s : Flow) : Prop := s.depth = d ∧ s.Deep

theorem deep_setDepth_result (hs : s.Deep) (hn : (s.program.node n).isNameOf .result = true) :
    Deep { s with info := s.info.setDepth n 0 } := by
  refine ⟨fun x hx => ?_, fun m hm => ?_⟩
  · obtain ⟨hlt, hname, hdepth⟩ := hs.pending x hx
    refine ⟨hlt, hname, ?_⟩
    dsimp only
    rw [depth_setDepth, if_neg]
    · exact hdepth
    · rintro rfl
      rw [hn] at hname
      cases hname
  · dsimp only
    rw [depth_setDepth]
    split
    · exact Int.le_refl 0
    · exact hs.auto m hm

theorem deepAt_declareWord {d : Int} (hs : s.DeepAt d) {w : Word} (h : declareWord w n s = .ok () t) : t.DeepAt d := by
  unfold declareWord at h
  rw [get_bind] at h
  split at h
  · rename_i hop
    cases hcls : (s.program.node n).cls with
    | result =>
      rw [hcls] at h
      cases h
      exact ⟨hs.1, deep_setDepth_result hs.2 (by simp [Node.isNameOf, hop, hcls])⟩
    | param =>
      rw [hcls] at h
      have hset : Deepens s { s with info := s.info.setDepth n 1 } := deepens_setDepth fun _ => Int.le_refl 1
      cases hpointers : s.program.hasNoPointers (s.program.node n).ty with
      | true =>
        rw [hpointers] at h
        cases h
        exact ⟨hs.1, hset.deep hs.2⟩
      | false =>
        rw [hpointers] at h
        cases h
        refine ⟨hs.1, (hset.trans (deepens_pending (s := { s with info := s.info.setDepth n 1 })
          (s.program.lt_size_of_op_eq_name hop) (by simp [Node.isNameOf, hcls]) ?_ w)).deep hs.2⟩
        exact Int.le_of_eq (by rw [depth_setDepth, if_pos rfl])
    | _ =>
      rw [hcls] at h
      cases h
      exact hs
  · cases h
    exact hs

theorem deepAt_link {d : Int} (hd : 1 ≤ d) (hs : s.DeepAt d) {dst src : NodeId} (h : link dst src s = .ok () t) :
    t.DeepAt d := by
  have hstill := ((stays_link dst src).ok h).1
  exact ⟨hstill.depth.trans hs.1, (hstill.deepens (by rw [hs.1]; exact hd)).deep hs.2⟩

theorem DeepAt.labels {d : Int} (hs : s.DeepAt d) (labels : List (LabelId × Bool)) : DeepAt d { s with labels } :=
  ⟨hs.1, hs.2.pending, hs.2.auto⟩

theorem records_scanLabels_deepAt {d : Int} (hs : s.DeepAt d) (fuel : Nat) (n : NodeId) :
    Records A s (scanLabels fuel n) fun _ t => t.DeepAt d := by
  induction fuel generalizing s n with
  | zero => exact triple_throw ⟨.refl, trivial⟩
  | succ fuel ih =>
    unfold scanLabels
    refine triple_getProgram ((triple_forM_inv .refl _ (fun m _ t _ ht => ih ht m) hs).bind fun _ t _ ht => ?_)
    have hnode : Records A t (scanNode n (s.program.node n)) fun _ u => u.DeepAt d := by
      refine (records_scanNode n _).of_ok fun _ u hu => ?_
      rw [scanNode_eq] at hu
      split at hu
      · cases hu
      · cases hu
        rw [meet_eq]
        exact ht.labels _
    exact hnode.bind fun _ u _ hu => triple_forM_inv .refl _ (fun m _ v _ hv => ih hv m) hu

/-- The walk is still at the top of the function when its body is entered. -/
theorem records_enterBody_deepAt (hs : s.Refs A) (hf : A.func f) {d : Int} (hd : 1 ≤ d) (hdeep : s.DeepAt d) :
    Records A s (enterBody f) fun _ t => t.DeepAt d := by
  refine triple_getProgram ((records_declareNames_of hs hf (P := DeepAt d) (fun c hc => ?_) fun t u m _ _ ht hu =>
    deepAt_link hd ht hu).bind fun _ t _ ht => ?_)
  · refine triple_forM_inv .refl _ (fun m hm t ht hdeep => ?_) hdeep
    refine (records_declareWord hc (ht.frame.valid (hs.func f hf m (Func.mem_refs_decls hm))) hf ?_).of_ok
      fun _ u hu => deepAt_declareWord hdeep hu
    rw [ht.frame.func]
    exact hm
  · exact triple_getProgram (triple_forM_inv .refl _ (fun m _ _ _ hu => records_scanLabels_deepAt hu _ m) ht)

/-! ## Functions -/

/-- The graph is over the nodes and the bodies of `p`, and what is marked is deep enough. -/
structure Based (p : Program) (s : Flow) : Prop where
  nodes : p.Extends s.program
  refs : s.Refs (p.area s.sink)
  body : ∀ f, (s.program.func f).body = (p.func f).body
  deep : s.Deep

section Based

variable {p : Program} {b : Flow} (hp : p.Closed) (h : Based p s)
include hp h

theorem Based.ready (hb : enterBody f (s.startFunc f) = .ok () b) :
    Ready p b ∧ b.depth = 1 ∧ b.Deep ∧
      ∀ n ∈ (p.func f).body.getD [], b.Valid (p.area b.sink) n ∧ n.index < p.nodes.size := by
  have hrefs : (s.startFunc f).Refs (p.area s.sink) := h.refs.startFunc trivial
  obtain ⟨hchanges, hdepth, hdeep⟩ :=
    (records_enterBody_deepAt hrefs trivial (Int.le_refl 1) ⟨rfl, h.deep.pending, h.deep.auto⟩).ok hb
  have hsink : b.sink = s.sink := hchanges.frame.sink
  rw [hsink]
  refine ⟨⟨hp, h.nodes.trans hchanges.frame.nodes, ?_, Int.le_of_eq hdepth.symm⟩, hdepth, hdeep, fun n hn => ⟨?_, ?_⟩⟩
  · rw [hsink]
    exact hrefs.changes hchanges
  · rw [← h.body] at hn
    exact hchanges.frame.valid (hrefs.func f trivial n (Func.mem_refs_body hn))
  · exact hp n (Or.inr ⟨f, Func.mem_refs_body hn⟩)

theorem Based.recordFunc (ht : recordFunc f s = .ok () t) : Based p t := by
  have hstarts : Starts (p.area s.sink) [f] s t := by
    refine (starts_recordFunc h.refs (hp.confines h.nodes) (fun m hm => ?_) ht).2
    rw [h.body] at hm
    exact hp m (Or.inr ⟨f, Func.mem_refs_body hm⟩)
  have hframe := hstarts.frame
  refine ⟨h.nodes.trans hframe.nodes, ?_, fun g => ?_, ?_⟩
  · rw [hframe.sink]
    exact hstarts.refs
  · rw [hframe.func, h.body]
  · obtain ⟨b, w, hb, hw, rfl⟩ := recordFunc_eq_ok ht
    rw [h.body] at hw
    obtain ⟨hready, _, hdeep, hbody⟩ := h.ready hp hb
    have hend := (went_walkBody hready hdeep hbody hw).2.1.deep
    exact ⟨hend.pending, hend.auto⟩

theorem Based.recorded {funcs : List FuncId} (ht : funcs.forM Flow.recordFunc s = .ok () t) : Based p t := by
  induction funcs generalizing s with
  | nil =>
    cases ht
    exact h
  | cons f funcs ih =>
    rw [forM_cons_eq] at ht
    split at ht
    · rename_i u hu
      exact ih (h.recordFunc hp hu) ht
    · cases ht

end Based

end EscapeAnalysis.Flow

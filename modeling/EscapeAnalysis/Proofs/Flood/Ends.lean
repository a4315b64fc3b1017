import EscapeAnalysis.Proofs.Flood.Visits

/-!
# Walks end

A walk of a flood goes on in rounds. A round takes what is next to visit and either drops it, or enters the node
and goes on from there. Around a cycle of the graph levels rise and fall, so no path tells when a walk ends. What
falls in every round is what the recorded levels leave room for, together with what is still to visit.

* `Walk`, `Walk.round?` : a walk under way, and one round of it;
* `Walk.OnWay` : what every round of a walk keeps; each of them lowers `Flow.measure`;
* `Walk.exists_rounds_walkBack` : `Flow.walkBack` goes through rounds until nothing is left to visit;
* `walks_end` : every walk of every flood ends, on any graph.
-/

namespace EscapeAnalysis

/-- A walk under way: what it has still to visit, the levels recorded so far, and what it wrote. -/
structure Walk where
  todo : List (Level × NodeId)
  memo : Table (Option Level)
  flow : Flow

namespace Walk

/-- A walk starts with one source to visit and nothing recorded. -/
def start (s : Flow) (src : NodeId) : Walk := ⟨[(.zero, src)], .empty, s⟩

/-- A round of the walk from `dst`, if something is left to visit. -/
def round? (dst : NodeId) (w : Walk) : Option Walk :=
  match w.todo with
  | [] => none
  | (level, n) :: rest =>
    match Flow.enter? w.memo level n with
    | none => some { w with todo := rest }
    | some level =>
      let s := w.flow.follow ⟨dst, level, n⟩
      some ⟨s.nextVisits level n ++ rest, w.memo.set n.index (some level), s⟩

/-- So many rounds lead from one walk to another. -/
inductive Rounds (dst : NodeId) : Nat → Walk → Walk → Prop where
  | refl (w : Walk) : Rounds dst 0 w w
  | tail {k : Nat} {u v w : Walk} (h : Rounds dst k u v) (hw : v.round? dst = some w) : Rounds dst (k + 1) u w

/-- The level is below what is recorded for a node: no component is higher and one is lower. A node without a
record is entered for the first time. -/
def Lowers (old : Option Level) (new : Level) : Prop :=
  ∀ l, old = some l → new.value ≤ l.value ∧ new.suffix ≤ l.suffix ∧ (new.value < l.value ∨ new.suffix < l.suffix)

/-- The round drops what is next to visit: nothing else changes. -/
def Drops (w w' : Walk) : Prop := ∃ b, w = { w' with todo := b :: w'.todo }

/-- The round goes on from the node that is next to visit, at a level below the one recorded for it. -/
def Expands (dst : NodeId) (w w' : Walk) : Prop :=
  ∃ l m n rest, w.todo = (l, n) :: rest ∧ Lowers (w.memo.get n.index) m ∧
    w' = ⟨w.flow.nextVisits m n ++ rest, w.memo.set n.index (some m), w.flow.follow ⟨dst, m, n⟩⟩

/-- The graph has the same nodes and edges, and calls have the same results. -/
def SameGraph (s t : Flow) : Prop :=
  t.program = s.program ∧ t.sources = s.sources ∧ t.results = s.results ∧ t.dsts = s.dsts

theorem sameGraph_of_marked {s t : Flow} (h : Flow.Marked s t) : SameGraph s t :=
  ⟨h.program, h.sources, h.results, h.dsts⟩

/-! ## One round -/

variable {dst : NodeId} {w w' : Walk}

theorem lowers_of_enter? {memo : Table (Option Level)} {l m : Level} {n : NodeId}
    (h : Flow.enter? memo l n = some m) : Lowers (memo.get n.index) m := by
  intro old hold
  rcases Flow.enter?_eq_some h with ⟨hnone, _⟩ | ⟨old', hold', rfl, hne⟩
  · rw [hnone] at hold
    cases hold
  · cases hold.symm.trans hold'
    have hdiff : (l.min old).value ≠ old.value ∨ (l.min old).suffix ≠ old.suffix := by
      by_contra hc
      push Not at hc
      exact hne (by rw [Level.mk.injEq]; exact hc)
    simp only [Level.min] at hdiff ⊢
    omega

theorem round?_eq_none : w.round? dst = none ↔ w.todo = [] := by
  unfold round?
  constructor
  · intro h
    split at h
    · assumption
    · split at h <;> cases h
  · intro h
    rw [h]

/-- A round takes the next visit. It drops it, or enters the node and goes on from there. -/
theorem round?_eq_some (h : w.round? dst = some w') : ∃ l n rest, w.todo = (l, n) :: rest ∧
    ((Flow.enter? w.memo l n = none ∧ w' = { w with todo := rest }) ∨
      ∃ m, Flow.enter? w.memo l n = some m ∧
        w' = ⟨w.flow.nextVisits m n ++ rest, w.memo.set n.index (some m), w.flow.follow ⟨dst, m, n⟩⟩) := by
  unfold round? at h
  split at h
  · cases h
  · rename_i l n rest htodo
    refine ⟨l, n, rest, htodo, ?_⟩
    split at h
    · rename_i henter
      exact Or.inl ⟨henter, (Option.some.inj h).symm⟩
    · rename_i m henter
      refine Or.inr ⟨m, henter, ?_⟩
      rw [← Option.some.inj h, (Flow.marked_follow w.flow ⟨dst, m, n⟩).nextVisits_eq m n]

theorem drops_or_expands (h : w.round? dst = some w') : Drops w w' ∨ Expands dst w w' := by
  obtain ⟨l, n, rest, htodo, ⟨_, rfl⟩ | ⟨m, henter, rfl⟩⟩ := round?_eq_some h
  · exact Or.inl ⟨(l, n), by rw [← htodo]⟩
  · exact Or.inr ⟨l, m, n, rest, htodo, lowers_of_enter? henter, rfl⟩

/-- A step of `Flow.walkBack` is a round. -/
theorem walkBack_succ (fuel : Nat) (h : w.round? dst = some w') :
    Flow.walkBack dst (fuel + 1) w.todo w.memo w.flow = Flow.walkBack dst fuel w'.todo w'.memo w'.flow := by
  obtain ⟨l, n, rest, htodo, ⟨henter, rfl⟩ | ⟨m, henter, rfl⟩⟩ := round?_eq_some h
  · rw [htodo, Flow.walkBack, henter]
  · rw [htodo, Flow.walkBack, henter, ← (Flow.marked_follow w.flow ⟨dst, m, n⟩).nextVisits_eq m n]
    rfl

/-! ## What every round keeps -/

/-- What holds all along a walk from `src`: only words and reports are written, and levels stay in their band. -/
structure OnWay (s : Flow) (src : NodeId) (w : Walk) : Prop where
  flow : Flow.Marked s w.flow
  todo : ∀ b ∈ w.todo, b.1.Band ∧ b.2.index ∈ s.stops src
  memo : ∀ (n : NodeId) (l : Level), w.memo.get n.index = some l → l.Band

/-- What bounds the rounds that a walk from `src` still has to go. -/
def left (s : Flow) (src : NodeId) (w : Walk) : Nat := s.measure src w.memo w.todo

variable {s : Flow} {src : NodeId}

theorem onWay_start (s : Flow) (src : NodeId) : OnWay s src (start s src) := by
  refine ⟨Flow.Marked.refl s, ?_, ?_⟩
  · intro b hb
    cases List.mem_singleton.1 hb
    exact ⟨Level.band_zero, List.mem_append_left _ List.mem_cons_self⟩
  · intro n l hl
    have hnone : (start s src).memo.get n.index = none := Table.get_empty _
    rw [hnone] at hl
    cases hl

/-- A round keeps what holds along the walk, and leaves fewer rounds to go. -/
theorem OnWay.round (h : OnWay s src w) (hw : w.round? dst = some w') :
    OnWay s src w' ∧ left s src w' < left s src w := by
  obtain ⟨l, n, rest, htodo, ⟨_, rfl⟩ | ⟨m, henter, rfl⟩⟩ := round?_eq_some hw
  · refine ⟨⟨h.flow, fun b hb => h.todo b ?_, h.memo⟩, ?_⟩
    · rw [htodo]
      exact List.mem_cons_of_mem _ hb
    · simp only [left, Flow.measure, htodo, List.length_cons]
      omega
  · have hnext := h.flow.nextVisits_eq m n
    have hahead := h.todo
    rw [htodo] at hahead
    obtain ⟨hl, hn⟩ := hahead (l, n) List.mem_cons_self
    obtain ⟨hahead', hmemo⟩ := Flow.band_enter henter hahead h.memo
    rw [← hnext] at hahead'
    refine ⟨⟨h.flow.trans (Flow.marked_follow _ _), hahead', hmemo⟩, ?_⟩
    have hlt := Flow.measure_enter_lt rest henter hl h.memo hn
    rw [← hnext, ← htodo] at hlt
    exact hlt

/-! ## The rounds of a walk -/

theorem Rounds.head {k : Nat} {u v w : Walk} (hv : u.round? dst = some v) (h : Rounds dst k v w) :
    Rounds dst (k + 1) u w := by
  induction h with
  | refl _ => exact .tail (.refl u) hv
  | tail _ hw ih => exact .tail (ih hv) hw

theorem OnWay.rounds {k : Nat} {u : Walk} (h : OnWay s src u) (hk : Rounds dst k u w) :
    OnWay s src w ∧ left s src w + k ≤ left s src u := by
  induction hk with
  | refl _ => exact ⟨h, Nat.le_refl _⟩
  | tail _ hw ih =>
    obtain ⟨hv, hle⟩ := ih h
    obtain ⟨hw', hlt⟩ := hv.round hw
    exact ⟨hw', by omega⟩

theorem rounds_le_walkFuel {k : Nat} (h : Rounds dst k (start s src) w) : k ≤ s.walkFuel := by
  obtain ⟨_, hle⟩ := (onWay_start s src).rounds h
  have hfuel : left s src (start s src) ≤ s.walkFuel := s.measure_le_walkFuel src .zero
  omega

/-- With enough fuel a walk goes on until nothing is left to visit. -/
theorem exists_rounds_walkBack (dst : NodeId) (fuel : Nat) (h : OnWay s src w) (hfuel : left s src w ≤ fuel) :
    ∃ k v, Rounds dst k w v ∧ v.todo = [] ∧ Flow.walkBack dst fuel w.todo w.memo w.flow = v.flow := by
  induction fuel generalizing w with
  | zero =>
    have hnil : w.todo = [] := by
      apply List.eq_nil_of_length_eq_zero
      unfold left Flow.measure at hfuel
      omega
    exact ⟨0, w, .refl w, hnil, rfl⟩
  | succ fuel ih =>
    cases hw : w.round? dst with
    | none =>
      have hnil := round?_eq_none.1 hw
      refine ⟨0, w, .refl w, hnil, ?_⟩
      rw [hnil]
      rfl
    | some w' =>
      obtain ⟨h', hlt⟩ := h.round hw
      obtain ⟨k, v, hk, hv, hback⟩ := ih h' (by omega)
      refine ⟨k + 1, v, hk.head hw, hv, ?_⟩
      rw [walkBack_succ fuel hw]
      exact hback

/-! ## Floods -/

/-- One walk after the other from the sources, each until nothing is left to visit. -/
inductive RunsOut (dst : NodeId) : List NodeId → Flow → Flow → Prop where
  | nil (s : Flow) : RunsOut dst [] s s
  | cons {src : NodeId} {srcs : List NodeId} {k : Nat} {s t : Flow} {w : Walk}
    (h : Rounds dst k (start s src) w) (hend : w.todo = []) (hrest : RunsOut dst srcs w.flow t) :
    RunsOut dst (src :: srcs) s t

/-- The sources from which walks go back from `dst`. -/
def sourcesFrom (s : Flow) (dst : NodeId) : List NodeId :=
  match (s.program.node dst).op with
  | .name | .closure => (s.sources.get dst.index).toList
  | _ => []

theorem runsOut_foldl (dst : NodeId) (srcs : List NodeId) {t : Flow} (h : Flow.Marked s t) :
    RunsOut dst srcs t (srcs.foldl (fun t src => Flow.walkBack dst s.walkFuel [(.zero, src)] .empty t) t) := by
  induction srcs generalizing t with
  | nil => exact .nil t
  | cons src srcs ih =>
    have hfuel : t.walkFuel = s.walkFuel := by
      unfold Flow.walkFuel Flow.edgeCount
      rw [h.program, h.sources]
    obtain ⟨k, w, hk, hend, hback⟩ := exists_rounds_walkBack dst t.walkFuel (onWay_start t src)
      (t.measure_le_walkFuel src .zero)
    have hback' : Flow.walkBack dst s.walkFuel [(.zero, src)] .empty t = w.flow := by
      rw [← hfuel]
      exact hback
    have hw := ((onWay_start t src).rounds hk).1.flow
    rw [List.foldl_cons, hback']
    exact .cons hk hend (ih (h.trans hw))

theorem runsOut_flood (s : Flow) (dst : NodeId) : RunsOut dst (sourcesFrom s dst) s (s.flood dst) := by
  unfold Flow.flood sourcesFrom
  cases (s.program.node dst).op with
  | name | closure =>
    simp only [← Array.foldl_toList]
    exact runsOut_foldl dst _ (Flow.Marked.refl s)
  | _ => exact .nil s

/-- On every graph and from every destination a flood ends, with nothing left to visit in any of its walks. A walk
from any source has a bounded number of rounds. Each of them drops a visit or goes on from a node at a level below
the one recorded for it, and adds no node and no edge. -/
theorem walks_end (s : Flow) (dst : NodeId) :
    RunsOut dst (sourcesFrom s dst) s (s.flood dst) ∧
      ∀ src k w, Rounds dst k (start s src) w →
        k ≤ s.walkFuel ∧ SameGraph s w.flow ∧ (w.round? dst = none ↔ w.todo = []) ∧
          ∀ w', w.round? dst = some w' → Drops w w' ∨ Expands dst w w' := by
  refine ⟨runsOut_flood s dst, ?_⟩
  intro src k w h
  have hflow := ((onWay_start s src).rounds h).1.flow
  exact ⟨rounds_le_walkFuel h, sameGraph_of_marked hflow, round?_eq_none, fun w' => drops_or_expands⟩

/-- The address of `x` flows into `x`: `for { x = &x }`. -/
def ownAddress : Flow where
  program := { nodes := #[{ op := .name, cls := .auto }, { op := .addr, left := some ⟨0⟩ }] }
  sink := ⟨0⟩
  recursive := false
  dsts := #[⟨0⟩]
  sources := ⟨#[#[⟨1⟩], #[]]⟩

/-- The walk from `x` comes back to the address at a level below zero, and ends. -/
theorem walks_end_ownAddress : RunsOut ⟨0⟩ [⟨1⟩] ownAddress (ownAddress.flood ⟨0⟩) ∧
    ∃ w, Rounds ⟨0⟩ 3 (start ownAddress ⟨1⟩) w ∧ w.memo.get 1 = some ⟨-1, 0⟩ ∧ SameGraph ownAddress w.flow := by
  have haddr : Rounds ⟨0⟩ 1 (start ownAddress ⟨1⟩) _ := .tail (.refl _) rfl
  have hx : Rounds ⟨0⟩ 2 (start ownAddress ⟨1⟩) _ := .tail haddr rfl
  have hrounds : Rounds ⟨0⟩ 3 (start ownAddress ⟨1⟩) _ := .tail hx (Option.some_get (by decide +kernel)).symm
  have hends := walks_end ownAddress ⟨0⟩
  exact ⟨hends.1, _, hrounds, by decide +kernel, (hends.2 ⟨1⟩ 3 _ hrounds).2.1⟩

end Walk

end EscapeAnalysis

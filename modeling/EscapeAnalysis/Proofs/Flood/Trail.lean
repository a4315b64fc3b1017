import Mathlib.Algebra.Order.BigOperators.Group.List
import Mathlib.Algebra.Order.Ring.Nat
import Mathlib.Logic.Relation
import EscapeAnalysis.Flood
import EscapeAnalysis.Proofs.LevelOrder

/-!
# Paths and trails

Paths follow the edges of a graph without memory. A walk of a flood remembers the least level at each node and
turns back where it brings no lower one. Its trail still tells of every path, at a level that covers the path's.

* `Flow.Path s dst l n` : a walk without memory from `dst` can be at `n` at level `l`;
* `Flow.trail` : the visits of one walk, with the levels recorded on the way;
* `Flow.seen_of_mem_trailFrom` : every visit is at the level of a path, or both are at the floor;
* `Flow.exists_mem_trailFrom` : every path has a visit at a level that covers its own. This needs that the
  fuel of a walk is enough (`Flow.measure_le_walkFuel`).
-/

namespace EscapeAnalysis

/-! ## Paths -/

/-- Where a walk goes in one step. -/
def Flow.Next (s : Flow) (a b : Level × NodeId) : Prop := b ∈ s.nextVisits a.1 a.2

/-- A walk from `dst` can be at a node at a level. It starts at a source of `dst` at level zero, and
goes from a node to its operand or to a source of the node. -/
inductive Flow.Path (s : Flow) (dst : NodeId) : Level → NodeId → Prop where
  | source {src : NodeId} (h : src ∈ s.sources.get dst.index) : Path s dst .zero src
  | operand {l m : Level} {n x : NodeId} (h : Path s dst l n) (hx : s.program.operand? l n = some (m, x)) :
    Path s dst m x
  | flow {l : Level} {n src : NodeId} (h : Path s dst l n)
    (hsrc : src ∈ s.sources.get (s.sourceNode n).index) : Path s dst l.copy src

/-- Walks start from the destinations that are names or closures. -/
def Flow.IsRoot (s : Flow) (dst : NodeId) : Prop :=
  dst ∈ s.dsts ∧ ((s.program.node dst).op = .name ∨ (s.program.node dst).op = .closure)

namespace Flow

open Relation (ReflTransGen)

theorem mem_nextVisits {s : Flow} {l m : Level} {n x : NodeId} :
    (m, x) ∈ s.nextVisits l n ↔ s.program.operand? l n = some (m, x) ∨
      m = l.copy ∧ x ∈ s.sources.get (s.sourceNode n).index := by
  unfold nextVisits
  simp only [List.mem_append, Option.mem_toList, Array.mem_toList_iff, Array.mem_map, Prod.mk.injEq]
  constructor
  · rintro (h | ⟨y, hy, rfl, rfl⟩)
    · exact Or.inl h
    · exact Or.inr ⟨rfl, hy⟩
  · rintro (h | ⟨rfl, hx⟩)
    · exact Or.inl h
    · exact Or.inr ⟨x, hx, rfl, rfl⟩

theorem Path.next {s : Flow} {dst : NodeId} {a b : Level × NodeId} (h : Path s dst a.1 a.2) (hb : s.Next a b) :
    Path s dst b.1 b.2 := by
  obtain ⟨m, x⟩ := b
  rcases mem_nextVisits.1 hb with hx | ⟨rfl, hx⟩
  · exact h.operand hx
  · exact h.flow hx

/-- A path is a walk from one of the sources. -/
theorem path_iff {s : Flow} {dst : NodeId} {l : Level} {n : NodeId} :
    Path s dst l n ↔ ∃ src ∈ s.sources.get dst.index, ReflTransGen s.Next (.zero, src) (l, n) := by
  constructor
  · intro h
    induction h with
    | source h => exact ⟨_, h, .refl⟩
    | operand _ hx ih =>
      obtain ⟨src, hsrc, hw⟩ := ih
      exact ⟨src, hsrc, hw.tail (mem_nextVisits.2 (Or.inl hx))⟩
    | flow _ hy ih =>
      obtain ⟨src, hsrc, hw⟩ := ih
      exact ⟨src, hsrc, hw.tail (mem_nextVisits.2 (Or.inr ⟨rfl, hy⟩))⟩
  · rintro ⟨src, hsrc, hw⟩
    have h : ∀ c, ReflTransGen s.Next (.zero, src) c → Path s dst c.1 c.2 := by
      intro c hc
      induction hc with
      | refl => exact .source hsrc
      | tail _ hb ih => exact ih.next hb
    exact h _ hw

/-! ## Levels along a path -/

/-- The operand does not depend on the level, and its level is the one of the node, one more or one
less. -/
theorem operand?_eq_some {p : Program} {l m : Level} {n x : NodeId} (h : p.operand? l n = some (m, x)) :
    (m = l ∧ ∀ k, p.operand? k n = some (k, x)) ∨ (m = l.inc ∧ ∀ k, p.operand? k n = some (k.inc, x)) ∨
      (m = l.dec ∧ ∀ k, p.operand? k n = some (k.dec, x)) := by
  simp only [Program.operand?] at h ⊢
  cases hop : (p.node n).op with
  | name => by_cases hc : (p.node n).cls = .captured <;> simp_all
  | index => by_cases ha : p.isArrayNode (p.node n).left <;> simp_all
  | _ => simp_all

/-- A relation between levels that the steps of a walk keep. -/
structure Kept (R : Level → Level → Prop) : Prop where
  inc : ∀ {l m}, R l m → R l.inc m.inc
  dec : ∀ {l m}, R l m → R l.dec m.dec
  copy : ∀ {l m}, R l m → R l.copy m.copy

theorem kept_alike : Kept Level.Alike := ⟨Level.Alike.inc, Level.Alike.dec, Level.Alike.copy⟩

theorem kept_covers : Kept fun l m => Level.Covers m l := ⟨Level.Covers.inc, Level.Covers.dec, Level.Covers.copy⟩

theorem kept_band : Kept fun l _ => Level.Band l := ⟨Level.Band.inc, Level.Band.dec, Level.Band.copy⟩

/-- From related levels a walk goes to the same nodes at related levels. -/
theorem next_of_kept {R : Level → Level → Prop} (hR : Kept R) {s : Flow} {l k : Level} {n : NodeId}
    (h : R l k) {b : Level × NodeId} (hb : s.Next (l, n) b) : ∃ m, s.Next (k, n) (m, b.2) ∧ R b.1 m := by
  obtain ⟨m, x⟩ := b
  rcases mem_nextVisits.1 hb with hx | ⟨rfl, hx⟩
  · rcases operand?_eq_some hx with ⟨rfl, hk⟩ | ⟨rfl, hk⟩ | ⟨rfl, hk⟩
    · exact ⟨k, mem_nextVisits.2 (Or.inl (hk k)), h⟩
    · exact ⟨k.inc, mem_nextVisits.2 (Or.inl (hk k)), hR.inc h⟩
    · exact ⟨k.dec, mem_nextVisits.2 (Or.inl (hk k)), hR.dec h⟩
  · exact ⟨k.copy, mem_nextVisits.2 (Or.inr ⟨rfl, hx⟩), hR.copy h⟩

theorem band_of_next {s : Flow} {a b : Level × NodeId} (h : Level.Band a.1) (hb : s.Next a b) : Level.Band b.1 :=
  (next_of_kept kept_band (k := a.1) h hb).choose_spec.2

theorem Path.band {s : Flow} {dst : NodeId} {l : Level} {n : NodeId} (h : Path s dst l n) : Level.Band l := by
  induction h with
  | source _ => exact Level.band_zero
  | @operand l m n x _ hx ih => exact band_of_next (a := (l, n)) ih (mem_nextVisits.2 (Or.inl hx))
  | flow _ _ ih => exact ih.copy

/-! ## The visits of a walk -/

/-- The visits of a walk with the nodes it has still to visit and the levels recorded so far, each at the
level at which the walk goes on from it. -/
def trail (s : Flow) : Nat → List (Level × NodeId) → Table (Option Level) → List (Level × NodeId)
  | 0, _, _ => []
  | _ + 1, [], _ => []
  | fuel + 1, (level, src) :: rest, memo =>
    match enter? memo level src with
    | none => trail s fuel rest memo
    | some level =>
      (level, src) :: trail s fuel (s.nextVisits level src ++ rest) (memo.set src.index (some level))

theorem enter?_eq_none {memo : Table (Option Level)} {l : Level} {n : NodeId} (h : enter? memo l n = none) :
    ∃ old, memo.get n.index = some old ∧ old.Covers l := by
  unfold enter? at h
  split at h
  · cases h
  · rename_i old hold
    split at h
    · rename_i hmin
      exact ⟨old, hold, hmin ▸ Level.min_covers_left l old⟩
    · cases h

/-- A node is entered at its level for the first time, and else at a new minimum. -/
theorem enter?_eq_some {memo : Table (Option Level)} {l m : Level} {n : NodeId} (h : enter? memo l n = some m) :
    (memo.get n.index = none ∧ m = l) ∨
      ∃ old, memo.get n.index = some old ∧ m = l.min old ∧ m ≠ old := by
  unfold enter? at h
  split at h
  · rename_i hold
    exact Or.inl ⟨hold, (Option.some.inj h).symm⟩
  · rename_i old hold
    split at h
    · cases h
    · rename_i hmin
      cases h
      exact Or.inr ⟨old, hold, rfl, hmin⟩

theorem covers_of_enter? {memo : Table (Option Level)} {l m : Level} {n : NodeId} (h : enter? memo l n = some m) :
    m.Covers l := by
  rcases enter?_eq_some h with ⟨_, rfl⟩ | ⟨old, _, rfl, _⟩
  · exact Level.Covers.refl m
  · exact Level.min_covers_left l old

/-- What is recorded for a node after another one is entered. -/
theorem get_memo_set (memo : Table (Option Level)) (n x : NodeId) (m : Level) :
    (memo.set n.index (some m)).get x.index = if x = n then some m else memo.get x.index := by
  by_cases hx : x = n
  · rw [hx, if_pos rfl, Table.get_set_self]
  · rw [if_neg hx, Table.get_set_of_ne]
    exact fun h => hx (NodeId.ext h)

/-! ### Every visit is on a walk -/

/-- A walk from `a` comes to the node at a level like this one. -/
def Seen (s : Flow) (a b : Level × NodeId) : Prop :=
  b.1.Band ∧ ∃ l, ReflTransGen s.Next a (l, b.2) ∧ l.Band ∧ b.1.Alike l

theorem Seen.next {s : Flow} {a b c : Level × NodeId} (h : s.Seen a b) (hc : s.Next b c) : s.Seen a c := by
  obtain ⟨hb, l, hw, hl, hbl⟩ := h
  obtain ⟨m, hm, hcm⟩ := next_of_kept kept_alike hbl hc
  exact ⟨band_of_next hb hc, m, hw.tail hm, band_of_next hl hm, hcm⟩

/-- Where a walk comes to a node again, it goes on at a level like that of one of the two walks. -/
theorem Seen.min {s : Flow} {a : Level × NodeId} {l old : Level} {n : NodeId} (hl : s.Seen a (l, n))
    (hold : s.Seen a (old, n)) : s.Seen a (l.min old, n) := by
  obtain ⟨hb, k, hw, hk, hlk⟩ := hl
  obtain ⟨hb', k', hw', hk', hok⟩ := hold
  refine ⟨hb.min hb', ?_⟩
  rcases Level.min_alike hb hb' with h | h
  · exact ⟨k, hw, hk, h.trans hlk⟩
  · exact ⟨k', hw', hk', h.trans hok⟩

/-- What the steps of a walk and minima keep holds of all visits, if it holds of what is still to visit and of what is
recorded. -/
theorem forall_mem_trail {s : Flow} {P : Level × NodeId → Prop} (hnext : ∀ {b c}, P b → s.Next b c → P c)
    (hmin : ∀ {l old n}, P (l, n) → P (old, n) → P (l.min old, n)) (fuel : Nat) (todo : List (Level × NodeId))
    (memo : Table (Option Level)) (htodo : ∀ b ∈ todo, P b)
    (hmemo : ∀ (x : NodeId) old, memo.get x.index = some old → P (old, x)) : ∀ b ∈ s.trail fuel todo memo, P b := by
  induction fuel generalizing todo memo with
  | zero => simp [trail]
  | succ fuel ih =>
    match todo with
    | [] => simp [trail]
    | (l, n) :: rest =>
      have hrest : ∀ b ∈ rest, P b := fun b hb => htodo b (List.mem_cons_of_mem _ hb)
      have hl : P (l, n) := htodo _ List.mem_cons_self
      unfold trail
      split
      · exact ih rest memo hrest hmemo
      · rename_i m hm
        have hn : P (m, n) := by
          rcases enter?_eq_some hm with ⟨_, rfl⟩ | ⟨old, hold, rfl, _⟩
          · exact hl
          · exact hmin hl (hmemo n old hold)
        intro b hb
        rcases List.mem_cons.1 hb with rfl | hb
        · exact hn
        · refine ih _ _ ?_ ?_ b hb
          · intro c hc
            rcases List.mem_append.1 hc with hc | hc
            · exact hnext hn hc
            · exact hrest c hc
          · intro x old hx
            rw [get_memo_set] at hx
            split at hx
            · rename_i hxn
              cases hx
              exact hxn ▸ hn
            · exact hmemo x old hx

/-! ### Every walk is covered by a visit -/

/-- A level that covers the one of `b` is recorded for the node. -/
def Recorded (memo : Table (Option Level)) (b : Level × NodeId) : Prop :=
  ∃ m, memo.get b.2.index = some m ∧ m.Covers b.1

/-- A level that covers the one of `b` is recorded for the node, or still to be visited. -/
def Ahead (memo : Table (Option Level)) (todo : List (Level × NodeId)) (b : Level × NodeId) : Prop :=
  Recorded memo b ∨ ∃ m, (m, b.2) ∈ todo ∧ m.Covers b.1

/-- Where the walk goes from the nodes it entered is recorded or still to be visited. -/
def Pursued (s : Flow) (memo : Table (Option Level)) (todo : List (Level × NodeId)) : Prop :=
  ∀ n m, memo.get n.index = some m → ∀ b, s.Next (m, n) b → Ahead memo todo b

theorem Recorded.of_covers {memo : Table (Option Level)} {l m : Level} {n : NodeId} (h : Recorded memo (m, n))
    (hm : m.Covers l) : Recorded memo (l, n) := by
  obtain ⟨k, hk, hkm⟩ := h
  exact ⟨k, hk, hkm.trans hm⟩

/-- Entering a node keeps what is recorded. -/
theorem Recorded.enter? {memo : Table (Option Level)} {l m : Level} {n : NodeId} (h : enter? memo l n = some m)
    {b : Level × NodeId} (hb : Recorded memo b) : Recorded (memo.set n.index (some m)) b := by
  obtain ⟨k, hk, hkb⟩ := hb
  by_cases hx : b.2 = n
  · refine ⟨m, by rw [get_memo_set, if_pos hx], ?_⟩
    rw [hx] at hk
    rcases enter?_eq_some h with ⟨hn, _⟩ | ⟨old, hold, rfl, _⟩
    · rw [hn] at hk
      cases hk
    · rw [hold] at hk
      cases hk
      exact (Level.min_covers_right l _).trans hkb
  · exact ⟨k, by rw [get_memo_set, if_neg hx, hk], hkb⟩

/-- A visit that is dropped is covered by what is recorded. -/
theorem Ahead.drop {memo : Table (Option Level)} {l : Level} {n : NodeId} {rest : List (Level × NodeId)}
    (h : enter? memo l n = none) {b : Level × NodeId} (hb : Ahead memo ((l, n) :: rest) b) : Ahead memo rest b := by
  rcases hb with hb | ⟨m, hm, hmb⟩
  · exact Or.inl hb
  · rcases List.mem_cons.1 hm with e | hm
    · cases e
      obtain ⟨old, hold, hc⟩ := enter?_eq_none h
      exact Or.inl ⟨old, hold, hc.trans hmb⟩
    · exact Or.inr ⟨m, hm, hmb⟩

/-- A visit that is made is recorded, and replaced by where it leads. -/
theorem Ahead.enter {memo : Table (Option Level)} {l m : Level} {n : NodeId} {rest next : List (Level × NodeId)}
    (h : enter? memo l n = some m) {b : Level × NodeId} (hb : Ahead memo ((l, n) :: rest) b) :
    Ahead (memo.set n.index (some m)) (next ++ rest) b := by
  rcases hb with hb | ⟨k, hk, hkb⟩
  · exact Or.inl (hb.enter? h)
  · rcases List.mem_cons.1 hk with e | hk
    · refine Or.inl ⟨m, ?_, ?_⟩
      · rw [get_memo_set, if_pos (congrArg Prod.snd e)]
      · cases e
        exact (covers_of_enter? h).trans hkb
    · exact Or.inr ⟨k, List.mem_append_right _ hk, hkb⟩

theorem Pursued.drop {s : Flow} {memo : Table (Option Level)} {l : Level} {n : NodeId}
    {rest : List (Level × NodeId)} (hp : s.Pursued memo ((l, n) :: rest)) (h : enter? memo l n = none) :
    s.Pursued memo rest :=
  fun x m hx b hb => (hp x m hx b hb).drop h

theorem Pursued.enter {s : Flow} {memo : Table (Option Level)} {l m : Level} {n : NodeId}
    {rest : List (Level × NodeId)} (hp : s.Pursued memo ((l, n) :: rest)) (h : enter? memo l n = some m) :
    s.Pursued (memo.set n.index (some m)) (s.nextVisits m n ++ rest) := by
  intro x k hx b hb
  rw [get_memo_set] at hx
  split at hx
  · rename_i hxn
    cases hx
    rw [hxn] at hb
    exact Or.inr ⟨b.1, List.mem_append_left _ hb, Level.Covers.refl _⟩
  · exact (hp x k hx b hb).enter h

/-- Once nothing is left to visit, what is recorded covers every walk. -/
theorem Pursued.recorded {s : Flow} {memo : Table (Option Level)} (hp : s.Pursued memo []) {b c : Level × NodeId}
    (hb : Recorded memo b) (hw : ReflTransGen s.Next b c) : Recorded memo c := by
  induction hw with
  | refl => exact hb
  | @tail c d _ hd ih =>
    obtain ⟨m, hm, hmc⟩ := ih
    obtain ⟨k, hk, hkd⟩ := next_of_kept kept_covers hmc hd
    rcases hp c.2 m hm (k, d.2) hk with h | ⟨_, h, _⟩
    · exact h.of_covers hkd
    · cases h

/-! ### The fuel of a walk is enough -/

/-- How much lower a node can still be entered. -/
def room : Option Level → Nat
  | none => 512
  | some l => (l.value + l.suffix + 4).toNat

theorem room_lt {l : Level} (h : l.Band) : room (some l) < 512 := by
  obtain ⟨h1, h2, h3, h4⟩ := h
  simp only [Level.floor, Level.top] at *
  simp only [room]
  omega

theorem room_lt_of_enter? {memo : Table (Option Level)} {l m : Level} {n : NodeId} (h : enter? memo l n = some m)
    (hl : l.Band) (hmemo : ∀ old, memo.get n.index = some old → old.Band) :
    room (some m) < room (memo.get n.index) := by
  rcases enter?_eq_some h with ⟨hn, rfl⟩ | ⟨old, hold, rfl, hne⟩
  · rw [hn]
    exact room_lt hl
  · rw [hold]
    obtain ⟨h1, h2, h3, h4⟩ := hl
    obtain ⟨k1, k2, k3, k4⟩ := hmemo old hold
    have hval : (l.min old).value ≠ old.value ∨ (l.min old).suffix ≠ old.suffix := by
      by_contra hc
      push Not at hc
      exact hne (by rw [Level.mk.injEq]; exact hc)
    simp only [Level.min, Level.floor] at *
    simp only [room]
    omega

/-- The numbers of the sources of all edges. -/
def edgeSources (s : Flow) : List Nat := s.sources.cells.toList.flatMap fun srcs => srcs.toList.map (·.index)

/-- The numbers of the nodes that a walk from `src` can come to: `src`, operands and sources. -/
def stops (s : Flow) (src : NodeId) : List Nat :=
  src.index :: ((List.range s.program.nodes.size).filterMap fun i => (s.program.operand? .zero ⟨i⟩).map (·.2.index))
    ++ s.edgeSources

theorem length_edgeSources (s : Flow) : s.edgeSources.length = s.edgeCount := by
  have h : ∀ (cells : List (Array NodeId)) (k : Nat),
      cells.foldl (fun n srcs => n + srcs.size) k =
        k + (cells.flatMap fun srcs => srcs.toList.map (·.index)).length := by
    intro cells
    induction cells with
    | nil => intro k; rfl
    | cons srcs cells ih =>
      intro k
      have hsize : srcs.toList.length = srcs.size := Array.length_toList
      rw [List.foldl_cons, ih, List.flatMap_cons, List.length_append, List.length_map]
      omega
  unfold edgeSources edgeCount
  rw [← Array.foldl_toList, h, Nat.zero_add]

theorem length_stops_le (s : Flow) (src : NodeId) :
    (s.stops src).length ≤ 1 + s.program.nodes.size + s.edgeCount := by
  have h := List.length_filterMap_le (fun i => (s.program.operand? .zero ⟨i⟩).map (·.2.index))
    (List.range s.program.nodes.size)
  rw [List.length_range] at h
  unfold stops
  rw [List.cons_append, List.length_cons, List.length_append, length_edgeSources]
  omega

theorem sources_get_eq (s : Flow) (i : Nat) : s.sources.get i = #[] ∨ s.sources.get i ∈ s.sources.cells.toList := by
  unfold Table.get
  rw [Array.getD_eq_getD_getElem?]
  cases h : s.sources.cells[i]? with
  | none => exact Or.inl rfl
  | some srcs => exact Or.inr (Array.mem_toList_iff.2 (Array.mem_of_getElem? h))

theorem mem_edgeSources {s : Flow} {i : Nat} {src : NodeId} (h : src ∈ s.sources.get i) :
    src.index ∈ s.edgeSources := by
  rcases s.sources_get_eq i with he | he
  · rw [he] at h
    simp at h
  · exact List.mem_flatMap.2 ⟨_, he, List.mem_map.2 ⟨src, Array.mem_toList_iff.2 h, rfl⟩⟩

theorem size_sources_le (s : Flow) (i : Nat) : (s.sources.get i).size ≤ s.edgeCount := by
  rcases s.sources_get_eq i with he | he
  · rw [he]
    exact Nat.zero_le _
  · rw [← length_edgeSources]
    unfold edgeSources
    rw [List.length_flatMap]
    have h := List.single_le_sum (l := (s.sources.cells.toList.map fun srcs => (srcs.toList.map (·.index)).length))
      (fun _ _ => Nat.zero_le _) _ (List.mem_map.2 ⟨_, he, rfl⟩)
    simpa using h

theorem length_nextVisits_le (s : Flow) (l : Level) (n : NodeId) : (s.nextVisits l n).length ≤ s.edgeCount + 1 := by
  have h1 := s.size_sources_le (s.sourceNode n).index
  have h2 : (s.program.operand? l n).toList.length ≤ 1 := by
    cases s.program.operand? l n <;> simp
  have h3 : ((s.sources.get (s.sourceNode n).index).map (l.copy, ·)).toList.length =
      (s.sources.get (s.sourceNode n).index).size := by
    rw [Array.length_toList, Array.size_map]
  unfold nextVisits
  rw [List.length_append, h3]
  omega

theorem mem_stops_of_next {s : Flow} {src : NodeId} {a b : Level × NodeId} (h : s.Next a b) :
    b.2.index ∈ s.stops src := by
  obtain ⟨l, n⟩ := a
  obtain ⟨m, x⟩ := b
  refine List.mem_append.2 ?_
  rcases mem_nextVisits.1 h with hx | ⟨_, hx⟩
  · refine Or.inl (List.mem_cons_of_mem _ (List.mem_filterMap.2 ⟨n.index, List.mem_range.2 ?_, ?_⟩))
    · -- A number outside of the arena stands for a node without operand.
      by_contra hn
      have hd : s.program.node n = default := by
        unfold Program.node
        rw [Array.getD_eq_getD_getElem?, Array.getElem?_eq_none (by omega)]
        rfl
      simp [Program.operand?, hd, default] at hx
    · rcases operand?_eq_some hx with ⟨_, hk⟩ | ⟨_, hk⟩ | ⟨_, hk⟩
      all_goals
        rw [hk]
        rfl
  · exact Or.inr (mem_edgeSources hx)

/-- What bounds the visits still to come. An entry lowers the room of a node and adds at most an operand
and the sources of one node to the visits. -/
def measure (s : Flow) (src : NodeId) (memo : Table (Option Level)) (todo : List (Level × NodeId)) : Nat :=
  ((s.stops src).map fun i => room (memo.get i)).sum * (s.edgeCount + 2) + todo.length

theorem measure_le_walkFuel (s : Flow) (src : NodeId) (l : Level) :
    s.measure src .empty [(l, src)] ≤ s.walkFuel := by
  have h : ((s.stops src).map fun i => room ((.empty : Table (Option Level)).get i)).sum =
      (s.stops src).length * 512 := by
    simp [room, List.sum_replicate, default]
  have hlen := s.length_stops_le src
  unfold measure walkFuel
  rw [h, List.length_singleton, Nat.add_comm, Nat.mul_comm 512]
  exact Nat.add_le_add_left (Nat.mul_le_mul_right _ (Nat.mul_le_mul_right _ hlen)) 1

theorem measure_enter_lt {s : Flow} {src n : NodeId} {memo : Table (Option Level)} {l m : Level}
    (rest : List (Level × NodeId)) (h : enter? memo l n = some m) (hl : l.Band)
    (hmemo : ∀ (x : NodeId) (old : Level), memo.get x.index = some old → old.Band) (hn : n.index ∈ s.stops src) :
    s.measure src (memo.set n.index (some m)) (s.nextVisits m n ++ rest) < s.measure src memo ((l, n) :: rest) := by
  have hlt : ((s.stops src).map fun i => room ((memo.set n.index (some m)).get i)).sum <
      ((s.stops src).map fun i => room (memo.get i)).sum := by
    refine List.sum_lt_sum _ _ (fun i _ => ?_) ⟨n.index, hn, ?_⟩
    · show room _ ≤ room _
      by_cases hi : i = n.index
      · rw [hi, Table.get_set_self]
        exact Nat.le_of_lt (room_lt_of_enter? h hl (hmemo n))
      · rw [Table.get_set_of_ne _ _ hi]
    · rw [Table.get_set_self]
      exact room_lt_of_enter? h hl (hmemo n)
  have hnext := s.length_nextVisits_le m n
  -- One unit of room pays for all the visits that are pushed.
  have hmul := Nat.mul_le_mul_right (s.edgeCount + 2) (Nat.succ_le_of_lt hlt)
  rw [Nat.succ_mul] at hmul
  unfold measure
  rw [List.length_append, List.length_cons]
  omega

/-- An entry keeps the levels in their band, and what is still to visit among the nodes a walk can come to. -/
theorem band_enter {s : Flow} {src n : NodeId} {memo : Table (Option Level)} {l m : Level}
    {rest : List (Level × NodeId)} (h : enter? memo l n = some m)
    (htodo : ∀ b ∈ (l, n) :: rest, b.1.Band ∧ b.2.index ∈ s.stops src)
    (hmemo : ∀ (x : NodeId) (old : Level), memo.get x.index = some old → old.Band) :
    (∀ b ∈ s.nextVisits m n ++ rest, b.1.Band ∧ b.2.index ∈ s.stops src) ∧
      ∀ (x : NodeId) (old : Level), (memo.set n.index (some m)).get x.index = some old → old.Band := by
  have hm : m.Band := by
    rcases enter?_eq_some h with ⟨_, rfl⟩ | ⟨old, hold, rfl, _⟩
    · exact (htodo _ List.mem_cons_self).1
    · exact (htodo _ List.mem_cons_self).1.min (hmemo n old hold)
  refine ⟨fun d hd => ?_, fun x old hx => ?_⟩
  · rcases List.mem_append.1 hd with hd | hd
    · exact ⟨band_of_next (a := (m, n)) hm hd, mem_stops_of_next (a := (m, n)) hd⟩
    · exact htodo d (List.mem_cons_of_mem _ hd)
  · rw [get_memo_set] at hx
    split at hx
    · cases hx
      exact hm
    · exact hmemo x old hx

/-- With enough fuel every walk from what is ahead is covered by a visit, or was recorded before. -/
theorem covered_by_trail {s : Flow} (src : NodeId) (fuel : Nat) (todo : List (Level × NodeId))
    (memo : Table (Option Level)) (hfuel : s.measure src memo todo ≤ fuel)
    (htodo : ∀ b ∈ todo, b.1.Band ∧ b.2.index ∈ s.stops src)
    (hmemo : ∀ (x : NodeId) (old : Level), memo.get x.index = some old → old.Band)
    (hp : s.Pursued memo todo) {b c : Level × NodeId} (hb : Ahead memo todo b)
    (hw : ReflTransGen s.Next b c) :
    (∃ m, (m, c.2) ∈ s.trail fuel todo memo ∧ m.Covers c.1) ∨ Recorded memo c := by
  induction fuel generalizing todo memo with
  | zero =>
    have hnil : todo = [] := List.eq_nil_of_length_eq_zero (by unfold measure at hfuel; omega)
    subst hnil
    rcases hb with hb | ⟨_, hm, _⟩
    · exact Or.inr (hp.recorded hb hw)
    · cases hm
  | succ fuel ih =>
    match todo with
    | [] =>
      rcases hb with hb | ⟨_, hm, _⟩
      · exact Or.inr (hp.recorded hb hw)
      · cases hm
    | (l, n) :: rest =>
      obtain ⟨hl, hn⟩ := htodo (l, n) List.mem_cons_self
      unfold trail
      split
      · rename_i h
        -- The visit is pruned: the memo holds a level that covers it, so it is still recorded.
        refine ih rest memo ?_ (fun b hb => htodo b (List.mem_cons_of_mem _ hb)) hmemo (hp.drop h) (hb.drop h)
        unfold measure at hfuel ⊢
        rw [List.length_cons] at hfuel
        omega
      · rename_i m h
        have hlt := measure_enter_lt rest h hl hmemo hn
        obtain ⟨htodo', hmemo'⟩ := band_enter h htodo hmemo
        have key := ih (s.nextVisits m n ++ rest) (memo.set n.index (some m)) (by omega) htodo' hmemo' (hp.enter h)
          (hb.enter h)
        rcases key with ⟨k, hk, hkc⟩ | ⟨k, hk, hkc⟩
        · exact Or.inl ⟨k, List.mem_cons_of_mem _ hk, hkc⟩
        · rw [get_memo_set] at hk
          split at hk
          · rename_i hcn
            cases hk
            -- What covers `c` was recorded by this very visit, which is on the trail.
            exact Or.inl ⟨m, by rw [hcn]; exact List.mem_cons_self, hkc⟩
          · exact Or.inr ⟨k, hk, hkc⟩

/-- With enough fuel, more changes nothing. -/
theorem trail_add {s : Flow} (src : NodeId) (fuel extra : Nat) (todo : List (Level × NodeId))
    (memo : Table (Option Level)) (hfuel : s.measure src memo todo ≤ fuel)
    (htodo : ∀ b ∈ todo, b.1.Band ∧ b.2.index ∈ s.stops src)
    (hmemo : ∀ (x : NodeId) (old : Level), memo.get x.index = some old → old.Band) :
    s.trail (fuel + extra) todo memo = s.trail fuel todo memo := by
  induction fuel generalizing todo memo with
  | zero =>
    have hnil : todo = [] := List.eq_nil_of_length_eq_zero (by unfold measure at hfuel; omega)
    subst hnil
    cases 0 + extra <;> rfl
  | succ fuel ih =>
    rw [Nat.succ_add]
    match todo with
    | [] => rfl
    | (l, n) :: rest =>
      obtain ⟨hl, hn⟩ := htodo (l, n) List.mem_cons_self
      unfold trail
      cases h : enter? memo l n with
      | none =>
        refine ih rest memo ?_ (fun b hb => htodo b (List.mem_cons_of_mem _ hb)) hmemo
        unfold measure at hfuel ⊢
        rw [List.length_cons] at hfuel
        omega
      | some m =>
        have hlt := measure_enter_lt rest h hl hmemo hn
        obtain ⟨htodo', hmemo'⟩ := band_enter h htodo hmemo
        exact congrArg ((m, n) :: ·) (ih _ _ (by omega) htodo' hmemo')

/-- The visits of the walk from one source. -/
def trailFrom (s : Flow) (src : NodeId) : List (Level × NodeId) := s.trail s.walkFuel [(.zero, src)] .empty

theorem trailFrom_eq (s : Flow) (src : NodeId) (extra : Nat) :
    s.trailFrom src = s.trail (s.walkFuel + extra) [(.zero, src)] .empty := by
  refine (trail_add src s.walkFuel extra _ _ (s.measure_le_walkFuel src _) (fun b hb => ?_) fun x old hx => ?_).symm
  · rw [List.mem_singleton] at hb
    subst hb
    exact ⟨Level.band_zero, List.mem_append_left _ List.mem_cons_self⟩
  · rw [Table.get_empty] at hx
    cases hx

theorem forall_mem_trailFrom {s : Flow} {P : Level × NodeId → Prop} {src : NodeId} (hsrc : P (.zero, src))
    (hnext : ∀ {b c}, P b → s.Next b c → P c) (hmin : ∀ {l old n}, P (l, n) → P (old, n) → P (l.min old, n)) :
    ∀ b ∈ s.trailFrom src, P b := by
  apply forall_mem_trail hnext hmin
  · intro c hc
    rw [List.mem_singleton] at hc
    exact hc ▸ hsrc
  · intro x old hx
    rw [Table.get_empty] at hx
    cases hx

theorem seen_of_mem_trailFrom {s : Flow} {src : NodeId} {b : Level × NodeId} (h : b ∈ s.trailFrom src) :
    s.Seen (.zero, src) b :=
  forall_mem_trailFrom ⟨Level.band_zero, .zero, .refl, Level.band_zero, Level.Alike.refl _⟩ Seen.next Seen.min b h

theorem exists_mem_trailFrom {s : Flow} {src : NodeId} {c : Level × NodeId}
    (hw : ReflTransGen s.Next (.zero, src) c) : ∃ m, (m, c.2) ∈ s.trailFrom src ∧ m.Covers c.1 := by
  have h := covered_by_trail src s.walkFuel [(.zero, src)] .empty (s.measure_le_walkFuel src _) ?_ ?_ ?_
    (Or.inr ⟨.zero, List.mem_singleton_self _, Level.Covers.refl _⟩) hw
  · rcases h with h | ⟨m, hm, _⟩
    · exact h
    · rw [Table.get_empty] at hm
      cases hm
  · intro b hb
    rw [List.mem_singleton] at hb
    subst hb
    exact ⟨Level.band_zero, List.mem_append_left _ List.mem_cons_self⟩
  · intro x old hx
    rw [Table.get_empty] at hx
    cases hx
  · intro n m hm
    rw [Table.get_empty] at hm
    cases hm

end Flow

end EscapeAnalysis

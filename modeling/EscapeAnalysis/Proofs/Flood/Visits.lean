import EscapeAnalysis.Proofs.Flood.Trail
import EscapeAnalysis.Proofs.Reporting.Observers

/-!
# A flood does its visits

What a flood visits depends on the graph only, not on the words it writes on the way. So a flood is the
list of its visits, done one after the other.

* `Flow.Marked s t` : `t` differs from `s` only in words, reports and further moved variables;
* `Flow.visits` : the visits of all walks from all destinations;
* `Flow.foldl_flood` : the flood does its visits;
* `Flow.exists_path_of_mem_visits` : every visit is at the level of a path, or both are at the floor;
* `Flow.exists_mem_visits_of_path` : every path has a visit at a level that covers its own.
-/

namespace EscapeAnalysis

/-- The node allocates memory that is on the heap if it outlives its scope. A fixed array is a value. -/
def Program.allocates (p : Program) (n : NodeId) : Bool :=
  match (p.node n).op with
  | .addr | .ptrLit | .restArg | .makeChan | .makeMap | .makeSlice | .runesToString | .bytesToString
  | .stringToRunes | .stringToBytes | .concat | .mapLit | .new | .closure | .methodValue | .runeToString
  | .convIface => true
  | .arrayLit => !p.isArray (p.node n).ty
  | _ => false

namespace Flow

/-- What a visit does, by the kinds of nodes. -/
theorem reachNode_eq (s : Flow) (l : Level) (dst src : NodeId) (inScope : Bool) : s.reachNode l dst src inScope =
    if (s.program.node src).op = .name then s.reachName l dst src inScope
    else if (s.program.node src).op = .addr ∨ (s.program.node src).op = .ptrLit then s.reachAddress l dst src
    else if s.program.allocates src then s.reachAlloc l dst src
    else s := by
  unfold reachNode Program.allocates
  cases hop : (s.program.node src).op with
  | arrayLit => cases hty : s.program.isArray (s.program.node src).ty <;> simp [hop, hty]
  | _ => simp [hop]

/-! ## What a flood leaves alone -/

/-- `t` differs from `s` only in words, moved variables, the report and what the observer kept; what is moved
stays so, and the observer is shown nodes that are reached. -/
def Marked (s t : Flow) : Prop :=
  ∃ words moved report observer, (∀ n ∈ s.info.moved, n ∈ moved) ∧ s.observer.Sees Event.IsStep observer ∧
    t = { s with info := { s.info with words, moved, report }, observer }

theorem Marked.refl (s : Flow) : Marked s s :=
  ⟨s.info.words, s.info.moved, s.info.report, s.observer, fun _ h => h, .refl _ _, rfl⟩

theorem Marked.trans {s t u : Flow} (h₁ : Marked s t) (h₂ : Marked t u) : Marked s u := by
  obtain ⟨w, m, f, e, hm, he, rfl⟩ := h₁
  obtain ⟨w', m', f', e', hm', he', rfl⟩ := h₂
  exact ⟨w', m', f', e', fun n hn => hm' n (hm n hn), he.trans he', rfl⟩

section Fields
variable {s t : Flow} (h : Marked s t)
include h

theorem Marked.program : t.program = s.program := by obtain ⟨_, _, _, _, _, _, rfl⟩ := h; rfl

theorem Marked.sources : t.sources = s.sources := by obtain ⟨_, _, _, _, _, _, rfl⟩ := h; rfl

theorem Marked.results : t.results = s.results := by obtain ⟨_, _, _, _, _, _, rfl⟩ := h; rfl

theorem Marked.dsts : t.dsts = s.dsts := by obtain ⟨_, _, _, _, _, _, rfl⟩ := h; rfl

theorem Marked.depth (n : NodeId) : t.info.depth n = s.info.depth n := by obtain ⟨_, _, _, _, _, _, rfl⟩ := h; rfl

theorem Marked.moved {n : NodeId} (hn : n ∈ s.info.moved) : n ∈ t.info.moved := by
  obtain ⟨_, _, _, _, hm, _, rfl⟩ := h
  exact hm n hn

theorem Marked.sees : s.observer.Sees Event.IsStep t.observer := by
  obtain ⟨_, _, _, _, _, he, rfl⟩ := h
  exact he

end Fields

theorem marked_setWord (s : Flow) (n : NodeId) (w : Word) : Marked s (s.setWord n w) :=
  ⟨s.info.words.set n.index w, s.info.moved, s.info.report, s.observer, fun _ h => h, .refl _ _, rfl⟩

theorem marked_find (s : Flow) (x : Finding) : Marked s (s.find x) :=
  ⟨s.info.words, s.info.moved, s.config.record s.program x s.info.report, s.observer, fun _ h => h, .refl _ _, rfl⟩

theorem marked_emit (s : Flow) (l : Level) (dst src : NodeId) : Marked s (s.emit (.reach l dst src)) :=
  ⟨s.info.words, s.info.moved, s.info.report, s.observer.watch s.program (.reach l dst src), fun _ h => h,
    s.observer.sees_watch s.program trivial, rfl⟩

theorem marked_moveToHeap (s : Flow) (n : NodeId) : Marked s (s.moveToHeap n) := by
  unfold moveToHeap
  split
  · exact Marked.refl s
  · split
    · exact Marked.refl s
    · exact ⟨_, _, _, _, fun _ h => Array.mem_push_of_mem _ h, .refl _ _, rfl⟩

theorem marked_addressEscapes (s : Flow) (n : NodeId) : Marked s (s.addressEscapes n) := by
  unfold addressEscapes
  split
  · exact marked_moveToHeap s _
  · exact Marked.refl s

theorem marked_reachOutput (s : Flow) (l : Level) (dst src : NodeId) : Marked s (s.reachOutput l dst src) :=
  (marked_find s _).trans (marked_setWord _ _ _)

theorem marked_leakParam (s : Flow) (l : Level) (dst src : NodeId) : Marked s (s.leakParam l dst src) :=
  (marked_setWord s _ _).trans (marked_find _ _)

theorem marked_reachName (s : Flow) (l : Level) (dst src : NodeId) (inScope : Bool) :
    Marked s (s.reachName l dst src inScope) := by
  simp only [reachName]
  split
  · split
    · exact marked_leakParam s l dst src
    · exact Marked.refl s
  · split
    · exact marked_find s _
    · exact Marked.refl s
  · exact Marked.refl s

theorem marked_reachAddress (s : Flow) (l : Level) (dst src : NodeId) : Marked s (s.reachAddress l dst src) := by
  simp only [reachAddress]
  split
  · refine Marked.trans ?_ (marked_find _ _)
    cases (s.program.node src).left with
    | none => exact marked_setWord s src _
    | some x => exact (marked_setWord s src _).trans (marked_addressEscapes _ x)
  · exact Marked.refl s

theorem marked_reachAlloc (s : Flow) (l : Level) (dst src : NodeId) : Marked s (s.reachAlloc l dst src) := by
  unfold reachAlloc
  split
  · exact (marked_setWord s _ _).trans (marked_find _ _)
  · exact Marked.refl s

theorem marked_reachContent (s : Flow) (l : Level) (dst src : NodeId) : Marked s (s.reachContent l dst src) := by
  unfold reachContent
  split
  · exact (marked_setWord s _ _).trans (marked_find _ _)
  · exact Marked.refl s

theorem marked_reachNode (s : Flow) (l : Level) (dst src : NodeId) (inScope : Bool) :
    Marked s (s.reachNode l dst src inScope) := by
  rw [reachNode_eq]
  split
  · exact marked_reachName s l dst src inScope
  split
  · exact marked_reachAddress s l dst src
  split
  · exact marked_reachAlloc s l dst src
  · exact Marked.refl s

theorem marked_reach (s : Flow) (l : Level) (dst src : NodeId) : Marked s (s.reach l dst src) := by
  simp only [reach]
  split
  · exact marked_reachOutput s l dst src
  · exact (marked_reachContent s l dst src).trans (marked_reachNode _ l dst src _)

/-! ## The flood as a list of visits -/

/-- The walk from `dst` comes to `node` and goes on from it at `level`. -/
structure Visit where
  dst : NodeId
  level : Level
  node : NodeId

/-- What a visit does. -/
def follow (s : Flow) (v : Visit) : Flow := (s.emit (.reach v.level v.dst v.node)).reach v.level v.dst v.node

theorem marked_follow (s : Flow) (v : Visit) : Marked s (s.follow v) :=
  (marked_emit s _ _ _).trans (marked_reach _ _ _ _)

theorem marked_foldl_follow (s : Flow) (visits : List Visit) : Marked s (visits.foldl follow s) := by
  induction visits generalizing s with
  | nil => exact Marked.refl s
  | cons v visits ih => exact (marked_follow s v).trans (ih _)

theorem Marked.nextVisits_eq {s t : Flow} (h : Marked s t) (l : Level) (n : NodeId) :
    t.nextVisits l n = s.nextVisits l n := by
  obtain ⟨_, _, _, _, _, _, rfl⟩ := h
  rfl

theorem walkBack_eq_foldl {s t : Flow} (h : Marked s t) (dst : NodeId) (fuel : Nat)
    (todo : List (Level × NodeId)) (memo : Table (Option Level)) :
    walkBack dst fuel todo memo t = ((s.trail fuel todo memo).map fun b => ⟨dst, b.1, b.2⟩).foldl follow t := by
  induction fuel generalizing t todo memo with
  | zero => rfl
  | succ fuel ih =>
    match todo with
    | [] => rfl
    | (l, n) :: rest =>
      unfold walkBack trail
      cases enter? memo l n with
      | none => exact ih h rest memo
      | some m =>
        -- The next visits are read off the graph after the visit, which has the same edges.
        have hf : Marked s (t.follow ⟨dst, m, n⟩) := h.trans (marked_follow t _)
        have hnext := hf.nextVisits_eq m n
        simp only [List.map_cons, List.foldl_cons]
        rw [← ih hf, ← hnext]
        rfl

/-- The visits of the walks from `dst`. -/
def visitsFrom (s : Flow) (dst : NodeId) : List Visit :=
  match (s.program.node dst).op with
  | .name | .closure =>
    (s.sources.get dst.index).toList.flatMap fun src => (s.trailFrom src).map fun b => ⟨dst, b.1, b.2⟩
  | _ => []

/-- The visits of the walks from all destinations. -/
def visits (s : Flow) : List Visit := s.dsts.toList.flatMap s.visitsFrom

/-- The walks from a list of sources, one after the other. -/
theorem foldl_walkBack {s t : Flow} (h : Marked s t) (dst : NodeId) (srcs : List NodeId) :
    srcs.foldl (fun t src => walkBack dst s.walkFuel [(.zero, src)] .empty t) t =
      (srcs.flatMap fun src => (s.trailFrom src).map fun b => ⟨dst, b.1, b.2⟩).foldl follow t := by
  induction srcs generalizing t with
  | nil => rfl
  | cons src srcs ih =>
    rw [List.foldl_cons, List.flatMap_cons, List.foldl_append, walkBack_eq_foldl h]
    exact ih (h.trans (marked_foldl_follow t _))

theorem flood_eq_foldl {s t : Flow} (h : Marked s t) (dst : NodeId) :
    t.flood dst = (s.visitsFrom dst).foldl follow t := by
  have hfuel : t.walkFuel = s.walkFuel := by
    obtain ⟨_, _, _, _, _, _, rfl⟩ := h
    rfl
  simp only [flood, visitsFrom, h.program, h.sources, hfuel]
  cases (s.program.node dst).op with
  | name | closure =>
    rw [← Array.foldl_toList]
    exact foldl_walkBack h dst _
  | _ => rfl

theorem foldl_flood (s : Flow) : s.dsts.foldl flood s = s.visits.foldl follow s := by
  have key : ∀ (dsts : List NodeId) {t : Flow}, Marked s t →
      dsts.foldl flood t = (dsts.flatMap s.visitsFrom).foldl follow t := by
    intro dsts
    induction dsts with
    | nil => intro t _; rfl
    | cons dst dsts ih =>
      intro t h
      rw [List.foldl_cons, List.flatMap_cons, List.foldl_append, flood_eq_foldl h]
      exact ih (h.trans (marked_foldl_follow t _))
  rw [← Array.foldl_toList]
  exact key s.dsts.toList (Marked.refl s)

/-! ## Visits and paths -/

theorem mem_visitsFrom {s : Flow} {dst : NodeId} {v : Visit} :
    v ∈ s.visitsFrom dst ↔ ((s.program.node dst).op = .name ∨ (s.program.node dst).op = .closure) ∧
      v.dst = dst ∧ ∃ src ∈ s.sources.get dst.index, (v.level, v.node) ∈ s.trailFrom src := by
  have hmem : v ∈ ((s.sources.get dst.index).toList.flatMap fun src =>
        (s.trailFrom src).map fun b => (⟨dst, b.1, b.2⟩ : Visit)) ↔
      v.dst = dst ∧ ∃ src ∈ s.sources.get dst.index, (v.level, v.node) ∈ s.trailFrom src := by
    simp only [List.mem_flatMap, Array.mem_toList_iff, List.mem_map]
    constructor
    · rintro ⟨src, hsrc, b, hb, rfl⟩
      exact ⟨rfl, src, hsrc, hb⟩
    · rintro ⟨rfl, src, hsrc, hb⟩
      exact ⟨src, hsrc, _, hb, rfl⟩
  unfold visitsFrom
  cases (s.program.node dst).op with
  | name | closure => simpa using hmem
  | _ => simp

theorem mem_visits {s : Flow} {v : Visit} :
    v ∈ s.visits ↔ s.IsRoot v.dst ∧ ∃ src ∈ s.sources.get v.dst.index, (v.level, v.node) ∈ s.trailFrom src := by
  unfold visits IsRoot
  simp only [List.mem_flatMap, Array.mem_toList_iff, mem_visitsFrom]
  constructor
  · rintro ⟨dst, hdst, hop, rfl, hsrc⟩
    exact ⟨⟨hdst, hop⟩, hsrc⟩
  · rintro ⟨⟨hdst, hop⟩, hsrc⟩
    exact ⟨v.dst, hdst, hop, rfl, hsrc⟩

/-- Every visit is at the level of a path, or both are at the floor. -/
theorem exists_path_of_mem_visits {s : Flow} {v : Visit} (h : v ∈ s.visits) :
    s.IsRoot v.dst ∧ v.level.Band ∧ ∃ l, s.Path v.dst l v.node ∧ v.level.Alike l := by
  obtain ⟨hroot, src, hsrc, hv⟩ := mem_visits.1 h
  obtain ⟨hband, l, hw, _, hl⟩ := seen_of_mem_trailFrom hv
  exact ⟨hroot, hband, l, path_iff.2 ⟨src, hsrc, hw⟩, hl⟩

/-- Every path has a visit at a level that covers its own. -/
theorem exists_mem_visits_of_path {s : Flow} {dst n : NodeId} {l : Level} (hroot : s.IsRoot dst)
    (h : s.Path dst l n) : ∃ m, ⟨dst, m, n⟩ ∈ s.visits ∧ m.Band ∧ m.Covers l := by
  obtain ⟨src, hsrc, hw⟩ := path_iff.1 h
  obtain ⟨m, hm, hml⟩ := exists_mem_trailFrom hw
  exact ⟨m, mem_visits.2 ⟨hroot, src, hsrc, hm⟩, (seen_of_mem_trailFrom hm).1, hml⟩

end Flow

end EscapeAnalysis

import Mathlib.Data.List.Nodup
import Mathlib.Logic.Relation
import EscapeAnalysis.CallGraph.Groups

/-!
# The search for groups

A function that ends a group ends it with everything entered since and not in a group yet. Functions that
do not end a group when they are finished, closures above all, stay on the stack with their numbers, so what
lies above a function on the stack need not lead back to it. What does hold of every group is said in
`Group.Closes`, with the functions in earlier groups as `done`:

* its callees are in it or `done`, and its last function is no closure and leads to all of it;
* the group is recursive if one of its functions calls the last one;
* numbers fall from a function to one of its callers in the group, and from a function that is no closure,
  through functions entered since, to a function of the group.

`CallGraph.explored_visit` shows it by induction over the calls of `CallGraph.visit`: `Explored` is what holds
of the search before and after the visits of a list of functions, and composes (`Explored.append`).
-/

namespace EscapeAnalysis

open Relation (ReflTransGen TransGen)

/-- The function calls or defines the other one. -/
def CallGraph.Calls (g : CallGraph) (f c : FuncId) : Prop := c ∈ g.callees f

/-- A group as the search ends it, after the groups of the functions that are `done`. -/
structure Group.Closes (g : CallGraph) (done : FuncId → Prop) (G : Group) (last : FuncId) (number : FuncId → Nat) :
    Prop where
  nodup : G.funcs.Nodup
  not_done : ∀ f ∈ G.funcs, ¬ done f
  callees : ∀ f ∈ G.funcs, ∀ c ∈ g.callees f, c ∈ G.funcs ∨ done c
  getLast : G.funcs.getLast? = some last
  not_closure : g.isClosure last = false
  reaches : ∀ f ∈ G.funcs, ReflTransGen g.Calls last f
  recursive : G.recursive = true ↔ ∃ f ∈ G.funcs, last ∈ g.callees f
  caller : ∀ c ∈ G.funcs, c ≠ last → ∃ f ∈ G.funcs, c ∈ g.callees f ∧ number f < number c
  back : ∀ f ∈ G.funcs, f ≠ last → g.isClosure f = false →
    ∃ x ∈ G.funcs, ∃ c ∈ G.funcs, ReflTransGen g.Calls f x ∧ c ∈ g.callees x ∧ number c < number f ∧
      number f ≤ number x

/-- The groups in the order they are ended. -/
inductive CallGraph.Built (g : CallGraph) : List Group → Prop where
  | nil : Built g []
  | snoc {groups : List Group} {G : Group} {last : FuncId} {number : FuncId → Nat} (h : Built g groups)
    (hG : G.Closes g (fun f => ∃ H ∈ groups, f ∈ H.funcs) last number) : Built g (groups ++ [G])

namespace CallGraph

/-- The callees of a function in a group are in groups too. -/
theorem Built.callees {g : CallGraph} {groups : List Group} (h : g.Built groups) :
    ∀ G ∈ groups, ∀ f ∈ G.funcs, ∀ c ∈ g.callees f, ∃ H ∈ groups, c ∈ H.funcs := by
  induction h with
  | nil => simp
  | @snoc groups G last number _ hG ih =>
    intro K hK f hf c hc
    rcases List.mem_append.1 hK with hK | hK
    · obtain ⟨H, hH, hcH⟩ := ih K hK f hf c hc
      exact ⟨H, List.mem_append_left _ hH, hcH⟩
    · rw [List.mem_singleton.1 hK] at hf
      rcases hG.callees f hf c hc with hc | ⟨H, hH, hcH⟩
      · exact ⟨G, List.mem_append_right _ (List.mem_singleton_self G), hc⟩
      · exact ⟨H, List.mem_append_left _ hH, hcH⟩

namespace Search

/-! ## Marks -/

def mark (s : Search) (f : FuncId) : Mark := s.marks.get f.index

/-- The functions of the group that `f` ends. -/
def above (s : Search) (f : FuncId) : List FuncId := s.stack.takeWhile (· ≠ f) ++ [f]

theorem mark_enter (s : Search) (f h : FuncId) :
    (s.enter f).mark h = if h = f then .entered (s.last + 1) else s.mark h := by
  unfold mark enter
  by_cases hf : h = f
  · rw [if_pos hf, hf, Table.get_set_self]
  · rw [if_neg hf, Table.get_set_of_ne _ _ fun e => hf (FuncId.ext e)]

theorem get_foldl_grouped (funcs : List FuncId) (marks : Table Mark) (h : FuncId) :
    (funcs.foldl (fun marks g => marks.set g.index .grouped) marks).get h.index =
      if h ∈ funcs then .grouped else marks.get h.index := by
  induction funcs generalizing marks with
  | nil => simp
  | cons f funcs ih =>
    rw [List.foldl_cons, ih]
    by_cases hfuncs : h ∈ funcs
    · rw [if_pos hfuncs, if_pos (List.mem_cons_of_mem _ hfuncs)]
    · rw [if_neg hfuncs]
      by_cases hf : h = f
      · rw [hf, Table.get_set_self, if_pos List.mem_cons_self]
      · rw [Table.get_set_of_ne _ _ fun e => hf (FuncId.ext e), if_neg]
        rw [List.mem_cons, not_or]
        exact ⟨hf, hfuncs⟩

theorem mark_close (s : Search) (f h : FuncId) (recursive : Bool) :
    (s.close f recursive).mark h = if h ∈ s.above f then .grouped else s.mark h :=
  get_foldl_grouped (s.above f) s.marks h

theorem above_eq {s : Search} {f : FuncId} {new rest : List FuncId} (h : s.stack = new ++ f :: rest)
    (hf : f ∉ new) : s.above f = new ++ [f] := by
  unfold above
  rw [h, List.takeWhile_append_of_pos]
  · simp
  · intro c hc
    have hne : c ≠ f := fun e => hf (e ▸ hc)
    simpa using hne

theorem stack_close {s : Search} {f : FuncId} {new rest : List FuncId} (h : s.stack = new ++ f :: rest)
    (hf : f ∉ new) (recursive : Bool) : (s.close f recursive).stack = rest := by
  have ha : (s.close f recursive).stack = s.stack.drop (s.above f).length := rfl
  rw [ha, above_eq h hf, h, List.length_append, List.length_singleton]
  simp

/-- What holds of the search whenever a visit starts or ends. -/
structure Inv (g : CallGraph) (s : Search) : Prop where
  built : g.Built s.groups.toList
  grouped : ∀ f, s.mark f = .grouped ↔ ∃ G ∈ s.groups.toList, f ∈ G.funcs
  mem_stack : ∀ f, f ∈ s.stack ↔ ∃ id, s.mark f = .entered id
  nodup : s.stack.Nodup
  lt_last : ∀ f id, s.mark f = .entered id → id < s.last
  inj : ∀ f h id, s.mark f = .entered id → s.mark h = .entered id → f = h

theorem Inv.callee_grouped {g : CallGraph} {s : Search} (h : Inv g s) {f c : FuncId} (hf : s.mark f = .grouped)
    (hc : c ∈ g.callees f) : s.mark c = .grouped := by
  obtain ⟨G, hG, hfG⟩ := (h.grouped f).1 hf
  exact (h.grouped c).2 (h.built.callees G hG f hfG c hc)

theorem inv_empty (g : CallGraph) : Inv g {} := by
  have hmark (f : FuncId) : ({} : Search).mark f = .fresh := Table.get_empty f.index
  refine ⟨.nil, ?_, ?_, List.nodup_nil, ?_, ?_⟩
  · intro f
    simp [hmark]
  · intro f
    simp [hmark]
  · intro f id h
    simp [hmark] at h
  · intro f _ id h
    simp [hmark] at h

theorem Inv.enter {g : CallGraph} {s : Search} (h : Inv g s) {f : FuncId} (hf : s.mark f = .fresh) :
    Inv g (s.enter f) := by
  have hstack : f ∉ s.stack := by
    rw [h.mem_stack, hf]
    rintro ⟨_, e⟩
    cases e
  refine ⟨h.built, ?_, ?_, List.nodup_cons.2 ⟨hstack, h.nodup⟩, ?_, ?_⟩
  · intro c
    rw [mark_enter]
    change _ ↔ ∃ G ∈ s.groups.toList, c ∈ G.funcs
    rw [← h.grouped c]
    by_cases hc : c = f
    · rw [if_pos hc, hc, hf]
      simp
    · rw [if_neg hc]
  · intro c
    rw [mark_enter]
    change c ∈ f :: s.stack ↔ _
    by_cases hc : c = f
    · rw [if_pos hc, hc]
      exact ⟨fun _ => ⟨_, rfl⟩, fun _ => List.mem_cons_self⟩
    · rw [if_neg hc, List.mem_cons, h.mem_stack]
      exact ⟨fun hm => hm.resolve_left hc, Or.inr⟩
  · intro c id
    rw [mark_enter]
    change _ → id < s.last + 2
    split
    · intro e
      cases e
      omega
    · intro e
      have := h.lt_last c id e
      omega
  · intro c d id hc hd
    rw [mark_enter] at hc hd
    split at hc <;> split at hd
    · rename_i hcf hdf
      rw [hcf, hdf]
    · cases hc
      have := h.lt_last d _ hd
      omega
    · cases hd
      have := h.lt_last c _ hc
      omega
    · exact h.inj c d id hc hd

/-! ## What visits do to the search -/

/-- What was entered or grouped stays so, and what is entered since lies above it on the stack and has
larger numbers. -/
structure Grows (s t : Search) : Prop where
  stack : ∃ new, t.stack = new ++ s.stack
  entered : ∀ f id, s.mark f = .entered id → t.mark f = .entered id
  grouped : ∀ f, s.mark f = .grouped → t.mark f = .grouped
  last_le : s.last ≤ t.last
  last_lt : ∀ f id, s.mark f = .fresh → t.mark f = .entered id → s.last < id

theorem Grows.refl (s : Search) : Grows s s :=
  ⟨⟨[], rfl⟩, fun _ _ h => h, fun _ h => h, Nat.le_refl _, fun f id h h' => by rw [h] at h'; cases h'⟩

theorem Grows.fresh {s t : Search} (h : Grows s t) {f : FuncId} (hf : t.mark f = .fresh) : s.mark f = .fresh := by
  cases hs : s.mark f with
  | fresh => rfl
  | entered id =>
    rw [h.entered f id hs] at hf
    cases hf
  | grouped =>
    rw [h.grouped f hs] at hf
    cases hf

theorem Grows.trans {s t u : Search} (h₁ : Grows s t) (h₂ : Grows t u) : Grows s u := by
  refine ⟨?_, fun f id h => h₂.entered f id (h₁.entered f id h), fun f h => h₂.grouped f (h₁.grouped f h),
    Nat.le_trans h₁.last_le h₂.last_le, fun f id hs hu => ?_⟩
  · obtain ⟨new, hnew⟩ := h₁.stack
    obtain ⟨new', hnew'⟩ := h₂.stack
    exact ⟨new' ++ new, by rw [hnew', hnew, List.append_assoc]⟩
  · cases ht : t.mark f with
    | fresh => exact Nat.lt_of_le_of_lt h₁.last_le (h₂.last_lt f id ht hu)
    | entered k =>
      rw [h₂.entered f k ht] at hu
      cases hu
      exact h₁.last_lt f id hs ht
    | grouped =>
      rw [h₂.grouped f ht] at hu
      cases hu

theorem grows_enter {s : Search} {f : FuncId} (hf : s.mark f = .fresh) : Grows s (s.enter f) := by
  have hne {c : FuncId} (hc : s.mark c ≠ .fresh) : c ≠ f := fun e => hc (e ▸ hf)
  refine ⟨⟨[f], rfl⟩, ?_, ?_, Nat.le_add_right s.last 2, ?_⟩
  · intro c id hc
    rw [mark_enter, if_neg (hne (by rw [hc]; simp)), hc]
  · intro c hc
    rw [mark_enter, if_neg (hne (by rw [hc]; simp)), hc]
  · intro c id hs hc
    rw [mark_enter] at hc
    split at hc
    · cases hc
      omega
    · rw [hs] at hc
      cases hc

/-- The function is in a group, or on the stack with a number that is not below `low` or is new since `s`. -/
def Settled (s t : Search) (low : Nat) (f : FuncId) : Prop :=
  t.mark f = .grouped ∨ ∃ id, t.mark f = .entered id ∧ (low ≤ id ∨ s.last < id)

/-- The function was entered since `s` under this number, and is on the stack of `t`. -/
def New (s t : Search) (f : FuncId) (id : Nat) : Prop := s.mark f = .fresh ∧ t.mark f = .entered id

theorem New.mono {s t u : Search} (h : Grows t u) {f : FuncId} {id : Nat} (hf : New s t f id) : New s u f id :=
  ⟨hf.1, h.entered f id hf.2⟩

theorem New.of_grows {s t u : Search} (h : Grows s t) {f : FuncId} {id : Nat} (hf : New t u f id) : New s u f id :=
  ⟨h.fresh hf.1, hf.2⟩

/-- What is new after two steps was new after the first, or is since. -/
theorem Grows.new_cases {s t u : Search} (h : Grows t u) {f : FuncId} {id : Nat} (hf : New s u f id) :
    New s t f id ∨ New t u f id := by
  cases ht : t.mark f with
  | fresh => exact Or.inr ⟨ht, hf.2⟩
  | entered k =>
    have hk := h.entered f k ht
    rw [hf.2] at hk
    cases hk
    exact Or.inl ⟨hf.1, ht⟩
  | grouped =>
    have hk := h.grouped f ht
    rw [hf.2] at hk
    cases hk

theorem Settled.mono {s t u : Search} {low low' : Nat} (h : Grows t u) (hlow : low' ≤ low) {f : FuncId}
    (hf : Settled s t low f) : Settled s u low' f := by
  rcases hf with hf | ⟨id, hf, hid⟩
  · exact Or.inl (h.grouped f hf)
  · exact Or.inr ⟨id, h.entered f id hf, hid.imp_left (Nat.le_trans hlow)⟩

theorem Settled.of_grows {s t u : Search} {low low' : Nat} (h : Grows s t) (hlow : low' ≤ low) {f : FuncId}
    (hf : Settled t u low f) : Settled s u low' f := by
  rcases hf with hf | ⟨id, hf, hid⟩
  · exact Or.inl hf
  · exact Or.inr ⟨id, hf, hid.imp (Nat.le_trans hlow) (Nat.lt_of_le_of_lt h.last_le)⟩

/-- What holds after visits of the functions `rs`, from `s` to `t`, that returned numbers whose least
is `low`. -/
structure Explored (g : CallGraph) (rs : List FuncId) (s t : Search) (low : Nat) : Prop where
  inv : Inv g t
  grows : Grows s t
  roots : ∀ f ∈ rs, Settled s t low f
  callees : ∀ f, s.mark f = .fresh → t.mark f ≠ .fresh → ∀ c ∈ g.callees f, Settled s t low c
  reached : ∀ f, s.mark f = .fresh → t.mark f ≠ .fresh → ∃ r ∈ rs, ReflTransGen g.Calls r f
  caller : ∀ c id, New s t c id → c ∈ rs ∨ ∃ f k, New s t f k ∧ c ∈ g.callees f ∧ k < id
  back : ∀ f id, New s t f id → g.isClosure f = false → ∃ x k c j, t.mark x = .entered k ∧ t.mark c = .entered j ∧
    ReflTransGen g.Calls f x ∧ c ∈ g.callees x ∧ j < id ∧ id ≤ k
  /-- A number that is older than these visits was seen at a root or at a callee. -/
  seen : low < s.last → ∃ c, t.mark c = .entered low ∧ (c ∈ rs ∨ ∃ f k, New s t f k ∧ c ∈ g.callees f)

/-- Visits that find everything entered before change nothing. -/
theorem explored_same {g : CallGraph} {s : Search} (h : Inv g s) {rs : List FuncId} {low : Nat}
    (hrs : ∀ f ∈ rs, Settled s s low f) (hseen : low < s.last → ∃ c ∈ rs, s.mark c = .entered low) :
    Explored g rs s s low := by
  have hnew {f : FuncId} (hf : s.mark f = .fresh) {id : Nat} : s.mark f ≠ .entered id := by
    rw [hf]
    simp
  refine ⟨h, Grows.refl s, hrs, ?_, ?_, ?_, ?_, ?_⟩
  · exact fun f hf hf' => absurd hf hf'
  · exact fun f hf hf' => absurd hf hf'
  · exact fun c id hc => absurd hc.2 (hnew hc.1)
  · exact fun f id hf => absurd hf.2 (hnew hf.1)
  · intro hlt
    obtain ⟨c, hc, hm⟩ := hseen hlt
    exact ⟨c, hm, Or.inl hc⟩

/-- Visits one after the other. -/
theorem Explored.append {g : CallGraph} {rs qs : List FuncId} {s t u : Search} {low low' : Nat}
    (h₁ : Explored g rs s t low) (h₂ : Explored g qs t u low') : Explored g (rs ++ qs) s u (min low low') := by
  have hle : min low low' ≤ low := Nat.min_le_left _ _
  have hle' : min low low' ≤ low' := Nat.min_le_right _ _
  refine ⟨h₂.inv, h₁.grows.trans h₂.grows, ?_, ?_, ?_, ?_, ?_, ?_⟩
  · intro f hf
    rcases List.mem_append.1 hf with hf | hf
    · exact (h₁.roots f hf).mono h₂.grows hle
    · exact (h₂.roots f hf).of_grows h₁.grows hle'
  · intro f hs hu c hc
    by_cases ht : t.mark f = .fresh
    · exact (h₂.callees f ht hu c hc).of_grows h₁.grows hle'
    · exact (h₁.callees f hs ht c hc).mono h₂.grows hle
  · intro f hs hu
    by_cases ht : t.mark f = .fresh
    · obtain ⟨r, hr, hw⟩ := h₂.reached f ht hu
      exact ⟨r, List.mem_append_right _ hr, hw⟩
    · obtain ⟨r, hr, hw⟩ := h₁.reached f hs ht
      exact ⟨r, List.mem_append_left _ hr, hw⟩
  · intro c id hc
    rcases h₂.grows.new_cases hc with ht | ht
    · rcases h₁.caller c id ht with hr | ⟨f, k, hf, hk⟩
      · exact Or.inl (List.mem_append_left _ hr)
      · exact Or.inr ⟨f, k, hf.mono h₂.grows, hk⟩
    · rcases h₂.caller c id ht with hr | ⟨f, k, hf, hk⟩
      · exact Or.inl (List.mem_append_right _ hr)
      · exact Or.inr ⟨f, k, hf.of_grows h₁.grows, hk⟩
  · intro f id hf hcl
    rcases h₂.grows.new_cases hf with ht | ht
    · obtain ⟨x, k, c, j, hx, hc, hrest⟩ := h₁.back f id ht hcl
      exact ⟨x, k, c, j, h₂.grows.entered x k hx, h₂.grows.entered c j hc, hrest⟩
    · exact h₂.back f id ht hcl
  · intro hlt
    by_cases hcmp : low ≤ low'
    · rw [Nat.min_eq_left hcmp] at hlt ⊢
      obtain ⟨c, hc, hseen⟩ := h₁.seen hlt
      refine ⟨c, h₂.grows.entered c low hc, ?_⟩
      rcases hseen with hr | ⟨f, k, hf, hk⟩
      · exact Or.inl (List.mem_append_left _ hr)
      · exact Or.inr ⟨f, k, hf.mono h₂.grows, hk⟩
    · rw [Nat.min_eq_right (by omega)] at hlt ⊢
      obtain ⟨c, hc, hseen⟩ := h₂.seen (Nat.lt_of_lt_of_le hlt h₁.grows.last_le)
      refine ⟨c, hc, ?_⟩
      rcases hseen with hr | ⟨f, k, hf, hk⟩
      · exact Or.inl (List.mem_append_right _ hr)
      · exact Or.inr ⟨f, k, hf.of_grows h₁.grows, hk⟩

/-! ## The end of a visit

The visit of `f`, entered from `s`, has visited the callees of `f` and come to `t`. -/

section Finish
variable {g : CallGraph} {s t : Search} {f : FuncId} {low : Nat}

theorem new_self (hf : s.mark f = .fresh) (h : Explored g (g.callees f) (s.enter f) t low) :
    New s t f (s.last + 1) :=
  ⟨hf, h.grows.entered f _ (by rw [mark_enter, if_pos rfl])⟩

theorem mark_enter_fresh {c : FuncId} (hc : (s.enter f).mark c = .fresh) : s.mark c = .fresh ∧ c ≠ f := by
  rw [mark_enter] at hc
  split at hc
  · cases hc
  · exact ⟨hc, ‹_›⟩

/-- What is new since `s` is `f`, or new since `f` was entered. -/
theorem new_since_enter (hf : s.mark f = .fresh) (h : Explored g (g.callees f) (s.enter f) t low) {c : FuncId}
    {id : Nat} (hc : New s t c id) : (c = f ∧ id = s.last + 1) ∨ New (s.enter f) t c id := by
  by_cases hcf : c = f
  · subst hcf
    have e := (new_self hf h).2
    rw [hc.2] at e
    cases e
    exact Or.inl ⟨rfl, rfl⟩
  · exact Or.inr ⟨by rw [mark_enter, if_neg hcf]; exact hc.1, hc.2⟩

/-- Numbers given since `f` was entered are above those of `f`. -/
theorem number_lt_of_new (h : Explored g (g.callees f) (s.enter f) t low) {c : FuncId} {id : Nat}
    (hc : New (s.enter f) t c id) : s.last + 2 < id :=
  h.grows.last_lt c id hc.1 hc.2

theorem reaches_of_new (h : Explored g (g.callees f) (s.enter f) t low) {c : FuncId} (hs : s.mark c = .fresh)
    (ht : t.mark c ≠ .fresh) : ReflTransGen g.Calls f c := by
  by_cases hcf : c = f
  · rw [hcf]
  · obtain ⟨r, hr, hw⟩ := h.reached c (by rw [mark_enter, if_neg hcf]; exact hs) ht
    exact hw.head hr

theorem settled_of_new (h : Explored g (g.callees f) (s.enter f) t low) {u : FuncId} (hs : s.mark u = .fresh)
    (ht : t.mark u ≠ .fresh) : ∀ c ∈ g.callees u, Settled (s.enter f) t low c := by
  by_cases huf : u = f
  · rw [huf]
    exact h.roots
  · exact h.callees u (by rw [mark_enter, if_neg huf]; exact hs) ht

/-- A number below the second one of `f` was seen at a callee of a new function. -/
theorem seen_by_new (hf : s.mark f = .fresh) (h : Explored g (g.callees f) (s.enter f) t low)
    (hlow : low < s.last + 2) : ∃ c u k, t.mark c = .entered low ∧ New s t u k ∧ c ∈ g.callees u := by
  obtain ⟨c, hc, hseen⟩ := h.seen hlow
  rcases hseen with hr | ⟨u, k, hu, huc⟩
  · exact ⟨c, f, s.last + 1, hc, new_self hf h, hr⟩
  · exact ⟨c, u, k, hc, hu.of_grows (grows_enter hf), huc⟩

theorem caller_of_new (hf : s.mark f = .fresh) (h : Explored g (g.callees f) (s.enter f) t low) {c : FuncId}
    {id : Nat} (hc : New s t c id) (hcf : c ≠ f) : ∃ u k, New s t u k ∧ c ∈ g.callees u ∧ k < id := by
  rcases new_since_enter hf h hc with ⟨e, _⟩ | hc'
  · exact absurd e hcf
  · rcases h.caller c id hc' with hr | ⟨u, k, hu, huc⟩
    · have := number_lt_of_new h hc'
      exact ⟨f, s.last + 1, new_self hf h, hr, by omega⟩
    · exact ⟨u, k, hu.of_grows (grows_enter hf), huc⟩

theorem new_of_number (hs : Inv g s) (h : Explored g (g.callees f) (s.enter f) t low)
    (hf : s.mark f = .fresh) {c : FuncId} {id : Nat} (hc : t.mark c = .entered id) (hid : s.last < id) :
    New s t c id := by
  have hg := (grows_enter hf).trans h.grows
  refine ⟨?_, hc⟩
  cases hsc : s.mark c with
  | fresh => rfl
  | entered k =>
    have := hs.lt_last c k hsc
    rw [hg.entered c k hsc] at hc
    cases hc
    omega
  | grouped =>
    rw [hg.grouped c hsc] at hc
    cases hc

/-- A visit that does not end a group. -/
theorem explored_leave (hf : s.mark f = .fresh) (h : Explored g (g.callees f) (s.enter f) t low)
    (hstay : g.isClosure f = true ∨ low < s.last + 1) : Explored g [f] s t low := by
  have hg := grows_enter hf
  refine ⟨h.inv, hg.trans h.grows, ?_, ?_, ?_, ?_, ?_, ?_⟩
  · intro c hc
    rw [List.mem_singleton.1 hc]
    exact Or.inr ⟨s.last + 1, (new_self hf h).2, Or.inr (Nat.lt_succ_self _)⟩
  · exact fun u hu hu' c hc => (settled_of_new h hu hu' c hc).of_grows hg (Nat.le_refl _)
  · exact fun u hu hu' => ⟨f, List.mem_singleton_self f, reaches_of_new h hu hu'⟩
  · intro c id hc
    by_cases hcf : c = f
    · exact Or.inl (List.mem_singleton.2 hcf)
    · exact Or.inr (caller_of_new hf h hc hcf)
  · intro u id hu hcl
    rcases new_since_enter hf h hu with ⟨rfl, rfl⟩ | hu'
    · -- `f` is no closure, so it stays because something below it on the stack was seen.
      have hlow : low < s.last + 1 := hstay.resolve_left (by rw [hcl]; simp)
      obtain ⟨c, x, k, hc, hx, hxc⟩ := seen_by_new hf h (by omega)
      refine ⟨x, k, c, low, hx.2, hc, reaches_of_new h hx.1 (by rw [hx.2]; simp), hxc, hlow, ?_⟩
      exact (hg.trans h.grows).last_lt x k hx.1 hx.2
    · exact h.back u id hu' hcl
  · intro hlow
    obtain ⟨c, x, k, hc, hx, hxc⟩ := seen_by_new hf h (by omega)
    exact ⟨c, hc, Or.inr ⟨x, k, hx, hxc⟩⟩

/-- The functions that `f` ends a group with are those above it on the stack, and `f`. -/
theorem nodup_above (h : Explored g (g.callees f) (s.enter f) t low) :
    (t.above f).Nodup ∧ ∃ new, t.stack = new ++ f :: s.stack ∧ t.above f = new ++ [f] ∧ f ∉ new := by
  obtain ⟨new, hnew⟩ := h.grows.stack
  change t.stack = new ++ f :: s.stack at hnew
  have hnodup := h.inv.nodup
  rw [hnew, List.nodup_append] at hnodup
  have hfnew : f ∉ new := fun hm => hnodup.2.2 f hm f List.mem_cons_self rfl
  refine ⟨?_, new, hnew, above_eq hnew hfnew, hfnew⟩
  rw [above_eq hnew hfnew, List.nodup_append]
  refine ⟨hnodup.1, List.nodup_singleton f, fun c hc d hd => ?_⟩
  rw [List.mem_singleton.1 hd]
  exact fun e => hfnew (e ▸ hc)

/-- The group that `f` ends is what is new since `s` and on the stack. -/
theorem mem_above_iff (hs : Inv g s) (hf : s.mark f = .fresh) (h : Explored g (g.callees f) (s.enter f) t low)
    {c : FuncId} : c ∈ t.above f ↔ ∃ id, New s t c id := by
  obtain ⟨_, new, hnew, habove, _⟩ := nodup_above h
  have hnodup := h.inv.nodup
  rw [hnew, List.append_cons, List.nodup_append] at hnodup
  rw [habove]
  constructor
  · intro hc
    have hct : c ∈ t.stack := by
      rw [hnew, List.append_cons]
      exact List.mem_append_left _ hc
    obtain ⟨id, hid⟩ := (h.inv.mem_stack c).1 hct
    refine ⟨id, ?_, hid⟩
    cases hsc : s.mark c with
    | fresh => rfl
    | entered k => exact absurd rfl (hnodup.2.2 c hc c ((hs.mem_stack c).2 ⟨k, hsc⟩))
    | grouped =>
      rw [((grows_enter hf).trans h.grows).grouped c hsc] at hid
      cases hid
  · rintro ⟨id, hc⟩
    have hct := (h.inv.mem_stack c).2 ⟨id, hc.2⟩
    rw [hnew, List.append_cons] at hct
    rcases List.mem_append.1 hct with hct | hct
    · exact hct
    · obtain ⟨k, hk⟩ := (hs.mem_stack c).1 hct
      rw [hc.1] at hk
      cases hk

/-- The number of a function on the stack. -/
def number (t : Search) (c : FuncId) : Nat :=
  match t.mark c with
  | .entered id => id
  | _ => 0

theorem number_eq {c : FuncId} {id : Nat} (h : t.mark c = .entered id) : t.number c = id := by
  simp [number, h]

/-- What `f` ends is a group: every number seen since is one of `f` or larger. -/
theorem closes_above (hs : Inv g s) (hf : s.mark f = .fresh) (h : Explored g (g.callees f) (s.enter f) t low)
    (hcl : g.isClosure f = false) (hlow : low = s.last + 1 ∨ low = s.last + 2) :
    Group.Closes g (fun c => ∃ H ∈ t.groups.toList, c ∈ H.funcs) ⟨t.above f, decide (low = s.last + 1)⟩ f t.number := by
  have hmem {c : FuncId} : c ∈ t.above f ↔ ∃ id, New s t c id := mem_above_iff hs hf h
  have hself := new_self hf h
  obtain ⟨hnodup, new, _, habove, _⟩ := nodup_above h
  have hcallees : ∀ u ∈ t.above f, ∀ c ∈ g.callees u, c ∈ t.above f ∨ ∃ H ∈ t.groups.toList, c ∈ H.funcs := by
    intro u hu c hc
    obtain ⟨id, hu⟩ := hmem.1 hu
    rcases settled_of_new h hu.1 (by rw [hu.2]; simp) c hc with hgr | ⟨k, hk, hle⟩
    · exact Or.inr ((h.inv.grouped c).1 hgr)
    · refine Or.inl (hmem.2 ⟨k, new_of_number hs h hf hk ?_⟩)
      change low ≤ k ∨ s.last + 2 < k at hle
      omega
  have hcaller : ∀ c ∈ t.above f, c ≠ f → ∃ u ∈ t.above f, c ∈ g.callees u ∧ t.number u < t.number c := by
    intro c hc hcf
    obtain ⟨id, hc⟩ := hmem.1 hc
    obtain ⟨u, k, hu, huc, hlt⟩ := caller_of_new hf h hc hcf
    exact ⟨u, hmem.2 ⟨k, hu⟩, huc, by rw [number_eq hu.2, number_eq hc.2]; exact hlt⟩
  refine ⟨hnodup, ?_, hcallees, ?_, hcl, ?_, ?_, hcaller, ?_⟩
  · intro c hc hd
    obtain ⟨id, hc⟩ := hmem.1 hc
    rw [← h.inv.grouped, hc.2] at hd
    cases hd
  · change (t.above f).getLast? = some f
    rw [habove, List.getLast?_concat]
  · intro c hc
    obtain ⟨id, hc⟩ := hmem.1 hc
    exact reaches_of_new h hc.1 (by rw [hc.2]; simp)
  · rw [decide_eq_true_eq]
    constructor
    · intro e
      obtain ⟨c, u, k, hc, hu, huc⟩ := seen_by_new hf h (by omega)
      have hcf : c = f := h.inv.inj c f low hc (by rw [e]; exact hself.2)
      exact ⟨u, hmem.2 ⟨k, hu⟩, hcf ▸ huc⟩
    · rintro ⟨u, hu, huf⟩
      obtain ⟨id, hu⟩ := hmem.1 hu
      rcases settled_of_new h hu.1 (by rw [hu.2]; simp) f huf with hgr | ⟨k, hk, hle⟩
      · rw [hself.2] at hgr
        cases hgr
      · rw [hself.2] at hk
        cases hk
        change low ≤ s.last + 1 ∨ s.last + 2 < s.last + 1 at hle
        omega
  · intro u hu huf hucl
    obtain ⟨id, hu⟩ := hmem.1 hu
    rcases new_since_enter hf h hu with ⟨e, _⟩ | hu'
    · exact absurd e huf
    · obtain ⟨x, k, c, j, hx, hc, hw, hxc, hj, hk⟩ := h.back u id hu' hucl
      have hid := number_lt_of_new h hu'
      have hxa : x ∈ t.above f := hmem.2 ⟨k, new_of_number hs h hf hx (by omega)⟩
      have hca : c ∈ t.above f := by
        rcases hcallees x hxa c hxc with hca | hd
        · exact hca
        · rw [← h.inv.grouped, hc] at hd
          cases hd
      refine ⟨x, hxa, c, hca, hw, hxc, ?_, ?_⟩
      · rw [number_eq hc, number_eq hu.2]
        exact hj
      · rw [number_eq hu.2, number_eq hx]
        exact hk

theorem inv_close (hs : Inv g s) (hf : s.mark f = .fresh) (h : Explored g (g.callees f) (s.enter f) t low)
    (hcl : g.isClosure f = false) (hlow : low = s.last + 1 ∨ low = s.last + 2) :
    Inv g (t.close f (decide (low = s.last + 1))) := by
  have hclose := closes_above hs hf h hcl hlow
  have hmem {c : FuncId} : c ∈ t.above f ↔ ∃ id, New s t c id := mem_above_iff hs hf h
  obtain ⟨_, new, hnew, habove, hfnew⟩ := nodup_above h
  have hgroups : (t.close f (decide (low = s.last + 1))).groups.toList =
      t.groups.toList ++ [⟨t.above f, decide (low = s.last + 1)⟩] := Array.toList_push
  have hentered {c : FuncId} {id : Nat} (hc : (t.close f (decide (low = s.last + 1))).mark c = .entered id) :
      c ∉ t.above f ∧ t.mark c = .entered id := by
    rw [mark_close] at hc
    split at hc
    · cases hc
    · exact ⟨‹_›, hc⟩
  refine ⟨?_, ?_, ?_, ?_, ?_, ?_⟩
  · rw [hgroups]
    exact .snoc h.inv.built hclose
  · intro c
    rw [hgroups, mark_close]
    split
    · rename_i hc
      exact ⟨fun _ => ⟨_, List.mem_append_right _ (List.mem_singleton_self _), hc⟩, fun _ => rfl⟩
    · rename_i hc
      rw [h.inv.grouped]
      constructor
      · rintro ⟨H, hH, hcH⟩
        exact ⟨H, List.mem_append_left _ hH, hcH⟩
      · rintro ⟨H, hH, hcH⟩
        rcases List.mem_append.1 hH with hH | hH
        · exact ⟨H, hH, hcH⟩
        · rw [List.mem_singleton.1 hH] at hcH
          exact absurd hcH hc
  · intro c
    rw [stack_close hnew hfnew, hs.mem_stack]
    constructor
    · rintro ⟨id, hid⟩
      have ht := ((grows_enter hf).trans h.grows).entered c id hid
      refine ⟨id, ?_⟩
      rw [mark_close, if_neg, ht]
      intro hc
      obtain ⟨k, hk⟩ := hmem.1 hc
      rw [hk.1] at hid
      cases hid
    · rintro ⟨id, hid⟩
      obtain ⟨hc, ht⟩ := hentered hid
      refine ⟨id, ?_⟩
      cases hsc : s.mark c with
      | fresh => exact absurd (hmem.2 ⟨id, hsc, ht⟩) hc
      | entered k =>
        rw [((grows_enter hf).trans h.grows).entered c k hsc] at ht
        cases ht
        rfl
      | grouped =>
        rw [((grows_enter hf).trans h.grows).grouped c hsc] at ht
        cases ht
  · rw [stack_close hnew hfnew]
    exact hs.nodup
  · exact fun c id hid => h.inv.lt_last c id (hentered hid).2
  · exact fun c d id hc hd => h.inv.inj c d id (hentered hc).2 (hentered hd).2

/-- A visit that ends a group. -/
theorem explored_close (hs : Inv g s) (hf : s.mark f = .fresh) (h : Explored g (g.callees f) (s.enter f) t low)
    (hcl : g.isClosure f = false) (hlow : low = s.last + 1 ∨ low = s.last + 2) :
    Explored g [f] s (t.close f (decide (low = s.last + 1))) low := by
  have hinv := inv_close hs hf h hcl hlow
  have hmem {c : FuncId} : c ∈ t.above f ↔ ∃ id, New s t c id := mem_above_iff hs hf h
  have hg := (grows_enter hf).trans h.grows
  obtain ⟨_, new, hnew, habove, hfnew⟩ := nodup_above h
  -- Nothing that is new stays on the stack.
  have hnone {c : FuncId} {id : Nat} (hc : s.mark c = .fresh) :
      (t.close f (decide (low = s.last + 1))).mark c ≠ .entered id := by
    rw [mark_close]
    split
    · simp
    · rename_i hca
      exact fun e => hca (hmem.2 ⟨id, hc, e⟩)
  have hgrouped {c : FuncId} (hc : s.mark c = .fresh)
      (ht : (t.close f (decide (low = s.last + 1))).mark c ≠ .fresh) :
      (t.close f (decide (low = s.last + 1))).mark c = .grouped := by
    cases hm : (t.close f (decide (low = s.last + 1))).mark c with
    | fresh => exact absurd hm ht
    | entered id => exact absurd hm (hnone hc)
    | grouped => rfl
  have hfresh {c : FuncId} (hc : s.mark c = .fresh)
      (ht : (t.close f (decide (low = s.last + 1))).mark c ≠ .fresh) : t.mark c ≠ .fresh := by
    intro e
    refine ht ?_
    rw [mark_close, if_neg, e]
    intro hca
    obtain ⟨id, hid⟩ := hmem.1 hca
    rw [hid.2] at e
    cases e
  refine ⟨hinv, ⟨?_, ?_, ?_, hg.last_le, ?_⟩, ?_, ?_, ?_, ?_, ?_, ?_⟩
  · exact ⟨[], by rw [stack_close hnew hfnew]; rfl⟩
  · intro c id hc
    rw [mark_close, if_neg, hg.entered c id hc]
    intro hca
    obtain ⟨k, hk⟩ := hmem.1 hca
    rw [hk.1] at hc
    cases hc
  · intro c hc
    rw [mark_close]
    split
    · rfl
    · exact hg.grouped c hc
  · exact fun c id hc hc' => absurd hc' (hnone hc)
  · intro c hc
    rw [List.mem_singleton.1 hc]
    refine Or.inl ?_
    rw [mark_close, if_pos (hmem.2 ⟨_, new_self hf h⟩)]
  · exact fun u hu hu' c hc => Or.inl (hinv.callee_grouped (hgrouped hu hu') hc)
  · exact fun u hu hu' => ⟨f, List.mem_singleton_self f, reaches_of_new h hu (hfresh hu hu')⟩
  · exact fun c id hc => absurd hc.2 (hnone hc.1)
  · exact fun u id hu => absurd hu.2 (hnone hu.1)
  · intro hlt
    omega

end Finish

/-! ## Fuel -/

/-- How many functions of the graph are not entered yet. -/
def freshCount (g : CallGraph) (s : Search) : Nat := g.funcs.countP fun f => s.mark f = .fresh

theorem freshCount_le {g : CallGraph} {s t : Search} (h : Grows s t) : freshCount g t ≤ freshCount g s :=
  List.countP_mono_left fun f _ hf => by
    rw [decide_eq_true_eq] at hf ⊢
    exact h.fresh hf

theorem freshCount_enter_lt {g : CallGraph} {s : Search} {f : FuncId} (hf : f ∈ g.funcs) (hs : s.mark f = .fresh) :
    freshCount g (s.enter f) < freshCount g s := by
  have hle : ∀ (funcs : List FuncId), (funcs.countP fun c => (s.enter f).mark c = .fresh) ≤
      funcs.countP fun c => s.mark c = .fresh := fun funcs =>
    List.countP_mono_left fun c _ hc => by
      rw [decide_eq_true_eq] at hc ⊢
      exact (mark_enter_fresh hc).1
  obtain ⟨pre, post, hsplit⟩ := List.append_of_mem hf
  have hpre := hle pre
  have hpost := hle post
  have hself : (s.enter f).mark f ≠ .fresh := by
    rw [mark_enter, if_pos rfl]
    simp
  unfold freshCount
  rw [hsplit, List.countP_append, List.countP_append, List.countP_cons, List.countP_cons,
    if_pos (decide_eq_true hs), if_neg (by rw [decide_eq_true_eq]; exact hself)]
  omega

end Search

/-! ## Visits -/

open Search

/-- The callees of the functions of the graph are functions of the graph. -/
def Closed (g : CallGraph) : Prop := ∀ f, ∀ c ∈ g.callees f, c ∈ g.funcs

/-- Visiting the functions `cs` one after the other, starting from a number not below the last one given. -/
theorem explored_foldl {g : CallGraph} {fuel : Nat} {s : Search}
    (hvisit : ∀ c ∈ g.funcs, ∀ t, Inv g t → freshCount g t < fuel →
      Explored g [c] t (g.visit fuel c t).2 ((g.visit fuel c t).1.getD t.last))
    (cs : List FuncId) (hcs : ∀ c ∈ cs, c ∈ g.funcs) {rs : List FuncId} {low : Nat} {t : Search}
    (h : Explored g rs s t low) (hlow : low ≤ s.last) (hfuel : freshCount g s < fuel) :
    let r := cs.foldl (fun (low, s) callee =>
      let (seen, s) := g.visit fuel callee s
      (min low (seen.getD low), s)) (low, t)
    Explored g (rs ++ cs) s r.2 r.1 ∧ r.1 ≤ s.last := by
  induction cs generalizing rs low t with
  | nil => exact ⟨by rw [List.append_nil]; exact h, hlow⟩
  | cons c cs ih =>
    have hc := hvisit c (hcs c List.mem_cons_self) t h.inv (Nat.lt_of_le_of_lt (freshCount_le h.grows) hfuel)
    -- A callee that was grouped before gives no number; any number from `low` on stands for that.
    have hmin : min low ((g.visit fuel c t).1.getD low) = min low ((g.visit fuel c t).1.getD t.last) := by
      have := h.grows.last_le
      cases (g.visit fuel c t).1 with
      | none =>
        rw [Option.getD_none, Option.getD_none]
        omega
      | some m => rfl
    have hstep := h.append hc
    rw [← hmin] at hstep
    have key := ih (fun d hd => hcs d (List.mem_cons_of_mem _ hd)) hstep (Nat.le_trans (Nat.min_le_left _ _) hlow)
    rw [List.append_assoc] at key
    exact key

theorem explored_visit {g : CallGraph} (hg : g.Closed) (fuel : Nat) {f : FuncId} (hf : f ∈ g.funcs) {s : Search}
    (hs : Inv g s) (hfuel : freshCount g s < fuel) :
    Explored g [f] s (g.visit fuel f s).2 ((g.visit fuel f s).1.getD s.last) := by
  induction fuel generalizing f s with
  | zero => omega
  | succ fuel ih =>
    unfold visit
    cases hm : s.mark f with
    | grouped =>
      rw [show s.marks.get f.index = .grouped from hm]
      refine explored_same hs ?_ fun hlt => absurd hlt (Nat.lt_irrefl _)
      intro c hc
      rw [List.mem_singleton.1 hc]
      exact Or.inl hm
    | entered id =>
      rw [show s.marks.get f.index = .entered id from hm]
      refine explored_same hs ?_ fun _ => ⟨f, List.mem_singleton_self f, hm⟩
      intro c hc
      rw [List.mem_singleton.1 hc]
      exact Or.inr ⟨id, hm, Or.inl (Nat.le_refl _)⟩
    | fresh =>
      rw [show s.marks.get f.index = .fresh from hm]
      have hlt := freshCount_enter_lt hf hm
      have hnil : Explored g [] (s.enter f) (s.enter f) (s.last + 2) :=
        explored_same (hs.enter hm) (by simp) fun hlt => absurd hlt (Nat.lt_irrefl _)
      obtain ⟨hx, hle⟩ := explored_foldl (fun c hc t ht h => ih hc ht h) (g.callees f) (hg f) hnil
        (Nat.le_refl _) (by omega)
      rw [List.nil_append] at hx
      change _ ≤ s.last + 2 at hle
      dsimp only at hx hle ⊢
      generalize (g.callees f).foldl _ _ = r at hx hle ⊢
      obtain ⟨low, t⟩ := r
      dsimp only at hx hle ⊢
      split
      · rename_i hend
        exact explored_close hs hm hx (by simpa using hend.2) hend.1
      · rename_i hend
        show Explored g [f] s t low
        refine explored_leave hm hx ?_
        cases hcl : g.isClosure f with
        | true => exact Or.inl rfl
        | false =>
          rw [hcl] at hend
          -- Had nothing below the two numbers of `f` been seen, `f` would have been closed.
          have hne : ¬ (low = s.last + 1 ∨ low = s.last + 2) := fun h => hend ⟨h, rfl⟩
          exact Or.inr (by omega)

/-! ## The end of the search -/

def roots (g : CallGraph) : List FuncId := g.funcs.filter fun f => !g.isClosure f

/-- The search when all roots are visited. -/
def searched (g : CallGraph) : Search :=
  g.roots.foldl (fun s f => (g.visit (g.funcs.length + 1) f s).2) {}

theorem mem_roots {g : CallGraph} {f : FuncId} : f ∈ g.roots ↔ f ∈ g.funcs ∧ g.isClosure f = false := by
  simp [roots]

theorem groups_eq (g : CallGraph) : g.groups = g.searched.groups.toList := rfl

theorem explored_searched {g : CallGraph} (hg : g.Closed) : ∃ low, Explored g g.roots {} g.searched low := by
  have hfuel (s : Search) : freshCount g s < g.funcs.length + 1 := Nat.lt_succ_of_le List.countP_le_length
  have key (cs : List FuncId) (hcs : ∀ c ∈ cs, c ∈ g.funcs) (rs : List FuncId) (s : Search) (low : Nat)
      (h : Explored g rs {} s low) : ∃ low', Explored g (rs ++ cs) {}
        (cs.foldl (fun s f => (g.visit (g.funcs.length + 1) f s).2) s) low' := by
    induction cs generalizing rs s low with
    | nil => exact ⟨low, by rw [List.append_nil]; exact h⟩
    | cons c cs ih =>
      have hc := explored_visit hg (g.funcs.length + 1) (hcs c List.mem_cons_self) h.inv (hfuel s)
      have := ih (fun d hd => hcs d (List.mem_cons_of_mem _ hd)) _ _ _ (h.append hc)
      rw [List.append_assoc] at this
      exact this
  exact key g.roots (fun c hc => (mem_roots.1 hc).1) [] {} 0
    (explored_same (inv_empty g) (by simp) fun hlt => absurd hlt (Nat.lt_irrefl _))

theorem inv_searched {g : CallGraph} (hg : g.Closed) : Inv g g.searched := by
  obtain ⟨_, h⟩ := explored_searched hg
  exact h.inv

/-- Nothing is left on the stack: a function with the least number would have a caller with a smaller one,
or be a root, and then lead to a smaller one. -/
theorem mark_searched_ne_entered {g : CallGraph} (hg : g.Closed) (f : FuncId) (id : Nat) :
    g.searched.mark f ≠ .entered id := by
  obtain ⟨_, h⟩ := explored_searched hg
  induction id using Nat.strongRecOn generalizing f with
  | ind id ih =>
    intro hf
    have hnew : New {} g.searched f id := ⟨Table.get_empty f.index, hf⟩
    rcases h.caller f id hnew with hr | ⟨c, k, hc, _, hk⟩
    · obtain ⟨_, _, c, j, _, hc, _, _, hj, _⟩ := h.back f id hnew (mem_roots.1 hr).2
      exact ih j hj c hc
    · exact ih k hk c hc.2

theorem built_groups {g : CallGraph} (hg : g.Closed) : g.Built g.groups :=
  (inv_searched hg).built

/-- The functions in groups are those reached from the roots. -/
theorem mem_groups_iff {g : CallGraph} (hg : g.Closed) (f : FuncId) :
    (∃ G ∈ g.groups, f ∈ G.funcs) ↔ ∃ r ∈ g.funcs, g.isClosure r = false ∧ ReflTransGen g.Calls r f := by
  obtain ⟨_, h⟩ := explored_searched hg
  rw [groups_eq, ← h.inv.grouped f]
  constructor
  · intro hf
    obtain ⟨r, hr, hrf⟩ := h.reached f (Table.get_empty f.index) (by rw [hf]; simp)
    exact ⟨r, (mem_roots.1 hr).1, (mem_roots.1 hr).2, hrf⟩
  · rintro ⟨r, hr, hcl, hrf⟩
    induction hrf with
    | refl =>
      rcases h.roots r (mem_roots.2 ⟨hr, hcl⟩) with hm | ⟨id, hm, _⟩
      · exact hm
      · exact absurd hm (mark_searched_ne_entered hg r id)
    | tail _ hc ih => exact h.inv.callee_grouped ih hc

/-! ## Graphs that differ where the search does not come -/

/-- A visit asks for the callees of what it comes to, and for nothing else. -/
theorem visit_congr {g h : CallGraph} {S : FuncId → Prop} (hclosure : h.isClosure = g.isClosure)
    (hcallees : ∀ f, S f → h.callees f = g.callees f) (hS : ∀ f, S f → ∀ c ∈ g.callees f, S c) (fuel : Nat)
    {f : FuncId} (hf : S f) (s : Search) : h.visit fuel f s = g.visit fuel f s := by
  induction fuel generalizing f s with
  | zero => rfl
  | succ fuel ih =>
    unfold visit
    rw [hcallees f hf, hclosure]
    dsimp only
    rw [List.foldl_ext _ _ _ fun r c hc => by rw [ih (hS f hf c hc)]]

/-- Groups depend on the callees of the functions in them only. -/
theorem groups_congr {g h : CallGraph} (hg : g.Closed) (hfuncs : h.funcs = g.funcs) (hclosure : h.isClosure = g.isClosure)
    (hcallees : ∀ G ∈ g.groups, ∀ f ∈ G.funcs, h.callees f = g.callees f) : h.groups = g.groups := by
  have hvisit {f : FuncId} (hf : ∃ G ∈ g.groups, f ∈ G.funcs) (s : Search) :
      h.visit (g.funcs.length + 1) f s = g.visit (g.funcs.length + 1) f s :=
    visit_congr (S := fun f => ∃ G ∈ g.groups, f ∈ G.funcs) hclosure (fun f ⟨G, hG, hf⟩ => hcallees G hG f hf)
      (fun f ⟨G, hG, hf⟩ => (built_groups hg).callees G hG f hf) _ hf s
  have hroot {f : FuncId} (hf : f ∈ g.roots) : ∃ G ∈ g.groups, f ∈ G.funcs :=
    (mem_groups_iff hg f).2 ⟨f, (mem_roots.1 hf).1, (mem_roots.1 hf).2, .refl⟩
  have hroots : h.roots = g.roots := by rw [roots, roots, hfuncs, hclosure]
  rw [groups_eq, groups_eq, searched, searched, hroots, hfuncs,
    List.foldl_ext _ _ _ fun s f hf => congrArg Prod.snd (hvisit (hroot hf) s)]

end CallGraph

end EscapeAnalysis

import EscapeAnalysis.Flow

/-!
# Triples

One triple for all operations on states. It says how the state that an operation leaves is related to the one it found,
what holds of the result, and what a fault tells; a development gives the relation `step` between states and the
predicate `stop` on faults, and has the rules below.

* `Outcomes m σ φ` : the operations of `m` go from states to states, or stop at a fault;
* `Triple step stop s x Q` : `x` takes `s` to a state that `step` allows and to a result with `Q`, or stops as `stop`
  allows;
* `Conduct step stop` : steps may follow each other, and a fault after a step is a fault of both.
-/

namespace EscapeAnalysis

/-- The operations of a monad, seen from outside. -/
class Outcomes (m : Type → Type) [Monad m] (σ φ : outParam Type) where
  outcome {α : Type} : m α → σ → Except φ (α × σ)
  outcome_pure {α : Type} (a : α) (s : σ) : outcome (pure a) s = .ok (a, s)
  outcome_bind {α β : Type} (x : m α) (f : α → m β) (s : σ) :
    outcome (x >>= f) s = (outcome x s >>= fun r => outcome (f r.1) r.2)

def ofResult {ε σ α : Type} : EStateM.Result ε σ α → Except (ε × σ) (α × σ)
  | .ok a t => .ok (a, t)
  | .error e t => .error (e, t)

theorem ofResult_inj {ε σ α : Type} {r r' : EStateM.Result ε σ α} (h : ofResult r = ofResult r') : r = r' := by
  cases r <;> cases r' <;> cases h <;> rfl

/-- A fault comes with the state it was met in. -/
instance {ε σ : Type} : Outcomes (EStateM ε σ) σ (ε × σ) where
  outcome x s := ofResult (x s)
  outcome_pure _ _ := rfl
  outcome_bind x f s := by
    change ofResult (EStateM.bind x f s) = _
    unfold EStateM.bind
    cases x s <;> rfl

instance {ε σ : Type} : Outcomes (StateT σ (Except ε)) σ ε where
  outcome x s := x.run s
  outcome_pure _ _ := rfl
  outcome_bind _ _ _ := rfl

/-- These operations meet no faults. -/
instance {σ : Type} : Outcomes (StateM σ) σ Empty where
  outcome x s := .ok (x.run s)
  outcome_pure _ _ := rfl
  outcome_bind _ _ _ := rfl

open Outcomes

class Conduct {σ φ : Type} (step : σ → σ → Prop) (stop : σ → φ → Prop) : Prop where
  trans {s t u : σ} : step s t → step t u → step s u
  stop {s t : σ} {e : φ} : step s t → stop t e → stop s e
  /-- Whatever has to hold of a state after a step, nothing more is needed to stay there. -/
  rest {s t : σ} : step s t → step t t

def anyStep {σ : Type} (_ _ : σ) : Prop := True

/-- Nothing is asked of a fault. -/
def anyFault {σ φ : Type} (_ : σ) (_ : φ) : Prop := True

def noFault {σ φ : Type} (_ : σ) (_ : φ) : Prop := False

instance {σ φ : Type} : Conduct (anyStep (σ := σ)) (anyFault (φ := φ)) :=
  ⟨fun _ _ => trivial, fun _ _ => trivial, fun _ => trivial⟩

/-- The state is left out of account. -/
def stopsWith {ε σ : Type} (E : ε → Prop) (_ : σ) (e : ε × σ) : Prop := E e.1

section Rules

variable {m : Type → Type} [Monad m] {σ φ α β : Type} [Outcomes m σ φ] {step : σ → σ → Prop} {stop : σ → φ → Prop}
  {s t : σ} {x : m α} {f : α → m β} {Q Q' : α → σ → Prop} {R : β → σ → Prop}

def Triple (step : σ → σ → Prop) (stop : σ → φ → Prop) (s : σ) (x : m α) (Q : α → σ → Prop) : Prop :=
  match outcome x s with
  | .ok r => step s r.2 ∧ Q r.1 r.2
  | .error e => stop s e

theorem triple_iff : Triple step stop s x Q ↔
    (∀ a t, outcome x s = .ok (a, t) → step s t ∧ Q a t) ∧ ∀ e, outcome x s = .error e → stop s e := by
  unfold Triple
  cases outcome x s with
  | ok r =>
    refine ⟨fun h => ⟨fun a t he => ?_, nofun⟩, fun h => h.1 r.1 r.2 rfl⟩
    cases he
    exact h
  | error e =>
    refine ⟨fun h => ⟨nofun, fun d he => ?_⟩, fun h => h.2 e rfl⟩
    cases he
    exact h

theorem triple_pure_of {a : α} (hs : step s s) (h : Q a s) : Triple step stop s (pure a : m α) Q := by
  unfold Triple
  rw [outcome_pure]
  exact ⟨hs, h⟩

theorem triple_pure [Std.Refl step] {a : α} (h : Q a s) : Triple step stop s (pure a : m α) Q :=
  triple_pure_of (Std.Refl.refl s) h

theorem Triple.imp {step' : σ → σ → Prop} {stop' : σ → φ → Prop} (h : Triple step stop s x Q)
    (hok : ∀ a t, step s t → Q a t → step' s t ∧ Q' a t) (hstop : ∀ e, stop s e → stop' s e) :
    Triple step' stop' s x Q' := by
  rw [triple_iff] at h ⊢
  exact ⟨fun a t he => hok a t (h.1 a t he).1 (h.1 a t he).2, fun e he => hstop e (h.2 e he)⟩

theorem Triple.mono (h : Triple step stop s x Q) (hQ : ∀ a t, step s t → Q a t → Q' a t) : Triple step stop s x Q' :=
  h.imp (fun a t ht hQa => ⟨ht, hQ a t ht hQa⟩) fun _ he => he

variable [Conduct step stop]

/-- An operation that begins with a step goes on from there. -/
theorem Triple.after {y : m α} (h : Triple step stop t y Q) (hst : step s t) (he : outcome x s = outcome y t) :
    Triple step stop s x Q := by
  rw [triple_iff] at h ⊢
  rw [he]
  exact ⟨fun a u hu => ⟨Conduct.trans stop hst (h.1 a u hu).1, (h.1 a u hu).2⟩,
    fun e hfault => Conduct.stop hst (h.2 e hfault)⟩

theorem Triple.bind (hx : Triple step stop s x Q) (hf : ∀ a t, step s t → Q a t → Triple step stop t (f a) R) :
    Triple step stop s (x >>= f) R := by
  unfold Triple at hx
  cases hr : outcome x s with
  | ok r =>
    rw [hr] at hx
    refine (hf r.1 r.2 hx.1 hx.2).after hx.1 ?_
    rw [outcome_bind, hr]
    rfl
  | error e =>
    rw [hr] at hx
    unfold Triple
    rw [outcome_bind, hr]
    exact hx

theorem Triple.map [LawfulMonad m] {g : α → β} (hx : Triple step stop s x Q) (h : ∀ a t, Q a t → R (g a) t) :
    Triple step stop s (g <$> x) R := by
  rw [← bind_pure_comp]
  exact hx.bind fun a t ht hQ => triple_pure_of (Conduct.rest stop ht) (h a t hQ)

/-- A loop keeps what its rounds keep. -/
theorem triple_forM_inv {P : σ → Prop} {f : β → m PUnit} (hs : step s s) (xs : List β)
    (h : ∀ x ∈ xs, ∀ t, step s t → P t → Triple step stop t (f x) fun _ u => P u) (hP : P s) :
    Triple step stop s (xs.forM f) fun _ t => P t := by
  induction xs generalizing s with
  | nil => exact triple_pure_of hs hP
  | cons x xs ih =>
    refine (h x List.mem_cons_self s hs hP).bind fun _ t ht hPt => ih (Conduct.rest stop ht) (fun y hy u hu => ?_) hPt
    exact h y (List.mem_cons_of_mem _ hy) u (Conduct.trans stop ht hu)

theorem triple_forM_of {f : β → m PUnit} (hs : step s s) (xs : List β)
    (h : ∀ x ∈ xs, ∀ t, step s t → Triple step stop t (f x) fun _ _ => True) :
    Triple step stop s (xs.forM f) fun _ _ => True :=
  triple_forM_inv (P := fun _ => True) hs xs (fun x hx t ht _ => h x hx t ht) trivial

/-- What one round of a loop leaves and no step takes back, the loop leaves. -/
theorem triple_forM_keeps [Std.Refl step] {P : σ → Prop} (hP : ∀ t u, step s t → step t u → P t → P u)
    {f : β → m PUnit} {xs : List β} {x : β} (hx : x ∈ xs)
    (h : ∀ y ∈ xs, ∀ t, step s t → Triple step stop t (f y) fun _ _ => True)
    (hfx : ∀ t, step s t → Triple step stop t (f x) fun _ u => P u) :
    Triple step stop s (xs.forM f) fun _ t => P t := by
  induction xs generalizing s with
  | nil => cases hx
  | cons y ys ih =>
    have hlater {t u : σ} (ht : step s t) (hu : step t u) : step s u := Conduct.trans stop ht hu
    have hrest {t : σ} (ht : step s t) : Triple step stop t (ys.forM f) fun _ _ => True :=
      triple_forM_of (Conduct.rest stop ht) ys fun z hz u hu => h z (List.mem_cons_of_mem _ hz) u (hlater ht hu)
    rcases List.mem_cons.1 hx with rfl | hx
    · exact (hfx s (Std.Refl.refl s)).bind fun _ t ht hPt => (hrest ht).mono fun _ u hu _ => hP t u ht hu hPt
    · refine (h y List.mem_cons_self s (Std.Refl.refl s)).bind fun _ t ht _ => ?_
      exact ih (fun u v hu => hP u v (hlater ht hu)) hx
        (fun z hz u hu => h z (List.mem_cons_of_mem _ hz) u (hlater ht hu)) fun u hu => hfx u (hlater ht hu)

theorem triple_forM [Std.Refl step] {f : β → m PUnit} (xs : List β)
    (h : ∀ x ∈ xs, ∀ t, step s t → Triple step stop t (f x) fun _ _ => True) :
    Triple step stop s (xs.forM f) fun _ _ => True :=
  triple_forM_of (Std.Refl.refl s) xs h

omit [Conduct step stop]

theorem triple_optionForM_of {f : β → m PUnit} (hs : step s s) (x : Option β)
    (h : ∀ y, x = some y → Triple step stop s (f y) fun _ _ => True) :
    Triple step stop s (x.forM f) fun _ _ => True := by
  cases x with
  | none => exact triple_pure_of hs trivial
  | some y => exact h y rfl

theorem triple_optionForM [Std.Refl step] {f : β → m PUnit} (x : Option β)
    (h : ∀ y, x = some y → Triple step stop s (f y) fun _ _ => True) :
    Triple step stop s (x.forM f) fun _ _ => True :=
  triple_optionForM_of (Std.Refl.refl s) x h

end Rules

/-! ## Operations that fail without a state -/

section Failures

variable {ε σ α β : Type} {step : σ → σ → Prop} {stop : σ → ε → Prop} {s t : σ} {a : α} {x : StateT σ (Except ε) α}
  {y : Except ε α} {Q : α → σ → Prop} {R : β → σ → Prop}

theorem triple_fail {e : ε} (h : stop s e) : Triple step stop s (throw e : StateT σ (Except ε) α) Q := h

theorem triple_state {f : σ → StateT σ (Except ε) α} (h : Triple step stop s (f s) Q) :
    Triple step stop s (get >>= f) Q := h

/-- What only looks at the state may fail. -/
theorem triple_lift (hs : step s s) (h : ∀ a, y = .ok a → Q a s) :
    Triple step anyFault s (liftM y : StateT σ (Except ε) α) Q := by
  cases y with
  | error e => exact triple_fail trivial
  | ok a => exact triple_pure_of hs (h a rfl)

theorem triple_lift_bind {f : α → StateT σ (Except ε) β} (h : ∀ a, y = .ok a → Triple step anyFault s (f a) R) :
    Triple step anyFault s (liftM y >>= f) R := by
  cases y with
  | error e => exact triple_fail trivial
  | ok a => exact h a rfl

theorem Triple.run (h : Triple step stop s x Q) (hx : x.run s = .ok (a, t)) : step s t ∧ Q a t :=
  (triple_iff.1 h).1 a t hx

theorem Triple.congr_run {x' : StateT σ (Except ε) α} (h : Triple step stop s x' Q) (he : x.run s = x'.run s) :
    Triple step stop s x Q := by
  unfold Triple
  rw [show Outcomes.outcome x s = Outcomes.outcome x' s from he]
  exact h

theorem triple_of_run (h : ∀ a t, x.run s = .ok (a, t) → step s t ∧ Q a t) : Triple step anyFault s x Q :=
  triple_iff.2 ⟨h, fun _ _ => trivial⟩

end Failures

/-! ## Operations that come with a state when they stop -/

section Faults

variable {ε σ α β : Type} {step : σ → σ → Prop} {stop : σ → ε × σ → Prop} {s t : σ} {e : ε} {a : α}
  {x : EStateM ε σ α} {f : α → EStateM ε σ β} {Q Q' : α → σ → Prop} {R : β → σ → Prop}

theorem Triple.ok (h : Triple step stop s x Q) (hx : x s = .ok a t) : step s t ∧ Q a t :=
  (triple_iff.1 h).1 a t (congrArg ofResult hx)

theorem Triple.error (h : Triple step stop s x Q) (hx : x s = .error e t) : stop s (e, t) :=
  (triple_iff.1 h).2 (e, t) (congrArg ofResult hx)

theorem triple_of_eq (hok : ∀ a t, x s = .ok a t → step s t ∧ Q a t) (herror : ∀ e t, x s = .error e t → stop s (e, t)) :
    Triple step stop s x Q :=
  triple_iff.2 ⟨fun a t hx => hok a t (ofResult_inj hx), fun e hx => herror e.1 e.2 (ofResult_inj hx)⟩

theorem triple_of_ok (h : ∀ a t, x s = .ok a t → step s t ∧ Q a t) : Triple step anyFault s x Q :=
  triple_of_eq h fun _ _ _ => trivial

theorem Triple.congr {y : EStateM ε σ α} (h : Triple step stop s y Q) (he : x s = y s) : Triple step stop s x Q :=
  triple_of_eq (fun _ _ hx => h.ok (he.symm.trans hx)) fun _ _ hx => h.error (he.symm.trans hx)

theorem Triple.of_ok (h : Triple step stop s x Q) (hQ : ∀ a t, x s = .ok a t → Q' a t) : Triple step stop s x Q' :=
  triple_of_eq (fun a t hx => ⟨(h.ok hx).1, hQ a t hx⟩) fun _ _ hx => h.error hx

theorem triple_of_eq_ok (hx : x s = .ok a t) (hst : step s t) (h : Q a t) : Triple step stop s x Q := by
  refine triple_of_eq (fun b u hb => ?_) fun e u he => ?_
  · cases hx.symm.trans hb
    exact ⟨hst, h⟩
  · cases hx.symm.trans he

/-- Where no fault is allowed, there is a result. -/
theorem Triple.exists_ok (h : Triple step noFault s x Q) : ∃ a t, x s = .ok a t ∧ step s t ∧ Q a t := by
  cases hx : x s with
  | ok a t => exact ⟨a, t, rfl, h.ok hx⟩
  | error e t => exact (h.error hx).elim

theorem triple_throw (h : stop s (e, s)) : Triple step stop s (throw e : EStateM ε σ α) Q := h

theorem triple_throw_bind (h : stop s (e, s)) (f : α → EStateM ε σ β) : Triple step stop s (throw e >>= f) R := h

theorem triple_get {f : σ → EStateM ε σ α} (h : Triple step stop s (f s) Q) : Triple step stop s (get >>= f) Q := h

theorem triple_modify {g : σ → σ} (h : step s (g s)) :
    Triple step stop s (modify g : EStateM ε σ PUnit) fun _ _ => True := ⟨h, trivial⟩

theorem triple_modify_bind [Conduct step stop] {g : σ → σ} (h : step s (g s)) (hx : Triple step stop (g s) x Q) :
    Triple step stop s (do modify g; x) Q :=
  hx.after h rfl

end Faults

namespace Flow

variable {α β : Type} {step : Flow → Flow → Prop} {stop : Flow → EscapeError × Flow → Prop} {s t u : Flow}
  {Q : α → Flow → Prop}

section Bind

variable {m : FlowM α} {f : α → FlowM β}

theorem bind_of_ok {a : α} (h : m s = .ok a t) : (m >>= f) s = f a t := by
  change EStateM.bind m f s = _
  unfold EStateM.bind
  rw [h]

theorem bind_of_error {e : EscapeError} (h : m s = .error e t) : (m >>= f) s = .error e t := by
  change EStateM.bind m f s = _
  unfold EStateM.bind
  rw [h]

/-- Where two operations come to their end, the first one does, and the second one goes on from there. -/
theorem bind_eq_ok {b : β} (h : (m >>= f) s = .ok b u) : ∃ a t, m s = .ok a t ∧ f a t = .ok b u := by
  change EStateM.bind m f s = .ok b u at h
  unfold EStateM.bind at h
  split at h
  · exact ⟨_, _, ‹_›, h⟩
  · cases h

end Bind

theorem triple_getProgram {f : Program → FlowM α} (h : Triple step stop s (f s.program) Q) :
    Triple step stop s (getProgram >>= f) Q := h

theorem triple_resultsOf {n : NodeId} {f : List NodeId → FlowM α}
    (h : Triple step stop s (f (s.results.get n.index)) Q) : Triple step stop s (resultsOf n >>= f) Q := h

theorem triple_depthOf {n : NodeId} {f : Int → FlowM α} (h : Triple step stop s (f (s.info.depth n)) Q) :
    Triple step stop s (depthOf n >>= f) Q := h

/-- A node that is made and put where another one is. -/
theorem triple_placeAt {x : Node} {n : NodeId} {f : NodeId → FlowM α}
    (h : Triple step stop s (do let m ← addNode x; setDepth m (s.info.depth n); f m) Q) :
    Triple step stop s (do let m ← addNode x; setDepth m (← depthOf n); f m) Q :=
  h.congr rfl

end Flow

end EscapeAnalysis

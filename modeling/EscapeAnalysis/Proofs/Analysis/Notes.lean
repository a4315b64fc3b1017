import EscapeAnalysis.Analysis
import EscapeAnalysis.Proofs.Building.References
import EscapeAnalysis.Proofs.Reporting.Observers

/-!
# Writing notes

The notes of a function are written when its group is concluded. They change nothing but the notes of its inputs.

* `Flow.Noted s t` : the graphs differ at most in notes, states and what the observer kept;
* `Flow.Rewrites s t f y` : besides, of the functions only `f` differs, and is `y` now;
* `Flow.inputs_foldl_noteFunc` : the notes that a function of a group gets;
* `Flow.Writes s f e` : the event tells of a note that is written to `f`;
* `Flow.sees_foldl_noteFunc` : the notes of a group are all that an observer sees of it.
-/

namespace EscapeAnalysis

namespace Flow

/-! ## What notes are written -/

/-- Everything but notes, states and what the observer kept is the same. -/
structure Noted (s t : Flow) : Prop where
  nodes : t.program.nodes = s.program.nodes
  types : t.program.types = s.program.types
  info : ∃ states, t.info = { s.info with states }
  funcs : ∀ f, (s.program.func f).Renoted (t.program.func f)

theorem Noted.refl (s : Flow) : Noted s s := ⟨rfl, rfl, ⟨s.info.states, rfl⟩, fun _ => .refl _⟩

theorem Noted.trans {s t u : Flow} (h₁ : Noted s t) (h₂ : Noted t u) : Noted s u := by
  obtain ⟨_, hi₁⟩ := h₁.info
  obtain ⟨states, hi₂⟩ := h₂.info
  exact ⟨h₂.nodes.trans h₁.nodes, h₂.types.trans h₁.types, ⟨states, by rw [hi₂, hi₁]⟩,
    fun f => (h₁.funcs f).trans (h₂.funcs f)⟩

theorem Noted.word {s t : Flow} (h : Noted s t) (n : NodeId) : t.info.word n = s.info.word n := by
  obtain ⟨_, hi⟩ := h.info
  rw [hi]
  rfl

theorem Noted.hasPointers {s t : Flow} (h : Noted s t) (ty : Option Ty) :
    t.program.hasPointers ty = s.program.hasPointers ty := by
  unfold Program.hasPointers
  rw [h.types]

theorem Noted.noteFor? {s t : Flow} (h : Noted s t) (param : Param) : t.noteFor? param = s.noteFor? param := by
  simp only [Flow.noteFor?, h.hasPointers, h.word]

/-- The parameter with the note that `note?` gives it. -/
def renote (note? : Param → Option String) (param : Param) : Param :=
  match note? param with
  | some note => { param with note := some note }
  | none => param

theorem modify_append_length {α : Type} (xs ys : List α) (x : α) (f : α → α) :
    (xs ++ x :: ys).modify xs.length f = xs ++ f x :: ys := by
  induction xs with
  | nil => rfl
  | cons y xs ih =>
    rw [List.length_cons, List.cons_append, List.modify_succ_cons, ih]
    rfl

/-- Notes are written to the inputs of `f`, which becomes `y`. -/
structure Rewrites (s t : Flow) (f : FuncId) (y : Func) : Prop where
  noted : Noted s t
  other : ∀ h, h ≠ f → t.program.func h = s.program.func h
  self : t.program.func f = y

theorem Rewrites.trans {s t u : Flow} {f : FuncId} {y z : Func} (h₁ : Rewrites s t f y) (h₂ : Rewrites t u f z) :
    Rewrites s u f z :=
  ⟨h₁.noted.trans h₂.noted, fun h hh => (h₂.other h hh).trans (h₁.other h hh), h₂.self⟩

theorem rewrites_self (s : Flow) (f : FuncId) : Rewrites s s f (s.program.func f) := ⟨Noted.refl s, fun _ _ => rfl, rfl⟩

theorem rewrites_modifyFunc {s : Flow} {f : FuncId} (hf : f.index < s.program.funcs.size) {g : Func → Func}
    (hg : (s.program.func f).Renoted (g (s.program.func f))) (observer : Observer) :
    Rewrites s { s with program := s.program.modifyFunc f g, observer } f (g (s.program.func f)) := by
  refine ⟨⟨rfl, rfl, ⟨s.info.states, rfl⟩, fun k => Program.rel_modifyFunc Func.Renoted.refl k hg⟩, ?_, ?_⟩
  · intro h hh
    rw [Program.func_modifyFunc, if_neg fun e => hh e.1]
  · rw [Program.func_modifyFunc, if_pos ⟨rfl, hf⟩]

theorem rewrites_writeParam {s : Flow} {f : FuncId} (hf : f.index < s.program.funcs.size) {done rest : List Param}
    {param : Param} (h : (s.program.func f).params = done ++ param :: rest) (note : String) :
    Rewrites s (s.writeNote f param note (setParam f done.length)) f
      { s.program.func f with params := done ++ { param with note := some note } :: rest } := by
  have hparams : (s.program.func f).params.modify done.length (fun param => { param with note := some note }) =
      done ++ { param with note := some note } :: rest := by
    rw [h, modify_append_length]
  rw [← hparams]
  exact rewrites_modifyFunc hf (Func.renoted_modifyParam _ done.length note) _

theorem rewrites_writeRecv {s : Flow} {f : FuncId} (hf : f.index < s.program.funcs.size) {recv : Param}
    (h : (s.program.func f).recv = some recv) (note : String) :
    Rewrites s (s.writeNote f recv note (setRecv f)) f
      { s.program.func f with recv := some { recv with note := some note } } := by
  have hrecv : (s.program.func f).recv.map (fun param => { param with note := some note }) =
      some { recv with note := some note } := by
    rw [h]
    rfl
  rw [← hrecv]
  exact rewrites_modifyFunc hf (Func.renoted_mapRecv _ note) _

section Params

variable {f : FuncId} {note? : Flow → Param → Option String}
  (hnote : ∀ {s t : Flow}, Noted s t → ∀ param, note? t param = note? s param)

include hnote

/-- The parameters from the position after `done` on get their notes. -/
theorem rewrites_noteParams {s : Flow} (hf : f.index < s.program.funcs.size) (done rest : List Param)
    (hparams : (s.program.func f).params = done ++ rest) :
    Rewrites s (noteParams f note? done.length rest s) f
      { s.program.func f with params := done ++ rest.map (renote (note? s)) } := by
  induction rest generalizing s done with
  | nil =>
    have hself : { s.program.func f with params := done ++ [].map (renote (note? s)) } = s.program.func f := by
      rw [List.map_nil, ← hparams]
    rw [hself]
    exact rewrites_self s f
  | cons param rest ih =>
    unfold noteParams
    cases hn : note? s param with
    | none =>
      dsimp only
      have := ih hf (done ++ [param]) (by simp [hparams])
      rw [List.length_append, List.length_singleton] at this
      simpa [renote, hn] using this
    | some note =>
      dsimp only
      have hw := rewrites_writeParam hf hparams note
      have hf' : f.index < (s.writeNote f param note (setParam f done.length)).program.funcs.size := by
        simpa [writeNote, setParam, Program.modifyFunc] using hf
      have hrest := ih hf' (done ++ [{ param with note := some note }]) (by rw [hw.self]; simp)
      rw [List.length_append, List.length_singleton, hw.self] at hrest
      have hmap : rest.map (renote (note? (s.writeNote f param note (setParam f done.length)))) =
          rest.map (renote (note? s)) := by
        rw [funext (hnote hw.noted)]
      rw [hmap] at hrest
      have := hw.trans hrest
      simpa [renote, hn] using this

end Params

/-! ## The notes of a function -/

theorem lt_size_of_hasBody {p : Program} {f : FuncId} (h : (p.func f).hasBody = true) : f.index < p.funcs.size := by
  refine Nat.lt_of_not_le fun hf => ?_
  rw [p.func_of_size_le hf] at h
  cases h

theorem rewrites_setState (s : Flow) (f : FuncId) (state : FuncState) :
    Rewrites s { s with info := s.info.setState f state } f (s.program.func f) :=
  ⟨⟨rfl, rfl, ⟨(f, state) :: s.info.states, rfl⟩, fun _ => .refl _⟩, fun _ _ => rfl, rfl⟩

theorem rewrites_noteRecv {s : Flow} {f : FuncId} (hf : f.index < s.program.funcs.size) :
    Rewrites s (noteRecv f (s.program.func f).recv s) f
      { s.program.func f with recv := (s.program.func f).recv.map (renote s.noteFor?) } := by
  have hself {recv : Option Param} (h : (s.program.func f).recv = recv) :
      Rewrites s s f { s.program.func f with recv } := by
    rw [← h]
    exact rewrites_self s f
  unfold noteRecv
  cases hrecv : (s.program.func f).recv with
  | none => exact hself hrecv
  | some recv =>
    cases hn : s.noteFor? recv with
    | none => simpa [renote, hn] using hself hrecv
    | some note => simpa [renote, hn] using rewrites_writeRecv hf hrecv note

theorem rewrites_noteFunc {s : Flow} {f : FuncId} (hbody : (s.program.func f).hasBody = true) :
    Rewrites s (s.noteFunc f) f
      { s.program.func f with
        recv := (s.program.func f).recv.map (renote s.noteFor?)
        params := (s.program.func f).params.map (renote s.noteFor?) } := by
  have h₀ := rewrites_setState s f .noted
  have ht := h₀.trans (rewrites_noteRecv (lt_size_of_hasBody hbody))
  have hbody' : ((noteRecv f (s.program.func f).recv
      { s with info := s.info.setState f .noted }).program.func f).hasBody = true := by
    rw [ht.self]
    exact hbody
  have hp := ht.trans (rewrites_noteParams (fun h => h.noteFor?) (lt_size_of_hasBody hbody') []
    (s.program.func f).params (by rw [ht.self]; rfl))
  rw [funext ht.noted.noteFor?, ht.self] at hp
  unfold noteFunc
  dsimp only
  rw [if_pos hbody]
  exact hp

/-- The note of a parameter of a function that promises not to let it escape. -/
def promise? (s : Flow) (param : Param) : Option String :=
  if s.program.hasPointers param.ty then (Word.plain .none).note? else none

theorem Noted.promise? {s t : Flow} (h : Noted s t) (param : Param) : t.promise? param = s.promise? param := by
  simp only [Flow.promise?, h.hasPointers]

/-- A function without a body gets the notes of its promise, or none. -/
theorem rewrites_promise {s : Flow} {f : FuncId} (hbody : (s.program.func f).hasBody = false) :
    Rewrites s (s.noteFunc f) f
      { s.program.func f with
        params := if (s.program.func f).noEscape then (s.program.func f).params.map (renote s.promise?)
          else (s.program.func f).params } := by
  have h₀ := rewrites_setState s f .noted
  unfold noteFunc
  dsimp only
  rw [if_neg (by simp [hbody])]
  split
  · rename_i hpromise
    have hf : f.index < s.program.funcs.size := by
      refine Nat.lt_of_not_le fun hf => ?_
      rw [s.program.func_of_size_le hf] at hpromise
      cases hpromise
    exact h₀.trans (rewrites_noteParams (s := { s with info := s.info.setState f .noted }) Noted.promise? hf []
      (s.program.func f).params rfl)
  · exact h₀

theorem exists_rewrites_noteFunc (s : Flow) (f : FuncId) : ∃ y, Rewrites s (s.noteFunc f) f y := by
  cases hbody : (s.program.func f).hasBody with
  | true => exact ⟨_, rewrites_noteFunc hbody⟩
  | false => exact ⟨_, rewrites_promise hbody⟩

/-! ## The notes of a group -/

theorem info_noteParams (f : FuncId) (note? : Flow → Param → Option String) (i : Nat) (params : List Param)
    (s : Flow) : (noteParams f note? i params s).info = s.info := by
  induction params generalizing i s with
  | nil => rfl
  | cons param params ih =>
    unfold noteParams
    rw [ih]
    split <;> rfl

theorem info_noteFunc (s : Flow) (f : FuncId) : (s.noteFunc f).info = s.info.setState f .noted := by
  unfold noteFunc
  dsimp only
  split
  · rw [info_noteParams]
    unfold noteRecv
    repeat' split
    all_goals rfl
  · split
    · rw [info_noteParams]
    · rfl

theorem info_foldl_noteFunc (s : Flow) (funcs : List FuncId) :
    (funcs.foldl noteFunc s).info = funcs.foldl (fun info f => info.setState f .noted) s.info := by
  induction funcs generalizing s with
  | nil => rfl
  | cons f funcs ih => rw [List.foldl_cons, ih, info_noteFunc, List.foldl_cons]

theorem noted_foldl_noteFunc (s : Flow) (funcs : List FuncId) : Noted s (funcs.foldl noteFunc s) := by
  induction funcs generalizing s with
  | nil => exact Noted.refl s
  | cons f funcs ih =>
    obtain ⟨_, h⟩ := exists_rewrites_noteFunc s f
    exact h.noted.trans (ih _)

theorem func_foldl_noteFunc_of_not_mem (s : Flow) {funcs : List FuncId} {f : FuncId} (hf : f ∉ funcs) :
    (funcs.foldl noteFunc s).program.func f = s.program.func f := by
  induction funcs generalizing s with
  | nil => rfl
  | cons h funcs ih =>
    rw [List.mem_cons, not_or] at hf
    obtain ⟨_, hw⟩ := exists_rewrites_noteFunc s h
    rw [List.foldl_cons, ih _ hf.2, hw.other f hf.1]

/-- A function of the group that has a body gets the notes of its inputs. -/
theorem inputs_foldl_noteFunc (s : Flow) {funcs : List FuncId} (hnodup : funcs.Nodup) {f : FuncId} (hf : f ∈ funcs)
    (hbody : (s.program.func f).hasBody = true) :
    ((funcs.foldl noteFunc s).program.func f).inputs = (s.program.func f).inputs.map (renote s.noteFor?) := by
  induction funcs generalizing s with
  | nil => simp at hf
  | cons h funcs ih =>
    rw [List.nodup_cons] at hnodup
    rw [List.foldl_cons]
    rcases List.mem_cons.1 hf with rfl | hf
    · rw [func_foldl_noteFunc_of_not_mem _ hnodup.1, (rewrites_noteFunc hbody).self]
      simp [Func.inputs, Option.toList_map]
    · have hne : f ≠ h := fun e => hnodup.1 (e ▸ hf)
      obtain ⟨_, hw⟩ := exists_rewrites_noteFunc s h
      rw [ih _ hnodup.2 hf (by rw [hw.other f hne]; exact hbody), hw.other f hne, funext hw.noted.noteFor?]

/-! ## What an observer sees -/

/-- The event tells of a note that is written to an input of `f`: it is the note of the word of the input, or the one
of a promise. -/
def Writes (s : Flow) (f : FuncId) (e : Event) : Prop :=
  ∃ name w note, e = .note f name note ∧ name ∈ (s.program.func f).inputs.map (·.name) ∧ Word.note? w = some note ∧
    (w = .plain .none ∨ ∃ n, name = some n ∧ w = s.info.word n)

theorem Noted.writes {s t : Flow} (h : Noted s t) {f : FuncId} {e : Event} (he : t.Writes f e) : s.Writes f e := by
  obtain ⟨name, w, note, he, hname, hnote, hw⟩ := he
  rw [(h.funcs f).names] at hname
  refine ⟨name, w, note, he, hname, hnote, hw.imp_right ?_⟩
  rintro ⟨n, hn, rfl⟩
  exact ⟨n, hn, h.word n⟩

theorem noted_writeParam (s : Flow) (f : FuncId) (param : Param) (note : String) (i : Nat) :
    Noted s (s.writeNote f param note (setParam f i)) :=
  ⟨rfl, rfl, ⟨s.info.states, rfl⟩, fun k => Program.rel_modifyFunc Func.Renoted.refl k (Func.renoted_modifyParam _ i note)⟩

theorem noted_writeRecv (s : Flow) (f : FuncId) (param : Param) (note : String) :
    Noted s (s.writeNote f param note (setRecv f)) :=
  ⟨rfl, rfl, ⟨s.info.states, rfl⟩, fun k => Program.rel_modifyFunc Func.Renoted.refl k (Func.renoted_mapRecv _ note)⟩

theorem sees_noteParams {f : FuncId} {note? : Flow → Param → Option String}
    (hnote : ∀ {s t : Flow}, Noted s t → ∀ param, note? t param = note? s param) (s : Flow) (i : Nat)
    (params : List Param) :
    s.observer.Sees (fun e => ∃ param ∈ params, ∃ note, note? s param = some note ∧ e = .note f param.name note)
      (noteParams f note? i params s).observer := by
  induction params generalizing s i with
  | nil => exact .refl _ _
  | cons param params ih =>
    unfold noteParams
    cases hn : note? s param with
    | none =>
      refine (ih s (i + 1)).mono ?_
      rintro e ⟨other, hother, he⟩
      exact ⟨other, List.mem_cons_of_mem _ hother, he⟩
    | some note =>
      dsimp only
      have hw := noted_writeParam s f param note i
      have hone : s.observer.Sees (fun e => ∃ other ∈ param :: params, ∃ note, note? s other = some note ∧
          e = .note f other.name note) (s.writeNote f param note (setParam f i)).observer :=
        s.observer.sees_watch _ ⟨param, List.mem_cons_self, note, hn, rfl⟩
      refine hone.trans ((ih _ (i + 1)).mono ?_)
      rintro e ⟨other, hother, written, hwritten, he⟩
      exact ⟨other, List.mem_cons_of_mem _ hother, written, by rw [← hnote hw, hwritten], he⟩

/-- The note for an input is the note of its word. -/
theorem writes_of_noteFor? {s : Flow} {f : FuncId} {param : Param} (hparam : param ∈ (s.program.func f).inputs)
    {note : String} (h : s.noteFor? param = some note) : s.Writes f (.note f param.name note) := by
  unfold noteFor? at h
  split at h
  · rename_i n hn
    split at h
    · exact ⟨param.name, s.info.word n, note, rfl, List.mem_map_of_mem hparam, h, Or.inr ⟨n, hn, rfl⟩⟩
    · cases h
  · cases h

theorem writes_of_promise? {s : Flow} {f : FuncId} {param : Param} (hparam : param ∈ (s.program.func f).inputs)
    {note : String} (h : s.promise? param = some note) : s.Writes f (.note f param.name note) := by
  unfold promise? at h
  split at h
  · exact ⟨param.name, _, note, rfl, List.mem_map_of_mem hparam, h, Or.inl rfl⟩
  · cases h

theorem sees_noteRecv (s : Flow) (f : FuncId) :
    Noted s (noteRecv f (s.program.func f).recv s) ∧
      s.observer.Sees (s.Writes f) (noteRecv f (s.program.func f).recv s).observer := by
  unfold noteRecv
  split
  · rename_i recv hrecv
    split
    · rename_i note hnote
      refine ⟨noted_writeRecv s f recv note, s.observer.sees_watch _ (writes_of_noteFor? ?_ hnote)⟩
      simp [Func.inputs, hrecv]
    · exact ⟨Noted.refl s, .refl _ _⟩
  · exact ⟨Noted.refl s, .refl _ _⟩

theorem sees_noteFunc (s : Flow) (f : FuncId) : s.observer.Sees (s.Writes f) (s.noteFunc f).observer := by
  have hparams {param : Param} (h : param ∈ (s.program.func f).params) : param ∈ (s.program.func f).inputs :=
    List.mem_append_right _ h
  have h₀ := (rewrites_setState s f .noted).noted
  unfold noteFunc
  dsimp only
  split
  · obtain ⟨hnoted, hrecv⟩ := sees_noteRecv { s with info := s.info.setState f .noted } f
    refine (hrecv.mono fun _ he => h₀.writes he).trans ((sees_noteParams (fun h => h.noteFor?) _ 0 _).mono ?_)
    rintro e ⟨param, hparam, note, hnote, rfl⟩
    rw [(h₀.trans hnoted).noteFor?] at hnote
    exact writes_of_noteFor? (hparams hparam) hnote
  · split
    · refine (sees_noteParams Noted.promise? { s with info := s.info.setState f .noted } 0 (s.program.func f).params).mono ?_
      rintro e ⟨param, hparam, note, hnote, rfl⟩
      exact writes_of_promise? (hparams hparam) hnote
    · exact .refl _ _

theorem sees_foldl_noteFunc (s : Flow) (funcs : List FuncId) :
    s.observer.Sees (fun e => ∃ f ∈ funcs, s.Writes f e) (funcs.foldl noteFunc s).observer := by
  induction funcs generalizing s with
  | nil => exact .refl _ _
  | cons f funcs ih =>
    obtain ⟨_, hw⟩ := exists_rewrites_noteFunc s f
    refine ((sees_noteFunc s f).mono fun e he => ⟨f, List.mem_cons_self, he⟩).trans ((ih _).mono ?_)
    rintro e ⟨k, hk, he⟩
    exact ⟨k, List.mem_cons_of_mem _ hk, hw.noted.writes he⟩

/-- A note that is given to a parameter is written. -/
theorem mem_map_renote {s : Flow} {f : FuncId} {note? : Param → Option String} {params : List Param}
    (h : ∀ param ∈ params, ∀ note, note? param = some note → s.Writes f (.note f param.name note)) {param : Param}
    (hparam : param ∈ params.map (renote note?)) :
    param ∈ params ∨ ∃ note, param.note = some note ∧ s.Writes f (.note f param.name note) := by
  obtain ⟨old, hold, rfl⟩ := List.mem_map.1 hparam
  unfold renote
  cases hn : note? old with
  | none => exact Or.inl hold
  | some note => exact Or.inr ⟨note, rfl, h old hold note hn⟩

/-- An input has the note it had, or one that is written. -/
theorem mem_inputs_noteFunc {s : Flow} {f : FuncId} {param : Param}
    (hparam : param ∈ ((s.noteFunc f).program.func f).inputs) :
    param ∈ (s.program.func f).inputs ∨ ∃ note, param.note = some note ∧ s.Writes f (.note f param.name note) := by
  cases hbody : (s.program.func f).hasBody with
  | true =>
    rw [(rewrites_noteFunc hbody).self] at hparam
    refine mem_map_renote (fun other hother note (hnote : s.noteFor? other = some note) => writes_of_noteFor? hother hnote) ?_
    simpa [Func.inputs, Option.toList_map] using hparam
  | false =>
    rw [(rewrites_promise hbody).self] at hparam
    split at hparam
    · rcases List.mem_append.1 hparam with hrecv | hparam
      · exact Or.inl (List.mem_append_left _ hrecv)
      · refine (mem_map_renote (fun other hother note hnote => ?_) hparam).imp_left (List.mem_append_right _)
        exact writes_of_promise? (List.mem_append_right _ hother) hnote
    · exact Or.inl hparam

theorem mem_inputs_foldl_noteFunc {s : Flow} {funcs : List FuncId} {f : FuncId} {param : Param}
    (hparam : param ∈ ((funcs.foldl noteFunc s).program.func f).inputs) :
    param ∈ (s.program.func f).inputs ∨
      f ∈ funcs ∧ ∃ note, param.note = some note ∧ s.Writes f (.note f param.name note) := by
  induction funcs generalizing s with
  | nil => exact Or.inl hparam
  | cons k funcs ih =>
    obtain ⟨_, hw⟩ := exists_rewrites_noteFunc s k
    rcases ih hparam with hparam | ⟨hf, note, hnote, hwrites⟩
    · by_cases hk : f = k
      · subst hk
        exact (mem_inputs_noteFunc hparam).imp_right fun h => ⟨List.mem_cons_self, h⟩
      · rw [hw.other f hk] at hparam
        exact Or.inl hparam
    · exact Or.inr ⟨List.mem_cons_of_mem _ hf, note, hnote, hw.noted.writes hwrites⟩

theorem Writes.not_group {s : Flow} {f : FuncId} {e : Event} (h : s.Writes f e) : ¬ e.IsGroup := by
  obtain ⟨_, _, _, rfl, _⟩ := h
  rintro ⟨_, h⟩
  cases h

end Flow

end EscapeAnalysis

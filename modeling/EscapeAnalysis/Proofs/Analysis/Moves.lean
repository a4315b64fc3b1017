import EscapeAnalysis.Proofs.Analysis.Frames
import EscapeAnalysis.Proofs.Flood.Moves
import EscapeAnalysis.Proofs.Groups.Uses
import EscapeAnalysis.Proofs.Recording.Addresses

/-!
# Which variables an analysis moves

If the bodies of a program share nothing but names, and closures capture no inputs of functions that are analyzed after
them, then a group writes to no address and no input of an earlier group. So what a group finds is not undone later: at
the end, a variable is moved exactly if one of its addresses is on the heap.

* `Program.Separate` : bodies share only names and mention only names of their own, and closures are with their functions;
* `Program.CapturesEarlier` : nothing captured stands for an input of a later group;
* `Program.Reaches p group after n` : the nodes of the program that the analysis of a group can come to;
* `Info.Moves p rest q i` : what holds of moved variables while the groups `rest` are still to come;
* `moves_recorded`, `moves_foldl_flood` : the two halves of a group;
* `moves_groups` : one group after the other.
-/

namespace EscapeAnalysis

namespace Program

/-! ## Programs whose bodies share only names -/

/-- A node that is no name is in one body, as it is if all nodes are used once; a name is one of the function, or
belongs to no function; and a closure is in the group of the function around it. -/
structure Separate (p : Program) : Prop where
  apart : ∀ {f g : FuncId} {n : NodeId}, p.Below f n → p.Below g n → (p.node n).op ≠ .name → f = g
  names : ∀ f n, p.Below f n → (p.node n).op = .name → n ∈ (p.func f).decls ∨ n ∈ (p.func f).captures ∨
    (p.node n).cls = .global ∨ (p.node n).cls = .func ∨ (p.node n).isBlank = true ∧ (p.node n).cls = .none
  grouped : ∀ n f, (p.node n).op = .closure → (p.node n).func = some f →
    ∃ G ∈ p.groups, f ∈ G.funcs ∧ ∀ o, (p.func f).outer = some o → o ∈ G.funcs

/-- The node is an input of a function of the groups. -/
def InputOf (p : Program) (groups : List Group) (n : NodeId) : Prop :=
  (p.node n).cls = .param ∧ ∃ G ∈ groups, ∃ f ∈ G.funcs, n ∈ (p.func f).decls

/-- The node is a variable or a captured name, and stands for no input of the groups `later`. -/
structure Stands (p : Program) (later : List Group) (n : NodeId) : Prop where
  name : ∃ f, n ∈ (p.func f).decls ∨ n ∈ (p.func f).captures
  base : ∀ x, p.BaseOf n x → ¬ p.InputOf later x

/-- Captured names stand for variables and captured names, and those of a function for no input of a later group. -/
structure CapturesEarlier (p : Program) : Prop where
  named : ∀ f, ∀ name ∈ (p.func f).captures, ∀ var, (p.node name).origin = some var →
    ∃ g, var ∈ (p.func g).decls ∨ var ∈ (p.func g).captures
  earlier : ∀ before group after, p.groups = before ++ group :: after → ∀ f ∈ group.funcs,
    ∀ name ∈ (p.func f).captures, ∀ x, p.BaseOf name x → ¬ p.InputOf after x

variable {p : Program} {before after : List Group} {group : Group} {n m : NodeId}

theorem InputOf.mono {groups groups' : List Group} (h : p.InputOf groups n) (hsub : groups ⊆ groups') :
    p.InputOf groups' n := by
  obtain ⟨hcls, G, hG, hn⟩ := h
  exact ⟨hcls, G, hsub hG, hn⟩

theorem Stands.mono {groups groups' : List Group} (h : p.Stands groups n) (hsub : groups' ⊆ groups) :
    p.Stands groups' n :=
  ⟨h.name, fun x hx hinput => h.base x hx (hinput.mono hsub)⟩

section Names

variable (hp : p.WellFormed) (htidy : p.Tidy)

include htidy in
theorem isCaptured_of_mem_captures {f : FuncId} (hn : n ∈ (p.func f).captures) :
    (p.node n).op = .name ∧ (p.node n).cls = .captured := by
  exact Node.isNameOf_iff.1 (htidy.captures f n hn).1

include htidy in
theorem Stands.children {groups : List Group} (h : p.Stands groups n) : (p.node n).children = [] := by
  obtain ⟨f, hn | hn⟩ := h.name
  · have hrefs := (htidy.decls f n hn).2
    rw [Node.refs, List.append_eq_nil_iff] at hrefs
    exact hrefs.1
  · exact (htidy.captures f n hn).2.2

include htidy in
/-- What a captured name stands for stands for no more than the name. -/
theorem Stands.origin (hcaptures : p.CapturesEarlier) {groups : List Group} (h : p.Stands groups n)
    (hm : (p.node n).origin = some m) : p.Stands groups m := by
  have hname := (htidy.placed n).origin (by simp [hm])
  obtain ⟨f, hf⟩ := (htidy.placed n).captured hname
  exact ⟨hcaptures.named f n hf m hm, fun x hx => h.base x (.captured hname hm hx)⟩

theorem CapturesEarlier.stands (hcaptures : p.CapturesEarlier) (hgroups : p.groups = before ++ group :: after)
    {f : FuncId} (hf : f ∈ group.funcs) (hn : n ∈ (p.func f).captures) : p.Stands after n :=
  ⟨⟨f, Or.inr hn⟩, hcaptures.earlier before group after hgroups f hf n hn⟩

include hp

theorem Stands.lt_size {groups : List Group} (h : p.Stands groups n) : n.index < p.nodes.size := by
  obtain ⟨f, hn | hn⟩ := h.name
  · exact hp.refs n (Or.inr ⟨f, Func.mem_refs_decls hn⟩)
  · exact hp.refs n (Or.inr ⟨f, Func.mem_refs_captures hn⟩)

/-- The functions of a group declare no inputs of later groups. -/
theorem not_inputOf_of_mem_decls (hgroups : p.groups = before ++ group :: after) {f : FuncId} (hf : f ∈ group.funcs)
    (hn : n ∈ (p.func f).decls) : ¬ p.InputOf after n := by
  rintro ⟨_, G, hG, g, hg, hn'⟩
  have he : f = g := Option.some.inj ((hp.decls f n hn).2.symm.trans (hp.decls g n hn').2)
  exact ((nodup_groups hgroups).2 f hf).2 G hG (he ▸ hg)

include htidy

theorem Stands.op {groups : List Group} (h : p.Stands groups n) : (p.node n).op = .name := by
  obtain ⟨f, hn | hn⟩ := h.name
  · exact (hp.decls f n hn).1
  · exact (isCaptured_of_mem_captures htidy hn).1

/-- It is enough that functions capture from functions of their groups. -/
theorem capturesEarlier_of_group (h : ∀ f, ∀ name ∈ (p.func f).captures, ∀ var, (p.node name).origin = some var →
    ∃ G ∈ p.groups, f ∈ G.funcs ∧ ∃ o ∈ G.funcs, var ∈ (p.func o).decls ∨ var ∈ (p.func o).captures) :
    p.CapturesEarlier := by
  refine ⟨fun f name hname var hvar => ?_, fun before group after hgroups f hf name hname x hx => ?_⟩
  · obtain ⟨_, _, _, o, _, ho⟩ := h f name hname var hvar
    exact ⟨o, ho⟩
  have hmem : group ∈ p.groups := by simp [hgroups]
  have hstep {f : FuncId} (hf : f ∈ group.funcs) {name var : NodeId} (hname : name ∈ (p.func f).captures)
      (hvar : (p.node name).origin = some var) :
      ∃ o ∈ group.funcs, var ∈ (p.func o).decls ∨ var ∈ (p.func o).captures := by
    obtain ⟨G, hG, hfG, ho⟩ := h f name hname var hvar
    exact eq_of_mem_groups hG hmem hfG hf ▸ ho
  have hbase {n x : NodeId} (hx : p.BaseOf n x)
      (hn : ∃ o ∈ group.funcs, n ∈ (p.func o).decls ∨ n ∈ (p.func o).captures) :
      ∃ o ∈ group.funcs, x ∈ (p.func o).decls := by
    induction hx with
    | self hop hcls =>
      obtain ⟨o, ho, hn | hn⟩ := hn
      · exact ⟨o, ho, hn⟩
      · rw [(isCaptured_of_mem_captures htidy hn).2] at hcls
        cases hcls
    | captured _ hm _ ih =>
      obtain ⟨o, ho, hn | hn⟩ := hn
      · exact absurd (Node.mem_refs_origin hm) (by simp [(htidy.decls o _ hn).2])
      · exact ih (hstep ho hn hm)
    | part hop _ _ _ _ =>
      obtain ⟨o, _, hn | hn⟩ := hn
      · rw [(hp.decls o _ hn).1] at hop
        cases hop
      · rw [(isCaptured_of_mem_captures htidy hn).1] at hop
        cases hop
  obtain ⟨o, ho, hdecl⟩ := hbase hx ⟨f, hf, Or.inr hname⟩
  exact not_inputOf_of_mem_decls hp hgroups ho hdecl

end Names

namespace Separate

variable (hsep : p.Separate)
include hsep

/-- A node of the group that is no name is in no later group. -/
theorem not_belowAny (hgroups : p.groups = before ++ group :: after) (hn : p.BelowAny group.funcs n)
    (hop : (p.node n).op ≠ .name) : ∀ G ∈ after, ¬ p.BelowAny G.funcs n := by
  rintro G hG ⟨g, hg, hn'⟩
  obtain ⟨f, hf, hn⟩ := hn
  exact ((nodup_groups hgroups).2 f hf).2 G hG (hsep.apart hn hn' hop ▸ hg)

variable (htidy : p.Tidy) {f : FuncId} (hn : p.Below f n)
include htidy hn

/-- A body mentions the captured names of its own function only. -/
theorem mem_captures (hm : (p.node n).origin = some m) : n ∈ (p.func f).captures := by
  have hname := (htidy.placed n).origin (by simp [hm])
  rw [Node.isNameOf_iff] at hname
  rcases hsep.names f n hn hname.1 with h | h | h | h | ⟨_, h⟩
  · exact absurd (Node.mem_refs_origin hm) (by simp [(htidy.decls f n h).2])
  · exact h
  all_goals
    rw [hname.2] at h
    cases h

/-- A variable in a body is one of its function. -/
theorem mem_decls (hop : (p.node n).op = .name) (hcls : (p.node n).cls.isVariable = true) :
    n ∈ (p.func f).decls := by
  rcases hsep.names f n hn hop with h | h | h | h | ⟨_, h⟩
  · exact h
  · rw [(isCaptured_of_mem_captures htidy h).2] at hcls
    cases hcls
  all_goals
    rw [h] at hcls
    cases hcls

end Separate

end Program

/-! ## The area of a group -/

/-- What the analysis of a group comes to: nodes below its bodies, and names that stand for no input of a later group. -/
def Program.Reaches (p : Program) (group : Group) (after : List Group) (n : NodeId) : Prop :=
  p.BelowAny group.funcs n ∨ p.Stands after n

/-- The area of a group: what it reaches, and nodes that were not there before it. -/
def Run.reached (p : Program) (group : Group) (after : List Group) (run : Run) : Area where
  node n := run.program.nodes.size < n.index ∨ p.Reaches group after n
  func f := f ∈ group.funcs
  walk := p.BelowAny group.funcs
  stand _ := True
  closed := True

/-- Only calls that are not below bodies of the groups `rest` have got a slice of `...` arguments. -/
def Run.KeepsRight (p : Program) (rest : List Group) (run : Run) : Prop :=
  ∀ n : NodeId, n.index < p.nodes.size → (run.program.node n).right ≠ (p.node n).right →
    (p.node n).op.isCall = true ∧ ∀ G ∈ rest, ¬ p.BelowAny G.funcs n

/-- A group gives slices to calls below its own bodies, which are in no later group. -/
theorem Run.KeepsRight.spares {p : Program} {after : List Group} {group : Group} {run run' : Run} {T : NodeId → Prop}
    (h : run.KeepsRight p (group :: after)) (hspares : run.Spares T (p.BelowAny group.funcs) group.funcs run')
    (hnodes : p.Extends run.program)
    (hnot : ∀ n, p.BelowAny group.funcs n → (p.node n).op ≠ .name → ∀ G ∈ after, ¬ p.BelowAny G.funcs n) :
    run'.KeepsRight p after := by
  intro n hn hne
  by_cases hold : (run.program.node n).right = (p.node n).right
  · rw [← hold] at hne
    obtain ⟨hin, hcall⟩ := hspares.right n (Nat.lt_of_lt_of_le hn hnodes.size_le) hne
    rw [(hnodes.node n hn).op] at hcall
    refine ⟨hcall, hnot n hin fun hop => ?_⟩
    rw [hop] at hcall
    cases hcall
  · obtain ⟨hcall, hbelow⟩ := h n hn hold
    exact ⟨hcall, fun G hG => hbelow G (List.mem_cons_of_mem _ hG)⟩

section Area

variable {p : Program} {before after : List Group} {group : Group} {run : Run} {n m : NodeId}
  (hp : p.WellFormed) (htidy : p.Tidy) (hsep : p.Separate) (hcaptures : p.CapturesEarlier)
  (hgroups : p.groups = before ++ group :: after)

include hp in
theorem Program.Reaches.lt_size (h : p.Reaches group after n) : n.index < p.nodes.size := by
  rcases h with ⟨_, _, h⟩ | h
  · exact hp.refs.below h
  · exact h.lt_size hp

include hp htidy in
/-- What is reached and no name is below a body. -/
theorem Program.Reaches.below (h : p.Reaches group after n) (hop : (p.node n).op ≠ .name) :
    p.BelowAny group.funcs n :=
  h.resolve_right fun h => hop (h.op hp htidy)

include hp htidy hsep hgroups in
theorem Program.Reaches.not_inputOf (h : p.Reaches group after n) (hop : (p.node n).op = .name)
    (hcls : (p.node n).cls.isVariable = true) : ¬ p.InputOf after n := by
  rcases h with ⟨f, hf, h⟩ | h
  · exact Program.not_inputOf_of_mem_decls hp hgroups hf (hsep.mem_decls htidy h hop hcls)
  · exact h.base n (.self hop hcls)

include hp htidy hsep hcaptures hgroups

/-- The parts of what is reached, and what it stands for, are reached. -/
theorem Program.Reaches.refs (hright : run.KeepsRight p (group :: after)) (hrun : run.Follows p before)
    (h : p.Reaches group after n) (hm : m ∈ (run.program.node n).refs) : p.Reaches group after m := by
  have hlt := h.lt_size hp
  have hr : (run.program.node n).right = (p.node n).right := by
    by_contra hne
    obtain ⟨hcall, hbelow⟩ := hright n hlt hne
    refine hbelow group List.mem_cons_self (h.below hp htidy fun hop => ?_)
    rw [hop] at hcall
    cases hcall
  obtain ⟨right, noEscape, he⟩ := hrun.nodes.node n hlt
  rw [he] at hm hr
  simp only at hr
  simp only [Node.refs, Node.children, hr] at hm
  rcases List.mem_append.1 hm with hm | hm
  · rcases h with ⟨f, hf, h⟩ | h
    · exact Or.inl ⟨f, hf, h.part hm⟩
    · rw [← Node.children, h.children htidy] at hm
      cases hm
  · have hm := Option.mem_toList.1 hm
    have hstands : p.Stands after n := by
      rcases h with ⟨f, hf, h⟩ | h
      · exact hcaptures.stands hgroups hf (hsep.mem_captures htidy h hm)
      · exact h
    exact Or.inr (hstands.origin htidy hcaptures hm)

/-- A closure of the group is recorded with the group or with an earlier one, and so is what it captures. -/
theorem Program.Reaches.captured {name var : NodeId} {f : FuncId} (h : p.Reaches group after n)
    (hop : (p.node n).op = .closure) (hf : (p.node n).func = some f) (hname : name ∈ (p.func f).captures)
    (hvar : (p.node name).origin = some var) : p.Reaches group after var := by
  obtain ⟨g, hg, hbelow⟩ := h.below hp htidy (by simp [hop])
  have hmem : group ∈ p.groups := by simp [hgroups]
  obtain ⟨H, hH, hfH, _⟩ := hsep.grouped n f hop hf
  have htarget : p.target n = some f := by
    unfold Program.target
    rw [hop]
    exact hf
  have hcalls := Program.calls_of_target hp.refs (Program.mem_decls_of_mem_groups hmem hg) hbelow htarget
    (Program.mem_decls_of_mem_groups hH hfH)
  refine Or.inr (Program.Stands.origin htidy hcaptures ?_ hvar)
  rcases Program.grouped_of_calls hgroups hg hcalls with hc | ⟨G, hG, hc⟩
  · exact hcaptures.stands hgroups hc hname
  · obtain ⟨pre, post, rfl⟩ := List.append_of_mem hG
    have hsplit : p.groups = pre ++ G :: (post ++ group :: after) := by simp [hgroups]
    exact (hcaptures.stands hsplit hc hname).mono fun K hK => by simp [hK]

omit hsep in
theorem Program.reaches_of_mem_refs {f : FuncId} (hf : f ∈ group.funcs) (hn : n ∈ (p.func f).refs) :
    p.Reaches group after n := by
  obtain ⟨g, hg, h | h | h⟩ := Program.owns_of_mem_refs hp htidy hf hn
  · exact Or.inl ⟨g, hg, h⟩
  · refine Or.inr ⟨⟨g, Or.inl h⟩, fun x hx => ?_⟩
    rw [← hx.eq_of_isVariable (hp.decls g n h).1 (htidy.decls g n h).1]
    exact not_inputOf_of_mem_decls hp hgroups hg h
  · exact Or.inr (hcaptures.stands hgroups hg h)

theorem Flow.refs_start_reached (hright : run.KeepsRight p (group :: after)) (hrun : run.Follows p before) :
    (start run group).Refs (run.reached p group after) := by
  -- A node of the area that refers to something was there before.
  have hold {n : NodeId} (hn : (run.reached p group after).node n)
      (hx : (run.program.node n).refs ≠ [] ∨ (run.program.node n).op ≠ .block) : p.Reaches group after n := by
    refine hn.resolve_left fun hlt => ?_
    rw [run.program.node_of_size_le (Nat.le_of_lt hlt)] at hx
    exact hx.elim (fun h => h rfl) fun h => h rfl
  refine refs_start (fun n hn => ⟨Or.inl hn, trivial⟩) (fun _ => hrun.closed) (fun n hn m hm => Or.inr ?_)
    (fun f hf m hm => Or.inr ?_) (fun n hn hop f hf name hname var hvar => Or.inr ?_) (fun _ _ _ _ _ _ => trivial)
    (fun f hf => ?_) fun f hf => hf
  · have hn := hold hn (Or.inl (List.ne_nil_of_mem hm))
    exact hn.refs hp htidy hsep hcaptures hgroups hright hrun hm
  · rw [(hrun.funcs f).refs] at hm
    exact Program.reaches_of_mem_refs hp htidy hcaptures hgroups hf hm
  · have hn := hold hn (Or.inr (by simp [hop]))
    have hsame := hrun.nodes.node n (hn.lt_size hp)
    rw [hsame.op] at hop
    rw [hsame.func] at hf
    rw [(hrun.funcs f).rest] at hname
    rw [(hrun.nodes.node name (hp.refs name (Or.inr ⟨f, Func.mem_refs_captures hname⟩))).origin] at hvar
    exact hn.captured hp htidy hsep hcaptures hgroups hop hf hname hvar
  · rcases hrun.state_eq f with h | h <;> rw [h] at hf <;> simp at hf

end Area

/-! ## Moved variables -/

/-- What holds of moved variables while the groups `rest` are still to come: they are no inputs of these groups, and are
the variables whose addresses are on the heap, where it is enough to count addresses that are not below bodies of these
groups. -/
structure Info.Moves (p : Program) (rest : List Group) (q : Program) (i : Info) : Prop where
  settled : i.Settled q
  fresh : ∀ n : NodeId, q.nodes.size ≤ n.index → i.word n = .plain .unknown
  inputs : ∀ x ∈ i.moved, ¬ p.InputOf rest x
  sources : ∀ x ∈ i.moved, ∃ n, q.AddressOf n x ∧ i.word n = .plain .heap ∧ ∀ G ∈ rest, ¬ p.BelowAny G.funcs n
  addresses : ∀ n x, q.AddressOf n x → i.word n = .plain .heap → x ∈ i.moved

theorem Info.moves_start (p : Program) (rest : List Group) : Info.Moves p rest p {} := by
  have hword (n : NodeId) : ({} : Info).word n = .plain .unknown := Table.get_empty n.index
  refine ⟨⟨List.nodup_nil, fun x hx => absurd hx (Array.not_mem_empty x), fun x _ _ => hword x⟩, fun n _ => hword n,
    fun x hx => absurd hx (Array.not_mem_empty x), fun x hx => absurd hx (Array.not_mem_empty x), fun n x _ hw => ?_⟩
  rw [hword] at hw
  cases hw

theorem Program.AddressOf.lt_size {p : Program} {n x : NodeId} (h : p.AddressOf n x) : n.index < p.nodes.size :=
  p.lt_size_of_op_ne (by rcases h.op with h | h <;> rw [h] <;> nofun)

theorem Program.AddressOf.op_ne_name {p : Program} {n x : NodeId} (h : p.AddressOf n x) : (p.node n).op ≠ .name := by
  rcases h.op with h | h <;> rw [h] <;> nofun

section Group

variable {p : Program} {before after : List Group} {group : Group} {run : Run} {s : Flow}
  (hp : p.WellFormed) (htidy : p.Tidy) (hdrafted : p.Drafted) (hsep : p.Separate)
  (hgroups : p.groups = before ++ group :: after) (hrun : run.Follows p before) (hgrown : p.Grown run.program)

theorem Program.grown_start (run : Run) (group : Group) : run.program.Grown (Flow.start run group).program :=
  .addNode _ rfl rfl

section Recorded

variable (hsteps : Flow.Steps (run.reached p group after) (Flow.start run group) s)
include hsteps

theorem grown_recorded : run.program.Grown s.program :=
  (Program.grown_start run group).trans (.of_frame hsteps.frame)

include hp hrun

/-- What gets another word is an input of the group, or is walked over and stays so far. -/
theorem word_recorded (n : NodeId) : s.info.word n = run.info.word n ∨ n.index < s.program.nodes.size ∧
    (n.index < p.nodes.size ∧ (s.program.node n).op = .name ∧ p.InputOf [group] n ∨
      (s.program.node n).op ≠ .name ∧ s.program.Within (p.BelowAny group.funcs) n ∧ s.info.word n = .plain .none) := by
  obtain ⟨_, hinfo⟩ := Flow.info_start run group
  rcases hsteps.word trivial n with h | ⟨hlt, ⟨hcls, f, hf, hn⟩ | h⟩
  · rw [hinfo] at h
    exact Or.inl h
  · change n ∈ (run.program.func f).decls at hn
    rw [(hrun.funcs f).rest] at hn
    have hname := (hp.decls f n hn).1
    have hlt' := p.lt_size_of_op_eq_name hname
    have hsame := (hrun.nodes.trans (grown_recorded hsteps).nodes).node n hlt'
    rw [hsame.cls] at hcls
    exact Or.inr ⟨hlt, Or.inl ⟨hlt', hsame.op.trans hname, hcls, group, by simp, f, hf, hn⟩⟩
  · exact Or.inr ⟨hlt, Or.inr h⟩

/-- An address that gets another word stays so far, and is below a body of the group. -/
theorem word_recorded_address {n x : NodeId} (hn : s.program.AddressOf n x) : s.info.word n = run.info.word n ∨
    p.BelowAny group.funcs n ∧ s.info.word n = .plain .none := by
  refine (word_recorded hp hrun hsteps n).imp_right fun ⟨_, h⟩ => ?_
  rcases h with ⟨_, hop, _⟩ | ⟨_, hin, hnone⟩
  · exact absurd hop hn.op_ne_name
  · refine ⟨hin.of_op ?_ ?_, hnone⟩
    all_goals rcases hn.op with h | h <;> rw [h] <;> nofun

include hdrafted hgrown

/-- Recording moves nothing, and leaves the addresses and inputs of earlier groups as they are. -/
theorem moves_recorded (hmoves : run.info.Moves p (group :: after) run.program) :
    s.info.Moves p (group :: after) s.program := by
  have hgrown' := grown_recorded hsteps
  obtain ⟨_, hinfo⟩ := Flow.info_start run group
  have hmoved : s.info.moved = run.info.moved := by
    rw [hsteps.frame.moved, hinfo]
    rfl
  have haddress {n x : NodeId} (hn : n.index < run.program.nodes.size) :
      s.program.AddressOf n x ↔ run.program.AddressOf n x :=
    hgrown.addressOf_iff hgrown' hp.refs hdrafted.typed hrun.closed hn
  refine ⟨⟨?_, fun x hx => ?_, fun x hx hnot => ?_⟩, fun n hn => ?_, ?_, fun x hx => ?_, fun n x hn hw => ?_⟩
  · rw [hmoved]
    exact hmoves.settled.nodup
  · rw [hmoved] at hx
    rcases word_recorded hp hrun hsteps x with h | ⟨_, ⟨_, _, hinput⟩ | ⟨hop, _⟩⟩
    · rw [h]
      exact hmoves.settled.heap x hx
    · exact absurd (hinput.mono (by simp)) (hmoves.inputs x hx)
    · obtain ⟨_, hn, _⟩ := hmoves.sources x hx
      obtain ⟨_, _, hbase⟩ := hn.base
      have hname := hbase.isVariable.1
      exact absurd ((hgrown'.nodes.node x (run.program.lt_size_of_op_eq_name hname)).op.trans hname) hop
  · rw [hmoved] at hnot
    simp only [Node.isNameOf_iff] at hx
    rcases word_recorded hp hrun hsteps x with h | ⟨_, ⟨hlt, _, hcls, _⟩ | ⟨hop, _⟩⟩
    · rw [h]
      by_cases hlt : x.index < run.program.nodes.size
      · have hsame := hgrown'.nodes.node x hlt
        rw [hsame.op, hsame.cls] at hx
        exact hmoves.settled.unmoved x (by simpa only [Node.isNameOf_iff] using hx) hnot
      · exact hmoves.fresh x (Nat.le_of_not_lt hlt)
    · rw [((hgrown.trans hgrown').nodes.node x hlt).cls, hcls] at hx
      rcases hx with ⟨_, h⟩ | ⟨_, h⟩ <;> cases h
    · exact absurd (hx.elim And.left And.left) hop
  · rcases word_recorded hp hrun hsteps n with h | ⟨hlt, _⟩
    · rw [h]
      exact hmoves.fresh n (Nat.le_trans hgrown'.nodes.size_le hn)
    · exact absurd hlt (Nat.not_lt.2 hn)
  · rw [hmoved]
    exact hmoves.inputs
  · rw [hmoved] at hx
    obtain ⟨n, hn, hw, hbelow⟩ := hmoves.sources x hx
    have hn' := (haddress hn.lt_size).2 hn
    refine ⟨n, hn', ?_, hbelow⟩
    rw [← hw]
    exact (word_recorded_address hp hrun hsteps hn').resolve_right fun h => hbelow group List.mem_cons_self h.1
  · rw [hmoved]
    rcases word_recorded_address hp hrun hsteps hn with h | ⟨_, h⟩
    · rw [h] at hw
      have hlt : n.index < run.program.nodes.size := by
        refine Nat.lt_of_not_le fun hle => ?_
        rw [hmoves.fresh n hle] at hw
        cases hw
      exact hmoves.addresses n x ((haddress hlt).1 hn) hw
    · rw [h] at hw
      cases hw

end Recorded

section Flooded

variable (hgrown' : run.program.Grown s.program) (hrefs : s.Refs (run.reached p group after))

include hgrown in
/-- What the graph refers to was reached, or is new. -/
theorem reaches_of_valid {n : NodeId} (hn : s.Valid (run.reached p group after) n) (hlt : n.index < p.nodes.size) :
    p.Reaches group after n :=
  hn.1.resolve_left fun h => absurd h (Nat.not_lt.2 (Nat.le_of_lt (Nat.lt_of_lt_of_le hlt hgrown.nodes.size_le)))

include hrefs in
theorem valid_of_leaksAddress {v : Flow.Visit} (hv : v ∈ s.visits) {x : NodeId} (h : s.LeaksAddress v x) :
    s.Valid (run.reached p group after) v.node ∧ s.Valid (run.reached p group after) x := by
  obtain ⟨_, _, _, hpath, _⟩ := Flow.exists_path_of_mem_visits hv
  have hnode := hrefs.path hpath
  obtain ⟨y, hy, hx⟩ := h.base
  exact ⟨hnode, hrefs.addressed (hrefs.node _ hnode y (Node.mem_refs_left hy)) hx⟩

include hp htidy hdrafted hsep hgroups hgrown hgrown' hrefs

/-- The flood moves the variables of the addresses that it puts on the heap. -/
theorem moves_foldl_flood (hs : s.info.Moves p (group :: after) s.program) :
    (s.dsts.foldl Flow.flood s).info.Moves p after s.program := by
  have hnodes := hgrown.nodes.trans hgrown'.nodes
  have hleaks {v : Flow.Visit} {x : NodeId} (h : s.LeaksAddress v x) : s.program.AddressOf v.node x := by
    obtain ⟨y, hy, hx⟩ := h.base
    exact ⟨h.op, y, hy, Program.baseOf_of_addressed? hx⟩
  refine ⟨?_, fun n hn => ?_, fun x hx hinput => ?_, fun x hx => ?_, fun n x hn hw => ?_⟩
  · rw [← (Flow.marked_foldl_flood s).program]
    exact Flow.settled_foldl_flood hs.settled
  · rw [(Flow.flood_of_not_valid hrefs fun h => absurd (h.2 trivial) (Nat.not_lt.2 hn)).1]
    exact hs.fresh n hn
  · rcases (Flow.mem_moved_foldl_flood hs.settled x).1 hx with hx | ⟨v, hv, hleak⟩
    · exact hs.inputs x hx (hinput.mono (List.subset_cons_self group after))
    · obtain ⟨_, _, hbase⟩ := (hleaks hleak).base
      have hvar := hbase.isVariable
      obtain ⟨_, _, _, f, _, hdecl⟩ := id hinput
      have hlt := p.lt_size_of_op_eq_name (hp.decls f x hdecl).1
      rw [(hnodes.node x hlt).op, (hnodes.node x hlt).cls] at hvar
      have hreach := reaches_of_valid hgrown (valid_of_leaksAddress hrefs hv hleak).2 hlt
      exact hreach.not_inputOf hp htidy hsep hgroups hvar.1 hvar.2 hinput
  · rcases (Flow.mem_moved_foldl_flood hs.settled x).1 hx with hx | ⟨v, hv, hleak⟩
    · obtain ⟨n, hn, hw, hbelow⟩ := hs.sources x hx
      exact ⟨n, hn, (Flow.heap_address_foldl_flood hn.op).2 (Or.inl hw), fun G hG => hbelow G (List.mem_cons_of_mem _ hG)⟩
    · have hn := hleaks hleak
      refine ⟨v.node, hn, (Flow.heap_address_foldl_flood hn.op).2 (Or.inr ⟨v, hv, rfl, hleak.leaks⟩),
        fun G hG hbelow => ?_⟩
      obtain ⟨f, _, hbelow'⟩ := id hbelow
      have hlt := hp.refs.below hbelow'
      have hop : (p.node v.node).op ≠ .name := by
        rw [← (hnodes.node v.node hlt).op]
        exact hn.op_ne_name
      have hreach := reaches_of_valid hgrown (valid_of_leaksAddress hrefs hv hleak).1 hlt
      exact hsep.not_belowAny hgroups (hreach.below hp htidy hop) hop G hG hbelow
  · rw [Flow.mem_moved_foldl_flood hs.settled]
    rcases (Flow.heap_address_foldl_flood hn.op).1 hw with hw | ⟨v, hv, rfl, hleak⟩
    · exact Or.inl (hs.addresses n x hn hw)
    · obtain ⟨y, hy, hbase⟩ := hn.base
      exact Or.inr ⟨v, hv, hn.op, hleak, y, hy, ((hgrown.trans hgrown').addressed?_eq_some_iff hdrafted).2 hbase⟩

end Flooded

/-- Notes and reports leave nodes and types as they are. -/
theorem Program.grown_conclude (s : Flow) (group : Group) : s.program.Grown (s.conclude group).program :=
  .of_nodes_eq (Flow.nodes_conclude s group) (Flow.types_conclude s group)

include hp hdrafted hgrown in
/-- Notes and reports leave nodes, types and words as they are. -/
theorem moves_conclude (group : Group) (hgrown' : run.program.Grown s.program) (hclosed : s.program.Closed)
    {rest : List Group} (hs : (s.dsts.foldl Flow.flood s).info.Moves p rest s.program) :
    (s.conclude group).info.Moves p rest (s.conclude group).program ∧ s.program.Grown (s.conclude group).program := by
  obtain ⟨_, hmoved, hword⟩ := Flow.conclude_eq s group
  have hnodes := Flow.nodes_conclude s group
  have hnode := Flow.node_conclude s group
  have hsame := Program.grown_conclude s group
  have haddress {n x : NodeId} (hn : n.index < s.program.nodes.size) :
      (s.conclude group).program.AddressOf n x ↔ s.program.AddressOf n x :=
    (hgrown.trans hgrown').addressOf_iff hsame hp.refs hdrafted.typed hclosed hn
  refine ⟨⟨⟨?_, fun x hx => ?_, fun x hx hnot => ?_⟩, fun n hn => ?_, ?_, fun x hx => ?_, fun n x hn hw => ?_⟩, hsame⟩
  · rw [hmoved]
    exact hs.settled.nodup
  · rw [hmoved] at hx
    rw [hword]
    exact hs.settled.heap x hx
  · rw [hmoved] at hnot
    rw [hnode] at hx
    rw [hword]
    exact hs.settled.unmoved x hx hnot
  · rw [hnodes] at hn
    rw [hword]
    exact hs.fresh n hn
  · rw [hmoved]
    exact hs.inputs
  · rw [hmoved] at hx
    obtain ⟨n, hn, hw, hbelow⟩ := hs.sources x hx
    exact ⟨n, (haddress hn.lt_size).2 hn, (hword n).trans hw, hbelow⟩
  · rw [hmoved]
    rw [hword] at hw
    exact hs.addresses n x ((haddress (hnodes ▸ hn.lt_size)).1 hn) hw

end Group

/-! ## All groups -/

/-- What holds between the groups `done` and `rest`. -/
structure Run.Moves (p : Program) (done rest : List Group) (run : Run) : Prop where
  follows : run.Follows p done
  grown : p.Grown run.program
  right : run.KeepsRight p rest
  info : run.info.Moves p rest run.program

theorem moves_start {p : Program} (hp : p.Closed) (rest : List Group) (config : Config) (observer : Observer) :
    Run.Moves p [] rest { program := p, config, observer } :=
  ⟨follows_nil hp config observer, .refl p, fun _ _ hne => absurd rfl hne, Info.moves_start p rest⟩

section Groups

variable {p : Program} (hp : p.WellFormed) (htidy : p.Tidy) (hdrafted : p.Drafted) (hsep : p.Separate)
  (hcaptures : p.CapturesEarlier)
include hp htidy hdrafted hsep hcaptures

theorem moves_analyzeGroup {before after : List Group} {group : Group} {run run' : Run}
    (hgroups : p.groups = before ++ group :: after) (hrun : run.Moves p before (group :: after))
    (h : analyzeGroup group run = .ok () run') : run'.Moves p (before ++ [group]) after := by
  have hfollows := hrun.follows.analyzeGroup h
  have hspares := spares_analyzeGroup hrun.follows hp htidy (Program.nodup_groups hgroups).1 (Or.inl h)
  obtain ⟨s, hs, rfl⟩ := analyzeGroup_eq_ok h
  have hstarts := Flow.starts_funcs
    (Flow.refs_start_reached hp htidy hsep hcaptures hgroups hrun.right hrun.follows)
    ((Program.confines_below hp.refs group.funcs).extends (hrun.grown.trans (Program.grown_start run group)).nodes)
    (fun f hf m hm => ?_) hs
  · have hgrown := grown_recorded hstarts.steps
    have hrecorded := moves_recorded hp hdrafted hrun.follows hrun.grown hstarts.steps hrun.info
    have hflooded := moves_foldl_flood hp htidy hdrafted hsep hgroups hrun.grown hgrown hstarts.refs hrecorded
    obtain ⟨hmoves, hsame⟩ := moves_conclude hp hdrafted hrun.grown group hgrown
      (Flow.closed_recorded hs hrun.follows.closed) hflooded
    exact ⟨hfollows, (hrun.grown.trans hgrown).trans hsame, hrun.right.spares hspares hrun.grown.nodes
      fun n hn hop => hsep.not_belowAny hgroups hn hop, hmoves⟩
  · change m ∈ (run.program.func f).body.getD [] at hm
    rw [(hrun.follows.funcs f).rest] at hm
    exact ⟨f, hf, m, hm, .refl⟩

theorem moves_groups {done groups : List Group} {run run' : Run} (hgroups : p.groups = done ++ groups)
    (hrun : run.Moves p done groups) (h : groups.forM analyzeGroup run = .ok () run') : run'.Moves p p.groups [] :=
  groups_induct (motive := fun done groups run => run.Moves p done groups)
    (moves_analyzeGroup hp htidy hdrafted hsep hcaptures) hgroups hrun h

end Groups

/-- After an analysis, the moved variables are those of which an address is on the heap. Each is listed once and has the
word of the heap, and local variables and results that are not moved have the word that all nodes start with. -/
theorem moved_iff_leaking_address {steps : List Script.Step} {session : Script.Session}
    (hsession : Script.run steps = .ok session) (hsep : session.program.Separate)
    (hcaptures : session.program.CapturesEarlier) (config : Config) (observer : Observer) {info : Info}
    (h : (escapesWith config observer session.program).result = .ok info) :
    (∀ x, x ∈ info.moved ↔
      ∃ n, (escapesWith config observer session.program).program.AddressOf n x ∧ info.word n = .plain .heap) ∧
    info.moved.toList.Nodup ∧ (∀ x ∈ info.moved, info.word x = .plain .heap) ∧
    ∀ x, ((escapesWith config observer session.program).program.node x).isNameOf .auto = true ∨
        ((escapesWith config observer session.program).program.node x).isNameOf .result = true → x ∉ info.moved →
      info.word x = .plain .unknown := by
  have hp := Script.wellFormed_of_run hsession
  obtain ⟨run, hrun, hprogram, rfl⟩ := escapesWith_eq_ok h
  have hmoves := moves_groups hp (Script.tidy_of_run hsession) (Script.drafted_of_run hsession) hsep hcaptures
    (List.nil_append _).symm (moves_start hp.refs _ config observer) hrun
  rw [hprogram]
  refine ⟨fun x => ⟨fun hx => ?_, fun ⟨n, hn, hw⟩ => hmoves.info.addresses n x hn hw⟩, hmoves.info.settled.nodup,
    hmoves.info.settled.heap, hmoves.info.settled.unmoved⟩
  obtain ⟨n, hn, hw, _⟩ := hmoves.info.sources x hx
  exact ⟨n, hn, hw⟩

/-- `func g() { var x *int64; keep = func() { x = ptr } }` and `func f(x *int64) {}`. With `foreign`, `g` has no variable
and the closure captures the input of `f`. -/
def captureSteps (foreign : Bool) : List Script.Step :=
  [.type "P" (.ptr (.named "int64")), .type "F" (.func [] [] false), .global "keep" "F" "keep",
    .global "ptr" "P" "ptr", .func { name := "g" } "g",
    .func { name := "f", params := [{ name := "x", ty := "P" }] } "f",
    .define (.key "f") (if foreign then [.form (.bind "x" (.param 0))] else []),
    .define (.key "g") ((if foreign then [] else [.form (.declare "x" "P" "x")]) ++
      [.form (.assign (.ref (.key "keep"))
        (.closure {} [.form (.bind "w" (.capture (.ref (.key "x")) false)),
          .form (.assign (.ref (.key "w")) (.ref (.key "ptr")))] (some "c")))])]

def captureSession (foreign : Bool) : Script.Session := Script.sessionOf (captureSteps foreign)

theorem run_captureSteps (foreign : Bool) : Script.run (captureSteps foreign) = .ok (captureSession foreign) :=
  Script.run_eq_sessionOf (by cases foreign <;> decide +kernel)

/-- If nodes are used once, a table of all places shows which names the bodies mention. -/
theorem Program.UsedOnce.separate {p : Program} (hp : p.UsedOnce) (places : List (FuncId × NodeId × List Nat))
    (hplaces : ∀ f path n, p.At f path n → (f, n, path) ∈ places)
    (hnames : ∀ x ∈ places, (p.node x.2.1).op = .name → x.2.1 ∈ (p.func x.1).decls ∨ x.2.1 ∈ (p.func x.1).captures ∨
      (p.node x.2.1).cls = .global ∨ (p.node x.2.1).cls = .func ∨
      (p.node x.2.1).isBlank = true ∧ (p.node x.2.1).cls = .none)
    (hgrouped : ∀ i < p.nodes.size, (p.node ⟨i⟩).op = .closure → (p.node ⟨i⟩).func.all (fun f => p.groups.any fun G =>
      f ∈ G.funcs ∧ (p.func f).outer.all (· ∈ G.funcs)) = true) : p.Separate := by
  refine ⟨fun hf hg hop => hp.func_eq hop hf hg, fun f n hn hop => ?_, fun n f hop hf => ?_⟩
  · obtain ⟨path, hat⟩ := exists_at hn
    exact hnames _ (hplaces f path n hat) hop
  · have hall := hgrouped n.index (p.lt_size_of_op_ne (by simp [hop])) hop
    rw [hf, Option.all_some, List.any_eq_true] at hall
    obtain ⟨G, hG, hmem⟩ := hall
    obtain ⟨hfG, houter⟩ := of_decide_eq_true hmem
    refine ⟨G, hG, hfG, fun o ho => ?_⟩
    rw [ho, Option.all_some] at houter
    exact of_decide_eq_true houter

def capturePlaces (foreign : Bool) : List (FuncId × NodeId × List Nat) :=
  if foreign then [(⟨0⟩, ⟨6⟩, [0]), (⟨0⟩, ⟨0⟩, [0, 0]), (⟨0⟩, ⟨5⟩, [1, 0]), (⟨2⟩, ⟨4⟩, [0]), (⟨2⟩, ⟨3⟩, [0, 0]),
    (⟨2⟩, ⟨1⟩, [1, 0])]
  else [(⟨0⟩, ⟨4⟩, [0]), (⟨0⟩, ⟨3⟩, [0, 0]), (⟨0⟩, ⟨8⟩, [1]), (⟨0⟩, ⟨0⟩, [0, 1]), (⟨0⟩, ⟨7⟩, [1, 1]), (⟨2⟩, ⟨6⟩, [0]),
    (⟨2⟩, ⟨5⟩, [0, 0]), (⟨2⟩, ⟨1⟩, [1, 0])]

theorem mem_capturePlaces {foreign : Bool} {f : FuncId} {path : List Nat} {n : NodeId}
    (h : (captureSession foreign).program.At f path n) : (f, n, path) ∈ capturePlaces foreign :=
  h.mem_places _ (by cases foreign <;> decide +kernel) (by cases foreign <;> decide +kernel)

theorem usedOnce_captureSession (foreign : Bool) : (captureSession foreign).program.UsedOnce :=
  Program.usedOnce_of_table _ (fun _ _ _ => mem_capturePlaces) (by cases foreign <;> decide +kernel)

theorem separate_captureSession (foreign : Bool) : (captureSession foreign).program.Separate :=
  (usedOnce_captureSession foreign).separate _ (fun _ _ _ => mem_capturePlaces) (by cases foreign <;> decide +kernel)
    (by cases foreign <;> decide +kernel)

theorem capturesEarlier_captureSession : (captureSession false).program.CapturesEarlier := by
  have hall : ∀ i < (captureSession false).program.funcs.size,
      ∀ name ∈ ((captureSession false).program.func ⟨i⟩).captures, name = ⟨5⟩ ∧ i = 2 := by decide +kernel
  refine Program.capturesEarlier_of_group (Script.wellFormed_of_run (run_captureSteps false))
    (Script.tidy_of_run (run_captureSteps false)) fun f name hname var hvar => ?_
  have hlt : f.index < (captureSession false).program.funcs.size := by
    refine Nat.lt_of_not_le fun hle => ?_
    rw [Program.func_of_size_le _ hle] at hname
    cases hname
  obtain ⟨rfl, hf⟩ := hall f.index hlt name hname
  have horigin : ((captureSession false).program.node ⟨5⟩).origin = some ⟨3⟩ := by decide +kernel
  cases hvar.symm.trans horigin
  exact ⟨⟨[⟨2⟩, ⟨0⟩], false⟩, by decide +kernel, by simp [FuncId.ext_iff, hf], ⟨0⟩, by decide, Or.inl (by decide +kernel)⟩

/-- The variable of `g` is moved and has an address on the heap, the input of `f` has none. -/
theorem moved_captureSession : ∃ info, (escapes (captureSession false).program).result = .ok info ∧
    info.word ⟨3⟩ = .plain .heap ∧
    (∃ n, (escapes (captureSession false).program).program.AddressOf n ⟨3⟩ ∧ info.word n = .plain .heap) ∧
    ¬ ∃ n, (escapes (captureSession false).program).program.AddressOf n ⟨2⟩ ∧ info.word n = .plain .heap := by
  obtain ⟨info, hinfo, hin, hout⟩ : ∃ info, (escapes (captureSession false).program).result = .ok info ∧
      ⟨3⟩ ∈ info.moved ∧ ⟨2⟩ ∉ info.moved := Script.exists_eq_ok_of_any (by decide +kernel)
  obtain ⟨hiff, _, hheap, _⟩ := moved_iff_leaking_address (run_captureSteps false) (separate_captureSession false)
    capturesEarlier_captureSession default .silent hinfo
  exact ⟨info, hinfo, hheap _ hin, (hiff _).1 hin, fun h => hout ((hiff _).2 h)⟩

/-- The input of `f` that a closure captures before `f` is analyzed is moved, and loses the word of the heap when `f` is
recorded. -/
theorem captured_input_loses_heap : (captureSession true).program.UsedOnce ∧ (captureSession true).program.Separate ∧
    ∃ info, (escapes (captureSession true).program).result = .ok info ∧ ⟨2⟩ ∈ info.moved ∧
      info.word ⟨2⟩ ≠ .plain .heap :=
  ⟨usedOnce_captureSession true, separate_captureSession true, Script.exists_eq_ok_of_any (by decide +kernel)⟩

end EscapeAnalysis

import Mathlib.Data.List.Basic
import EscapeAnalysis.Flood
import EscapeAnalysis.Flow.Walk
import EscapeAnalysis.Proofs.Rerun.Copies

/-!
# What both analyses ask

Two programs at the same point of both analyses give the same answers, up to where nodes are (`Rerun.shift`). The answers
are bounded by fuel, of which the second program has more; where the fuel can run out, an answer of the first program is
an answer of the second.
-/

namespace EscapeAnalysis

/-- The place, after nodes are renamed. -/
def Place.map (ρ : NodeId → NodeId) : Place → Place
  | .nowhere => .nowhere
  | .tracked n => .tracked (ρ n)
  | .lost key => .lost (key.map ρ)

namespace Finding

/-- The finding, after nodes are renamed. -/
def map (ρ : NodeId → NodeId) : Finding → Finding
  | leaksToResult param out level => leaksToResult (ρ param) (ρ out) level
  | leaks param dst level dstDepth srcDepth => leaks (ρ param) (ρ dst) level dstDepth srcDepth
  | leaksCaptured name => leaksCaptured (ρ name)
  | contentEscapes param => contentEscapes (ρ param)
  | addressEscapes src shown level dstDepth srcDepth => addressEscapes (ρ src) (ρ shown) level dstDepth srcDepth
  | allocEscapes src => allocEscapes (ρ src)
  | moved var => moved (ρ var)
  | stays node func => stays (ρ node) func
  | selfAssigns stmt dst func => selfAssigns (ρ stmt) (ρ dst) func

/-- The nodes whose text is in the message. -/
def texts : Finding → List NodeId
  | leaks param dst .. => [param, dst]
  | leaksToResult n .. | leaksCaptured n | contentEscapes n | addressEscapes _ n .. | allocEscapes n | moved n
  | stays n _ | selfAssigns _ n _ => [n]

end Finding

namespace Rerun

variable {R : Rerun} {a b : Program} (h : R.Copies a b)
include h

/-! ## Types -/

section Likes

variable {ty ty' : Option Ty} (hty : R.Likes a b ty ty')
include hty

theorem Copies.hasPointers : b.hasPointers ty' = a.hasPointers ty := by
  cases hty with
  | none => rfl
  | some hty => exact hty.hasPointers R.drafted.typed.store h.grows h.grows'

theorem Copies.hasNoPointers : b.hasNoPointers ty' = a.hasNoPointers ty := by
  cases hty with
  | none => rfl
  | some hty => exact congrArg not (hty.hasPointers R.drafted.typed.store h.grows h.grows')

theorem Copies.isArray : b.isArray ty' = a.isArray ty := by
  cases hty with
  | none => rfl
  | some hty => exact hty.isArray h.grows h.grows'

theorem Copies.isSlice : b.isSlice ty' = a.isSlice ty := by
  cases hty with
  | none => rfl
  | some hty => exact hty.isSlice h.grows h.grows'

theorem Copies.optText : b.types.optText ty' = a.types.optText ty := by
  cases hty with
  | none => rfl
  | some hty => exact hty.text R.drafted.typed.store h.sound h.sound' h.grows h.grows'

theorem Copies.likes_deref? : R.Likes a b (ty.bind a.types.deref?) (ty'.bind b.types.deref?) := by
  cases hty with
  | none => exact .none
  | some hty => exact hty.deref? h.grows h.grows' R.drafted.typed.store

/-- The type of what a dereference gives, if it does not fail. -/
theorem Copies.likes_target : R.Likes a b (ty.map fun t => (a.types.deref? t).getD t)
    (ty'.map fun t => (b.types.deref? t).getD t) := by
  cases hty with
  | none => exact .none
  | @some ty ty' hty =>
    have hderef := hty.deref? h.grows h.grows' R.drafted.typed.store
    simp only [Option.map_some]
    generalize a.types.deref? ty = part, b.types.deref? ty' = part' at hderef
    cases hderef with
    | none => exact .some hty
    | some hpart => exact .some hpart

end Likes

theorem Copies.isArrayNode (n : Option NodeId) : b.isArrayNode (n.map R.shift) = a.isArrayNode n := by
  cases n with
  | none => rfl
  | some n => exact h.isArray (h.ty n)

theorem Copies.givers {n : NodeId} (hop : (a.node n).op.isCall = false) :
    b.givers (R.shift n) = (a.givers n).map R.shift := by
  have hx := h.node n
  unfold Program.givers Node.operands
  rw [hx.op, hx.left, hx.list, h.right_of_not_isCall hop, h.hasNoPointers (h.ty n), h.isArrayNode]
  split <;> simp only [Option.toList_map, List.head?_map, ← List.map_append] <;> split_ifs <;> rfl

/-! ## Places -/

theorem Copies.base? (n : NodeId) : b.base? (R.shift n) = (a.base? n).map R.shift := by
  unfold Program.base?
  rw [(h.node n).op, (h.node n).left, h.isArrayNode]
  split_ifs <;> rfl

theorem Copies.wholePlace {n : NodeId} {place : Place} (hplace : a.wholePlace n = .ok place) :
    b.wholePlace (R.shift n) = .ok (place.map R.shift) := by
  have hx := h.node n
  have hkeeps : (b.node (R.shift n)).keeps = (a.node n).keeps := by
    unfold Node.keeps
    rw [hx.op, hx.isBlank, hx.cls]
  unfold Program.wholePlace at hplace ⊢
  simp only [hx.op, hx.isBlank, hkeeps] at hplace ⊢
  split at hplace
  · cases hplace
    split_ifs with _ _ hmap
    · rfl
    · rfl
    · rw [h.right_of_not_isCall (by rw [hmap]; rfl)]
      rfl
    · rfl
  · cases hplace

theorem Copies.place {fuel fuel' : Nat} (hfuel : fuel ≤ fuel') {dst : NodeId} {place : Place}
    (hplace : a.place fuel dst = .ok place) : b.place fuel' (R.shift dst) = .ok (place.map R.shift) := by
  induction fuel generalizing fuel' dst with
  | zero => cases hplace
  | succ fuel ih =>
    obtain ⟨fuel', rfl⟩ := Nat.exists_eq_add_of_le' (Nat.le_trans (Nat.le_add_left 1 fuel) hfuel)
    have hle := Nat.le_of_succ_le_succ hfuel
    rw [Program.place_succ] at hplace ⊢
    rw [h.base?]
    cases hbase : a.base? dst with
    | some m =>
      rw [hbase] at hplace
      exact ih hle hplace
    | none =>
      rw [hbase, Option.elim_none] at hplace
      rw [Option.map_none, Option.elim_none, (h.node dst).op]
      split at hplace
      · rename_i hop
        cases hplace
        rw [if_pos hop]
        rfl
      · rename_i hop
        rw [if_neg hop]
        exact h.wholePlace hplace

/-! ## Parts of statements -/

section Parts

variable {x y : Node} (hxy : x.Copies R.shift y)
include hxy

theorem Copies.typeGuard? : b.typeGuard? y = (a.typeGuard? x).map R.shift := by
  unfold Program.typeGuard?
  rw [hxy.op, hxy.test]
  split
  · cases x.test with
    | none => rfl
    | some guard =>
      simp only [Option.map_some, Option.filter_some, (h.node guard).op]
      split <;> rfl
  · rfl

/-- What a switch over a type looks at. -/
theorem Copies.subject : ((b.typeGuard? y).bind fun guard => (b.node guard).right) =
    ((a.typeGuard? x).bind fun guard => (a.node guard).right).map R.shift := by
  rw [h.typeGuard? hxy]
  cases hguard : a.typeGuard? x with
  | none => rfl
  | some guard =>
    refine h.right_of_not_isCall ?_
    unfold Program.typeGuard? at hguard
    split at hguard
    · have hop : (a.node guard).op = .typeGuard := of_decide_eq_true (Option.filter_eq_some_iff.1 hguard).2
      rw [hop]
      rfl
    · cases hguard

theorem Copies.clauseVars : b.clauseVars y = (a.clauseVars x).map R.shift := by
  unfold Program.clauseVars
  rw [hxy.list, List.filterMap_map, List.map_filterMap]
  exact List.filterMap_congr fun clause _ => (h.node clause).left

theorem Copies.recvExpr : b.recvExpr y = (a.recvExpr x).map R.shift := by
  unfold Program.recvExpr
  rw [hxy.left]
  cases x.left with
  | none => rfl
  | some m => exact (h.node m).left

omit h in
theorem literalValues_shift
    (hright : ∀ m ∈ x.list, (b.node (R.shift m)).right = (a.node m).right.map R.shift) :
    b.literalValues y = (a.literalValues x).map R.shift := by
  unfold Program.literalValues
  rw [hxy.list, List.filterMap_map, List.map_filterMap]
  exact List.filterMap_congr hright

theorem Copies.literalParts
    (hright : ∀ m ∈ x.list, (b.node (R.shift m)).right = (a.node m).right.map R.shift) :
    b.literalParts y = (a.literalParts x).map R.shift := by
  unfold Program.literalParts
  rw [hxy.list, List.flatMap_map, List.map_flatMap]
  refine List.flatMap_congr fun m hm => ?_
  rw [(h.node m).left, hright m hm, List.map_append, Option.toList_map, Option.toList_map]

end Parts

theorem Copies.namedBase? (n : NodeId) : b.namedBase? (R.shift n) = (a.namedBase? n).map R.shift := by
  have hfilter : ((a.node n).left.map R.shift).filter (fun base => (b.node base).op = .name) =
      ((a.node n).left.filter fun base => (a.node base).op = .name).map R.shift := by
    cases (a.node n).left with
    | none => rfl
    | some base =>
      simp only [Option.map_some, Option.filter_some, (h.node base).op]
      split <;> rfl
  unfold Program.namedBase?
  rw [(h.node n).op, (h.node n).left, hfilter]
  split <;> rfl

theorem Copies.isSelfReslice (dst src : NodeId) :
    b.isSelfReslice (R.shift dst) (R.shift src) = a.isSelfReslice dst src := by
  have hleft : (b.node (R.shift src)).left.bind b.namedBase? =
      ((a.node src).left.bind a.namedBase?).map R.shift := by
    rw [(h.node src).left]
    cases (a.node src).left with
    | none => rfl
    | some m => exact h.namedBase? m
  unfold Program.isSelfReslice
  rw [(h.node src).op, h.namedBase?, hleft]
  split
  case h_4 => rfl
  all_goals
    cases a.namedBase? dst <;> cases (a.node src).left.bind a.namedBase? <;> simp [R.shift_inj]

/-! ## Callees -/

theorem Copies.calleeOf (n : NodeId) : b.calleeOf (R.shift n) = a.calleeOf n := by
  unfold Program.calleeOf
  dsimp only
  rw [(h.node n).left, (h.node n).op]
  cases (a.node n).left with
  | none => rfl
  | some callee =>
    simp only [Option.map_some, Option.bind_eq_bind, Option.bind_some, (h.node callee).isNameOf, (h.node callee).op,
      (h.node callee).func]

theorem Copies.calleeOf_base {n : NodeId} (hn : n.index < R.base.nodes.size) : a.calleeOf n = R.base.calleeOf n :=
  h.nodes.calleeOf R.closed hn

/-- What the type of a callee tells is known from the start. -/
theorem Copies.funcDef? {ty ty' : Option Ty} (hty : R.Likes a b ty ty') :
    ty'.bind b.types.funcDef? = ty.bind a.types.funcDef? ∧ ∀ args rets variadic,
      ty.bind a.types.funcDef? = some (args, rets, variadic) →
        (∀ t ∈ args, R.base.types.Has t) ∧ ∀ t ∈ rets, R.base.types.Has t := by
  cases hty with
  | none => exact ⟨rfl, nofun⟩
  | some hty =>
    refine ⟨hty.funcDef? h.grows h.grows', fun args rets variadic hdef => ?_⟩
    cases hty with
    | old hold =>
      rw [Option.bind_some, h.grows.funcDef? hold] at hdef
      exact R.drafted.typed.store.has_funcDef? hdef
    | ptr ha _ _ => simp [TypeStore.funcDef?, ha] at hdef
    | array ha _ _ _ _ => simp [TypeStore.funcDef?, ha] at hdef

/-! ## Functions -/

omit h in
theorem exists_bare {params params' : List Param} (hbare : params'.map Param.bare = params.map Param.bare)
    {param' : Param} (hparam' : param' ∈ params') : ∃ param ∈ params, param.bare = param'.bare := by
  have hmem : param'.bare ∈ params.map Param.bare := hbare ▸ List.mem_map_of_mem hparam'
  exact List.mem_map.1 hmem

/-- A parameter of a function is one from the start, up to its note. -/
theorem Copies.exists_param {f : FuncId} {param : Param} (hparam : param ∈ (a.func f).inputs ++ (a.func f).results) :
    ∃ old ∈ (R.base.func f).inputs ++ (R.base.func f).results, old.bare = param.bare := by
  rcases List.mem_append.1 hparam with hparam | hparam
  · obtain ⟨old, hold, he⟩ := exists_bare (h.func f).inputs hparam
    exact ⟨old, List.mem_append_left _ hold, he⟩
  · rw [(h.func f).rest] at hparam
    exact ⟨param, List.mem_append_right _ hparam, rfl⟩

theorem Copies.hasType_param {f : FuncId} {param : Param}
    (hparam : param ∈ (a.func f).inputs ++ (a.func f).results) : R.base.HasType param.ty := by
  obtain ⟨old, hold, he⟩ := h.exists_param hparam
  have hty : old.bare.ty = param.bare.ty := congrArg Param.ty he
  exact fun t ht => R.drafted.typed.params f old hold t (hty.trans ht)

theorem Copies.name_param {f : FuncId} {param : Param}
    (hparam : param ∈ (a.func f).inputs ++ (a.func f).results) {n : NodeId} (hn : param.name = some n) :
    n.index < R.base.nodes.size := by
  obtain ⟨old, hold, he⟩ := h.exists_param hparam
  have hname : old.bare.name = param.bare.name := congrArg Param.name he
  exact R.closed n (Or.inr ⟨f, Func.mem_refs_name hold (hname.trans hn)⟩)

theorem Copies.isGroupCandidate (f : FuncId) : b.isGroupCandidate f = a.isGroupCandidate f := by
  unfold Program.isGroupCandidate Func.hasBody
  rw [(h.func' f).rest]

omit h in
theorem map_shift_name {name : Option NodeId} (hname : ∀ n, name = some n → n.index < R.base.nodes.size) :
    name.map R.shift = name := by
  cases name with
  | none => rfl
  | some n => rw [Option.map_some, R.shift_old (hname n rfl)]

/-- What a function declares is where it was. -/
theorem Copies.resultNames (f : FuncId) : (b.func f).results.filterMap (·.name) =
    ((a.func f).results.filterMap (·.name)).map R.shift := by
  have hresults : (b.func f).results = (a.func f).results := by rw [(h.func' f).rest]
  rw [hresults]
  refine (R.map_shift_old fun n hn => ?_).symm
  obtain ⟨param, hparam, hn⟩ := List.mem_filterMap.1 hn
  exact h.name_param (List.mem_append_right _ hparam) hn

theorem Copies.length_resultNames (f : FuncId) :
    ((a.func f).results.filterMap (·.name)).length = (a.func f).results.length := by
  have hresults : (a.func f).results = (R.base.func f).results := by rw [(h.func f).rest]
  rw [hresults, List.length_filterMap_eq_countP, List.countP_eq_length]
  exact fun result hresult => Option.isSome_iff_ne_none.2 (R.drafted.named f result hresult)

theorem Copies.recvName (f : FuncId) :
    Option.Rel (fun recv recv' => recv'.name = recv.name.map R.shift) (a.func f).recv (b.func f).recv := by
  have hbare := (h.func' f).recv
  cases hrecv : (a.func f).recv with
  | none =>
    rw [hrecv, Option.map_none, Option.map_eq_none_iff] at hbare
    rw [hbare]
    exact .none
  | some recv =>
    rw [hrecv, Option.map_some, Option.map_eq_some_iff] at hbare
    obtain ⟨recv', hrecv', hbare⟩ := hbare
    have hname : recv'.bare.name = recv.bare.name := congrArg Param.name hbare
    have hmem : recv ∈ (a.func f).inputs ++ (a.func f).results := by simp [Func.inputs, hrecv]
    rw [hrecv']
    exact .some (hname.trans (map_shift_name fun n => h.name_param hmem).symm)

theorem Copies.captures_old (f : FuncId) : ∀ n ∈ (a.func f).captures, n.index < R.base.nodes.size := by
  intro n hn
  rw [(h.func f).rest] at hn
  exact R.closed n (Or.inr ⟨f, Func.mem_refs.2 (Or.inr (Or.inr (Or.inr hn)))⟩)

theorem Copies.captures (f : FuncId) : (b.func f).captures = (a.func f).captures.map R.shift := by
  rw [R.map_shift_old (h.captures_old f), (h.func' f).rest]

theorem Copies.outputs (f : FuncId) : b.outputs (b.func f) = (a.outputs (a.func f)).map R.shift := by
  have hdecls : (a.func f).decls.map R.shift = (a.func f).decls := by
    refine R.map_shift_old fun n hn => ?_
    rw [(h.func f).decls] at hn
    exact R.closed n (Or.inr ⟨f, Func.mem_refs_decls hn⟩)
  unfold Program.outputs
  rw [(h.func' f).decls, ← hdecls, List.filter_map]
  congr 1
  rw [hdecls]
  exact List.filter_congr fun n _ => (h.node n).isNameOf .result

/-! ## Shapes of callees -/

/-- What a function value or a method of an interface tells of itself is its type. -/
theorem Copies.calleeShape {n : NodeId} (hknown : ∀ f, a.calleeOf n = some f → b.func f = a.func f) :
    (b.calleeShape (R.shift n)).results = (a.calleeShape n).results ∧
    (b.calleeShape (R.shift n)).params = (a.calleeShape n).params ∧
    Option.Rel (fun recv recv' => recv'.note = recv.note ∧ R.Likes a b recv.ty recv'.ty) (a.calleeShape n).recv
      (b.calleeShape (R.shift n)).recv := by
  unfold Program.calleeShape
  rw [h.calleeOf]
  cases hcallee : a.calleeOf n with
  | some f =>
    simp only [hknown f hcallee]
    refine ⟨trivial, trivial, ?_⟩
    cases hrecv : (a.func f).recv with
    | none => exact .none
    | some recv =>
      have hparam : recv ∈ (a.func f).inputs ++ (a.func f).results := by simp [Func.inputs, hrecv]
      exact .some ⟨rfl, likes_old (h.hasType_param hparam) a b⟩
  | none =>
    have hty : R.Likes a b (((a.node n).left.map a.node).bind (·.ty))
        (((b.node (R.shift n)).left.map b.node).bind (·.ty)) := by
      rw [(h.node n).left]
      cases (a.node n).left with
      | none => exact .none
      | some m => exact h.ty m
    have hrecv : R.Likes a b (((((a.node n).left.map a.node).bind (·.left)).map a.node).bind (·.ty))
        (((((b.node (R.shift n)).left.map b.node).bind (·.left)).map b.node).bind (·.ty)) := by
      rw [(h.node n).left]
      cases (a.node n).left with
      | none => exact .none
      | some m =>
        simp only [Option.map_some, Option.bind_some, (h.node m).left]
        cases (a.node m).left with
        | none => exact .none
        | some k => exact h.ty k
    simp only [(h.funcDef? hty).1, (h.node n).op]
    refine ⟨trivial, trivial, ?_⟩
    split
    · exact .some ⟨rfl, hrecv⟩
    · exact .none

/-- The types that a call knows of its callee are there from the start. -/
theorem Copies.hasType_shape (n : NodeId) : (∀ ty ∈ (a.calleeShape n).results, R.base.HasType ty) ∧
    ∀ param ∈ (a.calleeShape n).params, R.base.HasType param.ty := by
  unfold Program.calleeShape
  cases a.calleeOf n with
  | some f =>
    refine ⟨fun ty hty => ?_, fun param hparam => ?_⟩
    · obtain ⟨param, hparam, rfl⟩ := List.mem_map.1 hty
      exact h.hasType_param (List.mem_append_right _ hparam)
    · exact h.hasType_param (List.mem_append_left _ (List.mem_append_right _ hparam))
  | none =>
    have hty : R.Likes a b (((a.node n).left.map a.node).bind (·.ty))
        (((a.node n).left.map fun m => b.node (R.shift m)).bind (·.ty)) := by
      cases (a.node n).left with
      | none => exact .none
      | some m => exact h.ty m
    have hparts := (h.funcDef? hty).2
    dsimp only
    generalize (((a.node n).left.map a.node).bind (·.ty)).bind a.types.funcDef? = fn at hparts
    cases fn with
    | none => simp
    | some fn =>
      obtain ⟨args, rets, variadic⟩ := fn
      obtain ⟨hargs, hrets⟩ := hparts args rets variadic rfl
      refine ⟨fun ty hty => ?_, fun param hparam => ?_⟩
      · obtain ⟨t, ht, rfl⟩ := List.mem_map.1 hty
        exact Program.hasType_some (hrets t ht)
      · obtain ⟨i, hi, rfl⟩ := List.mem_mapIdx.1 hparam
        exact Program.hasType_some (hargs _ (List.getElem_mem hi))

omit h in
theorem map_variadic {params params' : List Param} (hbare : params'.map Param.bare = params.map Param.bare) :
    params'.map (·.variadic) = params.map (·.variadic) := by
  have hmap (params : List Param) : params.map (·.variadic) = (params.map Param.bare).map (·.variadic) := by
    rw [List.map_map]
    rfl
  rw [hmap, hmap params, hbare]

/-- How many results and parameters there are is known from the start. -/
theorem Copies.shape_base {n : NodeId} (hn : n.index < R.base.nodes.size) :
    (a.calleeShape n).results.length = R.base.resultCount n ∧
    (a.calleeShape n).params.map (·.variadic) = (R.base.calleeShape n).params.map (·.variadic) := by
  unfold Program.resultCount Program.calleeShape
  rw [h.calleeOf_base hn]
  cases R.base.calleeOf n with
  | some f =>
    have hresults : (a.func f).results = (R.base.func f).results := by rw [(h.func f).rest]
    exact ⟨by simp [hresults], map_variadic (h.func f).params⟩
  | none =>
    have hdef : (((a.node n).left.map a.node).bind (·.ty)).bind a.types.funcDef? =
        (((R.base.node n).left.map R.base.node).bind (·.ty)).bind R.base.types.funcDef? := by
      obtain ⟨_, _, he⟩ := h.nodes.node n hn
      have hleft : (a.node n).left = (R.base.node n).left := by rw [he]
      rw [hleft]
      cases hl : (R.base.node n).left with
      | none => rfl
      | some m =>
        have hm := R.closed m (Or.inl ⟨n, Node.mem_refs_left hl⟩)
        obtain ⟨_, _, hem⟩ := h.nodes.node m hm
        have hty : (a.node m).ty = (R.base.node m).ty := by rw [hem]
        simp only [Option.map_some, Option.bind_some, hty]
        cases ht : (R.base.node m).ty with
        | none => rfl
        | some t => exact h.grows.funcDef? (R.drafted.typed.node m t ht)
    simp only [hdef]
    exact ⟨trivial, trivial⟩

/-! ## Text -/

/-- The text of a node reads parts that were made before it. -/
theorem Copies.textAt {fuel fuel' : Nat} {n : NodeId} (hfuel : n.index < fuel) (hfuel' : n.index < fuel')
    (hordered : ∀ k : NodeId, k.index ≤ n.index → ∀ m ∈ (a.node k).inner, m.index < k.index) :
    b.textAt fuel' (R.shift n) = a.textAt fuel n := by
  induction fuel generalizing fuel' n with
  | zero => exact absurd hfuel (Nat.not_lt_zero _)
  | succ fuel ih =>
    obtain ⟨fuel', rfl⟩ := Nat.exists_eq_add_of_le' (Nat.lt_of_le_of_lt (Nat.zero_le _) hfuel')
    have hx := h.node n
    have hpart {m : NodeId} (hm : m ∈ (a.node n).inner) : b.textAt fuel' (R.shift m) = a.textAt fuel m := by
      have hlt := hordered n (Nat.le_refl _) m hm
      exact ih (by omega) (by omega) fun k hk => hordered k (by omega)
    have hleft {m : NodeId} (hm : (a.node n).left = some m) := hpart (Node.mem_inner.2 (Or.inl hm))
    have hty := h.optText (h.ty n)
    have hderef := h.optText (h.likes_deref? (h.ty n))
    have hmap {ms : List NodeId} (hop : (a.node n).op ≠ .switchStmt) (hms : ms = (a.node n).list) :
        (ms.map R.shift).map (b.textAt fuel') = ms.map (a.textAt fuel) := by
      rw [List.map_map]
      exact List.map_congr_left fun m hm => hpart (Node.mem_inner.2 (Or.inr (Or.inr (Or.inr ⟨hop, hms ▸ hm⟩))))
    unfold Program.textAt
    simp only [hx.op, hx.left, hx.list, hx.sym, hx.variadic, hty, hderef]
    cases hcall : (a.node n).op.isCall with
    | true =>
      -- The slice of a call is not shown.
      have hne : (a.node n).op ≠ .switchStmt := by
        intro hop
        rw [hop] at hcall
        cases hcall
      rw [hmap hne rfl]
      cases hop : (a.node n).op with
      | callFunc | callMethod | callInterface =>
        cases hl : (a.node n).left with
        | none => rfl
        | some m => simp only [Option.map_some, hleft hl]
      | _ => simp [hop, Op.isCall] at hcall
    | false =>
      rw [h.right_of_not_isCall hcall]
      have hright {m : NodeId} (hm : (a.node n).right = some m) :=
        hpart (Node.mem_inner.2 (Or.inr (Or.inr (Or.inl ⟨hcall, hm⟩))))
      by_cases hop : (a.node n).op = .switchStmt
      · cases hl : (a.node n).left <;> cases hr : (a.node n).right
        all_goals
          simp only [hop, Option.map_some, Option.map_none, Option.isSome_some, Option.isSome_none, hleft, hright, hl, hr]
      · rcases hlist : (a.node n).list with _ | ⟨lo, _ | ⟨hi, bounds⟩⟩
        all_goals
          have hmap := hmap hop hlist.symm
          simp only [List.map_cons, List.map_nil, List.cons.injEq, and_true] at hmap
          cases hl : (a.node n).left <;> cases hr : (a.node n).right
          all_goals
            simp only [Option.map_some, Option.map_none, Option.isSome_some, Option.isSome_none, List.map_cons,
              List.map_nil, hleft, hright, hl, hr, hmap]

theorem Copies.text {n : NodeId}
    (hordered : ∀ k : NodeId, k.index ≤ n.index → ∀ m ∈ (a.node k).inner, m.index < k.index) :
    b.text (R.shift n) = a.text n := by
  by_cases hn : n.index < a.nodes.size + 1
  · refine h.textAt hn ?_ hordered
    rw [h.size]
    omega
  · have hdefault := a.node_of_size_le (n := n) (by omega)
    have hop : (b.node (R.shift n)).op = .block := by
      rw [(h.node n).op, hdefault]
      rfl
    have hright : (b.node (R.shift n)).right = none := by
      rw [h.right_of_not_isCall (by rw [hdefault]; rfl), hdefault]
      rfl
    unfold Program.text Program.textAt
    simp only [hop, hright, hdefault]
    rfl

/-- The parts of a node from the start were made before it. -/
theorem Copies.ordered_old {n : NodeId} (hn : n.index < R.base.nodes.size) :
    ∀ k : NodeId, k.index ≤ n.index → ∀ m ∈ (a.node k).inner, m.index < k.index := by
  intro k hk m hm
  have hlt := Nat.lt_of_le_of_lt hk hn
  refine R.drafted.ordered k m ?_
  obtain ⟨right, noEscape, he⟩ := h.nodes.node k hlt
  rw [Node.mem_inner] at hm ⊢
  rcases h.nodes.right k hlt with hr | ⟨hcall, _⟩
  · rw [hr, he] at hm
    exact hm
  · rw [he] at hm
    rcases hm with hm | hm | ⟨hnot, _⟩ | hm
    · exact Or.inl hm
    · exact Or.inr (Or.inl hm)
    · rw [hcall] at hnot
      cases hnot
    · exact Or.inr (Or.inr (Or.inr hm))

theorem Copies.message (x : Finding) (htext : ∀ n ∈ x.texts, b.text (R.shift n) = a.text n) (verbose : Bool) :
    (x.map R.shift).message b verbose = x.message a verbose := by
  have hname (f : FuncId) : (b.func f).name = (a.func f).name := by rw [(h.func' f).rest]
  cases x with
  | leaksToResult param out level =>
    have hparam := htext param List.mem_cons_self
    unfold Finding.message Finding.map
    dsimp only
    rw [hparam, (h.node out).sym]
  | leaks param dst level dstDepth srcDepth =>
    have hparam := htext param List.mem_cons_self
    have hdst := htext dst (List.mem_cons_of_mem _ List.mem_cons_self)
    unfold Finding.message Finding.map
    dsimp only
    rw [hparam, hdst]
  | stays n f =>
    have hn := htext n List.mem_cons_self
    unfold Finding.message Finding.map
    dsimp only
    cases f with
    | none => rw [hn]
    | some f =>
      dsimp only
      rw [hn, hname]
  | selfAssigns stmt n f =>
    have hn := htext n List.mem_cons_self
    unfold Finding.message Finding.map
    simp only [hn, hname]
  | leaksCaptured n | contentEscapes n | addressEscapes _ n | allocEscapes n | moved n =>
    have hn := htext n List.mem_cons_self
    unfold Finding.message Finding.map
    dsimp only
    rw [hn]

theorem Copies.diagnostic (x : Finding) (htext : ∀ n ∈ x.texts, b.text (R.shift n) = a.text n) (verbose : Bool) :
    (x.map R.shift).diagnostic b verbose = x.diagnostic a verbose := by
  have hnode : (x.map R.shift).node = R.shift x.node := by cases x <;> rfl
  have hkind : (x.map R.shift).kind = x.kind := by cases x <;> rfl
  have hfunc : (x.map R.shift).func b = x.func a := by cases x <;> first | rfl | exact (h.node _).curfn
  simp only [Finding.diagnostic, hkind, hnode, (h.node x.node).line, hfunc, h.message x htext]

/-- Both analyses record a finding in the same words. -/
theorem Copies.record (c : Config) (x : Finding) (htext : ∀ n ∈ x.texts, b.text (R.shift n) = a.text n)
    (report : Report) : c.record b (x.map R.shift) report = c.record a x report := by
  unfold Config.record
  rw [h.diagnostic x htext]

end Rerun

end EscapeAnalysis

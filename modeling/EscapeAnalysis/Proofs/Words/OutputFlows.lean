import EscapeAnalysis.Proofs.Flood.Inputs
import EscapeAnalysis.Proofs.Words.Packing
import Mathlib.Data.List.Induction

/-!
# Flows to outputs add up

An input may flow to the outputs of its function in many ways, and each flow is recorded in the word that the earlier
ones left. What the word says in the end is what the flows say together: neither their order nor a repetition counts.

* `OutputFlow` : a flow to an output, of content only (`OnlyContent`) or to a field of the word (`Fits`);
* `leastValue?`, `fieldOf` : what the flows say of one output;
* `Word.record`, `Word.recordAll` : the word after one flow, and after all of them;
* `Word.toNat_recordAll` : the same on numbers of sixteen bits;
* `Word.Told` : the word says what the flows say;
* `Word.Told.record`, `Word.told_recordAll` : one more flow, and all flows;
* `Word.recordAll_adds_up` : the word after any flows.
-/

namespace EscapeAnalysis

/-! ## Flows -/

/-- A flow from an input to the `ordinal`-th output, counted from one. -/
structure OutputFlow where
  ordinal : Nat
  level : Level
deriving DecidableEq

namespace OutputFlow

/-- Only what the input points to gets there, through at least one dereference. -/
def OnlyContent (f : OutputFlow) : Prop := f.level.value ≤ 0 ∧ 0 < f.level.suffix

/-- The output has a field, and the level can be told in it. -/
def Fits (f : OutputFlow) : Prop := 0 ≤ f.level.value ∧ 1 ≤ f.ordinal ∧ f.ordinal ≤ 4

/-- The flow counts for the field of the `k`-th output. -/
def TellsOf (f : OutputFlow) (k : Nat) : Prop := f.ordinal = k ∧ ¬ f.OnlyContent

instance (f : OutputFlow) : Decidable f.OnlyContent :=
  inferInstanceAs (Decidable (f.level.value ≤ 0 ∧ 0 < f.level.suffix))

instance (f : OutputFlow) : Decidable f.Fits :=
  inferInstanceAs (Decidable (0 ≤ f.level.value ∧ 1 ≤ f.ordinal ∧ f.ordinal ≤ 4))

instance (f : OutputFlow) (k : Nat) : Decidable (f.TellsOf k) :=
  inferInstanceAs (Decidable (f.ordinal = k ∧ ¬ f.OnlyContent))

end OutputFlow

/-- The least value among the flows that count for the `k`-th output. -/
def leastValue? (flows : List OutputFlow) (k : Nat) : Option Int :=
  ((flows.filter fun f => f.TellsOf k).map fun f => f.level.value).min?

/-- One more than the least value, of which a field tells six at most, or zero without a flow. -/
def fieldOf (flows : List OutputFlow) (k : Nat) : Int := (leastValue? flows k).elim 0 fun v => 1 + Min.min 6 v

section Least

variable {flows : List OutputFlow} {f : OutputFlow} {k : Nat}

theorem leastValue?_eq_some_iff {v : Int} :
    leastValue? flows k = some v ↔
      (∃ f ∈ flows, f.TellsOf k ∧ f.level.value = v) ∧ ∀ f ∈ flows, f.TellsOf k → v ≤ f.level.value := by
  have hmem (u : Int) : u ∈ (flows.filter fun f => f.TellsOf k).map (fun f => f.level.value) ↔
      ∃ f ∈ flows, f.TellsOf k ∧ f.level.value = u := by
    simp [and_assoc]
  rw [leastValue?, List.min?_eq_some_iff, hmem]
  refine and_congr_right fun _ => ⟨fun h f hf hk => h _ ((hmem _).2 ⟨f, hf, hk, rfl⟩), fun h u hu => ?_⟩
  obtain ⟨f, hf, hk, rfl⟩ := (hmem u).1 hu
  exact h f hf hk

/-- Only which flows there are counts. -/
theorem fieldOf_congr {others : List OutputFlow} (h : ∀ f, f ∈ others ↔ f ∈ flows) (k : Nat) :
    fieldOf others k = fieldOf flows k := by
  have hleast : leastValue? others k = leastValue? flows k := by
    refine Option.ext fun v => ?_
    simp only [leastValue?_eq_some_iff, h]
  rw [fieldOf, hleast, fieldOf]

theorem min?_concat (values : List Int) (v : Int) : (values ++ [v]).min? = some (values.min?.elim v (Min.min · v)) := by
  cases values with
  | nil => rfl
  | cons u values =>
    rw [List.cons_append, List.min?_cons', List.min?_cons', List.foldl_append]
    rfl

theorem fieldOf_concat_of_not (h : ¬ f.TellsOf k) : fieldOf (flows ++ [f]) k = fieldOf flows k := by
  simp [fieldOf, leastValue?, List.filter_append, h]

theorem leastValue?_concat (h : f.TellsOf k) :
    leastValue? (flows ++ [f]) k = some ((leastValue? flows k).elim f.level.value (Min.min · f.level.value)) := by
  unfold leastValue?
  rw [List.filter_append, List.filter_cons_of_pos (by simpa using h), List.filter_nil, List.map_append]
  exact min?_concat _ _

/-- A field that is set is lowered, one that is not gets the level of the flow. -/
theorem fieldOf_concat (hflows : ∀ f ∈ flows, f.OnlyContent ∨ f.Fits) (h : f.TellsOf k) :
    fieldOf (flows ++ [f]) k =
      if fieldOf flows k = 0 ∨ 1 + Min.min 6 f.level.value < fieldOf flows k then 1 + Min.min 6 f.level.value
      else fieldOf flows k := by
  unfold fieldOf
  rw [leastValue?_concat h]
  cases hleast : leastValue? flows k with
  | none => simp
  | some v =>
    -- The least value belongs to a flow that fits, so a field that is set is not zero.
    obtain ⟨⟨g, hg, hk, rfl⟩, _⟩ := leastValue?_eq_some_iff.1 hleast
    have hvalue : 0 ≤ g.level.value := ((hflows g hg).resolve_left hk.2).1
    simp only [Option.elim_some]
    omega

end Least

namespace Word

/-! ## One flow -/

/-- A flow is recorded as long as the value stays in its scope. -/
def record (w : Word) (f : OutputFlow) : Word := if w.cls < .scope then w.flowTo f.ordinal f.level else w

/-- The flows are recorded one after the other. -/
def recordAll (w : Word) (flows : List OutputFlow) : Word := flows.foldl record w

theorem recordAll_concat (w : Word) (flows : List OutputFlow) (f : OutputFlow) :
    w.recordAll (flows ++ [f]) = (w.recordAll flows).record f := by
  unfold recordAll
  rw [List.foldl_append]
  rfl

/-- The number of a word after one more flow. -/
def packedRecord (e : Nat) (f : OutputFlow) : Nat :=
  if e &&& Packed.mask < EscapeClass.scope.bits.val then Packed.flowTo e f.ordinal f.level else e

theorem toNat_record (w : Word) (f : OutputFlow) : (w.record f).toNat = packedRecord w.toNat f := by
  have hcls : ∀ b : Fin 8, EscapeClass.ofBits b < .scope ↔ b.val < EscapeClass.scope.bits.val := by decide
  have hscope : w.cls < .scope ↔ w.bits.val < EscapeClass.scope.bits.val := hcls w.bits
  rw [record, packedRecord, Packed.and_mask, toNat_mod_eight]
  split
  · rename_i h
    rw [if_pos (hscope.1 h), toNat_flowTo]
  · rename_i h
    rw [if_neg (mt hscope.2 h)]

theorem toNat_recordAll (w : Word) (flows : List OutputFlow) :
    (w.recordAll flows).toNat = flows.foldl packedRecord w.toNat := by
  induction flows generalizing w with
  | nil => rfl
  | cons f flows ih =>
    rw [List.foldl_cons, ← toNat_record, ← ih]
    rfl

/-- The word `w` says what the flows say that were recorded in `w₀`. -/
structure Told (w₀ : Word) (flows : List OutputFlow) (w : Word) : Prop where
  cls : w.cls = .result
  content : w.content = true ↔ w₀.content = true ∨ ∃ f ∈ flows, f.OnlyContent
  outputs : ∀ i : Fin 4, ((w.outputs.get i).val : Int) = fieldOf flows (i.val + 1)

variable {w w₀ : Word} {f : OutputFlow} {flows : List OutputFlow}

theorem record_of_result (h : w.cls = .result) (f : OutputFlow) : w.record f = w.flowTo f.ordinal f.level :=
  if_pos (by rw [h]; decide)

theorem flowTo_of_onlyContent (hf : f.OnlyContent) : w.flowTo f.ordinal f.level = w.raiseContent := by
  unfold flowTo
  rw [if_pos (by simpa [OutputFlow.OnlyContent] using hf)]

theorem slot?_eq_none {k : Nat} (h : ¬ (1 ≤ k ∧ k ≤ 4)) : slot? k = none := dif_neg h

theorem flowTo_eq_heap (hcontent : ¬ f.OnlyContent) (hfits : ¬ f.Fits) : w.flowTo f.ordinal f.level = plain .heap := by
  unfold flowTo
  rw [if_neg (by simpa [OutputFlow.OnlyContent] using hcontent)]
  split
  · rfl
  · rename_i hvalue
    rw [slot?_eq_none fun hslot => hfits ⟨Int.not_lt.1 hvalue, hslot⟩]

/-- The field of the output is set to the level of the flow, or lowered to it; everything else stays. -/
theorem flowTo_of_fits (hcontent : ¬ f.OnlyContent) (hfits : f.Fits) :
    (w.flowTo f.ordinal f.level).cls = w.cls ∧ (w.flowTo f.ordinal f.level).content = w.content ∧
      ∀ i : Fin 4, (((w.flowTo f.ordinal f.level).outputs.get i).val : Int) =
        if f.ordinal = i.val + 1 ∧
            (((w.outputs.get i).val : Int) = 0 ∨ 1 + Min.min 6 f.level.value < (w.outputs.get i).val) then
          1 + Min.min 6 f.level.value
        else (w.outputs.get i).val := by
  obtain ⟨hvalue, hslot⟩ := hfits
  obtain ⟨j, hj⟩ : ∃ j, slot? f.ordinal = some j := ⟨_, dif_pos hslot⟩
  have hordinal := slot?_eq_some hj
  have hfield : ((Fin.ofNat 8 (Nat.min f.level.value.toNat maxLevel + 1)).val : Int) = 1 + Min.min 6 f.level.value := by
    rw [val_field]
    simp only [maxLevel, Nat.min_def]
    split <;> omega
  have hlower : (w.outputs.get j = 0 ∨ Fin.ofNat 8 (Nat.min f.level.value.toNat maxLevel + 1) < w.outputs.get j) ↔
      ((w.outputs.get j).val : Int) = 0 ∨ 1 + Min.min 6 f.level.value < (w.outputs.get j).val := by
    rw [← hfield, Fin.ext_iff, Fin.lt_def]
    exact or_congr Int.natCast_eq_zero.symm Int.ofNat_lt.symm
  unfold flowTo
  rw [if_neg (by simpa [OutputFlow.OnlyContent] using hcontent), if_neg (Int.not_lt.2 hvalue), hj]
  dsimp only
  split
  · rename_i hset
    refine ⟨rfl, rfl, fun i => ?_⟩
    by_cases hi : j = i
    · subst hi
      rw [if_pos ⟨hordinal.symm, hlower.1 hset⟩, outputs_set_self]
      exact hfield
    · rw [if_neg fun h => hi (Fin.ext (by omega)), outputs_set_of_ne _ _ hi]
  · rename_i hkeep
    refine ⟨rfl, rfl, fun i => (if_neg ?_).symm⟩
    rintro ⟨hi, hset⟩
    obtain rfl : j = i := Fin.ext (by omega)
    exact hkeep (hlower.2 hset)

/-- One more flow that the word can tell of. -/
theorem Told.record (h : Told w₀ flows w) (hflows : ∀ f ∈ flows, f.OnlyContent ∨ f.Fits) (hf : f.OnlyContent ∨ f.Fits) :
    Told w₀ (flows ++ [f]) (w.record f) := by
  rw [record_of_result h.cls]
  have hcontent : (∃ g ∈ flows ++ [f], g.OnlyContent) ↔ (∃ g ∈ flows, g.OnlyContent) ∨ f.OnlyContent := by
    simp [or_and_right, exists_or]
  by_cases honly : f.OnlyContent
  · rw [flowTo_of_onlyContent honly]
    refine ⟨?_, ?_, fun i => ?_⟩
    · rcases w.cls_raiseContent with hsame | ⟨hunknown, _⟩
      · rw [hsame, h.cls]
      · rw [h.cls] at hunknown
        cases hunknown
    · rw [hcontent]
      exact iff_of_true w.content_raiseContent (Or.inr (Or.inr honly))
    · rw [outputs_raiseContent, h.outputs, fieldOf_concat_of_not fun hk => hk.2 honly]
  · obtain ⟨hcls, hsame, houtputs⟩ := flowTo_of_fits (w := w) honly (hf.resolve_left honly)
    refine ⟨?_, ?_, fun i => ?_⟩
    · rw [hcls, h.cls]
    · rw [hsame, h.content, hcontent]
      simp [honly]
    · rw [houtputs, h.outputs]
      by_cases hk : f.ordinal = i.val + 1
      · rw [fieldOf_concat hflows ⟨hk, honly⟩]
        simp only [hk, true_and]
      · rw [fieldOf_concat_of_not fun hk' => hk hk'.1, if_neg fun hk' => hk hk'.1]

/-- A flow that the word cannot tell of. -/
theorem Told.record_eq_heap (h : Told w₀ flows w) (hcontent : ¬ f.OnlyContent) (hfits : ¬ f.Fits) :
    w.record f = plain .heap := by
  rw [record_of_result h.cls, flowTo_eq_heap hcontent hfits]

/-- The heap is not left again. -/
theorem record_heap (f : OutputFlow) : (plain .heap).record f = plain .heap := if_neg (by decide)

/-! ## All flows -/

theorem forall_fits_of_not_exists (h : ¬ ∃ f ∈ flows, ¬ f.OnlyContent ∧ ¬ f.Fits) :
    ∀ f ∈ flows, f.OnlyContent ∨ f.Fits := by
  intro f hf
  by_contra hnot
  exact h ⟨f, hf, not_or.1 hnot⟩

section All

variable (hcls : w.cls = .result) (hfields : ∀ i, (w.outputs.get i).val = 0)
include hcls hfields

theorem told_recordAll (hflows : ∀ f ∈ flows, f.OnlyContent ∨ f.Fits) : Told w flows (w.recordAll flows) := by
  induction flows using List.reverseRecOn with
  | nil => exact ⟨hcls, by simp [recordAll], fun i => by simp [recordAll, hfields, fieldOf, leastValue?]⟩
  | append_singleton flows f ih =>
    rw [recordAll_concat]
    obtain ⟨hearlier, hf⟩ := List.forall_mem_append.1 hflows
    exact (ih hearlier).record hearlier (hf f (List.mem_singleton_self f))

theorem recordAll_eq_heap (hflows : ∃ f ∈ flows, ¬ f.OnlyContent ∧ ¬ f.Fits) : w.recordAll flows = plain .heap := by
  induction flows using List.reverseRecOn with
  | nil => simp at hflows
  | append_singleton flows f ih =>
    rw [recordAll_concat]
    by_cases hearlier : ∃ g ∈ flows, ¬ g.OnlyContent ∧ ¬ g.Fits
    · rw [ih hearlier, record_heap]
    · -- The last flow is the only one that the word cannot tell of.
      have htold := told_recordAll hcls hfields (forall_fits_of_not_exists hearlier)
      obtain ⟨g, hg, hbad⟩ := hflows
      rcases List.mem_append.1 hg with hg | hg
      · exact absurd ⟨g, hg, hbad⟩ hearlier
      · rw [List.mem_singleton.1 hg] at hbad
        exact htold.record_eq_heap hbad.1 hbad.2

end All

theorem bits_of_result (h : w.cls = .result) : w.bits = EscapeClass.result.bits := by
  have hbits : ∀ b, EscapeClass.ofBits b = .result → b = EscapeClass.result.bits := by decide
  exact hbits w.bits h

/-- What the flows say determines the word. -/
theorem Told.eq_of_mem_iff {w' : Word} {others : List OutputFlow} (h : Told w₀ flows w) (h' : Told w₀ others w')
    (hsame : ∀ f, f ∈ others ↔ f ∈ flows) : w' = w := by
  have hbits : w'.bits = w.bits := (bits_of_result h'.cls).trans (bits_of_result h.cls).symm
  have hcontent : w'.content = w.content := by
    rw [Bool.eq_iff_iff, h.content, h'.content]
    simp only [hsame]
  have houtputs : w'.outputs = w.outputs := by
    refine Vector.ext fun i hi => Fin.ext ?_
    have hout := (h'.outputs ⟨i, hi⟩).trans ((fieldOf_congr hsame _).trans (h.outputs ⟨i, hi⟩).symm)
    exact Int.ofNat_inj.1 hout
  obtain ⟨_, _, _⟩ := w
  obtain ⟨_, _, _⟩ := w'
  subst hbits hcontent houtputs
  rfl

/-- Flows that are recorded in a word of the class `result` without output fields put the value on the heap if the word
cannot tell of one of them. Otherwise the word has the content flag if one of them is of content only, and for each
output the least level. So neither order nor repetition counts. The number of the word comes about by shifts and masks,
and its fields are read by them. -/
theorem recordAll_adds_up (w : Word) (hcls : w.cls = .result) (hfields : ∀ i, (w.outputs.get i).val = 0)
    (flows : List OutputFlow) :
    ((∃ f ∈ flows, ¬ f.OnlyContent ∧ ¬ f.Fits) → w.recordAll flows = plain .heap) ∧
    ((∀ f ∈ flows, f.OnlyContent ∨ f.Fits) →
      (w.recordAll flows).cls = .result ∧
      ((w.recordAll flows).content = true ↔ w.content = true ∨ ∃ f ∈ flows, f.OnlyContent) ∧
      ∀ i : Fin 4, (((w.recordAll flows).outputs.get i).val : Int) = fieldOf flows (i.val + 1) ∧
        ((w.recordAll flows).fields[i.val]?).getD 0 = (w.recordAll flows).outputs.get i) ∧
    (∀ others : List OutputFlow, (∀ f, f ∈ others ↔ f ∈ flows) → w.recordAll others = w.recordAll flows) ∧
    (w.recordAll flows).toNat = flows.foldl packedRecord w.toNat ∧
    (w.recordAll flows).fields.map Fin.val = Packed.fields (w.recordAll flows).toNat := by
  refine ⟨recordAll_eq_heap hcls hfields, ?_, ?_, w.toNat_recordAll flows, map_val_fields _⟩
  · intro hflows
    have htold := told_recordAll hcls hfields hflows
    refine ⟨htold.cls, htold.content, ?_⟩
    intro i
    exact ⟨htold.outputs i, getD_fields _ i⟩
  · intro others hsame
    by_cases hbad : ∃ f ∈ flows, ¬ f.OnlyContent ∧ ¬ f.Fits
    · rw [recordAll_eq_heap hcls hfields hbad, recordAll_eq_heap hcls hfields (by simpa only [hsame] using hbad)]
    · have hflows := forall_fits_of_not_exists hbad
      exact (told_recordAll hcls hfields hflows).eq_of_mem_iff
        (told_recordAll hcls hfields fun f hf => hflows f ((hsame f).1 hf)) hsame

/-- Two flows to the first output, one of content only, and one to the fourth output at a level above all fields. -/
def mixedFlows : List OutputFlow := [⟨1, ⟨2, 2⟩⟩, ⟨2, ⟨0, 1⟩⟩, ⟨1, .zero⟩, ⟨4, ⟨40, 40⟩⟩]

theorem recordAll_adds_up_mixedFlows :
    ((plain .result).recordAll mixedFlows).cls = .result ∧
    ((plain .result).recordAll mixedFlows).content = true ∧
    (∀ i : Fin 4, (((plain .result).recordAll mixedFlows).outputs.get i).val = [1, 0, 0, 7].getD i.val 0) ∧
    (plain .result).recordAll (mixedFlows.reverse ++ mixedFlows) = (plain .result).recordAll mixedFlows ∧
    (plain .result).recordAll (mixedFlows ++ [⟨5, .zero⟩]) = plain .heap := by
  have hadds := recordAll_adds_up (plain .result) (cls_plain .result) (outputs_plain .result)
  obtain ⟨_, htold, hsame, _⟩ := hadds mixedFlows
  obtain ⟨hcls, hcontent, houtputs⟩ := htold (by decide)
  refine ⟨hcls, hcontent.2 (Or.inr (by decide)), fun i => ?_, hsame _ (by simp), (hadds _).1 (by decide)⟩
  have hfield : fieldOf mixedFlows (i.val + 1) = ([1, 0, 0, 7].getD i.val 0 : Nat) := by
    revert i
    decide
  exact Int.ofNat_inj.1 ((houtputs i).1.trans hfield)

end Word

end EscapeAnalysis

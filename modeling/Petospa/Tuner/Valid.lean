import Petospa.Tuner.Layout

/-!
# What the operations of the explorer do

`Valid` is the invariant of the explorer's data: the control string is the
layout of the choices, positions are where their values stand, and exactly the
choices below `firstPos` are fixed. Each operation has one lemma that says when
it succeeds and what it changes; the search is reasoned about through these.
-/

namespace Petospa

open Text

namespace OptimisticChoice

/-- What the encoding of a choice depends on. -/
def coded (oc : OptimisticChoice) : Int × Int × Nat := (oc.functionNo, oc.opportunityNo, oc.value)

end OptimisticChoice

theorem encode_congr {xs ys : List OptimisticChoice} (f k : Int)
    (h : xs.map OptimisticChoice.coded = ys.map OptimisticChoice.coded) :
    encode f k xs = encode f k ys := by
  induction xs generalizing ys f k with
  | nil =>
      obtain rfl : ys = [] := by simpa using h.symm
      rfl
  | cons x xs ih =>
      cases ys with
      | nil => simp at h
      | cons y ys =>
          simp only [List.map_cons, List.cons.injEq, OptimisticChoice.coded, Prod.mk.injEq] at h
          obtain ⟨⟨hf, hk, hv⟩, hrest⟩ := h
          simp only [encode, header, hf, hk, hv]
          rw [ih y.functionNo y.opportunityNo hrest]

/-- Replacing one value in place is the layout of the updated choices. -/
theorem layout_set_value (s : Str) (ocs : List OptimisticChoice) {i : Nat} (hi : i < ocs.length)
    (v : Nat) :
    layout s (ocs.set i { ocs[i] with value := v }) =
      (layout s ocs).take (layoutFront s (ocs.take i) ocs[i]).length ++ [optionChar v] ++
        (layout s ocs).drop ((layoutFront s (ocs.take i) ocs[i]).length + 1) := by
  rw [List.set_eq_take_append_cons_drop, if_pos hi, layout_split, layout_eq_front hi,
    List.take_left, List.drop_length_add_append]
  simp [layoutFront, header]

namespace ChoiceExplorer

/-- The current values of the choices. -/
def values (ex : ChoiceExplorer) : List Nat := ex.choices.map OptimisticChoice.value

/-- The explorer's data are consistent with the string `s` and the choices
`ocs` that it was built from. -/
structure Valid (s : Str) (ocs : List OptimisticChoice) (ex : ChoiceExplorer) : Prop where
  lastPos : ex.lastPos = ocs.length
  length : ex.optimisticChoices.length = ocs.length + 1
  same : ex.choices.map OptimisticChoice.blank =
    (place s (-1) (-1) ocs).2.map OptimisticChoice.blank
  dummy : ∀ d, ex.optimisticChoices[ocs.length]? = some d →
    d.position = (layout s ocs).length ∧ d.fixed = false ∧ d.value = 0
  control : ex.controlString = layout s ex.choices
  firstPos : ex.firstPos ≤ ocs.length
  fixed : ∀ i oc, i < ocs.length → ex.optimisticChoices[i]? = some oc →
    oc.fixed = decide (i < ex.firstPos)

namespace Valid

variable {s : Str} {ocs : List OptimisticChoice} {ex : ChoiceExplorer}

theorem choices_length (h : Valid s ocs ex) : ex.choices.length = ocs.length := by
  rw [choices, List.length_take, h.lastPos, h.length]
  omega

@[simp] theorem values_length (h : Valid s ocs ex) : ex.values.length = ocs.length := by
  rw [values, List.length_map, h.choices_length]

theorem getElem? (h : Valid s ocs ex) {i : Nat} (hi : i < ex.choices.length) :
    ex.optimisticChoices[i]? = some ex.choices[i] := by
  have hlt : i < ex.lastPos := by
    rw [h.lastPos, ← h.choices_length]
    exact hi
  have hget : ex.choices[i]? = ex.optimisticChoices[i]? := by
    rw [choices, List.getElem?_take_of_lt hlt]
  rw [← hget, List.getElem?_eq_getElem hi]

theorem getElem?_dummy (h : Valid s ocs ex) :
    ∃ d, ex.optimisticChoices[ocs.length]? = some d := by
  have hlt : ocs.length < ex.optimisticChoices.length := by
    rw [h.length]
    omega
  exact ⟨ex.optimisticChoices[ocs.length], List.getElem?_eq_getElem hlt⟩

theorem map_shape (h : Valid s ocs ex) :
    ex.choices.map OptimisticChoice.shape =
      (place s (-1) (-1) ocs).2.map OptimisticChoice.shape := by
  have hshape : OptimisticChoice.shape ∘ OptimisticChoice.blank = OptimisticChoice.shape := rfl
  rw [← hshape, ← List.map_map, ← List.map_map, h.same]

/-- The position of a choice is the end of what stands in front of its value. -/
theorem position (h : Valid s ocs ex) {i : Nat} (hi : i < ex.choices.length) :
    ex.choices[i].position = (layoutFront s (ex.choices.take i) ex.choices[i]).length := by
  have hocs : i < ocs.length := by rw [← h.choices_length]; exact hi
  have hplace : i < (place s (-1) (-1) ocs).2.length := by simpa using hocs
  have hblank : ex.choices[i].blank = ((place s (-1) (-1) ocs).2[i]).blank := by
    have hget := List.getElem_of_eq h.same (i := i) (by simpa using hi)
    rwa [List.getElem_map, List.getElem_map] at hget
  have hposition := congrArg OptimisticChoice.position hblank
  change ex.choices[i].position = ((place s (-1) (-1) ocs).2[i]).position at hposition
  rw [hposition, place_position, length_layoutFront_congr h.map_shape hi hplace]

theorem length_layout (h : Valid s ocs ex) :
    (layout s ex.choices).length = (layout s ocs).length := by
  rw [layout, layout, List.length_append, List.length_append,
    length_encode_congr _ _ (h.map_shape.trans (map_shape_place s (-1) (-1) ocs))]

/-! ### Slices -/

/-- A tested string is the layout of the choices up to the given index. -/
theorem slice (h : Valid s ocs ex) {pos : Nat} (hpos : pos ≤ ocs.length) :
    ex.slice pos = .ok (layout s (ex.choices.take (pos + 1))) := by
  rcases Nat.lt_or_ge pos ocs.length with hlt | hge
  · have hi : pos < ex.choices.length := by rw [h.choices_length]; exact hlt
    simp only [ChoiceExplorer.slice, getControlStringPositionForPosition, h.getElem? hi]
    change Except.ok (ex.controlString.take (ex.choices[pos].position + 1)) = _
    rw [h.control, h.position hi, take_layout hi]
  · obtain rfl : pos = ocs.length := by omega
    obtain ⟨d, hd⟩ := h.getElem?_dummy
    simp only [ChoiceExplorer.slice, getControlStringPositionForPosition, hd]
    change Except.ok (ex.controlString.take (d.position + 1)) = _
    rw [h.control, (h.dummy d hd).1, List.take_of_length_le, List.take_of_length_le]
    · rw [h.choices_length]
      exact Nat.le_succ _
    · rw [h.length_layout]
      exact Nat.le_succ _

/-- Behind the dummy entry there is nothing to slice. -/
theorem le_of_slice (h : Valid s ocs ex) {pos : Nat} {t : Str} (ht : ex.slice pos = .ok t) :
    pos ≤ ocs.length := by
  by_contra hpos
  have hnone : ex.optimisticChoices[pos]? = none := by
    rw [List.getElem?_eq_none_iff, h.length]
    omega
  simp only [ChoiceExplorer.slice, getControlStringPositionForPosition, hnone] at ht
  cases ht

/-! ### Fixing choices -/

theorem choices_set (ex : ChoiceExplorer) (i : Nat) (oc : OptimisticChoice) (firstPos : Nat)
    (controlString : Str) :
    ({ ex with
      optimisticChoices := ex.optimisticChoices.set i oc
      firstPos := firstPos
      controlString := controlString } : ChoiceExplorer).choices = ex.choices.set i oc :=
  List.take_set ..

/-- Fixing the next choice at its value. -/
theorem fixNext (h : Valid s ocs ex) (hi : ex.firstPos < ex.choices.length) :
    let ex' : ChoiceExplorer := { ex with
      optimisticChoices := ex.optimisticChoices.set ex.firstPos
        { ex.choices[ex.firstPos] with fixed := true }
      firstPos := ex.firstPos + 1 }
    Valid s ocs ex' ∧ ex'.values = ex.values := by
  intro ex'
  have hocs : ex.firstPos < ocs.length := by rw [← h.choices_length]; exact hi
  have hchoices : ex'.choices =
      ex.choices.set ex.firstPos { ex.choices[ex.firstPos] with fixed := true } :=
    choices_set ex _ _ _ _
  have hvalues : ex'.values = ex.values := by
    rw [values, hchoices]
    exact map_set_of_eq _ hi rfl
  have hcoded : ex'.choices.map OptimisticChoice.coded = ex.choices.map OptimisticChoice.coded := by
    rw [hchoices]
    exact map_set_of_eq _ hi rfl
  refine ⟨⟨h.lastPos, by simp [ex', h.length], ?_, ?_, ?_, hocs, ?_⟩, hvalues⟩
  · rw [hchoices, ← h.same]
    exact map_set_of_eq _ hi rfl
  · intro d hd
    rw [List.getElem?_set_ne (by omega)] at hd
    exact h.dummy d hd
  · change ex.controlString = _
    rw [h.control, layout, layout, encode_congr _ _ hcoded]
  · intro i oc hlt hoc
    change (ex.optimisticChoices.set _ _)[i]? = some oc at hoc
    change oc.fixed = decide (i < ex.firstPos + 1)
    by_cases heq : ex.firstPos = i
    · subst heq
      rw [List.getElem?_set_self (by rw [h.length]; omega)] at hoc
      obtain rfl := Option.some.inj hoc
      simp
    · rw [List.getElem?_set_ne heq] at hoc
      rw [h.fixed i oc hlt hoc]
      simp only [decide_eq_decide]
      omega

/-- `advance` fixes the next `n` choices when there are that many. -/
theorem advance (h : Valid s ocs ex) {n : Nat} (hn : ex.firstPos + n ≤ ocs.length) :
    ∃ ex', ex.advance n = .ok ex' ∧ Valid s ocs ex' ∧ ex'.firstPos = ex.firstPos + n ∧
      ex'.values = ex.values := by
  induction n generalizing ex with
  | zero =>
      refine ⟨ex, ?_, h, rfl, rfl⟩
      rw [ChoiceExplorer.advance, if_pos (by rw [h.length]; omega)]
  | succ n ih =>
      have hlt : ex.firstPos < ocs.length := by omega
      have hi : ex.firstPos < ex.choices.length := by rw [h.choices_length]; exact hlt
      have hfixed := h.fixed _ _ hlt (h.getElem? hi)
      simp only [Nat.lt_irrefl, decide_false] at hfixed
      obtain ⟨hvalid, hvalues⟩ := h.fixNext hi
      obtain ⟨ex', hadvance, hvalid', hfirst, hvalues'⟩ :=
        ih hvalid (by change ex.firstPos + 1 + n ≤ _; omega)
      refine ⟨ex', ?_, hvalid', ?_, hvalues'.trans hvalues⟩
      · rw [ChoiceExplorer.advance, h.getElem? hi]
        simp only [OptimisticChoice.fix, hfixed, Bool.false_eq_true, if_false]
        exact hadvance
      · rw [hfirst]
        change ex.firstPos + 1 + n = ex.firstPos + (n + 1)
        omega

theorem advance_error {n : Nat} (hlen : ex.optimisticChoices.length ≤ ex.firstPos) :
    ex.advance n = .error .indexError := by
  cases n with
  | zero => rw [ChoiceExplorer.advance, if_neg (by omega)]
  | succ n => simp only [ChoiceExplorer.advance, List.getElem?_eq_none_iff.mpr hlen]

/-- `advance` cannot succeed past the last choice. -/
theorem le_of_advance (h : Valid s ocs ex) {n : Nat} {ex' : ChoiceExplorer}
    (hok : ex.advance n = .ok ex') : ex.firstPos + n ≤ ocs.length := by
  induction n generalizing ex with
  | zero => exact h.firstPos
  | succ n ih =>
      rcases Nat.lt_or_ge ex.firstPos ocs.length with hlt | hge
      · have hi : ex.firstPos < ex.choices.length := by rw [h.choices_length]; exact hlt
        have hfixed := h.fixed _ _ hlt (h.getElem? hi)
        simp only [Nat.lt_irrefl, decide_false] at hfixed
        rw [ChoiceExplorer.advance, h.getElem? hi] at hok
        simp only [OptimisticChoice.fix, hfixed, Bool.false_eq_true, if_false] at hok
        have hle := ih (h.fixNext hi).1 hok
        change ex.firstPos + 1 + n ≤ _ at hle
        omega
      · have hfirst : ex.firstPos = ocs.length := by have := h.firstPos; omega
        obtain ⟨d, hd⟩ := h.getElem?_dummy
        rw [← hfirst] at hd
        rw [ChoiceExplorer.advance, hd] at hok
        have hfixed : d.fixed = false := (h.dummy d (by rw [← hfirst]; exact hd)).2.1
        simp only [OptimisticChoice.fix, hfixed, Bool.false_eq_true, if_false] at hok
        have hlen : (ex.optimisticChoices.set ex.firstPos { d with fixed := true }).length ≤
            ex.firstPos + 1 := by simp [h.length, hfirst]
        have hok' : ChoiceExplorer.advance n { ex with
            optimisticChoices := ex.optimisticChoices.set ex.firstPos { d with fixed := true }
            firstPos := ex.firstPos + 1 } = .ok ex' := hok
        rw [advance_error hlen] at hok'
        cases hok'

/-! ### Lowering a choice -/

/-- Changing the value of a choice in the list and in the string. -/
theorem lower (h : Valid s ocs ex) {p v : Nat} (hi : p < ex.choices.length) :
    let ex' : ChoiceExplorer := { ex with
      optimisticChoices := ex.optimisticChoices.set p { ex.choices[p] with value := v }
      controlString := ex.controlString.take ex.choices[p].position ++ [optionChar v] ++
        ex.controlString.drop (ex.choices[p].position + 1) }
    Valid s ocs ex' ∧ ex'.values = ex.values.set p v := by
  intro ex'
  have hocs : p < ocs.length := by rw [← h.choices_length]; exact hi
  have hchoices : ex'.choices = ex.choices.set p { ex.choices[p] with value := v } :=
    choices_set ex _ _ _ _
  refine ⟨⟨h.lastPos, by simp [ex', h.length], ?_, ?_, ?_, h.firstPos, ?_⟩, ?_⟩
  · rw [hchoices, ← h.same]
    exact map_set_of_eq _ hi rfl
  · intro d hd
    rw [List.getElem?_set_ne (by omega)] at hd
    exact h.dummy d hd
  · rw [hchoices, layout_set_value s ex.choices hi v, ← h.position hi, ← h.control]
  · intro i oc hlt hoc
    change (ex.optimisticChoices.set _ _)[i]? = some oc at hoc
    change oc.fixed = decide (i < ex.firstPos)
    by_cases heq : p = i
    · subst heq
      rw [List.getElem?_set_self (by rw [h.length]; omega)] at hoc
      obtain rfl := Option.some.inj hoc
      have hfixed := h.fixed p _ hlt (h.getElem? hi)
      exact hfixed
    · rw [List.getElem?_set_ne heq] at hoc
      exact h.fixed i oc hlt hoc
  · rw [values, hchoices, List.map_set]
    rfl

/-- The value of a choice, read off the values. -/
theorem value_eq {p v : Nat} (hv : ex.values[p]? = some v) :
    ∃ hi : p < ex.choices.length, ex.choices[p].value = v := by
  obtain ⟨hp, hv⟩ := List.getElem?_eq_some_iff.mp hv
  have hi : p < ex.choices.length := by simpa [values] using hp
  refine ⟨hi, ?_⟩
  simpa [values] using hv

/-- `findAndLimitNextOptimisticChoice` lowers a choice by one, and fixes the
next choice when the value reached 0. -/
theorem findAndLimit (h : Valid s ocs ex) {p v : Nat} (hlow : ex.firstPos ≤ p)
    (hv : ex.values[p]? = some (v + 1)) :
    ∃ ex', ex.findAndLimitNextOptimisticChoice p = .ok ex' ∧ Valid s ocs ex' ∧
      ex'.firstPos = ex.firstPos + (if v = 0 then 1 else 0) ∧
      ex'.values = ex.values.set p v := by
  obtain ⟨hi, hvalue⟩ := value_eq hv
  have hocs : p < ocs.length := by rw [← h.choices_length]; exact hi
  have hfixed := h.fixed _ _ hocs (h.getElem? hi)
  have hnot : decide (p < ex.firstPos) = false := by simpa using hlow
  rw [hnot] at hfixed
  have hchar : ex.controlString[ex.choices[p].position]? = some (optionChar (v + 1)) := by
    rw [h.control, h.position hi, getElem?_layout hi, hvalue]
  have hnew : ((optionChar (v + 1) : Nat) : Int) - 1 - (ord '0' : Nat) = v := by
    simp only [optionChar]
    omega
  obtain ⟨hvalid, hvalues⟩ := h.lower (v := v) hi
  have hrun : ex.findAndLimitNextOptimisticChoice p =
      if v = 0 then ChoiceExplorer.advance 1 { ex with
          optimisticChoices := ex.optimisticChoices.set p { ex.choices[p] with value := v }
          controlString := ex.controlString.take ex.choices[p].position ++ [optionChar v] ++
            ex.controlString.drop (ex.choices[p].position + 1) }
      else .ok { ex with
          optimisticChoices := ex.optimisticChoices.set p { ex.choices[p] with value := v }
          controlString := ex.controlString.take ex.choices[p].position ++ [optionChar v] ++
            ex.controlString.drop (ex.choices[p].position + 1) } := by
    simp only [findAndLimitNextOptimisticChoice, h.getElem? hi, hvalue, hchar, hnew,
      OptimisticChoice.setOptimisticValue, hfixed]
    simp [replacePosition, bind, Except.bind]
  rw [hrun]
  by_cases hzero : v = 0
  · rw [if_pos hzero, if_pos hzero]
    obtain ⟨ex', hadvance, hvalid', hfirst, hvalues'⟩ := hvalid.advance (n := 1)
      (by change ex.firstPos + 1 ≤ _; omega)
    exact ⟨ex', hadvance, hvalid', hfirst, hvalues'.trans hvalues⟩
  · rw [if_neg hzero, if_neg hzero]
    exact ⟨_, rfl, hvalid, rfl, hvalues⟩

/-- It succeeds only on an unfixed choice with a value to give up. -/
theorem of_findAndLimit (h : Valid s ocs ex) {p : Nat} {ex' : ChoiceExplorer}
    (hok : ex.findAndLimitNextOptimisticChoice p = .ok ex') :
    ex.firstPos ≤ p ∧ ∃ v, ex.values[p]? = some (v + 1) := by
  rw [findAndLimitNextOptimisticChoice] at hok
  cases hget : ex.optimisticChoices[p]? with
  | none => simp [hget] at hok
  | some oc =>
      simp only [hget] at hok
      split at hok
      · cases hok
      · rename_i hpos
        have hocs : p < ocs.length := by
          have hlen := (List.getElem?_eq_some_iff.mp hget).1
          rw [h.length] at hlen
          by_contra hge
          obtain rfl : p = ocs.length := by omega
          have := (h.dummy oc hget).2.2
          omega
        have hi : p < ex.choices.length := by rw [h.choices_length]; exact hocs
        have hoc : oc = ex.choices[p] := by
          rw [h.getElem? hi] at hget
          exact (Option.some.inj hget).symm
        refine ⟨?_, oc.value - 1, ?_⟩
        · by_contra hlt
          have hfixed := h.fixed p oc hocs hget
          rw [decide_eq_true (by omega)] at hfixed
          cases hchar : ex.controlString[oc.position]? with
          | none => simp [hchar] at hok
          | some c =>
              simp only [hchar, OptimisticChoice.setOptimisticValue, hfixed, if_true] at hok
              split at hok <;> cases hok
        · have hvalue : ex.values[p]? = some oc.value := by
            simp [values, List.getElem?_eq_getElem hi, hoc]
          rw [hvalue]
          congr 1
          omega

/-! ### Leaving the search at a limit -/

/-- Below the first open choice everything is kept, from there on it is 0. -/
theorem fixUnreached_eq (firstPos i : Nat) (ocs : List OptimisticChoice)
    (hfixed : ∀ j oc, ocs[j]? = some oc → oc.fixed = decide (i + j < firstPos)) :
    fixUnreached firstPos i ocs = .ok (ocs.take (firstPos - i) ++
      (ocs.drop (firstPos - i)).map (fun oc => { oc with fixed := true, value := 0 })) := by
  induction ocs generalizing i with
  | nil => simp [fixUnreached]
  | cons oc ocs ih =>
      have hhead := hfixed 0 oc rfl
      have htail := ih (i + 1) (fun j oc' hoc => by
        rw [hfixed (j + 1) oc' hoc]
        congr 1
        simp only [eq_iff_iff]
        omega)
      by_cases hlt : i < firstPos
      · have hsub : firstPos - i = firstPos - (i + 1) + 1 := by omega
        simp only [Nat.add_zero, hlt, decide_true] at hhead
        simp [fixUnreached, hlt, hhead, htail, hsub, bind, Except.bind, pure, Except.pure]
      · have hsub : firstPos - i = 0 := by omega
        have hsub' : firstPos - (i + 1) = 0 := by omega
        simp only [Nat.add_zero, hlt, decide_false] at hhead
        simp [fixUnreached, hlt, hhead, htail, hsub, hsub', OptimisticChoice.fix, bind,
          Except.bind, pure, Except.pure]

/-- The limit exit keeps what was settled and cuts the string behind it; the
string of a round that settled nothing is dropped altogether. -/
theorem limit (h : Valid s ocs ex) :
    ∃ ex', ex.limit = .ok ex' ∧ ex'.firstPos = ex.firstPos ∧ ex'.lastPos = ex.lastPos ∧
      ex'.optimisticChoices.take ex.firstPos = ex.choices.take ex.firstPos ∧
      ex'.controlString =
        if ex.firstPos = 0 then [] else layout s (ex.choices.take ex.firstPos) := by
  have hfixed : ∀ j oc, ex.optimisticChoices[j]? = some oc →
      oc.fixed = decide (0 + j < ex.firstPos) := by
    intro j oc hoc
    rw [Nat.zero_add]
    rcases Nat.lt_or_ge j ocs.length with hlt | hge
    · exact h.fixed j oc hlt hoc
    · have hj := (List.getElem?_eq_some_iff.mp hoc).1
      rw [h.length] at hj
      obtain rfl : j = ocs.length := by omega
      have hfirst := h.firstPos
      rw [(h.dummy oc hoc).2.1, decide_eq_false (by omega)]
  have hrun := fixUnreached_eq ex.firstPos 0 ex.optimisticChoices hfixed
  rw [Nat.sub_zero] at hrun
  generalize hrest : (ex.optimisticChoices.drop ex.firstPos).map
    (fun oc => ({ oc with fixed := true, value := 0 } : OptimisticChoice)) = rest at hrun
  have hlen : (ex.optimisticChoices.take ex.firstPos).length = ex.firstPos := by
    rw [List.length_take, h.length]
    have := h.firstPos
    omega
  have hchoices : ex.optimisticChoices.take ex.firstPos = ex.choices.take ex.firstPos := by
    rw [choices, List.take_take, h.lastPos, Nat.min_eq_left h.firstPos]
  by_cases hzero : ex.firstPos = 0
  · refine ⟨{ ex with
      optimisticChoices := ex.optimisticChoices.take ex.firstPos ++ rest
      controlString := [] }, ?_, rfl, rfl, ?_, ?_⟩
    · simp only [ChoiceExplorer.limit, hrun, bind, Except.bind, pure, Except.pure, if_pos hzero]
    · simp [hzero]
    · simp [hzero]
  · have hslice : ({ ex with
        optimisticChoices := ex.optimisticChoices.take ex.firstPos ++ rest } :
          ChoiceExplorer).slice (ex.firstPos - 1) = ex.slice (ex.firstPos - 1) := by
      simp only [ChoiceExplorer.slice, getControlStringPositionForPosition]
      rw [List.getElem?_append_left (by omega), List.getElem?_take_of_lt (by omega)]
    rw [h.slice (by have := h.firstPos; omega), Nat.sub_add_cancel (by omega)] at hslice
    refine ⟨{ ex with
      optimisticChoices := ex.optimisticChoices.take ex.firstPos ++ rest
      controlString := layout s (ex.choices.take ex.firstPos) }, ?_, rfl, rfl, ?_, ?_⟩
    · rw [ChoiceExplorer.limit, hrun]
      simp only [bind, Except.bind, pure, Except.pure, if_neg hzero, hslice]
    · change (ex.optimisticChoices.take ex.firstPos ++ rest).take ex.firstPos = _
      rw [List.take_append_of_le_length (by omega), List.take_take, Nat.min_self, hchoices]
    · rw [if_neg hzero]

end Valid

/-! ### The new explorer -/

theorem new_choices (s : Str) (ocs : List OptimisticChoice) :
    (new ocs s).choices = (place s (-1) (-1) ocs).2 := by
  have hlen : (place s (-1) (-1) ocs).2.length = ocs.length := place_length s (-1) (-1) ocs
  rw [choices, new, List.take_append_of_le_length (by simp), List.take_of_length_le (by simp)]

theorem new_values (s : Str) (ocs : List OptimisticChoice) :
    (new ocs s).values = ocs.map OptimisticChoice.value := by
  rw [values, new_choices]
  apply List.ext_getElem?
  intro i
  rw [List.getElem?_map, List.getElem?_map, getElem?_place, Option.map_map]
  rfl

theorem new_valid (s : Str) {ocs : List OptimisticChoice} (hopen : ∀ oc ∈ ocs, oc.fixed = false) :
    Valid s ocs (new ocs s) where
  lastPos := rfl
  length := by simp [new]
  same := by rw [new_choices]
  dummy := by
    intro d hd
    rw [new, List.getElem?_append_right (by simp)] at hd
    obtain rfl : dummy (place s (-1) (-1) ocs).1.length = d := by simpa using hd
    exact ⟨by simp [dummy, OptimisticChoice.new, place_fst, layout], rfl, rfl⟩
  control := by
    rw [new_choices, layout, encode_place]
    exact place_fst s (-1) (-1) ocs
  firstPos := Nat.zero_le _
  fixed := by
    intro i oc hi hoc
    rw [new, List.getElem?_append_left (by simpa using hi), getElem?_place,
      List.getElem?_eq_getElem hi, Option.map_some] at hoc
    obtain rfl := Option.some.inj hoc
    exact hopen ocs[i] (List.getElem_mem hi)

end ChoiceExplorer

end Petospa

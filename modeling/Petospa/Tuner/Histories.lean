import Petospa.Tuner.Valid

/-!
# Arbitrary histories of answers

Whatever the answers are, the explorer only gives values up and only cuts its
own layout. Answers may drive the search into one of its assertions; then there
is no next string to speak about.
-/

namespace Petospa

open Text Coroutine

namespace ChoiceExplorer

/-- The explorer's data are consistent and no value has grown. -/
structure Lowered (s : Str) (ocs : List OptimisticChoice) (ex : ChoiceExplorer) : Prop where
  valid : ex.Valid s ocs
  value_le : ∀ (i v : Nat), ex.values[i]? = some v → ∃ oc, ocs[i]? = some oc ∧ v ≤ oc.value

variable {s : Str} {ocs : List OptimisticChoice} {ex ex' : ChoiceExplorer} {limits : Limits}

theorem Lowered.new (s : Str) (hopen : ∀ oc ∈ ocs, oc.fixed = false) :
    Lowered s ocs (new ocs s) where
  valid := new_valid s hopen
  value_le := by
    intro i v hv
    rw [new_values, List.getElem?_map, Option.map_eq_some_iff] at hv
    obtain ⟨oc, hoc, rfl⟩ := hv
    exact ⟨oc, hoc, Nat.le_refl _⟩

/-- What the choices of the explorer keep of the list it was built from. -/
theorem Lowered.mem_choices (h : Lowered s ocs ex) {oc : OptimisticChoice} (hoc : oc ∈ ex.choices) :
    ∃ o ∈ ocs, oc.shape = o.shape ∧ oc.value ≤ o.value := by
  obtain ⟨i, hi, rfl⟩ := List.mem_iff_getElem.mp hoc
  have hvalue : ex.values[i]? = some ex.choices[i].value := by
    rw [values, List.getElem?_map, List.getElem?_eq_getElem hi]
    rfl
  obtain ⟨o, ho, hle⟩ := h.value_le i _ hvalue
  refine ⟨o, List.mem_of_getElem? ho, ?_, hle⟩
  have hshape := congrArg (·[i]?) (h.valid.map_shape.trans (map_shape_place s (-1) (-1) ocs))
  simp only [List.getElem?_map, List.getElem?_eq_getElem hi, ho, Option.map_some,
    Option.some.injEq] at hshape
  exact hshape

theorem Lowered.accepted {p : Paused} {st : Search} (h : Lowered s ocs p.explorer)
    (hrun : p.accepted = .ok st) : Lowered s ocs st.explorer := by
  obtain ⟨ex, distance, hadvance, rfl⟩ := Paused.accepted_eq_ok hrun
  obtain ⟨ex', hadvance', hvalid, -, hvalues⟩ :=
    h.valid.advance (h.valid.le_of_advance hadvance)
  obtain rfl : ex = ex' := Except.ok.inj (hadvance.symm.trans hadvance')
  exact ⟨hvalid, by rw [hvalues]; exact h.value_le⟩

theorem Lowered.rejected {p : Paused} {st : Search} (h : Lowered s ocs p.explorer)
    (hrun : p.rejected = .ok st) : Lowered s ocs st.explorer := by
  obtain rfl | ⟨ex, hlimit, rfl⟩ := Paused.rejected_eq_ok hrun
  · exact h
  · obtain ⟨hfirst, v, hv⟩ := h.valid.of_findAndLimit hlimit
    obtain ⟨ex', hlimit', hvalid, -, hvalues⟩ := h.valid.findAndLimit hfirst hv
    obtain rfl : ex = ex' := Except.ok.inj (hlimit.symm.trans hlimit')
    refine ⟨hvalid, fun i w hw => ?_⟩
    change ex.values[i]? = some w at hw
    rw [hvalues, List.getElem?_set] at hw
    split at hw
    · rename_i heq
      subst heq
      split at hw
      · obtain ⟨oc, hoc, hle⟩ := h.value_le _ _ hv
        have := Option.some.inj hw
        exact ⟨oc, hoc, by omega⟩
      · cases hw
    · exact h.value_le i w hw

/-- What is known at every `yield`. -/
structure Yields (s : Str) (ocs : List OptimisticChoice) (p : Paused) : Prop where
  lowered : Lowered s ocs p.explorer
  lastPos_le : p.currentLastPos ≤ ocs.length
  yielded : p.yielded = layout s (p.explorer.choices.take (p.currentLastPos + 1))

/-- What is known at every return: the string spells out the settled choices,
unless a limit came before anything was settled. -/
structure Returns (s : Str) (ocs : List OptimisticChoice) (r : Returned) (ex : ChoiceExplorer) :
    Prop where
  lowered : Lowered s ocs ex
  firstPos : r.explorer.firstPos = ex.firstPos
  settled : r.explorer.optimisticChoices.take r.explorer.firstPos = ex.choices.take ex.firstPos
  finished : r.stop = false → ex.firstPos = ocs.length
  control : r.explorer.controlString =
    if r.stop = true ∧ ex.firstPos = 0 then [] else layout s (ex.choices.take ex.firstPos)

theorem Lowered.loopHead {st : Search} (h : Lowered s ocs st.explorer) (limits : Limits) :
    (∀ p, st.loopHead limits = .yielded p → Yields s ocs p) ∧
      ∀ r, st.loopHead limits = .returned r → ∃ ex, Returns s ocs r ex := by
  rw [Search.loopHead]
  split
  · split
    · rename_i hdone
      refine ⟨fun p hp => (by cases hp), fun r hr => ?_⟩
      obtain rfl := Outcome.returned.inj hr
      have hfirst := h.valid.firstPos
      rw [h.valid.lastPos] at hdone
      have hall : st.explorer.firstPos = ocs.length := by omega
      refine ⟨st.explorer, h, rfl, ?_, fun _ => hall, ?_⟩
      · change st.explorer.optimisticChoices.take st.explorer.firstPos = _
        rw [choices, List.take_take, h.valid.lastPos, hall, Nat.min_self]
      · rw [if_neg (by simp), h.valid.control, List.take_of_length_le]
        rw [h.valid.choices_length]
        omega
    · dsimp only
      split
      · rename_i yielded hslice
        refine ⟨fun p hp => ?_, fun r hr => by cases hr⟩
        obtain rfl := Outcome.yielded.inj hp
        have hle := h.valid.le_of_slice hslice
        rw [h.valid.slice hle] at hslice
        exact ⟨h, hle, (Except.ok.inj hslice).symm⟩
      · exact ⟨fun p hp => (by cases hp), fun r hr => (by cases hr)⟩
  · obtain ⟨ex, hlimit, hfirst, -, hsettled, hcontrol⟩ := h.valid.limit
    rw [hlimit]
    refine ⟨fun p hp => (by cases hp), fun r hr => ?_⟩
    obtain rfl := Outcome.returned.inj hr
    refine ⟨st.explorer, h, hfirst, ?_, fun hstop => (by cases hstop), ?_⟩
    · change ex.optimisticChoices.take ex.firstPos = _
      rw [hfirst, hsettled]
    · change ex.controlString = _
      rw [hcontrol]
      simp

/-- The run lemma for histories. -/
theorem afterAnswers_cases (hopen : ∀ oc ∈ ocs, oc.fixed = false) (limits : Limits) (now : Nat)
    (answers : List (Bool × Nat)) :
    (∀ p, (new ocs s).afterAnswers limits now answers = .yielded p → Yields s ocs p) ∧
      ∀ r, (new ocs s).afterAnswers limits now answers = .returned r →
        ∃ ex, Returns s ocs r ex := by
  refine feed_safe ?_ ((Lowered.new s hopen).loopHead limits) answers
  rintro p ⟨result, time⟩ hp
  rw [Paused.resume]
  cases hrun : if result then p.accepted else p.rejected with
  | error fault => exact ⟨fun q hq => (by cases hq), fun r hr => (by cases hr)⟩
  | ok st =>
      have hst : Lowered s ocs st.explorer := by
        cases result with
        | true => exact hp.lowered.accepted hrun
        | false => exact hp.lowered.rejected hrun
      have htimed : Lowered s ocs { st with timeCur := time }.explorer := hst
      exact htimed.loopHead limits

end ChoiceExplorer

end Petospa

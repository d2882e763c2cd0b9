import Petospa.Tuner.Search

/-!
# Runs against an oracle

An oracle judges vectors of choice values. The vector of a tested string is that
of the current values, limited to the choices that the string reaches; so the
runs of the search can be followed on values, without strings.
-/

namespace Petospa

open Text Coroutine

/-- The vector in which only the first `k` choices keep their value. -/
def limitTo (k : Nat) (values : List Nat) : List Nat :=
  values.mapIdx fun i v => if i < k then v else 0

section LimitTo

variable {k i v : Nat} {values : List Nat}

@[simp] theorem length_limitTo : (limitTo k values).length = values.length :=
  List.length_mapIdx

theorem getElem?_limitTo :
    (limitTo k values)[i]? = values[i]?.map (fun v => if i < k then v else 0) :=
  List.getElem?_mapIdx

@[simp] theorem limitTo_zero : limitTo 0 values = List.replicate values.length 0 := by
  apply List.ext_getElem? fun i => ?_
  rw [getElem?_limitTo, List.getElem?_replicate]
  by_cases hi : i < values.length
  · simp [hi]
  · simp [hi]

theorem limitTo_of_length_le (h : values.length ≤ k) : limitTo k values = values := by
  apply List.ext_getElem? fun i => ?_
  rw [getElem?_limitTo]
  cases hv : values[i]? with
  | none => rfl
  | some v =>
      have hi := (List.getElem?_eq_some_iff.mp hv).1
      rw [Option.map_some, if_pos (by omega)]

/-- What stands behind the limit does not count. -/
theorem limitTo_congr {values' : List Nat} (hlen : values.length = values'.length)
    (h : ∀ i, i < k → values[i]? = values'[i]?) : limitTo k values = limitTo k values' := by
  apply List.ext_getElem? fun i => ?_
  rw [getElem?_limitTo, getElem?_limitTo]
  by_cases hi : i < k
  · rw [h i hi]
  · simp only [if_neg hi]
    by_cases hlt : i < values.length
    · rw [List.getElem?_eq_getElem hlt, List.getElem?_eq_getElem (hlen ▸ hlt)]
      rfl
    · rw [List.getElem?_eq_none (by omega), List.getElem?_eq_none (by omega)]

theorem limitTo_set_of_le (h : k ≤ i) : limitTo k (values.set i v) = limitTo k values :=
  limitTo_congr (by simp) fun j hj => by rw [List.getElem?_set_ne (by omega)]

/-- A choice that is lowered to 0 counts as one that is not reached. -/
theorem limitTo_succ_set_zero : limitTo (i + 1) (values.set i 0) = limitTo i values := by
  apply List.ext_getElem? fun j => ?_
  rw [getElem?_limitTo, getElem?_limitTo, List.getElem?_set]
  by_cases hj : i = j
  · subst hj
    by_cases hi : i < values.length
    · simp [hi]
    · simp [hi]
  · rw [if_neg hj]
    congr 1
    funext v
    by_cases hlt : j < i
    · rw [if_pos hlt, if_pos (by omega)]
    · rw [if_neg hlt, if_neg (by omega)]

end LimitTo

namespace ChoiceExplorer

/-! ### The vector of a string -/

section Denoted

variable {s : Str} {ocs : List OptimisticChoice} {ex : ChoiceExplorer}

/-- The vector of a slice of the control string. -/
theorem Valid.denoted (h : ex.Valid s ocs) (k : Nat) :
    (new ocs s).denoted (layout s (ex.choices.take k)) = limitTo k ex.values := by
  have hlen : (new ocs s).choices.length = ocs.length := by rw [new_choices, place_length]
  apply List.ext_getElem (by simp [ChoiceExplorer.denoted, hlen, h.values_length])
  intro i hnew hlimit
  have hi : i < ex.choices.length := by simpa [values] using hlimit
  have hplaced : i < (place s (-1) (-1) ocs).2.length := by
    rw [place_length, ← h.choices_length]
    exact hi
  -- The positions are those of the explorer as it was built.
  have hposition : ((place s (-1) (-1) ocs).2[i]).position =
      (layoutFront s (ex.choices.take i) ex.choices[i]).length := by
    have hblank := List.getElem_of_eq h.same (i := i) (by simpa using hi)
    rw [List.getElem_map, List.getElem_map] at hblank
    rw [← h.position hi]
    exact (congrArg OptimisticChoice.position hblank).symm
  simp only [ChoiceExplorer.denoted, new_choices, List.getElem_map, limitTo, List.getElem_mapIdx,
    hposition, values]
  by_cases hlt : i < k
  · have htake : i < (ex.choices.take k).length := by simp; omega
    have hget := getElem?_layout (s := s) htake
    rw [List.take_take, Nat.min_eq_left (by omega), List.getElem_take] at hget
    rw [if_pos hlt, hget]
    simp [optionChar]
  · have hfront :
        layout s (ex.choices.take k) <+: layoutFront s (ex.choices.take i) ex.choices[i] := by
      refine List.IsPrefix.trans ?_ (layout_isPrefix_front hi)
      have := layout_take_isPrefix s (ex.choices.take i) k
      rwa [List.take_take, Nat.min_eq_left (by omega)] at this
    rw [if_neg hlt, List.getElem?_eq_none hfront.length_le]

/-- The vector of the empty string. -/
theorem Valid.denoted_nil (h : ex.Valid s ocs) : (new ocs s).denoted [] = limitTo 0 ex.values := by
  have hlen : (new ocs s).choices.length = ocs.length := by rw [new_choices, place_length]
  rw [limitTo_zero, h.values_length]
  simp [ChoiceExplorer.denoted, hlen]

end Denoted

/-! ### Runs -/

section Runs

variable {s : Str} {ocs : List OptimisticChoice} {limits : Limits} {clock : Nat → Nat}
  {accept : List Nat → Bool}

/-- How a run ends: from a state that meets the loop invariant. -/
def Ended (limits : Limits) (s : Str) (ocs : List OptimisticChoice)
    (invariant : ChoiceExplorer → Prop) (r : Returned) : Prop :=
  ∃ st : Search, st.Ready s ocs ∧ invariant st.explorer ∧ Search.Head limits s ocs st (.returned r)

/-- The final string spells out what was settled. -/
theorem Ended.denoted {invariant : ChoiceExplorer → Prop} {r : Returned}
    (h : Ended limits s ocs invariant r) :
    ∃ ex, Open s ocs ex ∧ invariant ex ∧ (r.stop = false → ex.firstPos = ocs.length) ∧
      (new ocs s).denoted r.explorer.controlString = limitTo ex.firstPos ex.values := by
  obtain ⟨st, hready, hinv, hhead⟩ := h
  have hvalid := hready.choices.valid
  refine ⟨st.explorer, hready.choices, hinv, ?_⟩
  cases hhead with
  | finished allowed all =>
      refine ⟨fun _ => all, ?_⟩
      rw [hvalid.control, ← hvalid.denoted st.explorer.firstPos, List.take_of_length_le]
      rw [hvalid.choices_length, all]
  | @limited ex reached limit =>
      refine ⟨?_, ?_⟩
      · intro hstop
        cases hstop
      · obtain ⟨ex', hlimit, -, -, -, hcontrol⟩ := hvalid.limit
        obtain rfl : ex = ex' := Except.ok.inj (limit.symm.trans hlimit)
        rw [hcontrol]
        by_cases hzero : st.explorer.firstPos = 0
        · rw [if_pos hzero, hzero]
          exact hvalid.denoted_nil
        · rw [if_neg hzero]
          exact hvalid.denoted _

theorem outcome_of_head {st : Search} {invariant : ChoiceExplorer → Prop} {o : GeneratorOutcome}
    (hready : st.Ready s ocs) (hinv : invariant st.explorer)
    (hhead : Search.Head limits s ocs st o) :
    o.Holds (fun p => p.Searching s ocs ∧ invariant p.explorer) (Ended limits s ocs invariant) := by
  cases hhead with
  | limited reached limit => exact ⟨st, hready, hinv, .limited reached limit⟩
  | finished allowed all => exact ⟨st, hready, hinv, .finished allowed all⟩
  | test allowed searching explorer tries distance => exact ⟨searching, explorer ▸ hinv⟩

/-- The run lemma of the search: what every answer of the oracle preserves holds
in every state of the run, and no check of the tuner fails. -/
theorem explore_holds {invariant : ChoiceExplorer → Prop} (hfresh : ∀ oc ∈ ocs, oc.Fresh)
    (hopts : Undecided ocs) (start : invariant (new ocs s))
    (step : ∀ n p st, (new ocs s).explore limits clock accept n = .yielded p →
      p.Searching s ocs → invariant p.explorer →
      p.Effect (accept (limitTo (p.currentLastPos + 1) p.explorer.values)) st →
      invariant st.explorer) (n : Nat) :
    ((new ocs s).explore limits clock accept n).Holds
      (fun p => p.Searching s ocs ∧ invariant p.explorer) (Ended limits s ocs invariant) := by
  refine play_holds ?_ ?_ n
  · rintro n p hrun ⟨hsearching, hinv⟩
    obtain ⟨st, hready, heffect, hresume⟩ :=
      hsearching.resume hopts limits ((new ocs s).oracleAnswer accept clock n p)
    rw [hresume]
    refine outcome_of_head hready (step n p st hrun hsearching hinv ?_) (hready.loopHead limits)
    simpa only [oracleAnswer, hsearching.yielded, hsearching.choices.valid.denoted] using heffect
  · have hready := Search.start_ready s hfresh hopts (clock 0)
    exact outcome_of_head hready start (hready.loopHead limits)

/-- The invariant alone. -/
theorem explore_searching (hfresh : ∀ oc ∈ ocs, oc.Fresh) (hopts : Undecided ocs) {n : Nat}
    {p : Paused} (hrun : (new ocs s).explore limits clock accept n = .yielded p) :
    p.Searching s ocs := by
  have h := @explore_holds s ocs limits clock accept (fun _ => True) hfresh hopts trivial
    (fun _ _ _ _ _ _ _ => trivial) n
  rw [hrun] at h
  exact h.1

end Runs

end ChoiceExplorer

/-! ### Limits only cut a run short -/

theorem Paused.accepted_tries {p : Paused} {st : Search} (h : p.accepted = .ok st) :
    st.tries = p.tries := by
  obtain ⟨_, _, -, rfl⟩ := Paused.accepted_eq_ok h
  rfl

theorem Paused.rejected_tries {p : Paused} {st : Search} (h : p.rejected = .ok st) :
    st.tries = p.tries := by
  obtain rfl | ⟨_, -, rfl⟩ := Paused.rejected_eq_ok h
  · rfl
  · rfl

theorem Search.loopHead_unlimited {limits : Limits} {st : Search} {p : Paused}
    (h : st.loopHead limits = .yielded p) : st.loopHead .unlimited = .yielded p := by
  rw [loopHead] at h
  split at h
  · exact h
  · split at h <;> cases h

/-- Only the loop head counts a try. -/
theorem Paused.answered_tries {result : Bool} {p : Paused} {st : Search}
    (h : (if result then p.accepted else p.rejected) = .ok st) : st.tries = p.tries := by
  cases result with
  | true => exact p.accepted_tries h
  | false => exact p.rejected_tries h

theorem Search.loopHead_tries {limits : Limits} {st : Search} {p : Paused}
    (h : st.loopHead limits = .yielded p) : p.tries = st.tries + 1 := by
  rw [loopHead] at h
  split at h
  · split at h
    · cases h
    · dsimp only at h
      split at h
      · obtain rfl := Outcome.yielded.inj h
        rfl
      · cases h
  · split at h <;> cases h

/-- The next string comes from the loop head behind the answer. -/
theorem Paused.resume_eq_yielded {limits : Limits} {p q : Paused} {answer : Bool × Nat}
    (h : p.resume limits answer = .yielded q) :
    ∃ st, (if answer.1 then p.accepted else p.rejected) = .ok st ∧
      Search.loopHead limits { st with timeCur := answer.2 } = .yielded q := by
  rw [Paused.resume] at h
  cases hrun : if answer.1 then p.accepted else p.rejected with
  | error fault => simp [hrun] at h
  | ok st =>
      rw [hrun] at h
      exact ⟨st, rfl, h⟩

theorem Paused.resume_tries {limits : Limits} {p q : Paused} {answer : Bool × Nat}
    (h : p.resume limits answer = .yielded q) : q.tries = p.tries + 1 := by
  obtain ⟨st, hrun, hhead⟩ := Paused.resume_eq_yielded h
  rw [Search.loopHead_tries hhead, ← Paused.answered_tries hrun]

theorem Paused.resume_unlimited {limits : Limits} {p q : Paused} {answer : Bool × Nat}
    (h : p.resume limits answer = .yielded q) : p.resume .unlimited answer = .yielded q := by
  obtain ⟨st, hrun, hhead⟩ := Paused.resume_eq_yielded h
  rw [Paused.resume, hrun]
  exact Search.loopHead_unlimited hhead

namespace ChoiceExplorer

variable {ex : ChoiceExplorer} {limits : Limits} {clock : Nat → Nat} {accept : List Nat → Bool}

theorem explore_unlimited {n : Nat} {p : Paused}
    (h : ex.explore limits clock accept n = .yielded p) :
    ex.explore .unlimited clock accept n = .yielded p :=
  play_yielded_of_refines (fun _ _ _ => Paused.resume_unlimited)
    (fun _ => Search.loopHead_unlimited) h

theorem explore_tries {n : Nat} {p : Paused} (h : ex.explore limits clock accept n = .yielded p) :
    p.tries = n + 1 := by
  induction n generalizing p with
  | zero => exact Search.loopHead_tries h
  | succ n ih =>
      obtain ⟨q, hq, hstep⟩ := play_succ_yielded h
      rw [Paused.resume_tries hstep, ih hq]

/-- A limit on the tries leaves the run alone until it is reached. -/
theorem explore_maxTries {n m : Nat} {p : Paused} (hn : n < m)
    (h : ex.explore .unlimited clock accept n = .yielded p) :
    ex.explore ⟨some m, none⟩ clock accept n = .yielded p := by
  have hhead : ∀ st : Search, st.tries < m →
      st.loopHead ⟨some m, none⟩ = st.loopHead .unlimited := by
    intro st hst
    simp [Search.loopHead, Limits.allow, Limits.unlimited, hst]
  induction n generalizing p with
  | zero =>
      rw [← h]
      exact hhead _ (by change 0 < m; omega)
  | succ n ih =>
      obtain ⟨q, hq, hstep⟩ := play_succ_yielded h
      have htries := explore_tries hq
      rw [explore, play_succ_of_yielded (ih (by omega) hq), ← hstep, Paused.resume, Paused.resume]
      cases hrun : if (ex.oracleAnswer accept clock n q).1 then q.accepted else q.rejected with
      | error fault => rfl
      | ok st =>
          refine hhead _ ?_
          change st.tries < m
          rw [Paused.answered_tries hrun]
          omega

/-! ### An unlimited run ends -/

/-- What is left to do: choices to settle and values to give up, and below that
the length of the tested range. -/
def remaining (n : Nat) (ex : ChoiceExplorer) (distance : Nat) : Nat :=
  (n - ex.firstPos + ex.values.sum) * (n + 1) + distance

theorem sum_set_lower {values : List Nat} {i v : Nat} (hv : values[i]? = some (v + 1)) :
    (values.set i v).sum + 1 = values.sum := by
  induction values generalizing i with
  | nil => simp at hv
  | cons x values ih =>
      cases i with
      | zero =>
          obtain rfl : x = v + 1 := by simpa using hv
          simp only [List.set_cons_zero, List.sum_cons]
          omega
      | succ i =>
          have htail := ih (i := i) (by simpa using hv)
          simp only [List.set_cons_succ, List.sum_cons]
          omega

theorem remaining_lt {n d d' : Nat} {ex ex' : ChoiceExplorer} (hd' : d' ≤ n)
    (h : n - ex'.firstPos + ex'.values.sum < n - ex.firstPos + ex.values.sum) :
    remaining n ex' d' < remaining n ex d := by
  have hmul := Nat.mul_le_mul_right (n + 1) (Nat.succ_le_of_lt h)
  rw [Nat.succ_mul] at hmul
  simp only [remaining]
  omega

/-- Every answer leaves less to do. -/
theorem remaining_step {s : Str} {ocs : List OptimisticChoice} {p q : Paused} {st : Search}
    {result : Bool} (h : p.Searching s ocs) (heffect : p.Effect result st)
    (hq : q.Searching s ocs) (hexplorer : q.explorer = st.explorer)
    (hdistance : q.currentDistance = st.currentDistance) :
    remaining ocs.length q.explorer q.currentDistance <
      remaining ocs.length p.explorer p.currentDistance := by
  have hfirst := h.first
  have hlast := h.lastPos
  have hpos := h.positive
  have hlt := h.unfinished
  have hlastq := hq.lastPos
  have hleq := hq.lastPos_le
  cases heffect with
  | fixed first values =>
      refine remaining_lt (by omega) ?_
      rw [hexplorer, first, values]
      omega
  | halved far explorer near =>
      rw [hexplorer, hdistance, explorer]
      simp only [remaining]
      omega
  | lowered v alone value first values near =>
      refine remaining_lt (by omega) ?_
      have hsum := sum_set_lower value
      rw [hexplorer, first, values]
      split <;> omega

/-- Without limits the search ends for every oracle, and in no state at a limit. -/
theorem explore_returns {s : Str} {ocs : List OptimisticChoice} (hfresh : ∀ oc ∈ ocs, oc.Fresh)
    (hopts : Undecided ocs) :
    ∃ n r, (new ocs s).explore .unlimited clock accept n = .returned r ∧ r.stop = false := by
  have hstep : ∀ (p : Paused) (answer : Bool × Nat), p.Searching s ocs →
      (p.resume .unlimited answer).Holds (fun q => q.Searching s ocs ∧
        remaining ocs.length q.explorer q.currentDistance <
          remaining ocs.length p.explorer p.currentDistance) fun r => r.stop = false := by
    intro p answer hsearching
    obtain ⟨st, hready, heffect, hresume⟩ := hsearching.resume hopts .unlimited answer
    have hhead := hready.loopHead .unlimited
    rw [hresume]
    generalize st.loopHead .unlimited = o at hhead ⊢
    cases hhead with
    | limited reached limit => cases reached
    | finished allowed all => exact rfl
    | test allowed searching explorer tries distance =>
        exact ⟨searching, remaining_step hsearching heffect searching explorer distance⟩
  have hstart : ((new ocs s).generator .unlimited (clock 0)).Holds
      (fun p => p.Searching s ocs) fun r => r.stop = false := by
    have hready := Search.start_ready s hfresh hopts (clock 0)
    have hhead := hready.loopHead .unlimited
    rw [generator]
    generalize (Search.start (new ocs s) (clock 0)).loopHead .unlimited = o at hhead ⊢
    cases hhead with
    | limited reached limit => cases reached
    | finished allowed all => exact rfl
    | test allowed searching explorer tries distance => exact searching
  exact play_returns _ hstep hstart

end ChoiceExplorer

end Petospa

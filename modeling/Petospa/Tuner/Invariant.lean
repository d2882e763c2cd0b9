import Petospa.Tuner.Search

/-!
# The state of the search at every yield

What a reader of `generator` may rely on whenever a string is handed out,
whatever has been answered and wherever a limit strikes. `Searching` carries
most of it; added here are the starts of the problem intervals, which only move
inwards, and the statistics that `advance` logs on its way.
-/

namespace Petospa

open Text Coroutine

/-! ### Statistics -/

/-- `while len(stats) <= value: stats.append(0)` and `stats[value] += 1`. -/
def countValue (stats : List Nat) (value : Nat) : List Nat :=
  (stats ++ List.replicate (value + 1 - stats.length) 0).modify value (· + 1)

namespace ChoiceExplorer

/-- The value that stands in the control string for a choice. -/
def shownValue (ex : ChoiceExplorer) (pos : Nat) : Except Fault Nat := do
  let position ← ex.getControlStringPositionForPosition pos
  match ex.controlString[position]? with
  | some c => return c - ord '0'
  | none => .error .indexError

/-- `computeStats`: how often each value stands between two choices. -/
def computeStats (ex : ChoiceExplorer) (lastPos currentPos : Nat) : Except Fault (List Nat) := do
  let range := List.range' lastPos (currentPos - lastPos)
  let options ← (lastPos :: range).mapM fun i =>
    match ex.optimisticChoices[i]? with
    | some oc => .ok oc.maxOptions
    | none => .error .indexError
  let values ← range.mapM ex.shownValue
  return values.foldl countValue (List.replicate (options.foldl max 0) 0)

/-- The statistics over any range of choices can be computed. -/
def Countable (n : Nat) (ex : ChoiceExplorer) : Prop :=
  ∀ lastPos currentPos, lastPos ≤ currentPos → currentPos ≤ n →
    ∃ stats, ex.computeStats lastPos currentPos = .ok stats

end ChoiceExplorer

theorem exists_mapM_ok {ε α β : Type*} {f : α → Except ε β} {xs : List α}
    (h : ∀ x ∈ xs, ∃ y, f x = .ok y) : ∃ ys, xs.mapM f = .ok ys := by
  induction xs with
  | nil => exact ⟨[], rfl⟩
  | cons x xs ih =>
      obtain ⟨y, hy⟩ := h x (by simp)
      obtain ⟨ys, hys⟩ := ih fun z hz => h z (List.mem_cons_of_mem _ hz)
      exact ⟨y :: ys, by simp [hy, hys, bind, Except.bind, pure, Except.pure]⟩

namespace ChoiceExplorer.Valid

variable {s : Str} {ocs : List OptimisticChoice} {ex : ChoiceExplorer}

theorem countable (h : Valid s ocs ex) : ex.Countable ocs.length := by
  intro lastPos currentPos hle hend
  have hoptions : ∃ options, (lastPos :: List.range' lastPos (currentPos - lastPos)).mapM
      (fun i => match ex.optimisticChoices[i]? with
        | some oc => Except.ok oc.maxOptions
        | none => Except.error Fault.indexError) = .ok options := by
    refine exists_mapM_ok fun i hi => ?_
    have hlt : i < ex.optimisticChoices.length := by
      rw [h.length]
      rcases List.mem_cons.mp hi with rfl | hi
      · omega
      · have := List.mem_range'_1.mp hi
        omega
    exact ⟨ex.optimisticChoices[i].maxOptions, by simp only [List.getElem?_eq_getElem hlt]⟩
  have hvalues : ∃ values, (List.range' lastPos (currentPos - lastPos)).mapM ex.shownValue =
      .ok values := by
    refine exists_mapM_ok fun i hi => ?_
    have hrange := List.mem_range'_1.mp hi
    have hlt : i < ex.choices.length := by
      rw [h.choices_length]
      omega
    refine ⟨ex.choices[i].value, ?_⟩
    have hchar : ex.controlString[ex.choices[i].position]? =
        some (optionChar ex.choices[i].value) := by
      rw [h.control, h.position hlt, getElem?_layout hlt]
    simp [shownValue, getControlStringPositionForPosition, h.getElem? hlt, bind, Except.bind,
      hchar, optionChar, pure, Except.pure]
  obtain ⟨options, hoptions⟩ := hoptions
  obtain ⟨values, hvalues⟩ := hvalues
  refine ⟨values.foldl countValue (List.replicate (options.foldl max 0) 0), ?_⟩
  simp only [computeStats, hoptions, hvalues, bind, Except.bind, pure, Except.pure]

end ChoiceExplorer.Valid

/-! ### Where the problem intervals start -/

/-- One problem interval lies inside another. -/
def Inside (inner outer : Nat × Nat) : Prop :=
  outer.1 ≤ inner.1 ∧ problemEnd inner ≤ problemEnd outer

/-- The intervals start at or before the given position, the inner ones later. -/
structure Started (c : Nat) (problems : List (Nat × Nat)) : Prop where
  sorted : problems.Pairwise (fun inner outer => outer.1 ≤ inner.1)
  reached : ∀ problem ∈ problems, problem.1 ≤ c

namespace Started

variable {c c' : Nat} {problems problems' : List (Nat × Nat)}

theorem mono (h : Started c problems) (hc : c ≤ c') (hsub : problems'.Sublist problems) :
    Started c' problems' where
  sorted := h.sorted.sublist hsub
  reached := fun problem hmem => Nat.le_trans (h.reached problem (hsub.subset hmem)) hc

theorem push (h : Started c problems) (distance : Nat) :
    Started c ((c, distance) :: problems) where
  sorted := List.pairwise_cons.mpr ⟨h.reached, h.sorted⟩
  reached := by
    intro problem hmem
    cases hmem with
    | head => exact Nat.le_refl c
    | tail _ hrest => exact h.reached problem hrest

end Started

theorem popProblems_sublist (c : Nat) (problems : List (Nat × Nat)) :
    (popProblems c problems).Sublist problems := by
  induction problems with
  | nil => exact .slnil
  | cons problem problems ih =>
      rw [popProblems]
      split
      · exact ih.trans (List.sublist_cons_self problem problems)
      · exact .refl _

/-- After the popping every interval that is left ends behind the position. -/
theorem Nested.beyond {n c : Nat} {problems : List (Nat × Nat)} (h : Nested n problems)
    (hc : c < enclosingEnd n problems) : ∀ problem ∈ problems, c < problemEnd problem := by
  cases problems with
  | nil => simp
  | cons head rest =>
      intro problem hmem
      have hhead : c < problemEnd head := hc
      cases hmem with
      | head => exact hhead
      | tail _ hrest =>
          exact Nat.lt_of_lt_of_le hhead ((List.pairwise_cons.mp h.sorted).1 problem hrest)

namespace Paused

variable {p t : Paused} {st : Search}

theorem accepted_started (h : Started p.currentFirstPos p.problems) (hok : p.accepted = .ok st)
    (hforward : p.currentFirstPos ≤ st.currentFirstPos) :
    Started st.currentFirstPos st.problems := by
  obtain ⟨ex, distance, -, rfl⟩ := accepted_eq_ok hok
  exact h.mono hforward (popProblems_sublist ex.firstPos p.problems)

theorem rejected_started (h : Started p.currentFirstPos p.problems) (hok : p.rejected = .ok st) :
    Started st.currentFirstPos st.problems := by
  obtain rfl | ⟨ex, -, rfl⟩ := rejected_eq_ok hok
  · exact h.push p.currentDistance
  · exact h.mono (Nat.le_max_left _ _) (.refl _)

end Paused

theorem Search.loopHead_started {limits : Limits} {st : Search} {t : Paused}
    (h : Started st.currentFirstPos st.problems) (hyield : st.loopHead limits = .yielded t) :
    Started t.currentFirstPos t.problems := by
  rw [loopHead] at hyield
  split at hyield
  · split at hyield
    · cases hyield
    · simp only at hyield
      split at hyield
      · obtain rfl := Outcome.yielded.inj hyield
        exact h.mono (Nat.le_refl _) (popProblems_sublist _ _)
      · cases hyield
  · split at hyield <;> cases hyield

/-! ### The invariant -/

/-- What holds whenever the search hands out a string, for a list of `n` choices. -/
structure Paused.Sound (n : Nat) (p : Paused) : Prop where
  first : p.currentFirstPos = p.explorer.firstPos
  unfinished : p.explorer.firstPos < n
  lastPos : p.explorer.lastPos = n
  /-- The choices and the dummy entry behind them. -/
  length : p.explorer.optimisticChoices.length = n + 1
  distance : 1 ≤ p.currentDistance
  within : p.explorer.firstPos + p.currentDistance ≤ n
  fixed : ∀ (i : Nat) (oc : OptimisticChoice), p.explorer.optimisticChoices[i]? = some oc →
    (oc.fixed = true ↔ i < p.explorer.firstPos)
  value : ∀ (i : Nat) (oc : OptimisticChoice), p.explorer.choices[i]? = some oc →
    p.explorer.firstPos ≤ i → 1 ≤ oc.value
  shown : ∀ (i : Nat) (oc : OptimisticChoice), p.explorer.choices[i]? = some oc →
    p.explorer.controlString[oc.position]? = some (optionChar oc.value)
  nested : p.problems.Pairwise Inside
  beyond : ∀ problem ∈ p.problems, p.explorer.firstPos < problemEnd problem
  outermost : ∀ problem, p.problems.getLast? = some problem → problemEnd problem = n
  countable : p.explorer.Countable n

/-- What the search leaves behind. Unless a limit stopped it, all choices are settled. -/
structure Returned.Sound (n : Nat) (r : Returned) : Prop where
  settled : r.explorer.firstPos ≤ n
  finished : r.stop = false → r.explorer.firstPos = n ∧ r.explorer.lastPos = n ∧
    (∀ oc ∈ r.explorer.choices, oc.fixed = true) ∧ r.explorer.Countable n

namespace Paused.Searching

variable {s : Str} {ocs : List OptimisticChoice} {p : Paused}

theorem fixed_iff (h : p.Searching s ocs) {i : Nat} {oc : OptimisticChoice}
    (hoc : p.explorer.optimisticChoices[i]? = some oc) :
    oc.fixed = true ↔ i < p.explorer.firstPos := by
  have hvalid := h.choices.valid
  have hlen := (List.getElem?_eq_some_iff.mp hoc).1
  rw [hvalid.length] at hlen
  by_cases hlt : i < ocs.length
  · simp [hvalid.fixed i oc hlt hoc]
  · obtain rfl : i = ocs.length := by omega
    have hfirst := hvalid.firstPos
    simp only [(hvalid.dummy oc hoc).2.1, Bool.false_eq_true, false_iff]
    omega

theorem one_le_value (h : p.Searching s ocs) (hopts : Undecided ocs) {i : Nat}
    {oc : OptimisticChoice} (hoc : p.explorer.choices[i]? = some oc)
    (hi : p.explorer.firstPos ≤ i) : 1 ≤ oc.value := by
  have hlen := (List.getElem?_eq_some_iff.mp hoc).1
  rw [h.choices.valid.choices_length] at hlen
  have hvalue : p.explorer.values[i]? = some oc.value := by
    rw [ChoiceExplorer.values, List.getElem?_map, hoc, Option.map_some]
  cases Nat.lt_or_eq_of_le hi with
  | inl hlater =>
      -- a choice behind the first open one still has its initial value
      obtain ⟨w, hw⟩ := hopts.optimistic_pos hlen
      rw [h.choices.later i hlater, hw] at hvalue
      have := Option.some.inj hvalue
      omega
  | inr hfirst =>
      obtain ⟨v, hv, -⟩ := h.choices.next (by omega)
      rw [hfirst, hvalue] at hv
      have := Option.some.inj hv
      omega

theorem shown (h : p.Searching s ocs) {i : Nat} {oc : OptimisticChoice}
    (hoc : p.explorer.choices[i]? = some oc) :
    p.explorer.controlString[oc.position]? = some (optionChar oc.value) := by
  obtain ⟨hi, rfl⟩ := List.getElem?_eq_some_iff.mp hoc
  have hvalid := h.choices.valid
  rw [hvalid.control, hvalid.position hi, getElem?_layout hi]

theorem sound (h : p.Searching s ocs) (hopts : Undecided ocs)
    (hstarted : Started p.currentFirstPos p.problems) : p.Sound ocs.length where
  first := h.first
  unfinished := by
    have := h.unfinished
    have := h.first
    omega
  lastPos := h.choices.valid.lastPos
  length := h.choices.valid.length
  distance := h.positive
  within := by
    have := h.within
    have := h.enclosingEnd_le
    have := h.first
    omega
  fixed := fun _ _ hoc => h.fixed_iff hoc
  value := fun _ _ hoc hi => h.one_le_value hopts hoc hi
  shown := fun _ _ hoc => h.shown hoc
  nested := List.Pairwise.and hstarted.sorted h.nested.sorted
  beyond := by
    have hpos := h.positive
    have hwithin := h.within
    rw [← h.first]
    exact h.nested.beyond (by omega)
  outermost := h.nested.outer
  countable := h.choices.valid.countable

end Paused.Searching

/-- A search that settled all choices has fixed them. -/
theorem ChoiceExplorer.Valid.all_fixed {s : Str} {ocs : List OptimisticChoice}
    {ex : ChoiceExplorer} (h : ex.Valid s ocs) (hall : ex.firstPos = ocs.length) :
    ∀ oc ∈ ex.choices, oc.fixed = true := by
  intro oc hoc
  obtain ⟨i, hi, rfl⟩ := List.getElem_of_mem hoc
  have hlt : i < ocs.length := by rw [← h.choices_length]; exact hi
  rw [h.fixed i _ hlt (h.getElem? hi), hall, decide_eq_true hlt]

/-- The invariant that the resumptions of `generator` preserve. -/
def Paused.Kept (s : Str) (ocs : List OptimisticChoice) (p : Paused) : Prop :=
  p.Searching s ocs ∧ Started p.currentFirstPos p.problems

namespace Search

variable {s : Str} {ocs : List OptimisticChoice} {st : Search}

theorem Ready.loopHead_holds (h : st.Ready s ocs) (limits : Limits)
    (hstarted : Started st.currentFirstPos st.problems) :
    (st.loopHead limits).Holds (Paused.Kept s ocs) (Returned.Sound ocs.length) := by
  have hhead := h.loopHead limits
  have hvalid := h.choices.valid
  cases hout : st.loopHead limits with
  | raised fault =>
      rw [hout] at hhead
      cases hhead
  | yielded t =>
      rw [hout] at hhead
      cases hhead with
      | test allowed searching => exact ⟨searching, loopHead_started hstarted hout⟩
  | returned r =>
      rw [hout] at hhead
      cases hhead with
      | limited reached hlimit =>
          obtain ⟨ex, hex, hfirst, -⟩ := hvalid.limit
          obtain rfl := Except.ok.inj (hex.symm.trans hlimit)
          exact ⟨hfirst ▸ hvalid.firstPos, fun h => by cases h⟩
      | finished allowed all =>
          exact ⟨hvalid.firstPos,
            fun _ => ⟨all, hvalid.lastPos, hvalid.all_fixed all, hvalid.countable⟩⟩

end Search

namespace Paused.Kept

variable {s : Str} {ocs : List OptimisticChoice} {p : Paused}

/-- One resumption. -/
theorem resume (h : p.Kept s ocs) (hopts : Undecided ocs) (limits : Limits)
    (answer : Bool × Nat) :
    (p.resume limits answer).Holds (Kept s ocs) (Returned.Sound ocs.length) := by
  obtain ⟨result, now⟩ := answer
  obtain ⟨hsearching, hstarted⟩ := h
  obtain ⟨st, hrun, hready, heffect⟩ := hsearching.step hopts result
  have hnext : Started st.currentFirstPos st.problems := by
    cases result with
    | true =>
        refine accepted_started hstarted hrun ?_
        cases heffect with
        | fixed hfirst _ =>
            rw [hready.first, hfirst, hsearching.lastPos]
            exact Nat.le_add_right _ _
    | false => exact rejected_started hstarted hrun
  rw [Paused.resume, hrun]
  exact (hready.timed now).loopHead_holds limits hnext

end Paused.Kept

namespace ChoiceExplorer

variable {ocs : List OptimisticChoice}

/-- Every run of `generator` keeps the invariant. -/
theorem afterAnswers_kept (s : Str) (hfresh : ∀ oc ∈ ocs, oc.Fresh) (hopts : Undecided ocs)
    (limits : Limits) (now : Nat) (answers : List (Bool × Nat)) :
    ((ChoiceExplorer.new ocs s).afterAnswers limits now answers).Holds
      (Paused.Kept s ocs) (Returned.Sound ocs.length) :=
  feed_holds (fun _ answer hp => hp.resume hopts limits answer)
    ((Search.start_ready s hfresh hopts now).loopHead_holds limits
      ⟨.nil, by simp [Search.start]⟩) answers

/-- No answers and no limits make the search fail an assertion or read outside
a list, and every string is handed out in a sound state. -/
theorem generator_sound (s : Str) (hfresh : ∀ oc ∈ ocs, oc.Fresh)
    (hopts : Undecided ocs) (limits : Limits) (now : Nat) (answers : List (Bool × Nat)) :
    ((ChoiceExplorer.new ocs s).afterAnswers limits now answers).Holds
      (Paused.Sound ocs.length) (Returned.Sound ocs.length) := by
  have hkept := afterAnswers_kept s hfresh hopts limits now answers
  cases hout : (ChoiceExplorer.new ocs s).afterAnswers limits now answers with
  | yielded p =>
      rw [hout] at hkept
      exact hkept.1.sound hopts hkept.2
  | returned r =>
      rw [hout] at hkept
      exact hkept
  | raised fault =>
      rw [hout] at hkept
      exact hkept.elim

theorem generator_sound_two :
    ((ChoiceExplorer.new (List.replicate 2 nswOfAdd) []).afterAnswers ⟨some 5, some 9⟩ 0
      [(false, 1), (true, 2)]).Holds (Paused.Sound 2) (Returned.Sound 2) :=
  generator_sound [] (fresh_replicate_nswOfAdd 2) (undecided_replicate_nswOfAdd 2) _ _ _

end ChoiceExplorer

end Petospa

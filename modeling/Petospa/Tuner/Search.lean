import Petospa.Tuner.Valid

/-!
# The invariant of the bisecting search

Problem intervals form a stack, nested from the inside out, whose outermost
interval ends at the last choice. `Ready` holds at the head of the loop and
`Searching` at every `yield`; one lemma says what an answer does to the values
and to the first open choice, and that no assertion of `generator` fails.
-/

namespace Petospa

open Text Coroutine

/-! ### Problem intervals -/

/-- The intervals in which the search is still looking for a culprit, innermost
first, in a list of `n` choices. -/
structure Nested (n : Nat) (problems : List (Nat × Nat)) : Prop where
  sorted : problems.Pairwise (fun a b => problemEnd a ≤ problemEnd b)
  positive : ∀ problem ∈ problems, 0 < problemEnd problem
  outer : ∀ problem, problems.getLast? = some problem → problemEnd problem = n

/-- The end of the range that the search may widen to. -/
def enclosingEnd (n : Nat) : List (Nat × Nat) → Nat
  | [] => n
  | problem :: _ => problemEnd problem

namespace Nested

variable {n c : Nat} {problems : List (Nat × Nat)}

theorem nil (n : Nat) : Nested n [] := ⟨.nil, by simp, by simp⟩

theorem tail {problem : Nat × Nat} (h : Nested n (problem :: problems)) : Nested n problems where
  sorted := (List.pairwise_cons.mp h.sorted).2
  positive := fun p hp => h.positive p (List.mem_cons_of_mem _ hp)
  outer := by
    intro p hp
    apply h.outer p
    cases problems with
    | nil => simp at hp
    | cons q rest => simpa using hp

theorem head_le {problem : Nat × Nat} (h : Nested n (problem :: problems)) :
    problemEnd problem ≤ n := by
  cases hlast : (problem :: problems).getLast? with
  | none => simp at hlast
  | some p =>
      have hmem : p ∈ problem :: problems := List.mem_of_getLast? hlast
      rw [← h.outer p hlast]
      rcases List.mem_cons.mp hmem with rfl | hrest
      · exact Nat.le_refl _
      · exact (List.pairwise_cons.mp h.sorted).1 p hrest

/-- A failing range inside the innermost interval is a new innermost interval. -/
theorem push {problem : Nat × Nat} (h : Nested n problems) (hpos : 0 < problemEnd problem)
    (hle : problemEnd problem ≤ enclosingEnd n problems)
    (hwhole : problems = [] → problemEnd problem = n) : Nested n (problem :: problems) where
  sorted := by
    rw [List.pairwise_cons]
    refine ⟨?_, h.sorted⟩
    intro p hp
    cases problems with
    | nil => simp at hp
    | cons q rest =>
        rcases List.mem_cons.mp hp with rfl | hrest
        · exact hle
        · exact Nat.le_trans hle ((List.pairwise_cons.mp h.sorted).1 p hrest)
  positive := by
    intro p hp
    rcases List.mem_cons.mp hp with rfl | hrest
    · exact hpos
    · exact h.positive p hrest
  outer := by
    intro p hp
    cases problems with
    | nil =>
        obtain rfl : problem = p := by simpa using hp
        exact hwhole rfl
    | cons q rest => exact h.outer p (by simpa using hp)

theorem pop (h : Nested n problems) : Nested n (popProblems c problems) := by
  induction problems with
  | nil => exact h
  | cons problem problems ih =>
      rw [popProblems]
      split
      · exact ih h.tail
      · exact h

/-- Popping at a position inside the list leaves an interval that ends behind it. -/
theorem pop_cons (h : Nested n problems) (hne : problems ≠ []) (hc : c < n) :
    ∃ problem rest, popProblems c problems = problem :: rest ∧ c < problemEnd problem := by
  induction problems with
  | nil => exact absurd rfl hne
  | cons problem problems ih =>
      have hpos := h.positive problem (by simp)
      rw [popProblems]
      split
      · rename_i hend
        refine ih h.tail ?_
        rintro rfl
        have := h.outer problem (by simp)
        omega
      · rename_i hend
        refine ⟨problem, problems, rfl, ?_⟩
        omega

/-- Popping at the end of the list leaves nothing. -/
theorem pop_end (h : Nested n problems) : popProblems n problems = [] := by
  induction problems with
  | nil => rfl
  | cons problem problems ih =>
      have hpos := h.positive problem (by simp)
      rw [popProblems, if_pos ⟨by omega, h.head_le⟩]
      exact ih h.tail

end Nested

theorem popProblems_of_lt {c : Nat} {problem : Nat × Nat} {problems : List (Nat × Nat)}
    (h : c < problemEnd problem) :
    popProblems c (problem :: problems) = problem :: problems := by
  rw [popProblems, if_neg (by omega)]

theorem popProblems_eq_self {c n : Nat} {problems : List (Nat × Nat)}
    (h : c < enclosingEnd n problems) : popProblems c problems = problems := by
  cases problems with
  | nil => rfl
  | cons problem problems => exact popProblems_of_lt h

/-! ### The invariant -/

/-- The values the choices start with. -/
def optimistic (ocs : List OptimisticChoice) : List Nat := ocs.map fun oc => oc.maxOptions - 1

/-- What holds of the choices all the time: everything behind the first open
choice still has its initial value, and the first open one has a value to give up. -/
structure Open (s : Str) (ocs : List OptimisticChoice) (ex : ChoiceExplorer) : Prop where
  valid : ex.Valid s ocs
  later : ∀ i, ex.firstPos < i → ex.values[i]? = (optimistic ocs)[i]?
  next : ex.firstPos < ocs.length → ∃ v, ex.values[ex.firstPos]? = some (v + 1) ∧
    ∃ w, (optimistic ocs)[ex.firstPos]? = some w ∧ v + 1 ≤ w

/-- The loop invariant of `generator`, at the loop condition. -/
structure Search.Ready (s : Str) (ocs : List OptimisticChoice) (st : Search) : Prop where
  choices : Open s ocs st.explorer
  first : st.currentFirstPos = st.explorer.firstPos
  nested : Nested ocs.length st.problems
  window : st.explorer.firstPos < ocs.length → 1 ≤ st.currentDistance ∧
    st.currentFirstPos + st.currentDistance ≤
      enclosingEnd ocs.length (popProblems st.currentFirstPos st.problems)
  whole : st.explorer.firstPos < ocs.length → st.problems = [] →
    st.currentFirstPos + st.currentDistance = ocs.length

/-- The invariant of `generator` at a `yield`. -/
structure Paused.Searching (s : Str) (ocs : List OptimisticChoice) (p : Paused) : Prop where
  choices : Open s ocs p.explorer
  first : p.currentFirstPos = p.explorer.firstPos
  unfinished : p.currentFirstPos < ocs.length
  nested : Nested ocs.length p.problems
  positive : 1 ≤ p.currentDistance
  within : p.currentFirstPos + p.currentDistance ≤ enclosingEnd ocs.length p.problems
  whole : p.problems = [] → p.currentFirstPos + p.currentDistance = ocs.length
  lastPos : p.currentLastPos = p.currentFirstPos + p.currentDistance
  yielded : p.yielded = layout s (p.explorer.choices.take (p.currentLastPos + 1))

namespace Paused.Searching

variable {s : Str} {ocs : List OptimisticChoice} {p : Paused}

theorem enclosingEnd_le (h : p.Searching s ocs) :
    enclosingEnd ocs.length p.problems ≤ ocs.length := by
  have hnested := h.nested
  cases hproblems : p.problems with
  | nil => exact Nat.le_refl _
  | cons problem problems =>
      rw [hproblems] at hnested
      exact hnested.head_le

theorem lastPos_le (h : p.Searching s ocs) : p.currentLastPos ≤ ocs.length := by
  have := h.within
  have := h.enclosingEnd_le
  have := h.lastPos
  omega

end Paused.Searching

/-- What an answer does to the choices. -/
inductive Paused.Effect (p : Paused) : Bool → Search → Prop where
  /-- The tested range is fixed. -/
  | fixed {st : Search} (first : st.explorer.firstPos = p.currentLastPos)
      (values : st.explorer.values = p.explorer.values) : Effect p true st
  /-- The tested range is halved. -/
  | halved {st : Search} (far : 1 < p.currentDistance) (explorer : st.explorer = p.explorer)
      (near : st.currentDistance < p.currentDistance) : Effect p false st
  /-- A choice tested alone is lowered, and fixed when it reached 0. -/
  | lowered {st : Search} (v : Nat) (alone : p.currentDistance = 1)
      (value : p.explorer.values[p.currentFirstPos]? = some (v + 1))
      (first : st.explorer.firstPos = p.currentFirstPos + (if v = 0 then 1 else 0))
      (values : st.explorer.values = p.explorer.values.set p.currentFirstPos v)
      (near : st.currentDistance = 1) : Effect p false st

/-- A list whose choices all leave something to decide. -/
def Undecided (ocs : List OptimisticChoice) : Prop := ∀ oc ∈ ocs, 2 ≤ oc.maxOptions

theorem Undecided.optimistic_pos {ocs : List OptimisticChoice} (h : Undecided ocs) {i : Nat}
    (hi : i < ocs.length) : ∃ w, (optimistic ocs)[i]? = some (w + 1) := by
  have hoc := h ocs[i] (List.getElem_mem hi)
  refine ⟨ocs[i].maxOptions - 2, ?_⟩
  rw [optimistic, List.getElem?_map, List.getElem?_eq_getElem hi, Option.map_some]
  congr 1
  omega

theorem undecided_replicate_nswOfAdd (n : Nat) : Undecided (List.replicate n nswOfAdd) := by
  intro oc hoc
  obtain rfl := List.eq_of_mem_replicate hoc
  exact Nat.le_refl 2

theorem fresh_replicate_nswOfAdd (n : Nat) :
    ∀ oc ∈ List.replicate n nswOfAdd, oc.Fresh := by
  intro oc hoc
  obtain rfl := List.eq_of_mem_replicate hoc
  exact ⟨rfl, rfl⟩

namespace Open

variable {s : Str} {ocs : List OptimisticChoice} {ex ex' : ChoiceExplorer}

theorem new (s : Str) (hfresh : ∀ oc ∈ ocs, oc.Fresh) (hopts : Undecided ocs) :
    Open s ocs (.new ocs s) := by
  have hvalues : (ChoiceExplorer.new ocs s).values = optimistic ocs := by
    rw [ChoiceExplorer.new_values]
    exact List.map_congr_left fun oc hoc => (hfresh oc hoc).2
  have hvalid : (ChoiceExplorer.new ocs s).Valid s ocs :=
    ChoiceExplorer.new_valid s fun oc hoc => (hfresh oc hoc).1
  refine ⟨hvalid, fun i _ => by rw [hvalues], fun hfirst => ?_⟩
  obtain ⟨w, hw⟩ := hopts.optimistic_pos hfirst
  exact ⟨w, by rw [hvalues]; exact hw, w + 1, hw, Nat.le_refl _⟩

/-- Choices that were only passed keep the invariant. -/
theorem of_passed (h : Open s ocs ex) (hopts : Undecided ocs) (hvalid : ex'.Valid s ocs)
    (hfirst : ex.firstPos < ex'.firstPos)
    (hvalues : ∀ i, ex.firstPos < i → ex'.values[i]? = ex.values[i]?) : Open s ocs ex' where
  valid := hvalid
  later := fun i hi => by rw [hvalues i (by omega), h.later i (by omega)]
  next := by
    intro hlt
    obtain ⟨w, hw⟩ := hopts.optimistic_pos hlt
    refine ⟨w, ?_, w + 1, hw, Nat.le_refl _⟩
    rw [hvalues _ hfirst, h.later _ hfirst, hw]

/-- So does a first open choice that was lowered but not to 0. -/
theorem of_lowered (h : Open s ocs ex) (hvalid : ex'.Valid s ocs)
    (hlt : ex.firstPos < ocs.length) (hfirst : ex'.firstPos = ex.firstPos) {v : Nat} (hpos : 0 < v)
    (hvalue : ex.values[ex.firstPos]? = some (v + 1))
    (hvalues : ex'.values = ex.values.set ex.firstPos v) : Open s ocs ex' where
  valid := hvalid
  later := by
    intro i hi
    rw [hvalues, List.getElem?_set_ne (by omega), h.later i (by omega)]
  next := by
    intro _
    obtain ⟨v', hv', w, hw, hle⟩ := h.next hlt
    have hsame := Option.some.inj (hv'.symm.trans hvalue)
    have hlen : ex.firstPos < ex.values.length := (List.getElem?_eq_some_iff.mp hvalue).1
    refine ⟨v - 1, ?_, w, by rw [hfirst]; exact hw, by omega⟩
    rw [hvalues, hfirst, List.getElem?_set_self hlen]
    congr 1
    omega

end Open

namespace Search

variable {s : Str} {ocs : List OptimisticChoice} {st : Search}

theorem start_ready (s : Str) (hfresh : ∀ oc ∈ ocs, oc.Fresh) (hopts : Undecided ocs) (now : Nat) :
    Ready s ocs (start (.new ocs s) now) where
  choices := Open.new s hfresh hopts
  first := rfl
  nested := Nested.nil _
  window := by
    intro hlt
    change 0 < ocs.length at hlt
    change 1 ≤ ocs.length - 0 ∧ 0 + (ocs.length - 0) ≤ ocs.length
    omega
  whole := by
    intro _ _
    change 0 + (ocs.length - 0) = ocs.length
    omega

/-- The clock plays no part in the invariant. -/
theorem Ready.timed (h : st.Ready s ocs) (now : Nat) :
    Search.Ready s ocs { st with timeCur := now } :=
  ⟨h.choices, h.first, h.nested, h.window, h.whole⟩

/-- From the loop condition the search stops at a limit, is finished, or yields
the next test. -/
inductive Head (limits : Limits) (s : Str) (ocs : List OptimisticChoice) (st : Search) :
    GeneratorOutcome → Prop where
  | limited {ex : ChoiceExplorer} (reached : limits.allow st.tries st.timeCur = false)
      (limit : st.explorer.limit = .ok ex) : Head limits s ocs st (.returned ⟨st.tries, true, ex⟩)
  | finished (allowed : limits.allow st.tries st.timeCur = true)
      (all : st.explorer.firstPos = ocs.length) :
      Head limits s ocs st (.returned ⟨st.tries, false, st.explorer⟩)
  | test {p : Paused} (allowed : limits.allow st.tries st.timeCur = true)
      (searching : p.Searching s ocs) (explorer : p.explorer = st.explorer)
      (tries : p.tries = st.tries + 1) (distance : p.currentDistance = st.currentDistance) :
      Head limits s ocs st (.yielded p)

theorem Ready.loopHead (h : st.Ready s ocs) (limits : Limits) :
    Head limits s ocs st (st.loopHead limits) := by
  have hvalid := h.choices.valid
  have hfirst := hvalid.firstPos
  cases hallow : limits.allow st.tries st.timeCur with
  | false =>
      obtain ⟨ex, hlimit, -⟩ := hvalid.limit
      rw [Search.loopHead, if_neg (by simp [hallow]), hlimit]
      exact .limited hallow hlimit
  | true =>
      rw [Search.loopHead, if_pos hallow]
      by_cases hdone : st.explorer.lastPos ≤ st.explorer.firstPos
      · rw [if_pos hdone]
        rw [hvalid.lastPos] at hdone
        exact .finished hallow (by omega)
      · rw [if_neg hdone]
        rw [hvalid.lastPos] at hdone
        have hlt : st.explorer.firstPos < ocs.length := by omega
        obtain ⟨hpos, hwithin⟩ := h.window hlt
        have hnested : Nested ocs.length (popProblems st.currentFirstPos st.problems) :=
          h.nested.pop
        have hle : enclosingEnd ocs.length (popProblems st.currentFirstPos st.problems) ≤
            ocs.length := by
          cases hpop : popProblems st.currentFirstPos st.problems with
          | nil => exact Nat.le_refl _
          | cons problem problems => exact (hpop ▸ hnested).head_le
        have hslice : st.explorer.slice (st.currentFirstPos + st.currentDistance) = _ :=
          hvalid.slice (by omega)
        simp only [hslice]
        refine .test hallow ⟨h.choices, h.first, ?_, hnested, hpos, hwithin, ?_, rfl, rfl⟩
          rfl rfl rfl
        · rw [h.first]
          exact hlt
        · intro hempty
          apply h.whole hlt
          by_contra hne
          obtain ⟨problem, rest, hpop, -⟩ :=
            h.nested.pop_cons hne (c := st.currentFirstPos) (by rw [h.first]; exact hlt)
          change popProblems st.currentFirstPos st.problems = [] at hempty
          simp [hempty] at hpop

end Search

namespace Paused.Searching

variable {s : Str} {ocs : List OptimisticChoice} {p : Paused}

/-- A passed test fixes the range and widens to the enclosing problem. -/
theorem accepted (h : p.Searching s ocs) (hopts : Undecided ocs) :
    ∃ st, p.accepted = .ok st ∧ st.Ready s ocs ∧ p.Effect true st := by
  have hlast := h.lastPos_le
  have hlastPos := h.lastPos
  have hpos := h.positive
  have hfirst := h.first
  obtain ⟨ex, hadvance, hvalid, hex, hvalues⟩ :=
    h.choices.valid.advance (n := p.currentDistance) (by omega)
  have hexLast : ex.firstPos = p.currentLastPos := by omega
  have hopen : Open s ocs ex :=
    h.choices.of_passed hopts hvalid (by omega) (fun i _ => by rw [hvalues])
  rcases Nat.lt_or_ge p.currentLastPos ocs.length with hlt | hge
  · have hne : p.problems ≠ [] := by
      intro hempty
      have := h.whole hempty
      omega
    obtain ⟨problem, rest, hpop, hend⟩ := h.nested.pop_cons hne (c := ex.firstPos) (by omega)
    have hnested : Nested ocs.length (problem :: rest) := hpop ▸ h.nested.pop
    let distance := if p.changedSinceProblem then problemEnd problem - p.currentLastPos
      else max 1 ((problemEnd problem - p.currentLastPos) / 2)
    let st : Search := { p.toSearch with
      explorer := ex, currentFirstPos := ex.firstPos, problems := problem :: rest
      currentDistance := distance }
    have hrun : p.accepted = .ok st := by
      simp only [Paused.accepted, hadvance, bind, Except.bind, hpop]
      rw [if_neg (by omega)]
    refine ⟨st, hrun, ?_, .fixed hexLast hvalues⟩
    · refine ⟨hopen, rfl, hnested, ?_, ?_⟩
      · intro _
        change 1 ≤ distance ∧ ex.firstPos + distance ≤
          enclosingEnd ocs.length (popProblems ex.firstPos (problem :: rest))
        rw [popProblems_of_lt hend]
        change 1 ≤ distance ∧ ex.firstPos + distance ≤ problemEnd problem
        simp only [distance]
        split <;> omega
      · intro _ hempty
        cases hempty
  · have hall : ex.firstPos = ocs.length := by omega
    have hpop : popProblems ex.firstPos p.problems = [] := by
      rw [hall]
      exact h.nested.pop_end
    let st : Search := { p.toSearch with
      explorer := ex, currentFirstPos := ex.firstPos, problems := [] }
    have hrun : p.accepted = .ok st := by
      simp only [Paused.accepted, hadvance, bind, Except.bind, hpop]
      rw [if_pos (by rw [hvalid.lastPos]; omega)]
    refine ⟨st, hrun, ?_, .fixed hexLast hvalues⟩
    · refine ⟨hopen, rfl, Nested.nil _, ?_, ?_⟩
      · intro hlt
        change ex.firstPos < _ at hlt
        omega
      · intro hlt
        change ex.firstPos < _ at hlt
        omega

/-- A failed test of several choices halves the range. -/
theorem rejected_far (h : p.Searching s ocs) (hfar : 1 < p.currentDistance) :
    ∃ st, p.rejected = .ok st ∧ st.Ready s ocs ∧ p.Effect false st := by
  have hwithin := h.within
  let st : Search := { p.toSearch with
    changedSinceProblem := false
    problems := (p.currentFirstPos, p.currentDistance) :: p.problems
    currentDistance := max 1 (p.currentDistance / 2) }
  have hrun : p.rejected = .ok st := by rw [Paused.rejected, if_pos hfar]
  refine ⟨st, hrun, ⟨h.choices, h.first, ?_, ?_, ?_⟩, .halved hfar rfl ?_⟩
  · exact h.nested.push (by change 0 < p.currentFirstPos + p.currentDistance; omega) hwithin
      h.whole
  · intro _
    change 1 ≤ max 1 (p.currentDistance / 2) ∧
      p.currentFirstPos + max 1 (p.currentDistance / 2) ≤
        enclosingEnd ocs.length (popProblems p.currentFirstPos
          ((p.currentFirstPos, p.currentDistance) :: p.problems))
    rw [popProblems_of_lt (by change _ < p.currentFirstPos + p.currentDistance; omega)]
    change _ ∧ _ ≤ p.currentFirstPos + p.currentDistance
    omega
  · intro _ hempty
    cases hempty
  · change max 1 (p.currentDistance / 2) < p.currentDistance
    omega

/-- A failed test of one choice lowers it, and goes on behind it once it is 0. -/
theorem rejected_alone (h : p.Searching s ocs) (hopts : Undecided ocs)
    (halone : p.currentDistance = 1) :
    ∃ st, p.rejected = .ok st ∧ st.Ready s ocs ∧ p.Effect false st := by
  have hfirst := h.first
  have hwithin := h.within
  have hlt := h.unfinished
  obtain ⟨v, hv, -⟩ := h.choices.next (by omega)
  rw [← hfirst] at hv
  obtain ⟨ex, hrun, hvalid, hex, hvalues⟩ :=
    h.choices.valid.findAndLimit (p := p.currentFirstPos) (by omega) hv
  rw [← hfirst] at hex
  have hmax : max p.currentFirstPos ex.firstPos = ex.firstPos := by
    rw [hex]
    omega
  let st : Search := { p.toSearch with
    explorer := ex, currentFirstPos := max p.currentFirstPos ex.firstPos
    changedSinceProblem := true }
  have hrejected : p.rejected = .ok st := by
    rw [Paused.rejected, if_neg (by omega), hrun]
    rfl
  refine ⟨st, hrejected, ?_, .lowered v halone hv hex hvalues halone⟩
  by_cases hzero : v = 0
  · rw [if_pos hzero] at hex
    have hlater : ∀ i, p.currentFirstPos < i → ex.values[i]? = p.explorer.values[i]? := by
      intro i hi
      rw [hvalues, List.getElem?_set_ne (by omega)]
    have hopen : Open s ocs ex :=
      h.choices.of_passed hopts hvalid (by omega) (fun i hi => hlater i (by omega))
    refine ⟨hopen, hmax, h.nested, ?_, ?_⟩
    · intro hnext
      change ex.firstPos < _ at hnext
      change 1 ≤ p.currentDistance ∧ max p.currentFirstPos ex.firstPos + p.currentDistance ≤
        enclosingEnd ocs.length (popProblems (max p.currentFirstPos ex.firstPos) p.problems)
      rw [hmax, halone]
      have hne : p.problems ≠ [] := by
        intro hempty
        have := h.whole hempty
        omega
      obtain ⟨problem, rest, hpop, hend⟩ := h.nested.pop_cons hne (c := ex.firstPos) hnext
      rw [hpop]
      change 1 ≤ 1 ∧ ex.firstPos + 1 ≤ problemEnd problem
      omega
    · intro hnext hempty
      change ex.firstPos < _ at hnext
      have := h.whole hempty
      omega
  · rw [if_neg hzero, Nat.add_zero] at hex
    rw [hfirst] at hv hvalues
    have hopen : Open s ocs ex :=
      h.choices.of_lowered hvalid (by omega) (by omega) (by omega) hv hvalues
    refine ⟨hopen, hmax, h.nested, ?_, ?_⟩
    · intro _
      change 1 ≤ p.currentDistance ∧ max p.currentFirstPos ex.firstPos + p.currentDistance ≤
        enclosingEnd ocs.length (popProblems (max p.currentFirstPos ex.firstPos) p.problems)
      rw [hmax, hex, popProblems_eq_self (n := ocs.length) (by omega)]
      exact ⟨h.positive, hwithin⟩
    · intro _ hempty
      change max p.currentFirstPos ex.firstPos + p.currentDistance = ocs.length
      rw [hmax, hex]
      exact h.whole hempty

theorem rejected (h : p.Searching s ocs) (hopts : Undecided ocs) :
    ∃ st, p.rejected = .ok st ∧ st.Ready s ocs ∧ p.Effect false st := by
  by_cases hfar : 1 < p.currentDistance
  · exact h.rejected_far hfar
  · have hpos := h.positive
    exact h.rejected_alone hopts (by omega)

/-- The step lemma of the search. -/
theorem step (h : p.Searching s ocs) (hopts : Undecided ocs) (result : Bool) :
    ∃ st, (if result then p.accepted else p.rejected) = .ok st ∧ st.Ready s ocs ∧
      p.Effect result st := by
  cases result with
  | true => exact h.accepted hopts
  | false => exact h.rejected hopts

/-- Every resumption goes on from a state that the step lemma describes. -/
theorem resume (h : p.Searching s ocs) (hopts : Undecided ocs) (limits : Limits)
    (answer : Bool × Nat) :
    ∃ st, st.Ready s ocs ∧ p.Effect answer.1 st ∧ p.resume limits answer = st.loopHead limits := by
  obtain ⟨result, now⟩ := answer
  obtain ⟨st, hrun, hready, heffect⟩ := h.step hopts result
  refine ⟨{ st with timeCur := now }, hready.timed now, ?_, ?_⟩
  · cases heffect with
    | fixed first values => exact .fixed first values
    | halved far explorer near => exact .halved far explorer near
    | lowered v alone value first values near => exact .lowered v alone value first values near
  · rw [Paused.resume, hrun]

end Paused.Searching

end Petospa

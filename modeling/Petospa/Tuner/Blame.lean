import Mathlib.Data.Nat.Find
import Mathlib.Algebra.Order.BigOperators.Group.List
import Mathlib.Data.List.Forall2
import Petospa.Tuner.Soundness

/-!
# Which choice is blamed for a failing test

A choice is lowered after a test of a range of length one. The tested slice ends
one choice behind the range, so the verdict is about two choices. Where the
second one is harmless the blame is right; then a search over a downward-closed
oracle ends with the greedy vector.
-/

namespace Petospa

open Text Coroutine

namespace Paused

/-- What is lowered by the answer was rejected on its own: with the settled
choices before it at their values and everything behind it at 0. -/
def LoweringJustified (accept : List Nat → Bool) (verdict : Bool) (p : Paused) : Prop :=
  ∀ (st : Search) (i v : Nat), (if verdict then p.accepted else p.rejected) = .ok st →
    p.explorer.values[i]? = some (v + 1) → st.explorer.values[i]? = some v →
    accept (limitTo (i + 1) p.explorer.values) = false

/-- In a test of a single choice the choice behind it changes nothing: if the
single choice is acceptable, it is so together with its neighbour. -/
def NeighbourHarmless (accept : List Nat → Bool) (p : Paused) : Prop :=
  p.currentDistance = 1 → accept (limitTo p.currentLastPos p.explorer.values) = true →
    accept (limitTo (p.currentLastPos + 1) p.explorer.values) = true

end Paused

/-- Less optimism never hurts. -/
def DownwardClosed (accept : List Nat → Bool) : Prop :=
  ∀ v w, List.Forall₂ (· ≤ ·) v w → accept w = true → accept v = true

/-- Each choice has the largest value that is acceptable behind the values before
it, or 0 where none is. -/
def Greedy (accept : List Nat → Bool) (ocs : List OptimisticChoice) (vector : List Nat) : Prop :=
  ∀ (i : Nat) (oc : OptimisticChoice), ocs[i]? = some oc → vector[i]? = some
    (Nat.findGreatest (fun x => accept (limitTo (i + 1) (vector.set i x)) = true)
      (oc.maxOptions - 1))

section Vectors

variable {values : List Nat} {i k v w : Nat}

/-- Vectors of one length are compared choice by choice. -/
theorem forall₂_le_of_getElem? {xs ys : List Nat} (hlen : xs.length = ys.length)
    (h : ∀ (i x y : Nat), xs[i]? = some x → ys[i]? = some y → x ≤ y) :
    List.Forall₂ (· ≤ ·) xs ys := by
  rw [List.forall₂_iff_get]
  refine ⟨hlen, fun i hx hy => ?_⟩
  exact h i _ _ (List.getElem?_eq_getElem hx) (List.getElem?_eq_getElem hy)

theorem limitTo_le_limitTo {l : Nat} (h : k ≤ l) :
    List.Forall₂ (· ≤ ·) (limitTo k values) (limitTo l values) := by
  refine forall₂_le_of_getElem? (by simp) fun i x y hx hy => ?_
  rw [getElem?_limitTo] at hx hy
  cases hv : values[i]? with
  | none => simp [hv] at hx
  | some u =>
      simp only [hv, Option.map_some, Option.some.injEq] at hx hy
      subst hx hy
      split <;> split <;> omega

theorem limitTo_set_le_limitTo_set (h : v ≤ w) :
    List.Forall₂ (· ≤ ·) (limitTo k (values.set i v)) (limitTo k (values.set i w)) := by
  refine forall₂_le_of_getElem? (by simp) fun j x y hx hy => ?_
  rw [getElem?_limitTo, List.getElem?_set] at hx hy
  by_cases hij : i = j
  · subst hij
    by_cases hi : i < values.length
    · simp only [if_pos, hi, Option.map_some, Option.some.injEq] at hx hy
      subst hx hy
      split <;> omega
    · simp [hi] at hx
  · rw [if_neg hij] at hx hy
    have := Option.some.inj (hx.symm.trans hy)
    omega

theorem set_getElem?_self (hv : values[i]? = some v) : values.set i v = values := by
  obtain ⟨hi, rfl⟩ := List.getElem?_eq_some_iff.mp hv
  exact List.set_getElem_self hi

end Vectors

namespace ChoiceExplorer

variable {s : Str} {ocs : List OptimisticChoice} {limits : Limits} {clock : Nat → Nat}
  {accept : List Nat → Bool}

/-! ### Lowerings -/

/-- The only lowering of an answer is at the choice that was tested alone. -/
theorem lowering_cases {p : Paused} {st : Search} {result : Bool} (heffect : p.Effect result st)
    {i v : Nat} (hbefore : p.explorer.values[i]? = some (v + 1))
    (hafter : st.explorer.values[i]? = some v) :
    result = false ∧ p.currentDistance = 1 ∧ i = p.currentFirstPos := by
  cases heffect with
  | fixed first values =>
      rw [values, hbefore] at hafter
      have := Option.some.inj hafter
      omega
  | halved far explorer near =>
      rw [explorer, hbefore] at hafter
      have := Option.some.inj hafter
      omega
  | lowered u alone value first values near =>
      refine ⟨rfl, alone, ?_⟩
      by_contra hne
      rw [values, List.getElem?_set_ne (by omega), hbefore] at hafter
      have := Option.some.inj hafter
      omega

/-- With a harmless neighbour, a rejected pair speaks about the single choice. -/
theorem single_rejected {p : Paused} (h : p.Searching s ocs)
    (hharmless : p.NeighbourHarmless accept) (halone : p.currentDistance = 1)
    (hpair : accept (limitTo (p.currentLastPos + 1) p.explorer.values) = false) :
    accept (limitTo (p.currentFirstPos + 1) p.explorer.values) = false := by
  have hnot := mt (hharmless halone) (by rw [hpair]; exact Bool.false_ne_true)
  rw [h.lastPos, halone, Bool.not_eq_true] at hnot
  exact hnot

theorem loweringJustified_iff {p : Paused} (h : p.Searching s ocs) (hopts : Undecided ocs) :
    p.LoweringJustified accept (accept (limitTo (p.currentLastPos + 1) p.explorer.values)) ↔
      p.NeighbourHarmless accept := by
  have hlast := h.lastPos
  constructor
  · intro hjustified halone hsingle
    by_contra hpair
    rw [Bool.not_eq_true] at hpair
    rw [hpair] at hjustified
    obtain ⟨st, hrun, -, heffect⟩ := h.rejected hopts
    cases heffect with
    | halved far explorer near => omega
    | lowered v alone value first values near =>
        have hlen : p.currentFirstPos < p.explorer.values.length :=
          (List.getElem?_eq_some_iff.mp value).1
        have hrejected := hjustified st p.currentFirstPos v hrun value
          (by rw [values, List.getElem?_set_self hlen])
        rw [← halone, ← hlast, hsingle] at hrejected
        cases hrejected
  · intro hharmless st i v hrun hbefore hafter
    obtain ⟨st', hrun', -, heffect⟩ :=
      h.step hopts (accept (limitTo (p.currentLastPos + 1) p.explorer.values))
    obtain rfl : st = st' := Except.ok.inj (hrun.symm.trans hrun')
    obtain ⟨hpair, halone, rfl⟩ := lowering_cases heffect hbefore hafter
    exact single_rejected h hharmless halone hpair

/-! ### The greedy vector -/

/-- What a search with justified lowerings has established: every value is as
large as it can be, and what is settled above 0 is acceptable. -/
structure Largest (accept : List Nat → Bool) (ocs : List OptimisticChoice) (ex : ChoiceExplorer) :
    Prop where
  bounded : ∀ (i : Nat) (oc : OptimisticChoice) (v : Nat), ocs[i]? = some oc →
    ex.values[i]? = some v → v ≤ oc.maxOptions - 1
  blamed : ∀ (i : Nat) (oc : OptimisticChoice) (v : Nat), ocs[i]? = some oc →
    ex.values[i]? = some v → v < oc.maxOptions - 1 →
    accept (limitTo (i + 1) (ex.values.set i (v + 1))) = false
  settled : ∀ (i v : Nat), i < ex.firstPos → ex.values[i]? = some v → v ≠ 0 →
    accept (limitTo (i + 1) ex.values) = true

theorem Largest.new (hfresh : ∀ oc ∈ ocs, oc.Fresh) : Largest accept ocs (new ocs s) := by
  have hvalue : ∀ (i : Nat) (oc : OptimisticChoice) (v : Nat), ocs[i]? = some oc →
      (ChoiceExplorer.new ocs s).values[i]? = some v → v = oc.maxOptions - 1 := by
    intro i oc v hoc hv
    rw [new_values, List.getElem?_map, hoc, Option.map_some] at hv
    rw [← Option.some.inj hv, (hfresh oc (List.mem_of_getElem? hoc)).2]
  refine ⟨fun i oc v hoc hv => (hvalue i oc v hoc hv).le, fun i oc v hoc hv hlt => ?_,
    fun i v hi => ?_⟩
  · have := hvalue i oc v hoc hv
    omega
  · change i < 0 at hi
    omega

/-- Lowering a choice that was rejected on its own keeps the values maximal. -/
theorem Largest.lowered {p : Paused} {ex : ChoiceExplorer} {u : Nat} (h : p.Searching s ocs)
    (hmax : Largest accept ocs p.explorer)
    (hsingle : accept (limitTo (p.currentFirstPos + 1) p.explorer.values) = false)
    (hvalue : p.explorer.values[p.currentFirstPos]? = some (u + 1))
    (hfirst : ex.firstPos = p.currentFirstPos + if u = 0 then 1 else 0)
    (hvalues : ex.values = p.explorer.values.set p.currentFirstPos u) : Largest accept ocs ex := by
  have hlen : p.currentFirstPos < p.explorer.values.length :=
    (List.getElem?_eq_some_iff.mp hvalue).1
  constructor
  · intro i oc v hoc hv
    rw [hvalues] at hv
    by_cases hi : p.currentFirstPos = i
    · subst hi
      rw [List.getElem?_set_self hlen] at hv
      have := Option.some.inj hv
      have := hmax.bounded _ oc _ hoc hvalue
      omega
    · rw [List.getElem?_set_ne hi] at hv
      exact hmax.bounded i oc v hoc hv
  · intro i oc v hoc hv hlt
    rw [hvalues] at hv ⊢
    by_cases hi : p.currentFirstPos = i
    · subst hi
      rw [List.getElem?_set_self hlen] at hv
      rw [← Option.some.inj hv, List.set_set, set_getElem?_self hvalue]
      exact hsingle
    · rw [List.getElem?_set_ne hi] at hv
      have hblamed := hmax.blamed i oc v hoc hv hlt
      rcases Nat.lt_or_ge i p.currentFirstPos with hbefore | hbehind
      · rw [List.set_comm _ _ hi, limitTo_set_of_le (by omega)]
        exact hblamed
      · -- A choice behind the first open one still has its initial value.
        have hlater := h.choices.later i (by rw [← h.first]; omega)
        rw [hv, optimistic, List.getElem?_map, hoc, Option.map_some] at hlater
        have := Option.some.inj hlater
        omega
  · intro i v hi hv hne
    rw [hvalues] at hv ⊢
    rw [hfirst] at hi
    by_cases hic : p.currentFirstPos = i
    · subst hic
      rw [List.getElem?_set_self hlen] at hv
      have := Option.some.inj hv
      split at hi <;> omega
    · rw [List.getElem?_set_ne hic] at hv
      have hlt : i < p.currentFirstPos := by split at hi <;> omega
      rw [limitTo_set_of_le (by omega)]
      exact hmax.settled i v (by rw [← h.first]; exact hlt) hv hne

/-- One answer of a downward-closed oracle keeps the values maximal. -/
theorem Largest.step {p : Paused} {st : Search} (h : p.Searching s ocs)
    (hmax : Largest accept ocs p.explorer) (hdown : DownwardClosed accept)
    (hharmless : p.NeighbourHarmless accept)
    (heffect : p.Effect (accept (limitTo (p.currentLastPos + 1) p.explorer.values)) st) :
    Largest accept ocs st.explorer := by
  generalize hresult : accept (limitTo (p.currentLastPos + 1) p.explorer.values) = result at heffect
  cases heffect with
  | fixed first values =>
      refine ⟨?_, ?_, ?_⟩
      · rw [values]
        exact hmax.bounded
      · rw [values]
        exact hmax.blamed
      · intro i v hi _ _
        rw [values]
        rw [first] at hi
        exact hdown _ _ (limitTo_le_limitTo (by omega)) hresult
  | halved far explorer near =>
      rw [explorer]
      exact hmax
  | lowered u alone value first values near =>
      exact hmax.lowered h (single_rejected h hharmless alone hresult) value first values

/-- With everything settled, maximal values are the greedy vector. -/
theorem Largest.greedy {ex : ChoiceExplorer} (hmax : Largest accept ocs ex)
    (hdown : DownwardClosed accept) (hlen : ex.values.length = ocs.length)
    (hall : ex.firstPos = ocs.length) : Greedy accept ocs ex.values := by
  intro i oc hoc
  have hi : i < ocs.length := (List.getElem?_eq_some_iff.mp hoc).1
  have hvalues : i < ex.values.length := by omega
  have hv : ex.values[i]? = some ex.values[i] := List.getElem?_eq_getElem hvalues
  rw [hv]
  congr 1
  symm
  rw [Nat.findGreatest_eq_iff]
  refine ⟨hmax.bounded i oc _ hoc hv, ?_, ?_⟩
  · intro hne
    rw [set_getElem?_self hv]
    exact hmax.settled i _ (by omega) hv hne
  · intro x hlt hle hx
    have hblamed := hmax.blamed i oc _ hoc hv (by omega)
    have hlower : accept (limitTo (i + 1) (ex.values.set i (ex.values[i] + 1))) = true :=
      hdown _ _ (limitTo_set_le_limitTo_set (Nat.succ_le_of_lt hlt)) hx
    rw [hblamed] at hlower
    cases hlower

theorem explore_greedy (hfresh : ∀ oc ∈ ocs, oc.Fresh) (hopts : Undecided ocs)
    (hdown : DownwardClosed accept)
    (hharmless : ∀ n p, (new ocs s).explore .unlimited clock accept n = .yielded p →
      p.NeighbourHarmless accept) :
    ∃ n r, (new ocs s).explore .unlimited clock accept n = .returned r ∧ r.stop = false ∧
      Greedy accept ocs ((new ocs s).denoted r.explorer.controlString) := by
  have hreturns : ∃ n r, (new ocs s).explore .unlimited clock accept n = .returned r ∧
      r.stop = false := explore_returns hfresh hopts
  obtain ⟨n, r, hrun, hstop⟩ := hreturns
  have h : ((new ocs s).explore .unlimited clock accept n).Holds
      (fun p => p.Searching s ocs ∧ Largest accept ocs p.explorer)
      (Ended .unlimited s ocs (Largest accept ocs)) :=
    explore_holds hfresh hopts (Largest.new hfresh)
      (fun n p st hp hsearching hmax heffect =>
        hmax.step hsearching hdown (hharmless n p hp) heffect) n
  rw [hrun] at h
  obtain ⟨ex, hopen, hmax, hfinished, hdenoted⟩ := Ended.denoted h
  refine ⟨n, r, hrun, hstop, ?_⟩
  have hlen := hopen.valid.values_length
  rw [hdenoted, hfinished hstop, limitTo_of_length_le hlen.le]
  exact hmax.greedy hdown hlen (hfinished hstop)

/-- The search lowers only choices that were rejected on their own exactly when
no single-choice test is spoilt by the neighbour in its slice; with such tests
and a downward-closed oracle an unlimited search ends with the greedy vector. -/
theorem explore_blame_iff (hfresh : ∀ oc ∈ ocs, oc.Fresh) (hopts : Undecided ocs) :
    ((∀ limits n p, (new ocs s).explore limits clock accept n = .yielded p →
        p.LoweringJustified accept (accept ((new ocs s).denoted p.yielded))) ↔
      ∀ n p, (new ocs s).explore .unlimited clock accept n = .yielded p →
        p.NeighbourHarmless accept) ∧
    ((∀ n p, (new ocs s).explore .unlimited clock accept n = .yielded p →
        p.NeighbourHarmless accept) → DownwardClosed accept →
      ∃ n r, (new ocs s).explore .unlimited clock accept n = .returned r ∧ r.stop = false ∧
        Greedy accept ocs ((new ocs s).denoted r.explorer.controlString)) := by
  have hstep : ∀ {limits n p}, (new ocs s).explore limits clock accept n = .yielded p →
      (p.LoweringJustified accept (accept ((new ocs s).denoted p.yielded)) ↔
        p.NeighbourHarmless accept) := by
    intro limits n p hrun
    have hsearching := explore_searching hfresh hopts hrun
    rw [hsearching.yielded, hsearching.choices.valid.denoted]
    exact loweringJustified_iff hsearching hopts
  refine ⟨⟨?_, ?_⟩, fun hharmless hdown => explore_greedy hfresh hopts hdown hharmless⟩
  · intro hjustified n p hrun
    exact (hstep hrun).mp (hjustified .unlimited n p hrun)
  · intro hharmless limits n p hrun
    exact (hstep hrun).mpr (hharmless n p (explore_unlimited hrun))

/-- An oracle for choices of which the first must not be optimistic. -/
def notTheFirst (vector : List Nat) : Bool := vector.headD 0 == 0

theorem downwardClosed_notTheFirst : DownwardClosed notTheFirst := by
  intro v w hle hw
  cases hle with
  | nil => rfl
  | cons hhead htail =>
      simp only [notTheFirst, List.headD_cons, beq_iff_eq] at hw ⊢
      omega

/-- No neighbour matters to an oracle that looks at the first choice only. -/
theorem neighbourHarmless_notTheFirst {p : Paused} (h : p.Searching s ocs) :
    p.NeighbourHarmless notTheFirst := by
  intro halone haccept
  have hlast : 0 < p.currentLastPos := by
    have := h.lastPos
    omega
  cases hvalues : p.explorer.values with
  | nil => rfl
  | cons value values =>
      simpa [hvalues, notTheFirst, limitTo, hlast] using haccept

/-- Of three choices the first is lowered rightly, in tests that contain the
second as well, and the search ends with the greedy vector. -/
theorem explore_blame_iff_notTheFirst :
    (∀ limits n p, (new (List.replicate 3 nswOfAdd) []).explore limits (fun _ => 0) notTheFirst n =
        .yielded p → p.LoweringJustified notTheFirst
          (notTheFirst ((new (List.replicate 3 nswOfAdd) []).denoted p.yielded))) ∧
    ∃ n r, (new (List.replicate 3 nswOfAdd) []).explore .unlimited (fun _ => 0) notTheFirst n =
      .returned r ∧ r.stop = false ∧ Greedy notTheFirst (List.replicate 3 nswOfAdd)
        ((new (List.replicate 3 nswOfAdd) []).denoted r.explorer.controlString) := by
  have hfresh := fresh_replicate_nswOfAdd 3
  have hopts := undecided_replicate_nswOfAdd 3
  have hblame := @explore_blame_iff [] (List.replicate 3 nswOfAdd) (fun _ => 0) notTheFirst
    hfresh hopts
  have hharmless : ∀ n p, (new (List.replicate 3 nswOfAdd) []).explore .unlimited (fun _ => 0)
      notTheFirst n = .yielded p → p.NeighbourHarmless notTheFirst :=
    fun n p hrun => neighbourHarmless_notTheFirst (explore_searching hfresh hopts hrun)
  exact ⟨hblame.1.mpr hharmless, hblame.2 hharmless downwardClosed_notTheFirst⟩

/-- An oracle for choices of which at most one may be optimistic. -/
def atMostOne (vector : List Nat) : Bool := vector.sum ≤ 1

theorem downwardClosed_atMostOne : DownwardClosed atMostOne := by
  intro v w hle hw
  have hsum := hle.sum_le_sum
  simp only [atMostOne, decide_eq_true_eq] at hw ⊢
  omega

/-- With two choices of which either one is acceptable, the first is lowered
after tests of both together, and the search keeps the second. -/
theorem explore_blames_first :
    DownwardClosed atMostOne ∧
    (∃ p, (new [nswOfAdd, nswOfAdd] []).explore .unlimited (fun _ => 0) atMostOne 1 =
        .yielded p ∧
      ¬ p.LoweringJustified atMostOne
        (atMostOne ((new [nswOfAdd, nswOfAdd] []).denoted p.yielded))) ∧
    ∃ r, (new [nswOfAdd, nswOfAdd] []).explore .unlimited (fun _ => 0) atMostOne 4 =
        .returned r ∧ r.stop = false ∧
      ¬ Greedy atMostOne [nswOfAdd, nswOfAdd]
        ((new [nswOfAdd, nswOfAdd] []).denoted r.explorer.controlString) := by
  refine ⟨downwardClosed_atMostOne, ⟨_, rfl, ?_⟩, _, rfl, rfl, ?_⟩
  · intro hjustified
    have hrejected := hjustified _ 0 0 rfl rfl rfl
    exact absurd hrejected (by decide)
  · intro hgreedy
    have hfirst := hgreedy 0 nswOfAdd rfl
    exact absurd hfirst (by decide)

end ChoiceExplorer

end Petospa

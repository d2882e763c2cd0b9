import Petospa.Tuner.Oracle

/-!
# What the search settles

A passed test fixes the choices below `currentLastPos`, but the tested slice also
contains the choice at `currentLastPos`, still at its optimistic value. Where the
oracle accepts with that choice and not without it, the settled prefix is a
vector that nobody tested.
-/

namespace Petospa

open Text Coroutine

/-- If the test passes, the range it settles passes on its own. -/
def Paused.SettledPasses (accept : List Nat → Bool) (p : Paused) : Prop :=
  accept (limitTo (p.currentLastPos + 1) p.explorer.values) = true →
    accept (limitTo p.currentLastPos p.explorer.values) = true

namespace ChoiceExplorer

/-- The settled prefix on its own is acceptable. -/
def SettledAccepted (accept : List Nat → Bool) (ex : ChoiceExplorer) : Prop :=
  accept (limitTo ex.firstPos ex.values) = true

variable {s : Str} {ocs : List OptimisticChoice} {limits : Limits} {clock : Nat → Nat}
  {accept : List Nat → Bool}

/-- One answer keeps the settled prefix acceptable. -/
theorem SettledAccepted.step {p : Paused} {st : Search} (h : p.Searching s ocs)
    (hsettled : p.explorer.SettledAccepted accept) (htest : p.SettledPasses accept)
    (heffect : p.Effect (accept (limitTo (p.currentLastPos + 1) p.explorer.values)) st) :
    st.explorer.SettledAccepted accept := by
  rw [SettledAccepted, ← h.first] at hsettled
  generalize hresult : accept (limitTo (p.currentLastPos + 1) p.explorer.values) = result at heffect
  cases heffect with
  | fixed first values =>
      rw [SettledAccepted, first, values]
      exact htest hresult
  | halved far explorer near =>
      rw [SettledAccepted, explorer, ← h.first]
      exact hsettled
  | lowered v alone value first values near =>
      rw [SettledAccepted, first, values]
      by_cases hv : v = 0
      · rw [if_pos hv, hv, limitTo_succ_set_zero]
        exact hsettled
      · rw [if_neg hv, Nat.add_zero, limitTo_set_of_le (Nat.le_refl _)]
        exact hsettled

/-- The run lemma: a run whose tests all speak for what they settle ends with a
string that the oracle accepts. -/
theorem explore_accepted (hfresh : ∀ oc ∈ ocs, oc.Fresh) (hopts : Undecided ocs)
    (hzero : accept (List.replicate ocs.length 0) = true)
    (htests : ∀ n p, (new ocs s).explore limits clock accept n = .yielded p →
      p.SettledPasses accept) {n : Nat} {r : Returned}
    (hrun : (new ocs s).explore limits clock accept n = .returned r) :
    accept ((new ocs s).denoted r.explorer.controlString) = true := by
  have hstart : (new ocs s).SettledAccepted accept := by
    change accept (limitTo 0 _) = true
    rw [limitTo_zero, (new_valid s fun oc hoc => (hfresh oc hoc).1).values_length]
    exact hzero
  have h := explore_holds hfresh hopts hstart
    (fun n p st hp hsearching hsettled heffect =>
      hsettled.step hsearching (htests n p hp) heffect) n
  rw [hrun] at h
  obtain ⟨ex, -, hsettled, -, hdenoted⟩ := Ended.denoted h
  rw [hdenoted]
  exact hsettled

/-- A try limit right behind a passed test ends the run with what it settled. -/
theorem explore_cut (hfresh : ∀ oc ∈ ocs, oc.Fresh) (hopts : Undecided ocs) {n : Nat} {p : Paused}
    (hrun : (new ocs s).explore .unlimited clock accept n = .yielded p)
    (hpass : accept (limitTo (p.currentLastPos + 1) p.explorer.values) = true) :
    ∃ r, (new ocs s).explore ⟨some (n + 1), none⟩ clock accept (n + 1) = .returned r ∧
      (new ocs s).denoted r.explorer.controlString =
        limitTo p.currentLastPos p.explorer.values := by
  have hsearching := explore_searching hfresh hopts hrun
  have hnext := play_succ_of_yielded (explore_maxTries (Nat.lt_succ_self n) hrun)
  have hanswer : ((new ocs s).oracleAnswer accept clock n p).1 = true := by
    rw [oracleAnswer, hsearching.yielded, hsearching.choices.valid.denoted]
    exact hpass
  obtain ⟨st, haccepted, hready, heffect⟩ := hsearching.accepted hopts
  have htries : st.tries = n + 1 := by
    rw [Paused.accepted_tries haccepted, explore_tries hrun]
  have hvalid := hready.choices.valid
  obtain ⟨ex, hlimit, -⟩ := hvalid.limit
  refine ⟨⟨st.tries, true, ex⟩, ?_, ?_⟩
  · rw [explore, hnext, Paused.resume, hanswer, if_pos rfl, haccepted]
    simp only [Search.loopHead, Limits.allow, htries, Nat.lt_irrefl, decide_false,
      Bool.false_and, Bool.false_eq_true, if_false, hlimit]
  · have hended : Ended ⟨some (n + 1), none⟩ s ocs (fun e => e.firstPos = p.currentLastPos ∧
        e.values = p.explorer.values) ⟨st.tries, true, ex⟩ := by
      cases heffect with
      | fixed first values =>
          exact ⟨st, hready, ⟨first, values⟩, .limited (by simp [Limits.allow, htries]) hlimit⟩
    obtain ⟨e, -, ⟨hfirst, hvalues⟩, -, hdenoted⟩ := hended.denoted
    rw [hdenoted, hfirst, hvalues]

/-- The search ends with an accepted string at every limit exactly when each
test that passes would also pass without the choice behind the tested range. -/
theorem explore_sound_iff (hfresh : ∀ oc ∈ ocs, oc.Fresh) (hopts : Undecided ocs)
    (hzero : accept (List.replicate ocs.length 0) = true) :
    (∀ limits n r, (new ocs s).explore limits clock accept n = .returned r →
      accept ((new ocs s).denoted r.explorer.controlString) = true) ↔
    ∀ n p, (new ocs s).explore .unlimited clock accept n = .yielded p →
      p.SettledPasses accept := by
  constructor
  · intro hsound n p hrun hpass
    obtain ⟨r, hcut, hdenoted⟩ := explore_cut hfresh hopts hrun hpass
    rw [← hdenoted]
    exact hsound _ _ r hcut
  · intro htests limits n r hrun
    exact explore_accepted hfresh hopts hzero
      (fun n p hp => htests n p (explore_unlimited hp)) hrun

/-- An oracle for three choices of which the first two work only together. -/
def firstTwoTogether (vector : List Nat) : Bool := vector = [0, 0, 0] ∨ vector = [1, 1, 0]

theorem explore_sound_iff_firstTwoTogether :
    (∀ limits n r, (new (List.replicate 3 nswOfAdd) []).explore limits (fun _ => 0)
        firstTwoTogether n = .returned r → firstTwoTogether
          ((new (List.replicate 3 nswOfAdd) []).denoted r.explorer.controlString) = true) ↔
      ∀ n p, (new (List.replicate 3 nswOfAdd) []).explore .unlimited (fun _ => 0)
        firstTwoTogether n = .yielded p → p.SettledPasses firstTwoTogether :=
  explore_sound_iff (fresh_replicate_nswOfAdd 3) (undecided_replicate_nswOfAdd 3) (by decide)

/-- With three choices, where the second one works only together with the first
and the first only together with the second, the search tests the first two,
fixes the first and loses the second. -/
theorem not_explore_sound :
    ¬ ∀ (s : Str) (ocs : List OptimisticChoice) (accept : List Nat → Bool), ocs ≠ [] →
      (∀ oc ∈ ocs, oc.Fresh) → Undecided ocs → accept (List.replicate ocs.length 0) = true →
      ∀ limits clock n r, (new ocs s).explore limits clock accept n = .returned r →
        accept ((new ocs s).denoted r.explorer.controlString) = true := by
  intro h
  have hrun : ∃ r, (new (List.replicate 3 nswOfAdd) []).explore .unlimited (fun _ => 0)
      firstTwoTogether 7 = .returned r ∧
      (new (List.replicate 3 nswOfAdd) []).denoted r.explorer.controlString = [1, 0, 0] := by
    refine ⟨_, rfl, ?_⟩
    decide
  obtain ⟨r, hreturned, hdenoted⟩ := hrun
  have haccept := h [] (List.replicate 3 nswOfAdd) firstTwoTogether (by simp)
    (fresh_replicate_nswOfAdd 3) (undecided_replicate_nswOfAdd 3) (by decide) .unlimited
    (fun _ => 0) 7 r hreturned
  rw [hdenoted] at haccept
  exact absurd haccept (by decide)

end ChoiceExplorer

end Petospa

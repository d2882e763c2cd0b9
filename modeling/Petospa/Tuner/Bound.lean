import Mathlib.Data.Nat.Log
import Mathlib.Algebra.Order.BigOperators.Group.List
import Petospa.Tuner.Invariant
import Petospa.Tuner.Oracle

/-!
# How long the search takes

Between two moves of the first open choice the tested range is at most halved
down to one choice. So the halvings that the current range still allows, those
of a full range for every choice behind the first open one, the open choices and
the values that they may still lose bound the answers to come.
-/

namespace Petospa

open Text Coroutine

/-- What bounds the answers that are still read, in a list of `n` choices. -/
def Paused.budget (n : Nat) (p : Paused) : Nat :=
  Nat.log 2 p.currentDistance + (n - p.explorer.firstPos - 1) * Nat.log 2 n +
    (n - p.explorer.firstPos) + (p.explorer.values.drop p.explorer.firstPos).sum

/-- The answers after which the search is over. -/
def answerBound (ocs : List OptimisticChoice) : Nat :=
  ocs.length * Nat.log 2 ocs.length + ocs.length +
    (ocs.map fun oc => oc.maxOptions - 1).sum

theorem sum_drop_le (xs : List Nat) (i j : Nat) : (xs.drop (i + j)).sum ≤ (xs.drop i).sum := by
  rw [← List.drop_drop]
  exact (List.drop_sublist j (xs.drop i)).sum_le_sum fun _ _ => Nat.zero_le _

/-- Lowering the first element lowers the sum from there on. -/
theorem sum_drop_set {xs : List Nat} {i v : Nat} (h : xs[i]? = some (v + 1)) :
    ((xs.set i v).drop i).sum + 1 = (xs.drop i).sum := by
  obtain ⟨hi, hv⟩ := List.getElem?_eq_some_iff.mp h
  have hset : i < (xs.set i v).length := by rwa [List.length_set]
  rw [List.drop_eq_getElem_cons hi, List.drop_eq_getElem_cons hset, hv,
    List.getElem_set_self, List.drop_set_of_lt (Nat.lt_succ_self i), List.sum_cons,
    List.sum_cons]
  exact Nat.add_right_comm v _ 1

/-- A failed test of several choices halves their number. -/
theorem Paused.rejected_halved {p : Paused} {st : Search} (hfar : 1 < p.currentDistance)
    (hok : p.rejected = .ok st) : st.currentDistance = max 1 (p.currentDistance / 2) := by
  rw [rejected, if_pos hfar] at hok
  obtain rfl := Except.ok.inj hok
  rfl

theorem log_halved {d : Nat} (hd : 1 < d) : Nat.log 2 (max 1 (d / 2)) + 1 = Nat.log 2 d := by
  have hmax : max 1 (d / 2) = d / 2 := by omega
  have hpos : 0 < Nat.log 2 d := Nat.log_pos Nat.one_lt_two hd
  rw [hmax, Nat.log_div_base]
  omega

namespace Paused.Searching

variable {s : Str} {ocs : List OptimisticChoice} {p t : Paused}

theorem budget_pos (h : p.Searching s ocs) : 0 < p.budget ocs.length := by
  have hlt := h.unfinished
  have hfirst := h.first
  rw [budget]
  omega

/-- Choices that were passed pay for the halvings of a range as long as the list. -/
theorem budget_passed {n f f' d d' a a' : Nat} (hd : d' ≤ n) (hf : f < f') (hlt : f' < n)
    (ha : a' ≤ a) : Nat.log 2 d' + (n - f' - 1) * Nat.log 2 n + (n - f') + a' <
      Nat.log 2 d + (n - f - 1) * Nat.log 2 n + (n - f) + a := by
  have hlog : Nat.log 2 d' ≤ Nat.log 2 n := Nat.log_mono_right hd
  have hmul : (n - f' - 1 + 1) * Nat.log 2 n ≤ (n - f - 1) * Nat.log 2 n :=
    Nat.mul_le_mul_right _ (by omega)
  rw [Nat.add_mul, Nat.one_mul] at hmul
  omega

/-- Every answer that leads to another test lowers the budget. -/
theorem budget_lt (h : p.Searching s ocs) {result : Bool} {st : Search}
    (hrun : (if result then p.accepted else p.rejected) = .ok st) (heffect : p.Effect result st)
    (hnext : t.Searching s ocs) (hexplorer : t.explorer = st.explorer)
    (hdistance : t.currentDistance = st.currentDistance) :
    t.budget ocs.length < p.budget ocs.length := by
  have hfirst := h.first
  have hlast := h.lastPos
  have hpos := h.positive
  have hlt := hnext.unfinished
  have hle : t.currentDistance ≤ ocs.length := by
    have := hnext.within
    have := hnext.enclosingEnd_le
    omega
  rw [hnext.first, hexplorer] at hlt
  cases heffect with
  | fixed hmoved hvalues =>
      rw [budget, budget, hexplorer, hvalues]
      refine budget_passed hle (by omega) hlt ?_
      have hdrop := sum_drop_le p.explorer.values p.explorer.firstPos p.currentDistance
      rwa [show p.explorer.firstPos + p.currentDistance = st.explorer.firstPos by omega] at hdrop
  | halved hfar hsame _ =>
      have hlog := log_halved hfar
      rw [budget, budget, hexplorer, hsame, hdistance, rejected_halved hfar hrun]
      omega
  | lowered v halone hvalue hmoved hvalues hnear =>
      rw [hfirst] at hvalue hvalues hmoved
      have hsum := sum_drop_set hvalue
      by_cases hzero : v = 0
      · rw [if_pos hzero] at hmoved
        rw [budget, budget, hexplorer, hvalues]
        refine budget_passed hle (by omega) hlt ?_
        have hdrop := sum_drop_le (p.explorer.values.set p.explorer.firstPos v)
          p.explorer.firstPos 1
        rw [hmoved]
        omega
      · rw [if_neg hzero, Nat.add_zero] at hmoved
        rw [budget, budget, hexplorer, hdistance, hnear, halone, hmoved, hvalues]
        omega

end Paused.Searching

/-- Without limits the loop head hands out the next string or has settled everything. -/
theorem Search.Ready.loopHead_holds_unlimited {s : Str} {ocs : List OptimisticChoice}
    {st : Search} {P : Paused → Prop} (h : st.Ready s ocs)
    (hnext : ∀ t : Paused, t.Searching s ocs → t.explorer = st.explorer →
      t.currentDistance = st.currentDistance → P t) :
    (st.loopHead .unlimited).Holds (fun t => t.Searching s ocs ∧ P t)
      (fun r => r.stop = false ∧ r.explorer.firstPos = ocs.length ∧
        ∀ oc ∈ r.explorer.choices, oc.fixed = true) := by
  have hhead := h.loopHead .unlimited
  cases hout : st.loopHead .unlimited with
  | raised fault =>
      rw [hout] at hhead
      cases hhead
  | yielded t =>
      rw [hout] at hhead
      cases hhead with
      | test _ hsearching hexplorer _ hdistance =>
          exact ⟨hsearching, hnext t hsearching hexplorer hdistance⟩
  | returned r =>
      rw [hout] at hhead
      cases hhead with
      | limited hreached _ => simp [Limits.allow, Limits.unlimited] at hreached
      | finished _ hall => exact ⟨rfl, hall, h.choices.valid.all_fixed hall⟩

namespace Paused.Searching

variable {s : Str} {ocs : List OptimisticChoice} {p : Paused}

/-- One resumption without limits: the search is over or has less left to ask. -/
theorem resume_budget (h : p.Searching s ocs) (hopts : Undecided ocs) (answer : Bool × Nat) :
    (p.resume .unlimited answer).Holds
      (fun t => t.Searching s ocs ∧ t.budget ocs.length < p.budget ocs.length)
      (fun r => r.stop = false ∧ r.explorer.firstPos = ocs.length ∧
        ∀ oc ∈ r.explorer.choices, oc.fixed = true) := by
  obtain ⟨result, now⟩ := answer
  obtain ⟨st, hrun, hready, heffect⟩ := h.step hopts result
  rw [Paused.resume, hrun]
  refine (hready.timed now).loopHead_holds_unlimited ?_
  intro t hnext hexplorer hdistance
  exact h.budget_lt hrun heffect hnext hexplorer hdistance

end Paused.Searching

/-! ### Counting the strings -/

/-- A limit on the tries admits a further test only below it. -/
theorem Search.loopHead_tries_le {k : Nat} {timeEnd : Option Nat} {st : Search} {p : Paused}
    (h : st.loopHead ⟨some k, timeEnd⟩ = .yielded p) : p.tries ≤ k := by
  have htries := loopHead_tries h
  rw [loopHead] at h
  split at h
  · rename_i hallow
    simp only [Limits.allow, Bool.and_eq_true, decide_eq_true_eq] at hallow
    have hlt : st.tries < k := hallow.1
    omega
  · split at h <;> cases h

theorem Paused.resume_tries_le {k : Nat} {timeEnd : Option Nat} {p q : Paused}
    {answer : Bool × Nat} (h : p.resume ⟨some k, timeEnd⟩ answer = .yielded q) : q.tries ≤ k := by
  obtain ⟨st, -, hhead⟩ := Paused.resume_eq_yielded h
  exact Search.loopHead_tries_le hhead

namespace ChoiceExplorer

variable {ocs : List OptimisticChoice}

theorem generator_budget (s : Str) (hfresh : ∀ oc ∈ ocs, oc.Fresh) (hopts : Undecided ocs)
    (now : Nat) :
    ((ChoiceExplorer.new ocs s).generator .unlimited now).Holds
      (fun p => p.Searching s ocs ∧ p.budget ocs.length ≤ answerBound ocs)
      (fun r => r.stop = false ∧ r.explorer.firstPos = ocs.length ∧
        ∀ oc ∈ r.explorer.choices, oc.fixed = true) := by
  rw [generator]
  refine (Search.start_ready s hfresh hopts now).loopHead_holds_unlimited ?_
  intro p hsearching hexplorer hdistance
  have hfirst : (ChoiceExplorer.new ocs s).firstPos = 0 := rfl
  have hlen : p.currentDistance = ocs.length := hdistance
  have hexplorer : p.explorer = ChoiceExplorer.new ocs s := hexplorer
  have hsum : (ChoiceExplorer.new ocs s).values = ocs.map fun oc => oc.maxOptions - 1 := by
    rw [new_values]
    exact List.map_congr_left fun oc hoc => (hfresh oc hoc).2
  have hpos : 0 < ocs.length := by
    have := hsearching.unfinished
    omega
  have hmul : Nat.log 2 ocs.length + (ocs.length - 1) * Nat.log 2 ocs.length =
      ocs.length * Nat.log 2 ocs.length := by
    rw [Nat.add_comm, ← Nat.succ_mul, Nat.succ_eq_add_one, Nat.sub_add_cancel hpos]
  rw [Paused.budget, answerBound, hexplorer, hfirst, hlen, hsum, List.drop_zero, Nat.sub_zero,
    hmul]

/-- Without limits every sequence of answers ends the search within the bound,
with everything settled; a limit on the tries is a limit on the strings. -/
theorem generator_terminates (s : Str) (hfresh : ∀ oc ∈ ocs, oc.Fresh) (hopts : Undecided ocs)
    (now : Nat) :
    (∀ answers : Nat → Bool × Nat, ∃ n, n ≤ answerBound ocs ∧ ∃ r,
      (ChoiceExplorer.new ocs s).afterAnswers .unlimited now ((List.range n).map answers) =
        .returned r ∧
      r.stop = false ∧ r.explorer.firstPos = ocs.length ∧
      ∀ oc ∈ r.explorer.choices, oc.fixed = true) ∧
    ∀ (k : Nat) (timeEnd : Option Nat) (answers : List (Bool × Nat)),
      (yields (Paused.resume ⟨some k, timeEnd⟩)
        ((ChoiceExplorer.new ocs s).generator ⟨some k, timeEnd⟩ now) answers).length ≤ k := by
  constructor
  · intro answers
    refine ⟨answerBound ocs, Nat.le_refl _, ?_⟩
    refine feed_returns (fun p => p.budget ocs.length)
      (fun _ => Paused.Searching.budget_pos)
      (fun p answer (h : p.Searching s ocs) => h.resume_budget hopts answer) ?_
    rw [List.length_map, List.length_range]
    exact generator_budget s hfresh hopts now
  · intro k timeEnd answers
    refine length_yields_le (fun p => p.tries) (n := 0) ?_ ?_ answers
    · intro p answer q h
      have := Paused.resume_tries h
      exact ⟨by omega, Paused.resume_tries_le h⟩
    · intro q h
      have := Search.loopHead_tries h
      exact ⟨by omega, Search.loopHead_tries_le h⟩

theorem generator_terminates_three :
    (∀ answers : Nat → Bool × Nat, ∃ n, n ≤ answerBound (List.replicate 3 nswOfAdd) ∧ ∃ r,
      (ChoiceExplorer.new (List.replicate 3 nswOfAdd) []).afterAnswers .unlimited 0
        ((List.range n).map answers) = .returned r ∧
      r.stop = false ∧ r.explorer.firstPos = 3 ∧
      ∀ oc ∈ r.explorer.choices, oc.fixed = true) ∧
    ∀ (k : Nat) (timeEnd : Option Nat) (answers : List (Bool × Nat)),
      (yields (Paused.resume ⟨some k, timeEnd⟩)
        ((ChoiceExplorer.new (List.replicate 3 nswOfAdd) []).generator ⟨some k, timeEnd⟩ 0)
        answers).length ≤ k :=
  generator_terminates [] (fresh_replicate_nswOfAdd 3) (undecided_replicate_nswOfAdd 3) 0

end ChoiceExplorer

end Petospa

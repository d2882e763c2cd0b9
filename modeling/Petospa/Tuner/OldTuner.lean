import Mathlib.Data.List.TakeWhile
import Mathlib.Logic.Relation
import Petospa.Lib.Text

/-!
# The search of the earlier tuner

`try_and_check` settles a string of choices, one digit each, from left to right:
`fixed` is settled and the intervals hold the rest. It tests the first interval
behind what is fixed. An interval that fails is halved, and one of a single digit
gets the next lower one. The compilation and all checks of the versions are the
function `accepts` of the string that is tested.
-/

namespace Petospa

open Text

namespace OldTuner

/-- The end of a call. Its calls of itself are the last thing it does. -/
inductive Outcome where
  | returns (fixed : Str)
  | calls (fixed : Str) (intervals : List Str)
  /-- `chr(-1)`. -/
  | valueError

/-- Puts the end of an interval in front of the next one, if there is one. -/
def pushRest (rest : Str) : List Str → List Str
  | [] => [rest]
  | interval :: intervals => (rest ++ interval) :: intervals

/-- Only choices in front of the next `0` are tried together. -/
def cutAtZero (firstInterval : Str) (intervals : List Str) : Str × List Str :=
  match firstInterval.idxOf? (ord '0') with
  | none => (firstInterval, intervals)
  | some firstRemainingZeroPos =>
      if 0 < firstRemainingZeroPos then
        (firstInterval.take firstRemainingZeroPos,
          pushRest (firstInterval.drop firstRemainingZeroPos) intervals)
      else (firstInterval, intervals)

/-- `new_intervals`. -/
def halve (firstInterval : Str) (intervals : List Str) : List Str :=
  let half := firstInterval.length / 2
  if intervals = [] ∨ firstInterval.length < 16 then
    firstInterval.take half :: firstInterval.drop half :: intervals
  else firstInterval.take half :: pushRest (firstInterval.drop half) intervals

/-- What follows a failing test. -/
def restrict (fixed : Str) (firstInterval : Str) (intervals : List Str) : Outcome :=
  match firstInterval with
  | [choice] =>
      if choice = ord '1' then .calls (fixed ++ lit "0") intervals
      else if choice = 0 then .valueError
      else .calls fixed ([choice - 1] :: intervals)
  | _ => .calls fixed (halve firstInterval intervals)

def test (accepts : Str → Bool) (fixed : Str) (firstInterval : Str) (intervals : List Str) :
    Outcome :=
  if accepts (fixed ++ firstInterval) then .calls (fixed ++ firstInterval) intervals
  else restrict fixed firstInterval intervals

/-- The body of `try_and_check`. -/
def body (accepts : Str → Bool) (fixed : Str) : List Str → Outcome
  | [] => .returns fixed
  | firstInterval :: intervals =>
      let zeros := firstInterval.takeWhile (· = ord '0')
      let fixed := fixed ++ zeros
      let firstInterval := firstInterval.drop zeros.length
      if firstInterval = [] then .calls fixed intervals
      else
        let (firstInterval, intervals) := cutAtZero firstInterval intervals
        test accepts fixed firstInterval intervals

/-! ### Intervals -/

@[simp] theorem flatten_pushRest (rest : Str) (intervals : List Str) :
    (pushRest rest intervals).flatten = rest ++ intervals.flatten := by
  cases intervals <;> simp [pushRest]

theorem count_pushRest {rest : Str} (hrest : rest ≠ []) (intervals : List Str) :
    (pushRest rest intervals).count [] ≤ intervals.count [] := by
  cases intervals with
  | nil => simp [pushRest, hrest]
  | cons interval intervals =>
      rw [pushRest, List.count_cons_of_ne (by simp [hrest])]
      exact List.count_le_count_cons ..

@[simp] theorem flatten_halve (firstInterval : Str) (intervals : List Str) :
    (halve firstInterval intervals).flatten = firstInterval ++ intervals.flatten := by
  rw [halve]
  split <;> simp [← List.append_assoc]

theorem count_halve {firstInterval : Str} (hlength : 2 ≤ firstInterval.length)
    (intervals : List Str) : (halve firstInterval intervals).count [] ≤ intervals.count [] := by
  have hfront : firstInterval.take (firstInterval.length / 2) ≠ [] := by
    rw [← List.length_pos_iff_ne_nil, List.length_take]
    omega
  have hback : firstInterval.drop (firstInterval.length / 2) ≠ [] := by
    rw [← List.length_pos_iff_ne_nil, List.length_drop]
    omega
  simp only [halve]
  split
  · rw [List.count_cons_of_ne hfront, List.count_cons_of_ne hback]
  · rw [List.count_cons_of_ne hfront]
    exact count_pushRest hback intervals

theorem length_headD_halve (firstInterval : Str) (intervals : List Str) :
    ((halve firstInterval intervals).headD []).length = firstInterval.length / 2 := by
  have hlength : (firstInterval.take (firstInterval.length / 2)).length =
      firstInterval.length / 2 := by
    rw [List.length_take]
    omega
  simp only [halve]
  split
  · exact hlength
  · exact hlength

/-- What a cut leaves to be tried: a first part of what there was. -/
structure Cut (firstInterval : Str) (intervals : List Str) (tried : Str) (later : List Str) :
    Prop where
  nonempty : tried ≠ []
  length : tried.length ≤ firstInterval.length
  flatten : tried ++ later.flatten = firstInterval ++ intervals.flatten
  count : later.count [] ≤ intervals.count []

theorem cut_cutAtZero {firstInterval : Str} (hne : firstInterval ≠ []) (intervals : List Str) :
    Cut firstInterval intervals (cutAtZero firstInterval intervals).1
      (cutAtZero firstInterval intervals).2 := by
  have hwhole : Cut firstInterval intervals firstInterval intervals :=
    ⟨hne, le_rfl, rfl, le_rfl⟩
  rw [cutAtZero]
  split
  · exact hwhole
  · rename_i pos hpos
    obtain ⟨hlt, -, -⟩ := List.idxOf?_eq_some_iff.mp hpos
    split
    · constructor
      · rw [← List.length_pos_iff_ne_nil, List.length_take]
        omega
      · exact List.length_take_le' ..
      · simp [← List.append_assoc]
      · apply count_pushRest
        rw [← List.length_pos_iff_ne_nil, List.length_drop]
        omega
    · exact hwhole

/-! ### One call -/

variable {accepts : Str → Bool} {fixed fixed' : Str} {intervals intervals' : List Str}

/-- What a call does with the interval that it tries. -/
inductive Tried (accepts : Str → Bool) (fixed tried : Str) (later : List Str) : Outcome → Prop where
  | accepted (h : accepts (fixed ++ tried) = true) :
      Tried accepts fixed tried later (.calls (fixed ++ tried) later)
  | lowest (htried : tried = [ord '1']) (h : accepts (fixed ++ [ord '1']) = false) :
      Tried accepts fixed tried later (.calls (fixed ++ [ord '0']) later)
  | lower (choice : Nat) (htried : tried = [choice + 1]) (hne : choice ≠ ord '0')
      (h : accepts (fixed ++ [choice + 1]) = false) :
      Tried accepts fixed tried later (.calls fixed ([choice] :: later))
  | halved (h : 2 ≤ tried.length) :
      Tried accepts fixed tried later (.calls fixed (halve tried later))
  | valueError (htried : tried = [0]) : Tried accepts fixed tried later .valueError

theorem tried_test {tried : Str} (hne : tried ≠ []) (later : List Str) :
    Tried accepts fixed tried later (test accepts fixed tried later) := by
  rw [test]
  split
  · rename_i h
    exact .accepted h
  · rename_i h
    have hreject : accepts (fixed ++ tried) = false := Bool.eq_false_iff.mpr h
    obtain _ | ⟨choice, _ | ⟨second, tried⟩⟩ := tried
    · exact absurd rfl hne
    · rw [restrict]
      by_cases hone : choice = ord '1'
      · subst hone
        exact .lowest rfl hreject
      · rw [if_neg hone]
        by_cases hzero : choice = 0
        · subst hzero
          exact .valueError rfl
        · rw [if_neg hzero]
          obtain ⟨lower, rfl⟩ := Nat.exists_eq_add_one_of_ne_zero hzero
          exact .lower lower rfl (fun h => hone (congrArg (· + 1) h)) hreject
    · exact .halved (by simp)

/-- The digits that a call takes from the first interval without a test. -/
def zeros (firstInterval : Str) : Str := firstInterval.takeWhile (· = ord '0')

/-- The rest of it. -/
def unsettled (firstInterval : Str) : Str := firstInterval.drop (zeros firstInterval).length

theorem zeros_append_unsettled (firstInterval : Str) :
    zeros firstInterval ++ unsettled firstInterval = firstInterval := by
  exact List.prefix_iff_eq_append.mp (List.takeWhile_prefix _)

theorem unsettled_eq_dropWhile (firstInterval : Str) :
    unsettled firstInterval = firstInterval.dropWhile (· = ord '0') := by
  have hsplit := zeros_append_unsettled firstInterval
  rw [zeros] at hsplit
  exact List.append_cancel_left (hsplit.trans List.takeWhile_append_dropWhile.symm)

theorem body_cons (accepts : Str → Bool) (fixed firstInterval : Str) (intervals : List Str) :
    (unsettled firstInterval = [] ∧
        body accepts fixed (firstInterval :: intervals) =
          .calls (fixed ++ zeros firstInterval) intervals) ∨
      ∃ tried later, Cut (unsettled firstInterval) intervals tried later ∧
        Tried accepts (fixed ++ zeros firstInterval) tried later
          (body accepts fixed (firstInterval :: intervals)) := by
  by_cases hempty : unsettled firstInterval = []
  · exact .inl ⟨hempty, if_pos hempty⟩
  · have hcut := cut_cutAtZero hempty intervals
    have hbody : body accepts fixed (firstInterval :: intervals) =
        test accepts (fixed ++ zeros firstInterval)
          (cutAtZero (unsettled firstInterval) intervals).1
          (cutAtZero (unsettled firstInterval) intervals).2 := if_neg hempty
    refine .inr ⟨_, _, hcut, ?_⟩
    rw [hbody]
    exact tried_test hcut.nonempty _

/-! ### Termination -/

/-- What there is left to settle, how high its digits are and how long the first
interval is. Each empty interval takes a call of its own. -/
def callMeasure (intervals : List Str) : ℕ × ℕ × ℕ :=
  (intervals.flatten.length + intervals.count [], intervals.flatten.sum,
    (intervals.headD []).length)

theorem body_decreases (h : body accepts fixed intervals = .calls fixed' intervals') :
    Prod.Lex (· < ·) (Prod.Lex (· < ·) (· < ·)) (callMeasure intervals')
      (callMeasure intervals) := by
  cases intervals with
  | nil => cases h
  | cons firstInterval intervals =>
      have hsplit := zeros_append_unsettled firstInterval
      have hlength := congrArg List.length hsplit
      have hsum := congrArg List.sum hsplit
      rw [List.length_append] at hlength
      rw [List.sum_append] at hsum
      have hcount : intervals.count [] ≤ (firstInterval :: intervals).count [] :=
        List.count_le_count_cons ..
      simp only [Prod.lex_def, callMeasure, List.flatten_cons, List.length_append, List.sum_append,
        List.headD_cons]
      obtain ⟨hempty, hbody⟩ | ⟨tried, later, hcut, htried⟩ :=
        body_cons accepts fixed firstInterval intervals
      · rw [hbody] at h
        obtain ⟨rfl, rfl⟩ := h
        left
        by_cases hfirst : firstInterval = []
        · rw [hfirst, List.count_cons_self]
          simp
        · have hpos := List.length_pos_iff_ne_nil.mpr hfirst
          omega
      · have hcutLength := congrArg List.length hcut.flatten
        have hcutSum := congrArg List.sum hcut.flatten
        rw [List.length_append, List.length_append] at hcutLength
        rw [List.sum_append, List.sum_append] at hcutSum
        have hpos := List.length_pos_iff_ne_nil.mpr hcut.nonempty
        have hcutCount := hcut.count
        have hcutFirst := hcut.length
        rw [h] at htried
        cases htried with
        | accepted _ => left; omega
        | lowest htried _ => left; omega
        | lower choice htried _ _ =>
            subst htried
            rw [List.count_cons_of_ne (by simp)]
            simp only [List.flatten_cons, List.length_append, List.length_singleton,
              List.sum_append, List.sum_singleton] at *
            omega
        | halved hlength =>
            have hhalveCount := count_halve hlength later
            rw [flatten_halve, List.length_append, List.sum_append, length_headD_halve]
            omega

/-- The earlier search; `none` is the `ValueError` of `chr(-1)`. The interpreter's limit on
the depth of calls is left out; from 438 rejected digits on it would be reached. -/
def tryAndCheck (accepts : Str → Bool) (fixed : Str) (intervals : List Str) : Option Str :=
  match _h : body accepts fixed intervals with
  | .returns fixed => some fixed
  | .calls fixed intervals => tryAndCheck accepts fixed intervals
  | .valueError => none
termination_by callMeasure intervals
decreasing_by exact body_decreases _h

theorem tryAndCheck_returns (h : body accepts fixed intervals = .returns fixed') :
    tryAndCheck accepts fixed intervals = some fixed' := by
  rw [tryAndCheck]
  split <;> simp_all

theorem tryAndCheck_calls (h : body accepts fixed intervals = .calls fixed' intervals') :
    tryAndCheck accepts fixed intervals = tryAndCheck accepts fixed' intervals' := by
  rw [tryAndCheck]
  split <;> simp_all

/-! ### Lowered digits -/

/-- The second string comes from the first one by lowering digits. Behind what is
`fixed` and the digits in front, the next higher digit was rejected. -/
inductive Lowered (accepts : Str → Bool) : Str → Str → Str → Prop where
  | nil (fixed : Str) : Lowered accepts fixed [] []
  | cons {fixed ds es : Str} {d e : Nat} (hle : e ≤ d)
      (hrejected : e < d → accepts (fixed ++ [e + 1]) = false)
      (htail : Lowered accepts (fixed ++ [e]) ds es) :
      Lowered accepts fixed (d :: ds) (e :: es)

namespace Lowered

theorem refl (fixed s : Str) : Lowered accepts fixed s s := by
  induction s generalizing fixed with
  | nil => exact .nil fixed
  | cons d ds ih => exact .cons le_rfl (fun h => absurd h (lt_irrefl d)) (ih _)

theorem append_iff {s front back : Str} :
    Lowered accepts fixed s (front ++ back) ↔
      ∃ s₁ s₂, s = s₁ ++ s₂ ∧ Lowered accepts fixed s₁ front ∧
        Lowered accepts (fixed ++ front) s₂ back := by
  induction front generalizing fixed s with
  | nil =>
      simp only [List.nil_append, List.append_nil]
      constructor
      · intro h
        exact ⟨[], s, rfl, .nil fixed, h⟩
      · rintro ⟨s₁, s₂, rfl, hfront, hback⟩
        cases hfront
        exact hback
  | cons e front ih =>
      rw [List.cons_append]
      constructor
      · rintro (_ | ⟨hle, hrejected, htail⟩)
        obtain ⟨s₁, s₂, rfl, hfront, hback⟩ := ih.mp htail
        rw [List.append_assoc] at hback
        exact ⟨_ :: s₁, s₂, rfl, .cons hle hrejected hfront, hback⟩
      · rintro ⟨s₁, s₂, rfl, hfront, hback⟩
        cases hfront with
        | cons hle hrejected htail =>
            rw [List.cons_append]
            refine .cons hle hrejected (ih.mpr ⟨_, s₂, rfl, htail, ?_⟩)
            rwa [List.append_assoc]

variable {s r : Str}

theorem length_eq (h : Lowered accepts fixed s r) : r.length = s.length := by
  induction h with
  | nil fixed => rfl
  | cons hle hrejected htail ih => simp only [List.length_cons, ih]

theorem le (h : Lowered accepts fixed s r) {i d e : Nat} (hd : s[i]? = some d)
    (he : r[i]? = some e) : e ≤ d := by
  induction h generalizing i with
  | nil fixed => simp at hd
  | cons hle hrejected htail ih =>
      cases i with
      | zero =>
          simp only [List.getElem?_cons_zero, Option.some.injEq] at hd he
          exact hd ▸ he ▸ hle
      | succ i => exact ih hd he

theorem rejected (h : Lowered accepts fixed s r) {i d e : Nat} (hd : s[i]? = some d)
    (he : r[i]? = some e) (hlt : e < d) : accepts (fixed ++ r.take i ++ [e + 1]) = false := by
  induction h generalizing i with
  | nil fixed => simp at hd
  | cons hle hrejected htail ih =>
      cases i with
      | zero =>
          simp only [List.getElem?_cons_zero, Option.some.injEq] at hd he
          subst hd he
          simpa using hrejected hlt
      | succ i => simpa using ih hd he

end Lowered

/-! ### The search without intervals -/

/-- One move of the search, on what is fixed and all that is not. -/
inductive Move (accepts : Str → Bool) : Str × Str → Str × Str → Prop where
  | zeros {fixed : Str} (zeros rest : Str) (h : ∀ c ∈ zeros, c = ord '0') :
      Move accepts (fixed, zeros ++ rest) (fixed ++ zeros, rest)
  | accept {fixed : Str} (tried rest : Str) (h : accepts (fixed ++ tried) = true) :
      Move accepts (fixed, tried ++ rest) (fixed ++ tried, rest)
  | lower {fixed : Str} (choice : Nat) (rest : Str) (hne : choice + 1 ≠ ord '0')
      (h : accepts (fixed ++ [choice + 1]) = false) :
      Move accepts (fixed, (choice + 1) :: rest) (fixed, choice :: rest)

theorem eq_zero_of_mem_zeros {firstInterval : Str} : ∀ c ∈ zeros firstInterval, c = ord '0' := by
  intro c hc
  simpa using List.mem_takeWhile_imp hc

/-- The first digit that is tried is not a zero. -/
theorem head_ne_zero {firstInterval tried : Str} {later : List Str} {c : Nat}
    (hcut : Cut (unsettled firstInterval) intervals (c :: tried) later) : c ≠ ord '0' := by
  have hhead := List.head?_dropWhile_not (fun c => decide (c = ord '0')) firstInterval
  rw [← unsettled_eq_dropWhile] at hhead
  have hlength := hcut.length
  have hflatten := hcut.flatten
  cases hunsettled : unsettled firstInterval with
  | nil => simp [hunsettled] at hlength
  | cons first rest =>
      rw [hunsettled, List.cons_append, List.cons_append] at hflatten
      obtain ⟨rfl, -⟩ := List.cons.inj hflatten
      simpa [hunsettled] using hhead

theorem body_moves (h : body accepts fixed intervals = .calls fixed' intervals') :
    Relation.ReflTransGen (Move accepts) (fixed, intervals.flatten)
      (fixed', intervals'.flatten) := by
  cases intervals with
  | nil => cases h
  | cons firstInterval intervals =>
      have hzeros : Move accepts (fixed, (firstInterval :: intervals).flatten)
          (fixed ++ zeros firstInterval, unsettled firstInterval ++ intervals.flatten) := by
        have hflatten : (firstInterval :: intervals).flatten =
            zeros firstInterval ++ (unsettled firstInterval ++ intervals.flatten) := by
          rw [← List.append_assoc, zeros_append_unsettled, List.flatten_cons]
        rw [hflatten]
        exact .zeros _ _ eq_zero_of_mem_zeros
      refine .head hzeros ?_
      obtain ⟨hempty, hbody⟩ | ⟨tried, later, hcut, htried⟩ :=
        body_cons accepts fixed firstInterval intervals
      · rw [hbody] at h
        obtain ⟨rfl, rfl⟩ := h
        rw [hempty]
        exact .refl
      · rw [h] at htried
        rw [← hcut.flatten]
        cases htried with
        | accepted haccept => exact .single (.accept tried _ haccept)
        | lowest htried hreject =>
            subst htried
            exact .head (.lower (ord '0') _ (by decide) hreject)
              (.single (.zeros [ord '0'] _ (by simp)))
        | lower choice htried _ hreject =>
            subst htried
            exact .single (.lower choice _ (head_ne_zero hcut) hreject)
        | halved hlength =>
            rw [flatten_halve]

theorem body_returns (h : body accepts fixed intervals = .returns fixed') :
    intervals = [] ∧ fixed' = fixed := by
  cases intervals with
  | nil => exact ⟨rfl, (Outcome.returns.inj h).symm⟩
  | cons firstInterval intervals =>
      obtain ⟨-, hbody⟩ | ⟨tried, later, -, htried⟩ :=
        body_cons accepts fixed firstInterval intervals
      · rw [hbody] at h
        cases h
      · rw [h] at htried
        cases htried

theorem body_valueError (h : body accepts fixed intervals = .valueError) :
    0 ∈ intervals.flatten := by
  cases intervals with
  | nil => cases h
  | cons firstInterval intervals =>
      obtain ⟨-, hbody⟩ | ⟨tried, later, hcut, htried⟩ :=
        body_cons accepts fixed firstInterval intervals
      · rw [hbody] at h
        cases h
      · rw [h] at htried
        cases htried with
        | valueError htried =>
            subst htried
            have hmem : 0 ∈ unsettled firstInterval ++ intervals.flatten := by
              rw [← hcut.flatten]
              exact List.mem_cons_self ..
            rw [List.flatten_cons, ← zeros_append_unsettled firstInterval, List.append_assoc]
            exact List.mem_append_right _ hmem

/-! ### The invariant -/

/-- A string that was accepted, or nothing, and zeros behind it. -/
def Backed (accepts : Str → Bool) (fixed : Str) : Prop :=
  ∃ tested zeros, fixed = tested ++ zeros ∧ (tested = [] ∨ accepts tested = true) ∧
    ∀ c ∈ zeros, c = ord '0'

/-- What holds at any time of what is fixed and the rest. At most the first digit
of the rest is lower than in the beginning. -/
structure Invariant (accepts : Str → Bool) (initial : Str) (c : Str × Str) : Prop where
  lowered : Lowered accepts [] initial (c.1 ++ c.2)
  untouched : initial.drop (c.1.length + 1) = c.2.drop 1
  backed : Backed accepts c.1
  digits : ∀ d ∈ c.2, ord '0' ≤ d

variable {initial : Str} {c c' : Str × Str}

theorem invariant_initial (hdigits : ∀ d ∈ initial, ord '0' ≤ d) :
    Invariant accepts initial ([], initial) :=
  ⟨.refl _ _, rfl, ⟨[], [], rfl, .inl rfl, by simp⟩, hdigits⟩

/-- To fix digits changes no digit. -/
theorem Invariant.fix {tried rest : Str} (h : Invariant accepts initial (fixed, tried ++ rest))
    (hbacked : Backed accepts (fixed ++ tried)) :
    Invariant accepts initial (fixed ++ tried, rest) := by
  refine ⟨?_, ?_, hbacked, fun d hd => h.digits d (List.mem_append_right _ hd)⟩
  · rw [List.append_assoc]
    exact h.lowered
  · calc
      initial.drop ((fixed ++ tried).length + 1)
          = (initial.drop (fixed.length + 1)).drop tried.length := by
        rw [List.drop_drop, List.length_append]
        congr 1
        omega
      _ = ((tried ++ rest).drop 1).drop tried.length := by rw [h.untouched]
      _ = rest.drop 1 := by
        rw [List.drop_drop, Nat.add_comm, ← List.drop_drop, List.drop_left]

theorem Invariant.move (h : Invariant accepts initial c) (hmove : Move accepts c c') :
    Invariant accepts initial c' := by
  cases hmove with
  | zeros zeros rest hzeros =>
      refine h.fix ?_
      obtain ⟨tested, old, rfl, htested, hold⟩ := h.backed
      refine ⟨tested, old ++ zeros, List.append_assoc .., htested, ?_⟩
      intro c hc
      exact (List.mem_append.mp hc).elim (hold c) (hzeros c)
  | accept tried rest haccept =>
      exact h.fix ⟨_, [], (List.append_nil _).symm, .inr haccept, by simp⟩
  | lower choice rest hne hreject =>
      refine ⟨?_, h.untouched, h.backed, ?_⟩
      · obtain ⟨front, back, rfl, hfront, hback⟩ := Lowered.append_iff.mp h.lowered
        refine Lowered.append_iff.mpr ⟨front, back, rfl, hfront, ?_⟩
        cases hback with
        | cons hle _ _ =>
            -- what is behind the digit has not changed yet
            have huntouched := h.untouched
            rw [hfront.length_eq, ← List.drop_drop, List.drop_left] at huntouched
            obtain rfl : _ = rest := huntouched
            exact .cons (by omega) (fun _ => by simpa using hreject) (.refl _ _)
      · intro d hd
        have hchoice := h.digits (choice + 1) (List.mem_cons_self ..)
        obtain rfl | hd := List.mem_cons.mp hd
        · change ord '0' ≤ d
          omega
        · exact h.digits d (List.mem_cons_of_mem _ hd)

theorem Invariant.moves (h : Invariant accepts initial c)
    (hmoves : Relation.ReflTransGen (Move accepts) c c') : Invariant accepts initial c' := by
  induction hmoves with
  | refl => exact h
  | tail _ hmove ih => exact ih.move hmove

theorem tryAndCheck_of_invariant (h : Invariant accepts initial (fixed, intervals.flatten)) :
    ∃ r, tryAndCheck accepts fixed intervals = some r ∧ Invariant accepts initial (r, []) := by
  induction fixed, intervals using tryAndCheck.induct accepts with
  | case1 fixed intervals fixed' hbody =>
      obtain ⟨rfl, rfl⟩ := body_returns hbody
      exact ⟨fixed', tryAndCheck_returns hbody, h⟩
  | case2 fixed intervals fixed' intervals' hbody ih =>
      rw [tryAndCheck_calls hbody]
      exact ih (h.moves (body_moves hbody))
  | case3 fixed intervals hbody =>
      exact absurd (h.digits 0 (body_valueError hbody)) (by decide)

/-- What the search promises for a string of digits. -/
structure Exact (accepts : Str → Bool) (initial r : Str) : Prop where
  length : r.length = initial.length
  le : ∀ i d e : Nat, initial[i]? = some d → r[i]? = some e → e ≤ d
  /-- The next higher digit was rejected behind what is in front of it. -/
  rejected : ∀ i d e : Nat, initial[i]? = some d → r[i]? = some e → e < d →
    accepts (r.take i ++ [e + 1]) = false
  backed : Backed accepts r

theorem Invariant.exact {r : Str} (h : Invariant accepts initial (r, [])) :
    Exact accepts initial r := by
  have hlowered : Lowered accepts [] initial r := by simpa using h.lowered
  refine ⟨hlowered.length_eq, ?_, ?_, h.backed⟩
  · intro i d e hd he
    exact hlowered.le hd he
  · intro i d e hd he hlt
    exact hlowered.rejected hd he hlt

/-- The search ends on every string of digits, with what it promises. -/
theorem tryAndCheck_exact (accepts : Str → Bool) (initial : Str)
    (hdigits : ∀ d ∈ initial, ord '0' ≤ d ∧ d ≤ ord '9') :
    ∃ r, tryAndCheck accepts [] [initial] = some r ∧ Exact accepts initial r := by
  have hstart : Invariant accepts initial ([], [initial].flatten) := by
    rw [List.flatten_singleton]
    exact invariant_initial fun d hd => (hdigits d hd).1
  obtain ⟨r, hr, hinvariant⟩ := tryAndCheck_of_invariant hstart
  exact ⟨r, hr, hinvariant.exact⟩

/-- Everything is accepted that does not start with a `2`. -/
theorem tryAndCheck_exact_twoOne :
    ∃ r, tryAndCheck (fun s => decide (s.head? ≠ some (ord '2'))) [] [lit "21"] = some r ∧
      Exact (fun s => decide (s.head? ≠ some (ord '2'))) (lit "21") r :=
  tryAndCheck_exact _ _ (by decide)

end OldTuner

end Petospa

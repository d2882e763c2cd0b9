import Mathlib.Tactic.IntervalCases
import Petospa.Annotator.History

/-!
# The answers of a run

Two consequences of following the history: what a control string makes of a
trace with the pessimistic default, and when the answers stay below the number
of options that their callers offer.
-/

namespace Petospa

open Text Transducer

variable {Fn : Type*} [DecidableEq Fn]

/-- The tables follow the history, and so do the answers. -/
theorem Annotator.step_follows (opts : Options) (maps : ChoiceMaps) :
    Follows (Annotator.step opts : Annotator Fn → _) (Tracks maps) (answerAt opts maps) := by
  intro hist st e h
  cases he : e.event with
  | sees f =>
      rw [Annotator.step, answerAt, he]
      exact ⟨h.see he, rfl⟩
  | asks q =>
      obtain ⟨htracks, hanswer⟩ := h.getOptimisticChoice opts he
      rw [Annotator.step, answerAt, he]
      exact ⟨htracks, congrArg some hanswer⟩

/-- The answers of the annotator to a trace. -/
def answers (opts : Options) (maps : ChoiceMaps) (events : List (Timed Fn)) :
    List (Option Answer) :=
  outputs (Annotator.step opts) (.initial maps) events

/-- The answers under a control string. -/
def answersTo (opts : Options) (controlString : Str) (events : List (Timed Fn)) :
    Except Fault (List (Option Answer)) :=
  (decode .empty controlString).map fun maps => answers opts maps events

/-- The event with the given index is a query. -/
def Asked (events : List (Timed Fn)) (i : Nat) (q : Query Fn) : Prop :=
  ∃ e, events[i]? = some e ∧ e.event = .asks q

/-- The events before an index, newest first. -/
def before (events : List (Timed Fn)) (i : Nat) : List (Timed Fn) := (events.take i).reverse

/-- The answer to every query of a run. -/
theorem answers_asked (opts : Options) (maps : ChoiceMaps) {events : List (Timed Fn)} {i : Nat}
    {q : Query Fn} (hq : Asked events i q) :
    ∃ printed, (answers opts maps events)[i]? =
      some (some ⟨answering opts maps (before events i) q - 1, printed⟩) := by
  obtain ⟨e, hi, he⟩ := hq
  refine ⟨printedAt opts maps (before events i) e.inst q, ?_⟩
  have hrun := (Annotator.step_follows opts maps).getElem?_outputs
    (Annotator.initial_tracks maps) events i
  rw [answers, hrun, hi, Option.map_some, answerAt, he]
  rfl

/-- The value that the maps hold for a query at its position, if any. -/
def valueOf (maps : ChoiceMaps) (hist : List (Timed Fn)) (q : Query Fn) : Option Nat :=
  match (maps q.kind (functionNoAt hist q.function))[position q.kind q.function hist]? with
  | some (v + 1) => some v
  | _ => none

theorem explicit_eq (maps : ChoiceMaps) (hist : List (Timed Fn)) (q : Query Fn) :
    explicit maps hist q = match valueOf maps hist q with
      | some v => v + 1
      | none => 0 := by
  rw [explicit, valueOf, List.getD_eq_getElem?_getD]
  cases (maps q.kind (functionNoAt hist q.function))[position q.kind q.function hist]? with
  | none => rfl
  | some entry =>
      cases entry with
      | zero => rfl
      | succ v => rfl

/-- The value of the latest earlier query of a kind and name that had one. -/
def latestNamesake (maps : ChoiceMaps) (kind : OptimisticChoiceKind) (name : Str) :
    List (Timed Fn) → Option Nat
  | [] => none
  | e :: hist =>
      match e.event with
      | .sees _ => latestNamesake maps kind name hist
      | .asks q =>
          if q.kind = kind ∧ q.name = name ∧ (valueOf maps hist q).isSome then valueOf maps hist q
          else latestNamesake maps kind name hist

theorem cached_eq (maps : ChoiceMaps) (kind : OptimisticChoiceKind) (name : Str)
    (hist : List (Timed Fn)) :
    cached maps kind name hist = match latestNamesake maps kind name hist with
      | some v => v + 1
      | none => 0 := by
  induction hist with
  | nil => rfl
  | cons e hist ih =>
      rw [cached, latestNamesake]
      cases e.event with
      | sees f => exact ih
      | asks q =>
          simp only [explicit_eq]
          cases hv : valueOf maps hist q with
          | none => simpa [hv] using ih
          | some v =>
              by_cases hsame : q.kind = kind ∧ q.name = name
              · simp [hsame]
              · rw [if_neg (fun h => hsame ⟨h.1, h.2.1⟩), if_neg (fun h => hsame ⟨h.1, h.2.1⟩)]
                exact ih

/-- The semantics of a control string with the pessimistic default: a query gets
the value at its position, else that of its latest namesake with a value, and is
answered conservatively only without either. -/
theorem answers_of_controlString {controlString : Str} {maps : ChoiceMaps}
    (hmaps : decode .empty controlString = .ok maps) {opts : Options}
    (hdefault : opts.annotationsDefault = false) {events : List (Timed Fn)} {i : Nat} {q : Query Fn}
    (hq : Asked events i q) :
    ∃ given printed, answersTo opts controlString events = .ok given ∧ given[i]? = some (some
      ⟨((valueOf maps (before events i) q).or
        (latestNamesake maps q.kind q.name (before events i))).getD 0, printed⟩) := by
  obtain ⟨printed, hanswer⟩ := answers_asked opts maps hq
  refine ⟨answers opts maps events, printed, by rw [answersTo, hmaps]; rfl, ?_⟩
  rw [hanswer, answering, explicit_eq, cached_eq, hdefault]
  cases valueOf maps (before events i) q with
  | some v => simp
  | none => cases latestNamesake maps q.kind q.name (before events i) <;> simp

/-- A question for the no-signed-wrap flag of an addition. -/
def asksNsw (inst f : Nat) : Timed Nat :=
  ⟨inst, .asks ⟨2, lit "add", f, lit "f", .overflowNsw, Nat.two_pos⟩⟩

def pessimistic : Options := ⟨false, -1, false⟩

/-- The addition of a function, asked about in two instances. -/
def askedTwice : List (Timed Nat) := [asksNsw 0 0, asksNsw 1 0]

theorem asked_askedTwice (i : Nat) (hi : i < 2) :
    Asked askedTwice i ⟨2, lit "add", 0, lit "f", .overflowNsw, Nat.two_pos⟩ := by
  interval_cases i
  · exact ⟨asksNsw 0 0, rfl, rfl⟩
  · exact ⟨asksNsw 1 0, rfl, rfl⟩

theorem answers_of_controlString_askedTwice :
    ∃ maps, decode .empty (lit "#f0f#c41") = .ok maps ∧
      ∃ given printed, answersTo pessimistic (lit "#f0f#c41") askedTwice = .ok given ∧
        given[1]? = some (some
          ⟨((valueOf maps (before askedTwice 1)
              ⟨2, lit "add", 0, lit "f", .overflowNsw, Nat.two_pos⟩).or
            (latestNamesake maps .overflowNsw (lit "add") (before askedTwice 1))).getD 0,
            printed⟩) := by
  obtain ⟨maps, hmaps⟩ : ∃ maps, decode .empty (lit "#f0f#c41") = .ok maps := ⟨_, rfl⟩
  exact ⟨maps, hmaps, answers_of_controlString hmaps rfl (asked_askedTwice 1 (by decide))⟩

/-- The second question has no value of its own, but is not answered with 0. -/
theorem not_answers_by_position :
    ¬ ∀ (controlString : Str) (maps : ChoiceMaps), decode .empty controlString = .ok maps →
      ∀ (events : List (Timed Nat)) (i : Nat) (q : Query Nat), Asked events i q →
        ∃ given printed, answersTo pessimistic controlString events = .ok given ∧
          given[i]? = some (some ⟨(valueOf maps (before events i) q).getD 0, printed⟩) := by
  intro h
  obtain ⟨maps, hmaps, hvalue⟩ : ∃ maps, decode .empty (lit "#f0f#c41") = .ok maps ∧
      valueOf maps (before askedTwice 1) ⟨2, lit "add", 0, lit "f", .overflowNsw, Nat.two_pos⟩ =
        none := ⟨_, rfl, rfl⟩
  obtain ⟨given, printed, hgiven, hanswer⟩ :=
    h _ maps hmaps askedTwice 1 _ (asked_askedTwice 1 (by decide))
  have hcode : ∃ answer, answersTo pessimistic (lit "#f0f#c41") askedTwice = .ok answer ∧
      answer[1]? = some (some ⟨1, none⟩) := ⟨_, rfl, rfl⟩
  obtain ⟨answer, hrun, hone⟩ := hcode
  obtain rfl := Except.ok.inj (hgiven.symm.trans hrun)
  rw [hvalue, hone] at hanswer
  cases hanswer

/-! ### The range of the answers -/

section Range

variable {events : List (Timed Fn)} {maps : ChoiceMaps}

/-- The maps hold, at every position that is asked about, nothing or one of the
entries that the query offers. -/
def EntriesInRange (maps : ChoiceMaps) (events : List (Timed Fn)) : Prop :=
  ∀ i q entry, Asked events i q →
    (maps q.kind (functionNoAt (before events i) q.function))[position q.kind q.function
      (before events i)]? = some entry → 1 ≤ entry ∧ entry ≤ q.numChoices

/-- All answers stay below the number of options that the query offers. -/
def AnswersInRange (opts : Options) (maps : ChoiceMaps) (events : List (Timed Fn)) : Prop :=
  ∀ i q, Asked events i q →
    ∃ answer, (answers opts maps events)[i]? = some (some answer) ∧ answer.value < q.numChoices

/-- A query without an entry has no namesake whose latest entry is larger than
the number of its own options. -/
def NamesakesInRange (maps : ChoiceMaps) (events : List (Timed Fn)) : Prop :=
  ∀ i q, Asked events i q → explicit maps (before events i) q = 0 →
    cached maps q.kind q.name (before events i) ≤ q.numChoices

theorem answersInRange_iff (opts : Options) (hentries : EntriesInRange maps events) :
    AnswersInRange opts maps events ↔ NamesakesInRange maps events := by
  have hrange : ∀ i q, Asked events i q → ((∃ answer, (answers opts maps events)[i]? =
      some (some answer) ∧ answer.value < q.numChoices) ↔
      (explicit maps (before events i) q = 0 →
        cached maps q.kind q.name (before events i) ≤ q.numChoices)) := by
    intro i q hq
    obtain ⟨printed, hanswer⟩ := answers_asked opts maps hq
    have hpos := q.numChoices_pos
    have hentry : explicit maps (before events i) q ≤ q.numChoices := by
      rw [explicit, List.getD_eq_getElem?_getD]
      cases hget : (maps q.kind (functionNoAt (before events i) q.function))[position q.kind
          q.function (before events i)]? with
      | none => exact Nat.zero_le _
      | some entry => exact (hentries i q entry hq hget).2
    have hvalue : (∃ answer, (answers opts maps events)[i]? = some (some answer) ∧
        answer.value < q.numChoices) ↔
        answering opts maps (before events i) q - 1 < q.numChoices := by
      rw [hanswer]
      simp
    rw [hvalue, answering]
    split
    · omega
    · split
      · omega
      · split <;> omega
  constructor
  · intro h i q hq
    exact (hrange i q hq).mp (h i q hq)
  · intro h i q hq
    exact (hrange i q hq).mpr (h i q hq)

/-- A branch group with the given number of constants. -/
def asksBranch (f numConstants : Nat) (h : 0 < numConstants) : Timed Nat :=
  ⟨0, .asks ⟨numConstants, lit "x", f, lit "f", .controlFlowTrg, h⟩⟩

/-- Choice maps with one entry: the third constant for the branch of function 0. -/
def thirdConstant : ChoiceMaps := fun kind fnNo =>
  if kind = .controlFlowTrg ∧ fnNo = 0 then [3] else []

def twoBranches : List (Timed Nat) := [asksBranch 0 3 (by decide), asksBranch 1 2 (by decide)]

theorem entriesInRange_twoBranches : EntriesInRange thirdConstant twoBranches := by
  rintro i q entry ⟨e, hi, he⟩ hentry
  match i, hi with
  | 0, hi =>
      obtain rfl := Option.some.inj hi
      obtain rfl := Event.asks.inj he
      obtain rfl : 3 = entry := Option.some.inj hentry
      exact ⟨by decide, by decide⟩
  | 1, hi =>
      obtain rfl := Option.some.inj hi
      obtain rfl := Event.asks.inj he
      cases hentry

theorem answersInRange_iff_twoBranches :
    AnswersInRange pessimistic thirdConstant twoBranches ↔
      NamesakesInRange thirdConstant twoBranches :=
  answersInRange_iff pessimistic entriesInRange_twoBranches

/-- The entry 3 of one function, whose query offers three options, is taken over
by a query of another function that offers two. -/
theorem not_answersInRange :
    ¬ ∀ (maps : ChoiceMaps) (events : List (Timed Nat)), EntriesInRange maps events →
      AnswersInRange pessimistic maps events := by
  intro h
  obtain ⟨answer, hanswer, hlt⟩ :=
    h thirdConstant twoBranches entriesInRange_twoBranches 1 _ ⟨_, rfl, rfl⟩
  obtain rfl : (⟨2, none⟩ : Answer) = answer := Option.some.inj (Option.some.inj hanswer)
  exact absurd hlt (by decide)

end Range

end Petospa

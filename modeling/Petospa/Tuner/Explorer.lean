import Petospa.Annotator.ControlString
import Petospa.Lib.Coroutine
import Petospa.Lib.Except

/-!
# The choice explorer of the tuner

`ChoiceExplorer.new` lays out the control string, `loopHead` and `resume` are
the two halves of the loop body of `generator` around its `yield`. Positions,
values and tries are natural numbers; problem intervals are a stack whose head
is `problems[-1]`. What only feeds the log (statistics, categories, the current
choice) is left out.
-/

namespace Petospa

open Text Coroutine

/-- An `OptimisticChoice` of the tuner. The annotator asserts that an
opportunity has at least one option, so the initial value is a natural number. -/
structure OptimisticChoice where
  category : Str
  kind : Str
  opportunityNo : Int
  functionNo : Int
  maxOptions : Nat
  name : Str
  function : Str
  position : Nat
  fixed : Bool
  value : Nat
  maxOptions_pos : 0 < maxOptions

namespace OptimisticChoice

/-- `OptimisticChoice.__init__`. -/
def new (maxOptions : Nat) (opportunityNo functionNo : Int)
    (category kind name function : Str) (position : Nat) (h : 0 < maxOptions) :
    OptimisticChoice where
  category := category
  kind := kind
  opportunityNo := opportunityNo
  functionNo := functionNo
  maxOptions := maxOptions
  name := name
  function := function
  position := position
  fixed := false
  value := maxOptions - 1
  maxOptions_pos := h

/-- A choice as the constructor leaves it. -/
def Fresh (oc : OptimisticChoice) : Prop := oc.fixed = false ∧ oc.value = oc.maxOptions - 1

theorem new_fresh {maxOptions : Nat} {opportunityNo functionNo : Int}
    {category kind name function : Str} {position : Nat} {h : 0 < maxOptions} :
    (new maxOptions opportunityNo functionNo category kind name function position h).Fresh :=
  ⟨rfl, rfl⟩

def setOptimisticValue (oc : OptimisticChoice) (value : Nat) : Except Fault OptimisticChoice :=
  if oc.fixed then .error .assertion else .ok { oc with value := value }

def fix (oc : OptimisticChoice) (value : Nat) : Except Fault OptimisticChoice :=
  if oc.fixed then .error .assertion else .ok { oc with fixed := true, value := value }

end OptimisticChoice

/-- `chr(ord('0') + n)`. -/
def optionChar (n : Nat) : Nat := ord '0' + n

/-- The headers in front of a choice, given the function and the kind that the
string was last switched to. -/
def header (lastFunctionNo lastOpportunityNo : Int) (oc : OptimisticChoice) : Str :=
  (if lastFunctionNo ≠ oc.functionNo then
    [ord '#', ord 'f'] ++ str oc.functionNo ++ [ord 'f'] else []) ++
  (if lastOpportunityNo ≠ oc.opportunityNo then
    [ord '#', ord 'c', optionChar oc.opportunityNo.toNat] else [])

structure ChoiceExplorer where
  optimisticChoices : List OptimisticChoice
  firstPos : Nat
  lastPos : Nat
  controlString : Str

namespace ChoiceExplorer

/-- The loop of `__init__` over the choices: extend the control string and note
where the value of each choice stands. -/
def place (controlString : Str) (lastFunctionNo lastOpportunityNo : Int) :
    List OptimisticChoice → Str × List OptimisticChoice
  | [] => (controlString, [])
  | oc :: ocs =>
      let front := controlString ++ header lastFunctionNo lastOpportunityNo oc
      let rest := place (front ++ [optionChar oc.value]) oc.functionNo oc.opportunityNo ocs
      (rest.1, { oc with position := front.length } :: rest.2)

/-- The entry behind the last choice, whose position is the end of the string. -/
def dummy (position : Nat) : OptimisticChoice :=
  .new 1 (-1) (-1) (lit "[n/a]") (lit "[n/a]") (lit "dummy") (lit "dummy") position (by decide)

/-- `ChoiceExplorer.__init__`. Its caller skips a round without choices, which
is what the assertion on the length of the list asks for. -/
def new (optimisticChoices : List OptimisticChoice) (initialControlString : Str) :
    ChoiceExplorer :=
  let placed := place initialControlString (-1) (-1) optimisticChoices
  { optimisticChoices := placed.2 ++ [dummy placed.1.length]
    firstPos := 0
    lastPos := optimisticChoices.length
    controlString := placed.1 }

/-- The choices without the dummy entry. -/
def choices (ex : ChoiceExplorer) : List OptimisticChoice := ex.optimisticChoices.take ex.lastPos

def getControlStringPositionForPosition (ex : ChoiceExplorer) (pos : Nat) : Except Fault Nat :=
  match ex.optimisticChoices[pos]? with
  | some oc => .ok oc.position
  | none => .error .indexError

/-- `control_string[:getControlStringPositionForPosition(pos)+1]`. -/
def slice (ex : ChoiceExplorer) (pos : Nat) : Except Fault Str := do
  let position ← ex.getControlStringPositionForPosition pos
  return ex.controlString.take (position + 1)

def replacePosition (ex : ChoiceExplorer) (position value : Nat) : ChoiceExplorer :=
  { ex with
    controlString := ex.controlString.take position ++ [optionChar value] ++
      ex.controlString.drop (position + 1) }

/-- `advance(tries, n)`: fix the next `n` choices at their values. The choice
behind each of them is looked up as well. -/
def advance : Nat → ChoiceExplorer → Except Fault ChoiceExplorer
  | 0, ex => if ex.firstPos < ex.optimisticChoices.length then .ok ex else .error .indexError
  | n + 1, ex =>
      match ex.optimisticChoices[ex.firstPos]? with
      | none => .error .indexError
      | some oc => do
          let oc ← oc.fix oc.value
          advance n { ex with
            optimisticChoices := ex.optimisticChoices.set ex.firstPos oc
            firstPos := ex.firstPos + 1 }

def findAndLimitNextOptimisticChoice (ex : ChoiceExplorer) (currentFirstPos : Nat) :
    Except Fault ChoiceExplorer :=
  match ex.optimisticChoices[currentFirstPos]? with
  | none => .error .indexError
  | some oc =>
      if ¬ 0 < oc.value then .error .assertion
      else
        match ex.controlString[oc.position]? with
        | none => .error .indexError
        | some oldValue =>
            let newValue : Int := oldValue - 1 - ord '0'
            if (oc.value : Int) ≠ newValue + 1 then .error .assertion
            else do
              let oc ← oc.setOptimisticValue newValue.toNat
              let ex := { ex with
                optimisticChoices := ex.optimisticChoices.set currentFirstPos oc }
              let ex := ex.replacePosition oc.position newValue.toNat
              if newValue = 0 then ex.advance 1 else .ok ex

/-- The loop at a limit: everything reached is fixed, the rest becomes 0. -/
def fixUnreached (firstPos : Nat) :
    Nat → List OptimisticChoice → Except Fault (List OptimisticChoice)
  | _, [] => .ok []
  | i, oc :: ocs => do
      let oc ← if i < firstPos then
          (if oc.fixed then .ok oc else .error .assertion)
        else oc.fix 0
      let ocs ← fixUnreached firstPos (i + 1) ocs
      return oc :: ocs

/-- What `generator` does after its loop was left at a limit. -/
def limit (ex : ChoiceExplorer) : Except Fault ChoiceExplorer := do
  let optimisticChoices ← fixUnreached ex.firstPos 0 ex.optimisticChoices
  let ex := { ex with optimisticChoices := optimisticChoices }
  if ex.firstPos = 0 then return { ex with controlString := [] }
  else return { ex with controlString := ← ex.slice (ex.firstPos - 1) }

end ChoiceExplorer

/-- `self.max_tries` and `self.time_end`, which no code changes. -/
structure Limits where
  maxTries : Option Nat
  timeEnd : Option Nat
  deriving DecidableEq

namespace Limits

def unlimited : Limits := ⟨none, none⟩

/-- The condition of the search loop. -/
def allow (limits : Limits) (tries timeCur : Nat) : Bool :=
  (match limits.maxTries with | none => true | some maxTries => tries < maxTries) &&
  (match limits.timeEnd with | none => true | some timeEnd => timeCur < timeEnd)

end Limits

/-- The end of a problem interval. -/
def problemEnd (problem : Nat × Nat) : Nat := problem.1 + problem.2

/-- The two pop loops of `generator`. -/
def popProblems (currentFirstPos : Nat) : List (Nat × Nat) → List (Nat × Nat)
  | [] => []
  | problem :: problems =>
      if problemEnd problem ≠ 0 ∧ problemEnd problem ≤ currentFirstPos then
        popProblems currentFirstPos problems
      else problem :: problems

/-- The local variables of `generator` at the head of its loop. -/
structure Search where
  explorer : ChoiceExplorer
  currentFirstPos : Nat
  currentDistance : Nat
  problems : List (Nat × Nat)
  changedSinceProblem : Bool
  tries : Nat
  timeCur : Nat

/-- The local variables at the `yield`, with the string that is yielded. -/
structure Paused extends Search where
  currentLastPos : Nat
  yielded : Str

/-- `tries, False` or `tries, True`, with the explorer as it is left behind. -/
structure Returned where
  tries : Nat
  stop : Bool
  explorer : ChoiceExplorer

abbrev GeneratorOutcome := Outcome Fault Paused Returned

namespace Search

/-- The state in which `generator` enters its loop, at the given clock time. -/
def start (ex : ChoiceExplorer) (now : Nat) : Search where
  explorer := ex
  currentFirstPos := ex.firstPos
  currentDistance := ex.lastPos - ex.firstPos
  problems := []
  changedSinceProblem := true
  tries := 0
  timeCur := now

/-- From the loop condition to the `yield`, or to one of the returns. -/
def loopHead (limits : Limits) (s : Search) : GeneratorOutcome :=
  if limits.allow s.tries s.timeCur then
    if s.explorer.lastPos ≤ s.explorer.firstPos then .returned ⟨s.tries, false, s.explorer⟩
    else
      let currentLastPos := s.currentFirstPos + s.currentDistance
      let s := { s with
        tries := s.tries + 1
        problems := popProblems s.currentFirstPos s.problems }
      match s.explorer.slice currentLastPos with
      | .ok yielded => .yielded { s with currentLastPos := currentLastPos, yielded := yielded }
      | .error fault => .raised fault
  else
    match s.explorer.limit with
    | .ok ex => .returned ⟨s.tries, true, ex⟩
    | .error fault => .raised fault

end Search

namespace Paused

/-- `result is True`: fix the tested range and widen to the enclosing problem. -/
def accepted (p : Paused) : Except Fault Search := do
  let ex ← p.explorer.advance p.currentDistance
  let currentFirstPos := ex.firstPos
  let problems := popProblems currentFirstPos p.problems
  let s := { p.toSearch with
    explorer := ex, currentFirstPos := currentFirstPos, problems := problems }
  match problems with
  | [] => if ex.lastPos ≤ ex.firstPos then .ok s else .error .assertion
  | problem :: _ =>
      if problemEnd problem ≤ p.currentLastPos then .error .assertion
      else
        let currentDistance := problemEnd problem - p.currentLastPos
        let currentDistance :=
          if p.changedSinceProblem then currentDistance else max 1 (currentDistance / 2)
        .ok { s with currentDistance := currentDistance }

/-- `result is False`: halve the tested range, or lower a choice that was
tested alone. -/
def rejected (p : Paused) : Except Fault Search :=
  if 1 < p.currentDistance then
    .ok { p.toSearch with
      changedSinceProblem := false
      problems := (p.currentFirstPos, p.currentDistance) :: p.problems
      currentDistance := max 1 (p.currentDistance / 2) }
  else do
    let ex ← p.explorer.findAndLimitNextOptimisticChoice p.currentFirstPos
    return { p.toSearch with
      explorer := ex
      currentFirstPos := max p.currentFirstPos ex.firstPos
      changedSinceProblem := true }

/-- What `True` leaves: only the next distance depends on the enclosing problem. -/
theorem accepted_eq_ok {p : Paused} {st : Search} (h : p.accepted = .ok st) :
    ∃ ex distance, p.explorer.advance p.currentDistance = .ok ex ∧
      st = { p.toSearch with
        explorer := ex, currentFirstPos := ex.firstPos
        problems := popProblems ex.firstPos p.problems, currentDistance := distance } := by
  rw [accepted, Except.bind_eq_ok_iff] at h
  obtain ⟨ex, hadvance, h⟩ := h
  refine ⟨ex, st.currentDistance, hadvance, ?_⟩
  simp only at h
  split at h
  · split at h
    · exact (Except.ok.inj h) ▸ rfl
    · cases h
  · split at h
    · cases h
    · exact (Except.ok.inj h) ▸ rfl

/-- What `False` leaves: a new problem, or a lowered choice. -/
theorem rejected_eq_ok {p : Paused} {st : Search} (h : p.rejected = .ok st) :
    st = { p.toSearch with
        changedSinceProblem := false
        problems := (p.currentFirstPos, p.currentDistance) :: p.problems
        currentDistance := max 1 (p.currentDistance / 2) } ∨
      ∃ ex, p.explorer.findAndLimitNextOptimisticChoice p.currentFirstPos = .ok ex ∧
        st = { p.toSearch with
          explorer := ex, currentFirstPos := max p.currentFirstPos ex.firstPos
          changedSinceProblem := true } := by
  rw [rejected] at h
  split at h
  · exact .inl (Except.ok.inj h).symm
  · rw [Except.bind_eq_ok_iff] at h
    obtain ⟨ex, hlimit, h⟩ := h
    exact .inr ⟨ex, hlimit, (Except.ok.inj h).symm⟩

/-- From the answer to the next `yield`. An answer is the verdict of the test
and the clock time read after it. -/
def resume (limits : Limits) (p : Paused) (answer : Bool × Nat) : GeneratorOutcome :=
  match if answer.1 then p.accepted else p.rejected with
  | .ok s => { s with timeCur := answer.2 }.loopHead limits
  | .error fault => .raised fault

end Paused

namespace ChoiceExplorer

/-- `next(it)` on a new generator of the explorer. -/
def generator (limits : Limits) (now : Nat) (ex : ChoiceExplorer) : GeneratorOutcome :=
  (Search.start ex now).loopHead limits

/-- The generator after a history of `it.send(...)`. -/
def afterAnswers (limits : Limits) (now : Nat) (ex : ChoiceExplorer)
    (answers : List (Bool × Nat)) : GeneratorOutcome :=
  feed (Paused.resume limits) (ex.generator limits now) answers

/-- The vector a control string denotes for the choices of the explorer: a
choice that the string does not reach counts as 0. -/
def denoted (ex : ChoiceExplorer) (controlString : Str) : List Nat :=
  ex.choices.map fun oc =>
    match controlString[oc.position]? with
    | some c => c - ord '0'
    | none => 0

/-- The answer of a deterministic oracle on vectors of choice values, in the
round with the given number. -/
def oracleAnswer (ex : ChoiceExplorer) (accept : List Nat → Bool) (clock : Nat → Nat)
    (round : Nat) (p : Paused) : Bool × Nat :=
  (accept (ex.denoted p.yielded), clock (round + 1))

/-- The generator after `n` rounds against an oracle. -/
def explore (limits : Limits) (clock : Nat → Nat) (accept : List Nat → Bool)
    (ex : ChoiceExplorer) (n : Nat) : GeneratorOutcome :=
  play (Paused.resume limits) (ex.oracleAnswer accept clock) (ex.generator limits (clock 0)) n

end ChoiceExplorer

/-- An opportunity with two options: an addition that may not wrap. -/
def nswOfAdd : OptimisticChoice :=
  .new 2 4 0 (lit "Op ") (lit "NoSgnWrap") (lit "add") (lit "f") 0 Nat.two_pos

example : (ChoiceExplorer.new [nswOfAdd, nswOfAdd] []).controlString = lit "#f0f#c411" := by decide

end Petospa

import Mathlib.Logic.Function.Basic
import Petospa.Tuner.Rounds

/-!
# Benchmarks

`compileSourceOptimistically`, `makeAndVerify`, `optimizeAndRun` and
`runBenchmark` of the tuner, over the files they share: object files, stored
versions of them and the executable. Compiler, make and verification are
functions. A call that raises has no result. Source files do not change: what is
written back behind a tuning is not compiled again. Logging and the `.broken`
copies are left out.
-/

namespace Petospa

open Text Coroutine

/-- The programs a benchmark calls. `compile` and `listOpportunities` get the
object file that they find and leave one behind, also when they fail; the latter
is the compile of `determineOptimisticChoices` with what is read from its output,
or nothing if that raises. `make` only links: it writes no object file. A comparison of
object files looks at what is in them, without the cache of `filecmp`. -/
structure Toolchain (Source Object Executable : Type) where
  compile : Source → Str → Option Object → Bool × Option Object
  listOpportunities :
    Source → Nat → Str → Option Object → Option (List OptimisticChoice) × Option Object
  make : (Source → Option Object) → Option Executable
  verify : Executable → Bool

/-- The files of a benchmark, with `_num_out_versions`. Object files and their
numbered copies are named by the source file, which has an object file of its own. -/
structure World (Source Object Executable : Type) where
  objects : Source → Option Object
  versions : Source → Nat → Option Object
  numOutVersions : Nat
  executable : Option Executable

variable {Source Object Executable : Type} [DecidableEq Source] [DecidableEq Object]

namespace World

variable (w : World Source Object Executable)

def writeObject (s : Source) (object : Option Object) : World Source Object Executable :=
  { w with objects := Function.update w.objects s object }

/-- Copy the object file of a source file to its version with the current number. -/
def storeVersion (s : Source) : World Source Object Executable :=
  { w with
    versions := Function.update w.versions s
      (Function.update (w.versions s) w.numOutVersions (w.objects s)) }

end World

namespace Toolchain

variable (t : Toolchain Source Object Executable)

/-- `compileSourceOptimistically` with `compile_only`. -/
def compileOnly (w : World Source Object Executable) (s : Source) (controlString : Str) :
    Bool × World Source Object Executable :=
  let compiled := t.compile s controlString (w.objects s)
  (compiled.1, { w with executable := none }.writeObject s compiled.2)

/-- `makeAndVerify`, which links only when there is no executable. -/
def makeAndVerify (w : World Source Object Executable) : Bool × World Source Object Executable :=
  let w := match w.executable with
    | none => { w with executable := t.make w.objects }
    | some _ => w
  match w.executable with
  | none => (false, w)
  | some executable => (t.verify executable, w)

/-- `compileSourceOptimistically`. The comparison raises unless both files exist. -/
def compileSourceOptimistically (w : World Source Object Executable) (s : Source)
    (controlString : Str) (forceValidation : Bool) :
    Option Bool × World Source Object Executable :=
  let compiled := t.compileOnly w s controlString
  if compiled.1 then
    let w := compiled.2
    match w.versions s w.numOutVersions, w.objects s with
    | some version, some object =>
        if version = object ∧ forceValidation = false then (some true, w)
        else
          let verified := t.makeAndVerify w
          if verified.1 then
            let w := verified.2
            (some true, { w with numOutVersions := w.numOutVersions + 1 }.storeVersion s)
          else (some false, verified.2)
    | _, _ => (none, w)
  else (some false, compiled.2)

/-- The compile loop of the initial `makeAndVerify`. -/
def compileAll : List Source → World Source Object Executable →
    Bool × World Source Object Executable
  | [], w => (true, w)
  | s :: ss, w =>
      let compiled := t.compileOnly w s []
      if compiled.1 then compileAll ss compiled.2 else (false, compiled.2)

/-- The copy loop of the initial `makeAndVerify`. -/
def storeAll : List Source → World Source Object Executable →
    Bool × World Source Object Executable
  | [], w => (true, w)
  | s :: ss, w => if (w.objects s).isSome then storeAll ss (w.storeVersion s) else (false, w)

/-- `makeAndVerify` with `initial`. -/
def initialMakeAndVerify (ss : List Source) (w : World Source Object Executable) :
    Bool × World Source Object Executable :=
  let compiled := t.compileAll ss w
  if compiled.1 then
    let w := { compiled.2 with executable := t.make compiled.2.objects }
    match w.executable with
    | none => (false, w)
    | some executable =>
        let stored := storeAll ss w
        if stored.1 then (t.verify executable, stored.2) else (false, stored.2)
  else (false, compiled.2)

end Toolchain

/-- A call of `compileSourceOptimistically` that is not `compile_only`. -/
structure Call (Source Object Executable : Type) where
  before : World Source Object Executable
  sourceFile : Source
  controlString : Str
  forceValidation : Bool

namespace Call

variable (t : Toolchain Source Object Executable) (c : Call Source Object Executable)

def outcome : Option Bool × World Source Object Executable :=
  t.compileSourceOptimistically c.before c.sourceFile c.controlString c.forceValidation

def after : World Source Object Executable := (c.outcome t).2

def ReturnsTrue : Prop := (c.outcome t).1 = some true

instance : Decidable (c.ReturnsTrue t) := inferInstanceAs (Decidable (_ = _))

end Call

/-- How a search ended: it returned, something raised, or no more of it is told. -/
inductive Ending where
  | returned (r : Returned)
  | raised
  | unfinished

structure Trials (Source Object Executable : Type) where
  calls : List (Call Source Object Executable)
  world : World Source Object Executable
  ending : Ending

/-- The clock during an annotator run: at the start of the search, and behind
each of its tests. The readings bound how far a run is told. -/
structure Clock where
  now : Nat
  readings : List Nat

/-- What follows an iteration of `optimizeAndRun`: the next one, a return, or
nothing. The latter is the end of the benchmark when the final validation
fails, as its assertion stands outside the `try`. -/
inductive Next where
  | again (src : Sourcefile)
  | returned (success : Bool)
  | ended

structure Iteration (Source Object Executable : Type) where
  calls : List (Call Source Object Executable)
  world : World Source Object Executable
  next : Next

/-- The calls made for one source file, with the files at the start. -/
structure Tuning (Source Object Executable : Type) where
  sourceFile : Source
  start : World Source Object Executable
  calls : List (Call Source Object Executable)

namespace Toolchain

variable (t : Toolchain Source Object Executable) (limits : Limits)

/-- The tests of a search. -/
def trials (s : Source) : GeneratorOutcome → World Source Object Executable → List Nat →
    Trials Source Object Executable
  | .yielded p, w, now :: readings =>
      let call : Call Source Object Executable := ⟨w, s, p.yielded, false⟩
      match (call.outcome t).1 with
      | none => ⟨[call], call.after t, .raised⟩
      | some success =>
          let rest := trials s (p.resume limits (success, now)) (call.after t) readings
          { rest with calls := call :: rest.calls }
  | .yielded _, w, [] => ⟨[], w, .unfinished⟩
  | .returned r, w, _ => ⟨[], w, .returned r⟩
  | .raised _, w, _ => ⟨[], w, .raised⟩

/-- One iteration of `optimizeAndRun`. -/
def iteration (s : Source) (annotationRun : Nat) (src : Sourcefile)
    (w : World Source Object Executable) (clock : Clock) : Iteration Source Object Executable :=
  let listed := t.listOpportunities s annotationRun src.currentControlString (w.objects s)
  let w := w.writeObject s listed.2
  match listed.1 with
  | none => ⟨[], w, .returned false⟩
  | some [] => ⟨[], w, .again src⟩
  | some ocs =>
      let explorer := ChoiceExplorer.new (sortChoices ocs) src.currentControlString
      let tested := t.trials limits s (explorer.generator limits clock.now) w clock.readings
      match tested.ending with
      | .returned r =>
          let call : Call Source Object Executable :=
            ⟨tested.world, s, r.explorer.controlString, true⟩
          { calls := tested.calls ++ [call]
            world := call.after t
            next :=
              if (call.outcome t).1 = some true then
                (if r.stop then .returned true else .again (src.settle r))
              else .ended }
      | .raised => ⟨tested.calls, tested.world, .returned false⟩
      | .unfinished => ⟨tested.calls, tested.world, .ended⟩

/-- The loop of `optimizeAndRun` with the given number of iterations to go. -/
def iterations (s : Source) : Nat → Nat → Sourcefile → World Source Object Executable →
    List Clock → Iteration Source Object Executable
  | 0, _, _, w, _ => ⟨[], w, .returned true⟩
  | _ + 1, _, _, w, [] => ⟨[], w, .ended⟩
  | n + 1, annotationRun, src, w, clock :: clocks =>
      let it := t.iteration limits s (annotationRun + 1) src w clock
      match it.next with
      | .again src' =>
          let rest := iterations s n (annotationRun + 1) src' it.world clocks
          { rest with calls := it.calls ++ rest.calls }
      | next => ⟨it.calls, it.world, next⟩

def optimizeAndRun (s : Source) (w : World Source Object Executable) (clocks : List Clock) :
    Iteration Source Object Executable :=
  t.iterations limits s 14 0 .initial w clocks

/-- The loop of `runBenchmark`. -/
def tuneAll : List Source → World Source Object Executable → List (List Clock) →
    List (Tuning Source Object Executable)
  | s :: ss, w, clocks :: rest =>
      let w := { w with numOutVersions := 0 }
      let it := t.optimizeAndRun limits s w clocks
      ⟨s, w, it.calls⟩ ::
        (match it.next with
        | .returned _ => tuneAll ss it.world rest
        | _ => [])
  | _, _, _ => []

/-- `runBenchmark` on a new benchmark. -/
def runBenchmark (ss : List Source) (w : World Source Object Executable)
    (clocks : List (List Clock)) : List (Tuning Source Object Executable) :=
  let built := t.initialMakeAndVerify ss { w with numOutVersions := 0 }
  if built.1 then t.tuneAll limits ss built.2 clocks else []

/-- The tests of a search answer it. -/
theorem trials_returned {s : Source} {o : GeneratorOutcome} {w : World Source Object Executable}
    {readings : List Nat} {r : Returned}
    (h : (t.trials limits s o w readings).ending = .returned r) :
    ∃ answers, feed (Paused.resume limits) o answers = .returned r := by
  induction readings generalizing o w with
  | nil =>
      cases o with
      | yielded p => cases h
      | returned r' =>
          obtain rfl := Ending.returned.inj h
          exact ⟨[], rfl⟩
      | raised fault => cases h
  | cons now readings ih =>
      cases o with
      | yielded p =>
          rw [trials] at h
          split at h
          · cases h
          · rename_i success _
            obtain ⟨answers, hanswers⟩ := ih h
            exact ⟨(success, now) :: answers, hanswers⟩
      | returned r' =>
          obtain rfl := Ending.returned.inj h
          exact ⟨[], rfl⟩
      | raised fault => cases h

/-- An iteration that is followed by another one is a round of the source file. -/
theorem iteration_round {s : Source} {annotationRun : Nat} {src src' : Sourcefile}
    {w : World Source Object Executable} {clock : Clock}
    (h : (t.iteration limits s annotationRun src w clock).next = .again src') :
    ∃ rd : Round, src.round limits rd = (src', true) := by
  simp only [iteration] at h
  split at h
  · cases h
  · obtain rfl := Next.again.inj h
    exact ⟨⟨[], 0, [], none⟩, rfl⟩
  · rename_i ocs hne _
    split at h
    · rename_i r hending
      obtain ⟨answers, hanswers⟩ := t.trials_returned limits hending
      refine ⟨⟨ocs, clock.now, answers, some true⟩, ?_⟩
      have hsearch : src.search limits ⟨ocs, clock.now, answers, some true⟩ = .returned r :=
        hanswers
      rw [Sourcefile.round, if_neg hne, hsearch]
      dsimp only at h ⊢
      split at h
      · split at h
        · cases h
        · rename_i hgoes
          obtain rfl := Next.again.inj h
          simp [hgoes]
      · cases h
    · cases h
    · cases h

end Toolchain

end Petospa

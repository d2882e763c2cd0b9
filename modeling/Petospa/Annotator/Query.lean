import Petospa.Annotator.ControlString
import Petospa.Lib.Transducer

/-!
# Queries of the annotation passes

`getOptimisticChoice` answers a query from the choice maps, from the cache by
value name, or by default. A function object is an element of `Fn`; it is
numbered when it is first seen. Static tables of the annotator are the fields of
`Annotator`, and live as long as the compiler process, over all its instances.
-/

namespace Petospa

open Text

/-- The command-line options that `getOptimisticChoice` and `runOnModule` read. -/
structure Options where
  /-- `-optimistic-annotations-default-optimistic` -/
  annotationsDefault : Bool
  /-- `-optimistic-annotation-runs` -/
  annotationRuns : Int
  /-- `-print-optimistic-opportunities` -/
  printOptimisticOpportunities : Bool
  deriving DecidableEq

/-- A call `getOptimisticChoice(NumChoices, V, Kind)`, with what it reads of `V`:
its name, which was set if need be, and its function. -/
structure Query (Fn : Type*) where
  numChoices : Nat
  name : Str
  function : Fn
  functionName : Str
  kind : OptimisticChoiceKind
  /-- `assert(NumChoices > 0)` -/
  numChoices_pos : 0 < numChoices

/-- A line that `-print-optimistic-opportunities` prints. -/
structure Opportunity where
  numChoices : Nat
  choice : Nat
  kind : OptimisticChoiceKind
  functionNo : Nat
  name : Str
  functionName : Str
  numChoices_pos : 0 < numChoices
  deriving DecidableEq, Repr

/-- What happens to the annotator: `runOnModule` sees a function that it may
annotate, or a pass asks for a choice. -/
inductive Event (Fn : Type*) where
  | sees (f : Fn)
  | asks (q : Query Fn)

/-- An event in the annotator instance with the given number. -/
structure Timed (Fn : Type*) where
  inst : Nat
  event : Event Fn

structure Answer where
  value : Nat
  printed : Option Opportunity
  deriving DecidableEq, Repr

structure Annotator (Fn : Type*) where
  nameCache : OptimisticChoiceKind → Str → Nat
  choiceMaps : ChoiceMaps
  choiceIndices : OptimisticChoiceKind → Fn → Nat
  /-- `AllFunctions`; a function's index is its entry in `FunctionNumerator`. -/
  allFunctions : List Fn

/-- `Map.resize(Pos + 1)` where the map is too short. -/
def resize (map : List Nat) (size : Nat) : List Nat :=
  if map.length < size then map ++ List.replicate (size - map.length) 0 else map

namespace Annotator

variable {Fn : Type*} [DecidableEq Fn]

/-- The tables of a new process, with choice maps that were read in. -/
def initial (maps : ChoiceMaps) : Annotator Fn where
  nameCache := fun _ _ => 0
  choiceMaps := maps
  choiceIndices := fun _ _ => 0
  allFunctions := []

/-- Number a function on first sight. -/
def see (st : Annotator Fn) (f : Fn) : Annotator Fn :=
  if f ∈ st.allFunctions then st else { st with allFunctions := st.allFunctions ++ [f] }

/-- `FunctionNumerator[F]` of a function that was seen. -/
def functionNo (st : Annotator Fn) (f : Fn) : Nat := st.allFunctions.idxOf f

def getOptimisticChoice (opts : Options) (inst : Nat) (st : Annotator Fn) (q : Query Fn) :
    Annotator Fn × Answer :=
  let cachedResult := st.nameCache q.kind q.name
  let st := st.see q.function
  let fnNo := st.functionNo q.function
  let pos := st.choiceIndices q.kind q.function
  let map := resize (st.choiceMaps q.kind fnNo) (pos + 1)
  let choice := map.getD pos 0
  let default := if opts.annotationsDefault then q.numChoices else 1
  -- The three stores, in the order in which they are asked.
  let newChoice := if 0 < choice then choice else if 0 < cachedResult then cachedResult else default
  let newCache := if 0 < choice then choice else cachedResult
  let silent := 0 < choice ∨ 0 < cachedResult
  let last := opts.annotationRuns < 0 ∨ (inst : Int) = opts.annotationRuns - 1
  ({ st with
      nameCache := fun k n => if k = q.kind ∧ n = q.name then newCache else st.nameCache k n
      choiceMaps := fun k n =>
        if k = q.kind ∧ n = fnNo then map.set pos newChoice else st.choiceMaps k n
      choiceIndices := fun k f =>
        if k = q.kind ∧ f = q.function then pos + 1 else st.choiceIndices k f },
    { value := newChoice - 1
      printed :=
        if ¬ silent ∧ last ∧ opts.printOptimisticOpportunities then
          some ⟨q.numChoices, newChoice - 1, q.kind, fnNo, q.name, q.functionName,
            q.numChoices_pos⟩
        else none })

/-- The annotator reads an event; only queries are answered. -/
def step (opts : Options) (st : Annotator Fn) (e : Timed Fn) : Annotator Fn × Option Answer :=
  match e.event with
  | .sees f => (st.see f, none)
  | .asks q =>
      let (st, answer) := st.getOptimisticChoice opts e.inst q
      (st, some answer)

end Annotator

/-- `runOnModule` returns at once in the instances behind the last requested
one; the comparison is unsigned. -/
def Options.annotates (opts : Options) (inst : Nat) : Bool :=
  ¬ (opts.annotationRuns % 2 ^ 32).toNat ≤ inst

/-- The answers of a compiler run to the events of a trace, one for each event
of an instance that annotates. -/
def annotate {Fn : Type*} [DecidableEq Fn] (opts : Options) (maps : ChoiceMaps)
    (trace : List (Timed Fn)) : List (Option Answer) :=
  Transducer.outputs (Annotator.step opts) (.initial maps)
    (trace.filter fun e => opts.annotates e.inst)

end Petospa

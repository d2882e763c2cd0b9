import Petospa.Annotator.Answers

/-!
# Instances of the annotator

A compiler run calls `runOnModule` once for each instance of the annotator. The
passes between two instances delete functions and create new ones, so each
instance has its own functions; the tables of the annotator live on. The first
instance reads the choices in: embedded ones by the names of the functions that
the module has then, those of the control string by function number.
-/

namespace Petospa

open Text Transducer

/-- What an instance finds in the module, and what its passes ask. -/
structure Stage (Fn : Type*) where
  /-- The functions of the module, in order. -/
  functions : List Fn
  /-- `shouldAnnotateFunction`. -/
  annotatable : Fn → Bool
  /-- Without uses, and internal or a declaration, but no intrinsic. -/
  unused : Fn → Bool
  queries : List (Query Fn)

/-- `searchAndReplace(FName, ".", "_")`. -/
def searchAndReplace (name : Str) : Str := name.map fun c => if c = ord '.' then ord '_' else c

variable {Fn : Type} [DecidableEq Fn]

section Run

variable (name : Fn → Str) (annotations : Str → Option Str)

/-- The loop of `initializeChoiceMaps` over the functions of the module:
`annotations` are the literals that are found by the names of their functions. -/
def readEmbedded (inst : Nat) (unused : Fn → Bool) :
    List Fn → Annotator Fn → Except Fault (Annotator Fn)
  | [], st => .ok st
  | f :: fs, st =>
      if unused f then readEmbedded inst unused fs st
      else
        match annotations (searchAndReplace (name f)) with
        | none => readEmbedded inst unused fs st
        | some cs =>
            let st := st.see f
            if 0 < inst then readEmbedded inst unused fs st
            else
              match fsencode cs with
              | none => .error .encoding
              | some bytes => do
                  let maps ←
                    scanEmbedded (st.functionNo f) .main (bytes ++ [0]) .first st.choiceMaps
                  readEmbedded inst unused fs { st with choiceMaps := maps }

def initializeChoiceMaps (controlString : Str) (inst : Nat) (stage : Stage Fn)
    (st : Annotator Fn) : Except Fault (Annotator Fn) := do
  let st ← readEmbedded name annotations inst stage.unused stage.functions st
  if 0 < inst then return st
  let maps ← decode st.choiceMaps controlString
  return { st with choiceMaps := maps }

/-- The answers to the queries of an instance. -/
def answerAll (opts : Options) (inst : Nat) :
    List (Query Fn) → Annotator Fn → Annotator Fn × List Answer
  | [], st => (st, [])
  | q :: queries, st =>
      let (st, answer) := st.getOptimisticChoice opts inst q
      let (st, answers) := answerAll opts inst queries st
      (st, answer :: answers)

/-- The verification at the end of `runOnModule` makes no query. -/
def runOnModule (opts : Options) (controlString : Str) (inst : Nat) (stage : Stage Fn)
    (st : Annotator Fn) : Except Fault (Annotator Fn × List Answer) :=
  if opts.annotates inst then do
    let st := (stage.functions.filter stage.annotatable).foldl Annotator.see st
    let st ← initializeChoiceMaps name annotations controlString inst stage st
    return answerAll opts inst stage.queries st
  else .ok (st, [])

/-- The instances from a given one on. -/
def runInstances (opts : Options) (controlString : Str) :
    Nat → List (Stage Fn) → Annotator Fn → Except Fault (List (List Answer))
  | _, [], _ => .ok []
  | inst, stage :: stages, st => do
      let (st, answers) ← runOnModule name annotations opts controlString inst stage st
      let rest ← runInstances opts controlString (inst + 1) stages st
      return answers :: rest

/-- A compiler run: the answers of its instances. -/
def compile (opts : Options) (controlString : Str) (stages : List (Stage Fn)) :
    Except Fault (List (List Answer)) :=
  runInstances name annotations opts controlString 0 stages (.initial .empty)

/-- The values that are answered in a compiler run. -/
def compiledValues (opts : Options) (controlString : Str) (stages : List (Stage Fn)) :
    Except Fault (List (List Nat)) :=
  (compile name annotations opts controlString stages).map (List.map (List.map Answer.value))

end Run

end Petospa

import Petospa.Annotator.Speculation

/-!
# The passes over a module

`runOnModule` runs all passes over all functions for one kind of choice after another.
A function that is only declared, or only looked at because it is called, has no passes
over its code.
-/

namespace Petospa

open Text Interaction

structure ModuleState (Fn Ty Const Op : Type) where
  functions : Fn → FunctionState Fn Ty Const Op
  speculation : SpeculationMap Fn Const

namespace Passes

variable {Fn Ty Const Op Loop : Type} [DecidableEq Fn] [DecidableEq Ty] [DecidableEq Const]
variable [DecidableEq Loop] (P : PassInfo Fn Ty Const Op Loop) (inst : Nat)
variable (kind : OptimisticChoiceKind) (f : Fn)

/-! ### Loops -/

/-- The body of the loop over a nest, with the set `ParallelLoops`. -/
def requestLoop (r : LoopState Nat Nat × List Loop) (L : Loop) :
    Pass Fn Const (LoopState Nat Nat × List Loop) :=
  let N := P.loopInfo f
  if inst = 7 then
    if kind ≠ N.kindOf L then return r
    else do
      let choice ← getOptimisticChoice 2 Nat.two_pos f (.local (.block (N.getHeader L))) kind
      if choice = 0 then return r
      else return (N.ensureLoopID r.1 L, number r.2 L)
  else return r

def annotateNest (s : LoopState Nat Nat) (O : Loop) : Pass Fn Const (LoopState Nat Nat) := do
  let N := P.loopInfo f
  let (s, requested) ← (N.depthFirst O).foldlM (requestLoop P inst kind f) (s, [])
  let parallelLoops := (P.order f).visit kind O requested
  let s := parallelLoops.foldl (N.markLoop parallelLoops) s
  -- assert(L->isAnnotatedParallel())
  if parallelLoops.all (N.isAnnotatedParallel s) then return s else .fails .assertion

def annotateLoops (s : LoopState Nat Nat) : Pass Fn Const (LoopState Nat Nat) :=
  (P.loopInfo f).topLevel.foldlM (annotateNest P inst kind f) s

/-! ### All passes -/

/-- The passes over the code of a function. -/
def annotateCode (fn : FunctionState Fn Ty Const Op) (map : SpeculationMap Fn Const) :
    Pass Fn Const (FunctionState Fn Ty Const Op × SpeculationMap Fn Const) := do
  let fn ← annotateOverflowComputations kind f fn
  let fn ← annotateMemoryOperations P kind f fn
  let map ← annotateBranchConditions P kind f fn map
  let loops ← annotateLoops P inst kind f fn.loops
  return ({ fn with loops := loops }, map)

/-- The body of the loop over the functions. `declOnly` are the functions in
`FunctionDeclOnly`. -/
def runFunction (declOnly : Fn → Bool) (st : ModuleState Fn Ty Const Op) (f : Fn) :
    Pass Fn Const (ModuleState Fn Ty Const Op) := do
  let fn := st.functions f
  let function ← annotateAttributes P.types kind inst f fn.function
  let fn := { fn with function := function }
  if function.isDeclaration || declOnly f then
    return { st with functions := Function.update st.functions f fn }
  else
    let (fn, map) ← annotateCode P inst kind f fn st.speculation
    return ⟨Function.update st.functions f fn, map⟩

def runKind (declOnly : Fn → Bool) (functions : List Fn) (st : ModuleState Fn Ty Const Op)
    (kind : OptimisticChoiceKind) : Pass Fn Const (ModuleState Fn Ty Const Op) := do
  let st ← functions.foldlM (runFunction P inst kind declOnly) st
  let states ← createSpeculativeAssumptions P kind st.functions st.speculation
  return { st with functions := states }

/-- The loop of `runOnModule` over the kinds of choices. -/
def runPasses (declOnly : Fn → Bool) (functions : List Fn)
    (states : Fn → FunctionState Fn Ty Const Op) : Pass Fn Const (ModuleState Fn Ty Const Op) :=
  choiceKinds.foldlM (runKind P inst declOnly functions) ⟨states, .empty⟩

end Passes

end Petospa

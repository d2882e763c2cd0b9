import Petospa.Annotator.Instances
import Petospa.Annotator.History
import Petospa.Lib.BreakLoop

/-!
# Loading the choices of a module

The annotations of a module are its variables: `initializeChoiceMaps` looks for
the variable of each function by four names, follows a pointer to its literal,
and reads the literal into the choice maps. Behind the functions comes the
control string. The annotations by name of `Petospa.Instances` are those of a
module whose variables are all literals.
-/

namespace Petospa

open Text BreakLoop

/-- An initialiser, as far as a `dyn_cast<ConstantDataArray>` tells. -/
inductive Initializer where
  /-- Data of `i8` elements. An array of zeros only is a `ConstantAggregateZero`. -/
  | i8Array (data : List CChar) (nonzero : ∃ c ∈ data, c ≠ 0)
  /-- Data of other elements. -/
  | dataArray
  /-- No `ConstantDataArray`. -/
  | other

/-- The operand of a variable. -/
inductive Operand where
  /-- A `ConstantExpr`: the variable that is left by `stripPointerCasts`, if it
  is one, with its initialiser, if it has one. -/
  | constantExpr (stripped : Option (Option Initializer))
  | constant (initializer : Initializer)

/-- A global variable; a declaration has no operand. -/
structure GlobalVariable where
  operand : Option Operand

structure IRModule (Fn : Type*) where
  functions : List Fn
  getName : Fn → Str
  isIntrinsic : Fn → Bool
  hasInternalLinkage : Fn → Bool
  isDeclaration : Fn → Bool
  getNumUses : Fn → Nat
  /-- The functions that are called in a function, in order. -/
  calledFunctions : Fn → List Fn
  getGlobalVariable : Str → Option GlobalVariable
  nodup : functions.Nodup

/-- What the loop finds for a function. -/
inductive FoundVariable where
  /-- The loop goes on with the next function. -/
  | nothing
  /-- The function returns. -/
  | unreadable
  /-- An assertion of `getInitializer` or `getAsString` fails. -/
  | aborts
  | string (data : List CChar)

def Initializer.found : Initializer → FoundVariable
  | i8Array data _ => .string data
  | dataArray => .aborts
  | other => .unreadable

def GlobalVariable.found (optChoices : GlobalVariable) : FoundVariable :=
  match optChoices.operand with
  | none => .nothing
  | some (.constantExpr none) => .unreadable
  | some (.constantExpr (some none)) => .aborts
  | some (.constantExpr (some (some initializer))) => initializer.found
  | some (.constant initializer) => initializer.found

/-- The annotator with the set vector `Functions` of `runOnModule`. -/
structure LoadState (Fn : Type*) where
  annotator : Annotator Fn
  functions : List Fn

namespace IRModule

variable {Fn : Type} [DecidableEq Fn] (M : IRModule Fn)

/-- The functions that the loop skips. -/
def unused (f : Fn) : Bool :=
  !M.isIntrinsic f && (M.hasInternalLinkage f || M.isDeclaration f) && M.getNumUses f == 0

def optChoices (f : Fn) : Option GlobalVariable :=
  let fName := searchAndReplace (M.getName f)
  let ocNameInC := fName ++ lit "_OptimisticChoices"
  M.getGlobalVariable ocNameInC <|>
  M.getGlobalVariable (lit "_ZL" ++ str ocNameInC.length ++ ocNameInC) <|>
  (if M.getName f = lit "main" then M.getGlobalVariable (lit "_ZZ4mainE18_OptimisticChoices")
    else none) <|>
  M.getGlobalVariable (lit "_Z" ++ fName.drop 1 ++ lit "E18_OptimisticChoices")

def found (f : Fn) : FoundVariable :=
  match M.optChoices f with
  | none => .nothing
  | some optChoices => optChoices.found

/-- The body of the loop over the functions. -/
def loadFunction (inst : Nat) (st : LoadState Fn) (f : Fn) :
    Except Fault (ForInStep (LoadState Fn)) :=
  if M.unused f then .ok (.yield st)
  else
    match M.found f with
    | .nothing => .ok (.yield st)
    | .unreadable => .ok (.done st)
    | .aborts => .error .assertion
    | .string data =>
        let st : LoadState Fn := ⟨st.annotator.see f, number st.functions f⟩
        if data = [] then .ok (.yield st)
        else if 0 < inst then .ok (.yield st)
        else
          match scanEmbedded (st.annotator.functionNo f) .main data .first
              st.annotator.choiceMaps with
          | .error e => .error e
          | .ok maps => .ok (.yield { st with annotator.choiceMaps := maps })

/-- `initializeChoiceMaps`, with the bytes of the control string. -/
def initializeChoiceMaps (controlStr : List CChar) (inst : Nat) (st : LoadState Fn) :
    Except Fault (LoadState Fn) :=
  match loop (M.loadFunction inst) st M.functions with
  | .error e => .error e
  | .ok (.done st) => .ok st
  | .ok (.yield st) =>
      if 0 < inst then .ok st
      else
        match scan .main controlStr (.initial st.annotator.choiceMaps) with
        | .error e => .error e
        | .ok final => .ok { st with annotator.choiceMaps := final.choiceMaps }

section Annotatable

-- `annotatable` is `shouldAnnotateFunction`.
variable (annotatable : Fn → Bool)

/-- The body of the first loop of `runOnModule`: a function that is annotated is
numbered, and the others that it calls are looked at as well. -/
def numberFunction (st : LoadState Fn) (f : Fn) : LoadState Fn :=
  if annotatable f then
    ⟨st.annotator.see f,
      ((M.calledFunctions f).filter fun g => !annotatable g).foldl number (number st.functions f)⟩
  else st

/-- The state in which a compiler run begins to load. -/
def numberFunctions : LoadState Fn :=
  M.functions.foldl (M.numberFunction annotatable) ⟨.initial .empty, []⟩

/-- Loading in the first instance. -/
def load (controlStr : List CChar) : Except Fault (LoadState Fn) :=
  M.initializeChoiceMaps controlStr 0 (M.numberFunctions annotatable)

end Annotatable

/-! ### Annotations by name -/

/-- All variables of annotations are literals: they are found by the names of
the functions. -/
def Shows (annotations : Str → Option Str) : Prop :=
  ∀ f, match annotations (searchAndReplace (M.getName f)) with
    | none => M.found f = .nothing
    | some cs => ∃ bytes, fsencode cs = some bytes ∧ M.found f = .string (bytes ++ [0])

variable {M} {annotations : Str → Option Str}

theorem loop_loadFunction (hshows : M.Shows annotations) (inst : Nat) (fs : List Fn)
    (st : LoadState Fn) :
    match readEmbedded M.getName annotations inst M.unused fs st.annotator with
    | .error e => loop (M.loadFunction inst) st fs = .error e
    | .ok annotator => ∃ functions,
        loop (M.loadFunction inst) st fs = .ok (.yield ⟨annotator, functions⟩) := by
  induction fs generalizing st with
  | nil => exact ⟨st.functions, rfl⟩
  | cons f fs ih =>
      have hfound := hshows f
      rw [readEmbedded, loop, loadFunction]
      by_cases hunused : M.unused f = true
      · simpa only [hunused, if_true] using ih st
      · cases hliteral : annotations (searchAndReplace (M.getName f)) with
        | none =>
            simp only [hliteral] at hfound
            simpa only [hunused, hfound, Bool.false_eq_true, if_false] using ih st
        | some cs =>
            simp only [hliteral] at hfound
            obtain ⟨bytes, hbytes, hfound⟩ := hfound
            have hne : bytes ++ [0] ≠ [] := by simp
            simp only [hunused, hfound, hbytes, hne, Bool.false_eq_true, if_false]
            by_cases hinst : 0 < inst
            · simpa only [hinst, if_true] using ih ⟨st.annotator.see f, number st.functions f⟩
            · simp only [hinst, if_false]
              cases hscan : scanEmbedded ((st.annotator.see f).functionNo f) .main (bytes ++ [0])
                  .first (st.annotator.see f).choiceMaps with
              | error e => rfl
              | ok maps =>
                  exact ih ⟨{ st.annotator.see f with choiceMaps := maps }, number st.functions f⟩

/-- Where all annotations are literals, loading a module is loading its
annotations by name. -/
theorem initializeChoiceMaps_eq (hshows : M.Shows annotations) {controlString : Str}
    {controlStr : List CChar} (hcontrol : fsencode controlString = some controlStr) (inst : Nat)
    (annotatable : Fn → Bool) (queries : List (Query Fn)) (st : LoadState Fn) :
    (M.initializeChoiceMaps controlStr inst st).map LoadState.annotator =
      Petospa.initializeChoiceMaps M.getName annotations controlString inst
        ⟨M.functions, annotatable, M.unused, queries⟩ st.annotator := by
  have hloop := loop_loadFunction hshows inst M.functions st
  rw [initializeChoiceMaps, Petospa.initializeChoiceMaps]
  cases hread : readEmbedded M.getName annotations inst M.unused M.functions st.annotator with
  | error e =>
      simp only [hread] at hloop
      rw [hloop]
      rfl
  | ok annotator =>
      simp only [hread] at hloop
      obtain ⟨functions, hloop⟩ := hloop
      simp only [hloop, bind, Except.bind]
      by_cases hinst : 0 < inst
      · simp only [hinst, if_true]
        rfl
      · simp only [hinst, if_false, decode, hcontrol]
        cases hscan : scan .main controlStr (.initial annotator.choiceMaps) with
        | error e => rfl
        | ok final => rfl

end IRModule

end Petospa

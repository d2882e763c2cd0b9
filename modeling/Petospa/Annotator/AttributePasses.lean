import Petospa.Annotator.AnnotatedKind
import Petospa.Annotator.Naming

/-!
# Passes over attributes

`annotateParameters` and `annotateFunction` as passes that ask their questions one
after another. A question about attributes is an offer: the attributes that keep
the pass from asking, the number of choices, and what a choice adds.
-/

namespace Petospa

open Text Interaction

/-- `getOptimisticChoice(NumChoices, V, Kind)`. -/
def getOptimisticChoice {Fn Const : Type} (numChoices : Nat) (hpos : 0 < numChoices) (f : Fn)
    (subject : Subject Const) (kind : OptimisticChoiceKind) : Pass Fn Const Nat :=
  Program.question (PassQuestion.choice ⟨numChoices, f, subject, kind, hpos⟩)

theorem asks_getOptimisticChoice {Fn Const α : Type} {numChoices : Nat} {hpos : 0 < numChoices}
    {f : Fn} {subject : Subject Const} {kind : OptimisticChoiceKind} {next : Nat → Pass Fn Const α}
    {post : α → Prop} {qs : List (PassQuestion Fn Const)}
    (h : ∀ choice, (next choice).Asks post qs) :
    (getOptimisticChoice numChoices hpos f subject kind >>= next).Asks post
      (.choice ⟨numChoices, f, subject, kind, hpos⟩ :: qs) :=
  .ask h

theorem three_pos : 0 < 3 := Nat.succ_pos 2

theorem four_pos : 0 < 4 := Nat.succ_pos 3

structure Offer where
  /-- The attributes that keep the pass from asking. -/
  barred : List AttrKind
  numChoices : Nat
  numChoices_pos : 0 < numChoices
  chosen : Nat → Option (AttrKind × Nat)

def Offer.isOpen (o : Offer) (attrs : AttributeSet) : Bool :=
  o.barred.all fun k => !attrs.hasAttribute k

/-- A choice between an attribute and nothing. -/
def Offer.single (k : AttrKind) : Offer where
  barred := [k]
  numChoices := 2
  numChoices_pos := Nat.two_pos
  chosen choice := if choice ≠ 0 then some (k, 0) else none

namespace Passes

section Attributes

variable {Fn Ty Const : Type} (T : TypeInfo Ty) (kind : OptimisticChoiceKind)

/-- `NewAlignment` of a choice. -/
def newAlignment : Nat → Nat
  | 1 => 8
  | 2 => 64
  | _ => 0

def dereferenceableOffer (ty : Ty) : Offer where
  barred := [.dereferenceable]
  numChoices := 3
  numChoices_pos := three_pos
  chosen := chosenDereferenceable T ty

/-- What a kind offers for a parameter of a type. -/
def parameterOffer (ty : Ty) : Option Offer :=
  match kind with
  | .parameterNoCapture => some (.single .noCapture)
  | .parameterNoAlias => some (.single .noAlias)
  | .parameterDereferenceable => some (dereferenceableOffer T ty)
  | .parameterAligned => some
      { barred := [.alignment]
        numChoices := 3
        numChoices_pos := three_pos
        chosen := fun choice =>
          if newAlignment choice ≠ 0 then some (.alignment, newAlignment choice) else none }
  | .parameterMemBehavior => some
      { barred := [.readNone, .readOnly, .writeOnly]
        numChoices := 4
        numChoices_pos := four_pos
        chosen := fun
          | 3 => some (.readNone, 0)
          | 2 => some (.readOnly, 0)
          | 1 => some (.writeOnly, 0)
          | _ => none }
  | _ => none

/-- What a kind offers for a parameter. -/
def argumentOffer (arg : Argument Ty) : Option Offer :=
  if !T.isPointerTy arg.type then none
  else if arg.numUses = 0 then none
  else parameterOffer T kind arg.type

/-- What a kind offers for a return value of a type. -/
def returnOffer (ty : Ty) : Option Offer :=
  if !T.isPointerTy ty then none
  else
    match kind with
    | .functionReturnNoAlias => some (.single .noAlias)
    | .functionReturnDereferenceable => some (dereferenceableOffer T ty)
    | _ => none

/-- The attribute that is chosen from an offer. -/
def take (f : Fn) (subject : Subject Const) (offer : Option Offer) (attrs : AttributeSet) :
    Pass Fn Const (Option (AttrKind × Nat)) :=
  match offer with
  | none => return none
  | some o =>
      if o.isOpen attrs then do
        let choice ← getOptimisticChoice o.numChoices o.numChoices_pos f subject kind
        return o.chosen choice
      else return none

/-- The loop of `annotateParameters` from the parameter with number `argNo` on. -/
def annotateArgs (f : Fn) : Nat → List (Argument Ty) → AttributeList → Pass Fn Const AttributeList
  | _, [], attrs => return attrs
  | argNo, arg :: args, attrs => do
      let chosen ← take kind f (.local (.argument argNo)) (argumentOffer T kind arg)
        (attrs (.param argNo))
      let attrs ← .ofExcept (attrs.addChosen (.param argNo) chosen)
      annotateArgs f (argNo + 1) args attrs

def annotateParameters (inst : Nat) (f : Fn) (fn : IRFunction Ty) :
    Pass Fn Const (IRFunction Ty) :=
  if 0 < inst then return fn
  else do
    let attributes ← annotateArgs T kind f 0 fn.args fn.attributes
    return { fn with attributes := attributes }

/-- `OCK_FUNCTION_MEM_EFFECTS`: the number of choices, if the function is asked about. -/
def memEffectsOffer (name : Str) (isSpeculatable : Bool) (attrs : AttributeSet) : Option Nat :=
  let isAssume := name = lit "llvm.assume"
  let doesNotReadMemory := attrs.hasAttribute .readNone || attrs.hasAttribute .writeOnly
  let hasAnnotatedRange :=
    if isAssume then attrs.hasAttribute .inaccessibleMemOnly && doesNotReadMemory
    else isSpeculatable || attrs.hasAttribute .readNone || attrs.hasAttribute .argMemOnly ||
      attrs.hasAttribute .inaccessibleMemOnly || attrs.hasAttribute .inaccessibleMemOrArgMemOnly
  if !attrs.hasAttribute .readNone && !hasAnnotatedRange then some (if isAssume then 7 else 13)
  else none

def annotateMemEffects (f : Fn) (name : Str) (isSpeculatable : Bool) (attrs : AttributeSet) :
    Pass Fn Const AttributeSet :=
  match memEffectsOffer name isSpeculatable attrs with
  | none => return attrs
  | some others => do
      let choice ← getOptimisticChoice (others + 1) (Nat.succ_pos others) f .function kind
      let attrs :=
        if choice ≠ 0 then (attrs.removeAttribute .writeOnly).removeAttribute .readOnly else attrs
      .ofExcept ((memEffects choice).map (.foldl (fun attrs k => attrs.addAttribute k 0) attrs))

/-- A speculatable function is said not to access memory. -/
def settled (attrs : AttributeSet) : AttributeSet :=
  if attrs.hasAttribute .speculatable then attrs.addAttribute .readNone 0 else attrs

def unwindOffer : Option Offer :=
  if kind = .functionNoUnwind then some (.single .noUnwind) else none

/-- The part of `annotateFunction` that is about attributes of the function itself. -/
def annotateEffects (f : Fn) (name : Str) (attrs : AttributeSet) : Pass Fn Const AttributeSet := do
  let chosen ← take kind f .function (unwindOffer kind) attrs
  let attrs := attrs.added chosen
  let isSpeculatable := attrs.hasAttribute .speculatable
  let attrs := settled attrs
  if kind = .functionMemEffects then annotateMemEffects kind f name isSpeculatable attrs
  else return attrs

variable [DecidableEq Ty]

/-- The part of `annotateFunction` for `OCK_PARAMETER_RETURNED`. -/
def annotateReturned (f : Fn) (header : FunctionHeader Ty) (attrs : AttributeList) :
    Pass Fn Const AttributeList :=
  let possible := header.possibleReturnedArgs
  if kind = .parameterReturned ∧ possible ≠ [] ∧ T.isPointerTy header.returnType = true then do
    let decision ← getOptimisticChoice (possible.length + 1) (Nat.succ_pos _) f .function kind
    if decision = 0 then return attrs
    else if possible.length < decision then .fails .assertion
    else
      let returned := possible.getD (possible.length - decision) 0
      return attrs.addAttribute (.param returned) .returned 0
  else return attrs

/-- `OCK_FUNCTION_INTERNAL`. -/
def internalize (f : Fn) (fn : IRFunction Ty) : Pass Fn Const Bool :=
  if kind = .functionInternal && !fn.isDeclaration && !fn.hasInternalLinkage && fn.numUses ≠ 0 then
    do
      let choice ← getOptimisticChoice 2 Nat.two_pos f .function kind
      return choice ≠ 0
  else return false

def annotateFunction (inst : Nat) (f : Fn) (fn : IRFunction Ty) : Pass Fn Const (IRFunction Ty) :=
  if 0 < inst then return fn
  else if fn.numUses = 0 && !fn.isIntrinsic then return fn
  else do
    let internal ← internalize kind f fn
    let fnAttrs ← annotateEffects kind f fn.name (fn.attributes .functionIndex)
    let attributes : AttributeList := Function.update fn.attributes .functionIndex fnAttrs
    let chosen ← take kind f .function (returnOffer T kind fn.returnType) (attributes .returnIndex)
    let attributes ← .ofExcept (attributes.addChosen .returnIndex chosen)
    let attributes ← annotateReturned T kind f fn.toFunctionHeader attributes
    return { fn with
      attributes := attributes
      hasInternalLinkage := fn.hasInternalLinkage || internal }

/-- The passes over the attributes of a function for a kind of choice. -/
def annotateAttributes (inst : Nat) (f : Fn) (fn : IRFunction Ty) :
    Pass Fn Const (IRFunction Ty) := do
  let fn ← annotateParameters T kind inst f fn
  annotateFunction T kind inst f fn

end Attributes

end Passes

end Petospa

import Mathlib.Logic.Function.Basic
import Petospa.Annotator.ControlString
import Petospa.Annotator.Attributes

/-!
# The annotation of attributes

`annotateParameters` and `annotateFunction` run for one function and one kind of
choice at a time. No pass asks the same question twice about a function, so the
answers are a function of the question.
-/

namespace Petospa

open Text

/-- The answers of `getOptimisticChoice` about one function: `argNo` is the
number of the parameter that is asked about, none for the function itself. -/
structure Answers where
  getOptimisticChoice : Nat → Option Nat → OptimisticChoiceKind → Nat
  inRange : ∀ numChoices argNo kind, 0 < numChoices →
    getOptimisticChoice numChoices argNo kind < numChoices

namespace AttributeList

def addAttribute (attrs : AttributeList) (index : AttrIndex) (kind : AttrKind) (value : Nat) :
    AttributeList :=
  Function.update attrs index ((attrs index).addAttribute kind value)

/-- An attribute for dereferenceable bytes that is made for the number 0 has no
value. The builder asserts that there is one. -/
def addAttr (attrs : AttributeList) (index : AttrIndex) (kind : AttrKind) (value : Nat) :
    Except Fault AttributeList :=
  if kind = .dereferenceable ∧ value = 0 then .error .assertion
  else .ok (attrs.addAttribute index kind value)

/-- The attribute that a choice adds, if any. -/
def addChosen (attrs : AttributeList) (index : AttrIndex) :
    Option (AttrKind × Nat) → Except Fault AttributeList
  | none => .ok attrs
  | some (kind, value) => attrs.addAttr index kind value

end AttributeList

section Annotation

variable {Ty : Type} (T : TypeInfo Ty) (answers : Answers) (kind : OptimisticChoiceKind)

/-- `TypeSize` for a pointer, in an `unsigned`. -/
def typeSize (ty : Ty) : Nat :=
  if T.isSized (T.getPointerElementType ty) then
    T.getTypeAllocSize (T.getPointerElementType ty) % 2 ^ 32
  else T.getPointerSize

/-- What the choice between one and 64 objects adds for a pointer. -/
def chosenDereferenceable (ty : Ty) : Nat → Option (AttrKind × Nat)
  | 2 => some (.dereferenceable, typeSize T ty * 64 % 2 ^ 32)
  | 1 => some (.dereferenceable, typeSize T ty)
  | _ => none

/-- The attribute that is added to a parameter. -/
def chosenForParameter (argNo : Nat) (arg : Argument Ty) (attrs : AttributeSet) :
    Option (AttrKind × Nat) :=
  let choice numChoices := answers.getOptimisticChoice numChoices (some argNo) kind
  if !T.isPointerTy arg.type then none
  else if arg.numUses = 0 then none
  else
    match kind with
    | .parameterNoCapture =>
        if !attrs.hasAttribute .noCapture && choice 2 ≠ 0 then some (.noCapture, 0) else none
    | .parameterNoAlias =>
        if !attrs.hasAttribute .noAlias && choice 2 ≠ 0 then some (.noAlias, 0) else none
    | .parameterDereferenceable =>
        if attrs.hasAttribute .dereferenceable then none
        else chosenDereferenceable T arg.type (choice 3)
    | .parameterAligned =>
        if attrs.hasAttribute .alignment then none
        else
          match choice 3 with
          | 1 => some (.alignment, 8)
          | 2 => some (.alignment, 64)
          | _ => none
    | .parameterMemBehavior =>
        if attrs.hasAttribute .readNone || attrs.hasAttribute .readOnly ||
            attrs.hasAttribute .writeOnly then none
        else
          match choice 4 with
          | 3 => some (.readNone, 0)
          | 2 => some (.readOnly, 0)
          | 1 => some (.writeOnly, 0)
          | _ => none
    | _ => none

/-- The loop of `annotateParameters` from the parameter with number `argNo` on. -/
def annotateArgs : Nat → List (Argument Ty) → AttributeList → Except Fault AttributeList
  | _, [], attrs => .ok attrs
  | argNo, arg :: args, attrs => do
      let attrs ← attrs.addChosen (.param argNo)
        (chosenForParameter T answers kind argNo arg (attrs (.param argNo)))
      annotateArgs (argNo + 1) args attrs

def annotateParameters (inst : Nat) (f : IRFunction Ty) : Except Fault (IRFunction Ty) :=
  if 0 < inst then .ok f
  else do
    let attributes ← annotateArgs T answers kind 0 f.args f.attributes
    return { f with attributes := attributes }

/-! ### The function -/

/-- The attributes that a choice for `OCK_FUNCTION_MEM_EFFECTS` adds. -/
def memEffects : Nat → Except Fault (List AttrKind)
  | 13 => .ok [.readNone, .speculatable]
  | 12 => .ok [.readNone]
  | 11 => .ok [.inaccessibleMemOnly, .readOnly]
  | 10 => .ok [.argMemOnly, .readOnly]
  | 9 => .ok [.inaccessibleMemOrArgMemOnly, .readOnly]
  | 8 => .ok [.readOnly]
  | 7 => .ok [.inaccessibleMemOnly, .writeOnly]
  | 6 => .ok [.argMemOnly, .writeOnly]
  | 5 => .ok [.inaccessibleMemOrArgMemOnly, .writeOnly]
  | 4 => .ok [.writeOnly]
  | 3 => .ok [.inaccessibleMemOnly]
  | 2 => .ok [.argMemOnly]
  | 1 => .ok [.inaccessibleMemOrArgMemOnly]
  | 0 => .ok []
  | _ => .error .unreachable

def annotateMemEffects (name : Str) (isSpeculatable : Bool) (attrs : AttributeSet) :
    Except Fault AttributeSet :=
  let isAssume := name = lit "llvm.assume"
  let numChoices := if isAssume then 8 else 14
  let doesNotReadMemory := attrs.hasAttribute .readNone || attrs.hasAttribute .writeOnly
  let hasAnnotatedRange :=
    if isAssume then attrs.hasAttribute .inaccessibleMemOnly && doesNotReadMemory
    else isSpeculatable || attrs.hasAttribute .readNone || attrs.hasAttribute .argMemOnly ||
      attrs.hasAttribute .inaccessibleMemOnly || attrs.hasAttribute .inaccessibleMemOrArgMemOnly
  if !attrs.hasAttribute .readNone && !hasAnnotatedRange then
    let choice := answers.getOptimisticChoice numChoices none kind
    let attrs :=
      if choice ≠ 0 then (attrs.removeAttribute .writeOnly).removeAttribute .readOnly else attrs
    (memEffects choice).map (.foldl (fun attrs k => attrs.addAttribute k 0) attrs)
  else .ok attrs

/-- The part of `annotateFunction` that is about attributes of the function itself. -/
def annotateEffects (name : Str) (attrs : AttributeSet) : Except Fault AttributeSet :=
  let attrs :=
    if kind = .functionNoUnwind ∧ attrs.hasAttribute .noUnwind = false ∧
        answers.getOptimisticChoice 2 none kind ≠ 0 then attrs.addAttribute .noUnwind 0
    else attrs
  let isSpeculatable := attrs.hasAttribute .speculatable
  let attrs := if isSpeculatable then attrs.addAttribute .readNone 0 else attrs
  if kind = .functionMemEffects then annotateMemEffects answers kind name isSpeculatable attrs
  else .ok attrs

/-- The attribute that is added to the return value. -/
def chosenForReturn (returnType : Ty) (attrs : AttributeSet) : Option (AttrKind × Nat) :=
  let choice numChoices := answers.getOptimisticChoice numChoices none kind
  if !T.isPointerTy returnType then none
  else
    match kind with
    | .functionReturnNoAlias =>
        if !attrs.hasAttribute .noAlias && choice 2 ≠ 0 then some (.noAlias, 0) else none
    | .functionReturnDereferenceable =>
        if attrs.hasAttribute .dereferenceable then none
        else chosenDereferenceable T returnType (choice 3)
    | _ => none

variable [DecidableEq Ty]

/-- The numbers of the parameters whose type is the return type. -/
def FunctionHeader.possibleReturnedArgs (header : FunctionHeader Ty) : List Nat :=
  (List.range header.args.length).filter fun argNo =>
    (header.args[argNo]?).map Argument.type = some header.returnType

/-- The part of `annotateFunction` for `OCK_PARAMETER_RETURNED`. -/
def annotateReturned (header : FunctionHeader Ty) (attrs : AttributeList) :
    Except Fault AttributeList :=
  let possible := header.possibleReturnedArgs
  if kind = .parameterReturned ∧ possible ≠ [] ∧ T.isPointerTy header.returnType = true then
    let decision := answers.getOptimisticChoice (possible.length + 1) none kind
    if decision = 0 then .ok attrs
    else if possible.length < decision then .error .assertion
    else .ok (attrs.addAttribute (.param (possible.getD (possible.length - decision) 0))
      .returned 0)
  else .ok attrs

def annotateFunction (inst : Nat) (f : IRFunction Ty) : Except Fault (IRFunction Ty) :=
  if 0 < inst then .ok f
  else if f.numUses = 0 && !f.isIntrinsic then .ok f
  else do
    let internalize := kind = .functionInternal && !f.isDeclaration && !f.hasInternalLinkage &&
      f.numUses ≠ 0 && answers.getOptimisticChoice 2 none kind ≠ 0
    let fnAttrs ← annotateEffects answers kind f.name (f.attributes .functionIndex)
    let attributes : AttributeList := Function.update f.attributes .functionIndex fnAttrs
    let attributes ← attributes.addChosen .returnIndex
      (chosenForReturn T answers kind f.returnType (attributes .returnIndex))
    let attributes ← annotateReturned T answers kind f.toFunctionHeader attributes
    return { f with
      attributes := attributes
      hasInternalLinkage := f.hasInternalLinkage || internalize }

/-- The passes over one function for a kind of choice. -/
def annotateKind (inst : Nat) (f : IRFunction Ty) : Except Fault (IRFunction Ty) := do
  let f ← annotateParameters T answers kind inst f
  annotateFunction T answers kind inst f

/-- All kinds, in the order of `getNextOptimisticChoiceKind`. -/
def choiceKinds : List OptimisticChoiceKind := (List.range' 1 22).map .ofNumber

def annotateAllKinds (inst : Nat) (f : IRFunction Ty) : Except Fault (IRFunction Ty) :=
  choiceKinds.foldlM (fun f kind => annotateKind T answers kind inst f) f

end Annotation

end Petospa

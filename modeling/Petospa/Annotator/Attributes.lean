import Petospa.Annotator.Kind

/-!
# Attributes and their verification

An attribute list has a set for the return value, one for the function and one
for each parameter. `verifyFunctionAttrs` is the check of the verifier. A check
that fails marks the module as broken and at most skips checks behind it, so
the list is accepted if all checks pass.
-/

namespace Petospa

open Text

/-- `Attribute::AttrKind`. -/
inductive AttrKind where
  | alignment | allocSize | alwaysInline | argMemOnly | builtin | byVal | cold | convergent
  | dereferenceable | dereferenceableOrNull | inaccessibleMemOnly | inaccessibleMemOrArgMemOnly
  | inAlloca | inlineHint | inReg | jumpTable | minSize | naked | nest | noAlias | noBuiltin
  | noCapture | noDuplicate | noImplicitFloat | noInline | nonLazyBind | nonNull | noRecurse
  | noRedZone | noReturn | noUnwind | optimizeForSize | optimizeNone | readNone | readOnly
  | returned | returnsTwice | safeStack | sExt | stackAlignment | speculatable | stackProtect
  | stackProtectReq | stackProtectStrong | strictFP | structRet | sanitizeAddress
  | sanitizeThread | sanitizeMemory | sanitizeHWAddress | swiftError | swiftSelf | uwTable
  | writeOnly | zExt
  deriving DecidableEq

inductive Attribute where
  /-- The value of an attribute that has none is 0. -/
  | enum (kind : AttrKind) (value : Nat)
  | string (key value : Str)
  deriving DecidableEq

namespace Attribute

/-- `hasAttribute(Kind)` of a single attribute. -/
def isKind (kind : AttrKind) : Attribute → Bool
  | enum k _ => k = kind
  | string _ _ => false

end Attribute

abbrev AttributeSet := List Attribute

namespace AttributeSet

def hasAttribute (attrs : AttributeSet) (kind : AttrKind) : Bool :=
  attrs.any (Attribute.isKind kind)

/-- A check of all attributes but strings. -/
def allKinds (attrs : AttributeSet) (check : AttrKind → Bool) : Bool :=
  attrs.all fun
    | .string _ _ => true
    | .enum kind _ => check kind

/-- An integer attribute takes the place of one of its kind. -/
def addAttribute (attrs : AttributeSet) (kind : AttrKind) (value : Nat) : AttributeSet :=
  attrs.filter (fun a => !a.isKind kind) ++ [.enum kind value]

def removeAttribute (attrs : AttributeSet) (kind : AttrKind) : AttributeSet :=
  attrs.filter fun a => !a.isKind kind

/-- The numbers of the parameters for the element size and the number of
elements; both are packed into the value. -/
def getAllocSizeArgs (attrs : AttributeSet) : Nat × Option Nat :=
  match attrs.find? (Attribute.isKind .allocSize) with
  | some (.enum _ value) =>
      (value / 2 ^ 32,
        if value % 2 ^ 32 = 2 ^ 32 - 1 then none else some (value % 2 ^ 32))
  | _ => (0, none)

theorem isKind_iff {a : Attribute} {k : AttrKind} :
    a.isKind k = true ↔ ∃ value, a = .enum k value := by
  cases a with
  | enum j value =>
      simp only [Attribute.isKind, decide_eq_true_eq, Attribute.enum.injEq]
      exact ⟨fun h => ⟨value, h, rfl⟩, fun ⟨_, h, _⟩ => h⟩
  | string key value => simp [Attribute.isKind]

@[simp] theorem allKinds_eq_true {attrs : AttributeSet} {check : AttrKind → Bool} :
    attrs.allKinds check = true ↔ ∀ k, attrs.hasAttribute k = true → check k = true := by
  simp only [allKinds, hasAttribute, List.all_eq_true, List.any_eq_true]
  constructor
  · rintro h k ⟨a, ha, hk⟩
    obtain ⟨value, rfl⟩ := isKind_iff.mp hk
    exact h _ ha
  · intro h a ha
    cases a with
    | enum k value => exact h k ⟨_, ha, isKind_iff.mpr ⟨value, rfl⟩⟩
    | string key value => rfl

@[simp] theorem hasAttribute_nil (k : AttrKind) : hasAttribute [] k = false := rfl

variable (attrs : AttributeSet) (j k : AttrKind) (value : Nat)

theorem hasAttribute_filter :
    AttributeSet.hasAttribute (attrs.filter fun a => !a.isKind k) j =
      (attrs.hasAttribute j && decide (j ≠ k)) := by
  rw [Bool.eq_iff_iff]
  simp only [hasAttribute, List.any_eq_true, List.mem_filter, Bool.and_eq_true, Bool.not_eq_true',
    decide_eq_true_eq]
  constructor
  · rintro ⟨a, ⟨ha, hk⟩, hj⟩
    refine ⟨⟨a, ha, hj⟩, ?_⟩
    rintro rfl
    rw [hj] at hk
    cases hk
  · rintro ⟨⟨a, ha, hj⟩, hne⟩
    refine ⟨a, ⟨ha, ?_⟩, hj⟩
    obtain ⟨v, rfl⟩ := isKind_iff.mp hj
    simpa [Attribute.isKind] using hne

@[simp] theorem hasAttribute_addAttribute :
    (attrs.addAttribute k value).hasAttribute j = (attrs.hasAttribute j || decide (j = k)) := by
  have hfilter := hasAttribute_filter attrs j k
  rw [addAttribute, hasAttribute, List.any_append]
  rw [hasAttribute] at hfilter
  rw [hfilter]
  by_cases hjk : j = k
  · simp [hjk, Attribute.isKind]
  · simp [hjk, Attribute.isKind, Ne.symm hjk]

@[simp] theorem hasAttribute_removeAttribute :
    (attrs.removeAttribute k).hasAttribute j = (attrs.hasAttribute j && decide (j ≠ k)) :=
  hasAttribute_filter attrs j k

theorem find?_filter (hk : k ≠ j) :
    (attrs.filter fun a => !a.isKind k).find? (Attribute.isKind j) =
      attrs.find? (Attribute.isKind j) := by
  induction attrs with
  | nil => rfl
  | cons a attrs ih =>
      rw [List.filter_cons]
      by_cases ha : a.isKind k = true
      · have hj : a.isKind j = false := by
          obtain ⟨v, rfl⟩ := isKind_iff.mp ha
          simpa [Attribute.isKind] using hk
        simpa [ha, hj] using ih
      · by_cases hj : a.isKind j = true
        · simp [ha, hj]
        · simpa [ha, hj] using ih

theorem getAllocSizeArgs_addAttribute (hk : k ≠ .allocSize) :
    (attrs.addAttribute k value).getAllocSizeArgs = attrs.getAllocSizeArgs := by
  have hother : Attribute.isKind .allocSize (.enum k value) = false := by
    simpa [Attribute.isKind] using hk
  rw [getAllocSizeArgs, addAttribute, List.find?_append, find?_filter _ _ _ hk]
  simp only [List.find?_cons, hother, List.find?_nil, Option.or_none]
  rfl

theorem getAllocSizeArgs_removeAttribute (hk : k ≠ .allocSize) :
    (attrs.removeAttribute k).getAllocSizeArgs = attrs.getAllocSizeArgs := by
  rw [getAllocSizeArgs, removeAttribute, find?_filter _ _ _ hk]
  rfl

end AttributeSet

/-! ### Functions -/

/-- The places that have a set of attributes. -/
inductive AttrIndex where
  | returnIndex
  | functionIndex
  | param (argNo : Nat)
  deriving DecidableEq

abbrev AttributeList := AttrIndex → AttributeSet

/-- What is asked about types and the data layout. -/
structure TypeInfo (Ty : Type) where
  isPointerTy : Ty → Bool
  isIntegerTy : Ty → Bool
  getPointerElementType : Ty → Ty
  isSized : Ty → Bool
  getTypeAllocSize : Ty → Nat
  getPointerSize : Nat
  canLosslesslyBitCastTo : Ty → Ty → Bool
  /-- The identity cast means no change. -/
  bitCast_self : ∀ ty, canLosslesslyBitCastTo ty ty = true

structure Argument (Ty : Type) where
  type : Ty
  numUses : Nat

/-- What no annotation of attributes changes about a function. -/
structure FunctionHeader (Ty : Type) where
  name : Str
  args : List (Argument Ty)
  returnType : Ty
  numUses : Nat
  isIntrinsic : Bool
  isDeclaration : Bool
  hasGlobalUnnamedAddr : Bool

structure IRFunction (Ty : Type) extends FunctionHeader Ty where
  hasInternalLinkage : Bool
  attributes : AttributeList

/-! ### The verifier -/

/-- Attributes that only apply to functions. -/
def isFuncOnlyAttr : AttrKind → Bool
  | .noReturn | .noUnwind | .noInline | .alwaysInline | .optimizeForSize | .stackProtect
  | .stackProtectReq | .stackProtectStrong | .safeStack | .noRedZone | .noImplicitFloat | .naked
  | .inlineHint | .stackAlignment | .uwTable | .nonLazyBind | .returnsTwice | .sanitizeAddress
  | .sanitizeHWAddress | .sanitizeThread | .sanitizeMemory | .minSize | .noDuplicate | .builtin
  | .noBuiltin | .cold | .optimizeNone | .jumpTable | .convergent | .argMemOnly | .noRecurse
  | .inaccessibleMemOnly | .inaccessibleMemOrArgMemOnly | .allocSize | .speculatable
  | .strictFP => true
  | _ => false

/-- Function attributes that can also appear on arguments. -/
def isFuncOrArgAttr (kind : AttrKind) : Bool :=
  kind = .readOnly || kind = .writeOnly || kind = .readNone

def verifyAttributeTypes (attrs : AttributeSet) (isFunction : Bool) : Bool :=
  attrs.allKinds fun kind =>
    if isFuncOnlyAttr kind then isFunction else !isFunction || isFuncOrArgAttr kind

section Verifier

variable {Ty : Type} (T : TypeInfo Ty)

/-- `AttributeFuncs::typeIncompatible`. -/
def typeIncompatible (ty : Ty) (kind : AttrKind) : Bool :=
  !T.isIntegerTy ty && (kind = .sExt || kind = .zExt) ||
  !T.isPointerTy ty &&
    (kind = .byVal || kind = .nest || kind = .noAlias || kind = .noCapture || kind = .nonNull ||
      kind = .dereferenceable || kind = .dereferenceableOrNull || kind = .readNone ||
      kind = .readOnly || kind = .structRet || kind = .inAlloca)

def verifyParameterAttrs (attrs : AttributeSet) (ty : Ty) : Bool :=
  if attrs = [] then true
  else
    let has := attrs.hasAttribute
    verifyAttributeTypes attrs false &&
    (has .byVal).toNat + (has .inAlloca).toNat + (has .structRet || has .inReg).toNat +
      (has .nest).toNat ≤ 1 &&
    !(has .inAlloca && has .readOnly) &&
    !(has .structRet && has .returned) &&
    !(has .zExt && has .sExt) &&
    !(has .noInline && has .alwaysInline) &&
    -- !AttrBuilder(Attrs).overlaps(IncompatibleAttrs)
    attrs.allKinds (fun kind => !typeIncompatible T ty kind) &&
    if T.isPointerTy ty then
      (T.isSized (T.getPointerElementType ty) || !has .byVal && !has .inAlloca) &&
      (T.isPointerTy (T.getPointerElementType ty) || !has .swiftError)
    else !has .byVal && !has .swiftError

/-- The attributes that are allowed at one parameter. -/
def seenOnce : List AttrKind := [.nest, .returned, .structRet, .swiftSelf, .swiftError]

/-- The loop over the parameters from the one with number `i` on; `saw` are
`SawNest`, `SawReturned`, `SawSRet`, `SawSwiftSelf` and `SawSwiftError`. -/
def verifyParams (f : IRFunction Ty) : Nat → List (Argument Ty) → (AttrKind → Bool) → Bool
  | _, [], _ => true
  | i, arg :: args, saw =>
      let has := (f.attributes (.param i)).hasAttribute
      verifyParameterAttrs T (f.attributes (.param i)) arg.type &&
      (seenOnce.all fun kind => !(has kind && saw kind)) &&
      (!has .returned || T.canLosslesslyBitCastTo arg.type f.returnType) &&
      (!has .structRet || (i = 0 || i = 1)) &&
      (!has .inAlloca || i + 1 = f.args.length) &&
      verifyParams f (i + 1) args fun kind => saw kind || has kind

/-- The numbers of `allocsize` are those of integer parameters. -/
def checkAllocSize (args : List (Argument Ty)) (numbers : Nat × Option Nat) : Bool :=
  let checkParam (paramNo : Nat) : Bool :=
    match args[paramNo]? with
    | none => false
    | some arg => T.isIntegerTy arg.type
  checkParam numbers.1 &&
    match numbers.2 with
    | none => true
    | some numElems => checkParam numElems

/-- The checks of the attributes of the function itself. -/
def verifyFnAttrs (f : IRFunction Ty) : Bool :=
  let attrs := f.attributes .functionIndex
  let has := attrs.hasAttribute
  verifyAttributeTypes attrs true &&
  !(has .readNone && has .readOnly) &&
  !(has .readNone && has .writeOnly) &&
  !(has .readOnly && has .writeOnly) &&
  !(has .readNone && has .inaccessibleMemOrArgMemOnly) &&
  !(has .readNone && has .inaccessibleMemOnly) &&
  !(has .noInline && has .alwaysInline) &&
  (!has .optimizeNone || (has .noInline && !has .optimizeForSize && !has .minSize)) &&
  (!has .jumpTable || f.hasGlobalUnnamedAddr) &&
  (!has .allocSize || checkAllocSize T f.args attrs.getAllocSizeArgs)

def verifyFunctionAttrs (f : IRFunction Ty) : Bool :=
  if f.attributes .returnIndex = [] ∧ f.attributes .functionIndex = [] ∧
      ∀ i < f.args.length, f.attributes (.param i) = [] then true
  else
    let hasRet := (f.attributes .returnIndex).hasAttribute
    (!hasRet .byVal && !hasRet .nest && !hasRet .structRet && !hasRet .noCapture &&
      !hasRet .returned && !hasRet .inAlloca && !hasRet .swiftSelf && !hasRet .swiftError) &&
    (!hasRet .readOnly && !hasRet .writeOnly && !hasRet .readNone) &&
    verifyParameterAttrs T (f.attributes .returnIndex) f.returnType &&
    verifyParams T f 0 f.args (fun _ => false) &&
    (f.attributes .functionIndex = [] || verifyFnAttrs T f)

end Verifier

end Petospa

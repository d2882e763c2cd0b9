import Petospa.Lib.Except
import Petospa.Annotator.Effects

/-!
# What one kind adds

The passes of a kind end if the attributes that they add can be made. The result
is described place by place: at most one attribute is added to the return value
and to each parameter.
-/

namespace Petospa

variable {Ty : Type} {T : TypeInfo Ty} {answers : Answers} {kind : OptimisticChoiceKind}
variable {header : FunctionHeader Ty} {f f' : IRFunction Ty}

namespace AttributeSet

/-- A set with a chosen attribute. -/
def added (attrs : AttributeSet) : Option (AttrKind × Nat) → AttributeSet
  | none => attrs
  | some (kind, value) => attrs.addAttribute kind value

@[simp] theorem hasAttribute_added (attrs : AttributeSet) (chosen : Option (AttrKind × Nat))
    (k : AttrKind) : (attrs.added chosen).hasAttribute k =
      (attrs.hasAttribute k || decide (chosen.map Prod.fst = some k)) := by
  cases chosen with
  | none => simp [added]
  | some c => simp [added, eq_comm]

end AttributeSet

/-- The attribute can be made. -/
def Fits (chosen : Option (AttrKind × Nat)) : Prop := chosen ≠ some (.dereferenceable, 0)

theorem fits_none : Fits none := by
  simp [Fits]

theorem addChosen_eq_ok {attrs attrs' : AttributeList} {index : AttrIndex}
    {chosen : Option (AttrKind × Nat)} :
    attrs.addChosen index chosen = .ok attrs' ↔
      Fits chosen ∧ attrs' = Function.update attrs index ((attrs index).added chosen) := by
  cases chosen with
  | none =>
      simp [AttributeList.addChosen, Fits, AttributeSet.added, eq_comm]
  | some c =>
      obtain ⟨k, value⟩ := c
      by_cases hzero : k = .dereferenceable ∧ value = 0
      · simp [AttributeList.addChosen, AttributeList.addAttr, Fits, hzero]
      · simp [AttributeList.addChosen, AttributeList.addAttr, Fits, hzero,
          AttributeList.addAttribute, AttributeSet.added, eq_comm]

/-! ### Parameters -/

theorem annotateArgs_eq_ok {args : List (Argument Ty)} {argNo : Nat}
    {attrs attrs' : AttributeList}
    (hok : annotateArgs T answers kind argNo args attrs = .ok attrs') :
    (∀ j arg, args[j]? = some arg →
      Fits (chosenForParameter T answers kind (argNo + j) arg (attrs (.param (argNo + j)))) ∧
      attrs' (.param (argNo + j)) = (attrs (.param (argNo + j))).added
        (chosenForParameter T answers kind (argNo + j) arg (attrs (.param (argNo + j))))) ∧
    ∀ index, (∀ j < args.length, index ≠ .param (argNo + j)) → attrs' index = attrs index := by
  induction args generalizing argNo attrs with
  | nil =>
      obtain rfl := Except.ok.inj hok
      exact ⟨fun j arg h => by simp at h, fun _ _ => rfl⟩
  | cons arg args ih =>
      rw [annotateArgs, Except.bind_eq_ok_iff] at hok
      obtain ⟨middle, hhead, htail⟩ := hok
      obtain ⟨hfits, rfl⟩ := addChosen_eq_ok.mp hhead
      obtain ⟨hargs, hother⟩ := ih htail
      constructor
      · intro j a ha
        cases j with
        | zero =>
            obtain rfl := Option.some.inj ha
            refine ⟨hfits, ?_⟩
            rw [Nat.add_zero, hother]
            · exact Function.update_self _ _ _
            · intro j _ heq
              rw [AttrIndex.param.injEq] at heq
              omega
        | succ j =>
            have hne : AttrIndex.param (argNo + 1 + j) ≠ .param argNo := by
              rw [ne_eq, AttrIndex.param.injEq]
              omega
            have hrest := hargs j a ha
            rw [Function.update_of_ne hne] at hrest
            rwa [show argNo + (j + 1) = argNo + 1 + j by omega]
      · intro index hindex
        have hne : ∀ j < args.length, index ≠ .param (argNo + 1 + j) := by
          rintro j hj rfl
          refine hindex (j + 1) (by simpa using hj) ?_
          rw [show argNo + (j + 1) = argNo + 1 + j by omega]
        rw [hother index hne]
        exact Function.update_of_ne (hindex 0 (by simp)) _ _

theorem exists_annotateArgs {args : List (Argument Ty)} {argNo : Nat} {attrs : AttributeList}
    (hfits : ∀ j arg, args[j]? = some arg →
      Fits (chosenForParameter T answers kind (argNo + j) arg (attrs (.param (argNo + j))))) :
    ∃ attrs', annotateArgs T answers kind argNo args attrs = .ok attrs' := by
  induction args generalizing argNo attrs with
  | nil => exact ⟨attrs, rfl⟩
  | cons arg args ih =>
      have hfirst := hfits 0 arg rfl
      rw [Nat.add_zero] at hfirst
      rw [annotateArgs, addChosen_eq_ok.mpr ⟨hfirst, rfl⟩]
      apply ih
      intro j a ha
      have hne : AttrIndex.param (argNo + 1 + j) ≠ .param argNo := by
        rw [ne_eq, AttrIndex.param.injEq]
        omega
      rw [Function.update_of_ne hne]
      have hrest := hfits (j + 1) a ha
      rwa [show argNo + (j + 1) = argNo + 1 + j by omega] at hrest

/-! ### One kind -/

/-- The sets that choices add to: the one of the return value and those of the parameters. -/
def place : Option Nat → AttrIndex
  | none => .returnIndex
  | some argNo => .param argNo

/-- Functions without uses are left alone, apart from intrinsics. -/
def FunctionHeader.isAnnotated (header : FunctionHeader Ty) : Bool :=
  !(header.numUses = 0 && !header.isIntrinsic)

theorem chosenForParameter_returned (argNo : Nat) (arg : Argument Ty) (attrs : AttributeSet) :
    chosenForParameter T answers .parameterReturned argNo arg attrs = none := by
  simp [chosenForParameter]

variable [DecidableEq Ty]

/-- The parameter that becomes the returned one. -/
def returnedArg (T : TypeInfo Ty) (answers : Answers) (header : FunctionHeader Ty) : Option Nat :=
  let possible := header.possibleReturnedArgs
  let decision := answers.getOptimisticChoice (possible.length + 1) none .parameterReturned
  if T.isPointerTy header.returnType = true ∧ decision ≠ 0 then
    some (possible.getD (possible.length - decision) 0)
  else none

/-- What `annotateParameters` adds to a parameter. -/
def chosenAtParameter (T : TypeInfo Ty) (answers : Answers) (header : FunctionHeader Ty)
    (attrs : AttributeList) (kind : OptimisticChoiceKind) (argNo : Nat) :
    Option (AttrKind × Nat) :=
  match header.args[argNo]? with
  | none => none
  | some arg => chosenForParameter T answers kind argNo arg (attrs (.param argNo))

omit [DecidableEq Ty] in
theorem chosenAtParameter_returned (attrs : AttributeList) (argNo : Nat) :
    chosenAtParameter T answers header attrs .parameterReturned argNo = none := by
  rw [chosenAtParameter]
  cases header.args[argNo]? with
  | none => rfl
  | some arg => exact chosenForParameter_returned argNo arg _

/-- What `annotateFunction` adds to the return value. -/
def chosenAtReturn (T : TypeInfo Ty) (answers : Answers) (header : FunctionHeader Ty)
    (attrs : AttributeList) (kind : OptimisticChoiceKind) : Option (AttrKind × Nat) :=
  if header.isAnnotated then
    chosenForReturn T answers kind header.returnType (attrs .returnIndex)
  else none

/-- What `annotateFunction` adds to a parameter. -/
def returnedAt (T : TypeInfo Ty) (answers : Answers) (header : FunctionHeader Ty)
    (kind : OptimisticChoiceKind) (argNo : Nat) : Option (AttrKind × Nat) :=
  if kind = .parameterReturned ∧ header.isAnnotated = true ∧
      returnedArg T answers header = some argNo then some (.returned, 0)
  else none

/-- What a kind adds at a place. -/
def chosen (T : TypeInfo Ty) (answers : Answers) (header : FunctionHeader Ty)
    (attrs : AttributeList) (kind : OptimisticChoiceKind) :
    Option Nat → Option (AttrKind × Nat)
  | none => chosenAtReturn T answers header attrs kind
  | some argNo =>
      if kind = .parameterReturned then returnedAt T answers header kind argNo
      else chosenAtParameter T answers header attrs kind argNo

/-- The attributes of the function itself after a kind. -/
def effectsOf (answers : Answers) (header : FunctionHeader Ty) (attrs : AttributeSet)
    (kind : OptimisticChoiceKind) : AttributeSet :=
  if header.isAnnotated then
    match annotateEffects answers kind header.name attrs with
    | .ok attrs' => attrs'
    | .error _ => attrs
  else attrs

def afterParameters (T : TypeInfo Ty) (answers : Answers) (header : FunctionHeader Ty)
    (attrs : AttributeList) (kind : OptimisticChoiceKind) : AttributeList
  | .param argNo =>
      (attrs (.param argNo)).added (chosenAtParameter T answers header attrs kind argNo)
  | .returnIndex => attrs .returnIndex
  | .functionIndex => attrs .functionIndex

def afterFunction (T : TypeInfo Ty) (answers : Answers) (header : FunctionHeader Ty)
    (attrs : AttributeList) (kind : OptimisticChoiceKind) : AttributeList
  | .param argNo => (attrs (.param argNo)).added (returnedAt T answers header kind argNo)
  | .returnIndex => (attrs .returnIndex).added (chosenAtReturn T answers header attrs kind)
  | .functionIndex => effectsOf answers header (attrs .functionIndex) kind

/-- The attributes after a kind, wherever they can be made. -/
def afterKind (T : TypeInfo Ty) (answers : Answers) (header : FunctionHeader Ty)
    (attrs : AttributeList) (kind : OptimisticChoiceKind) : AttributeList
  | .functionIndex => effectsOf answers header (attrs .functionIndex) kind
  | .returnIndex => (attrs .returnIndex).added (chosen T answers header attrs kind none)
  | .param argNo => (attrs (.param argNo)).added (chosen T answers header attrs kind (some argNo))

theorem afterKind_place (attrs : AttributeList) (p : Option Nat) :
    afterKind T answers header attrs kind (place p) =
      (attrs (place p)).added (chosen T answers header attrs kind p) := by
  cases p <;> rfl

theorem annotateReturned_eq (attrs : AttributeList) :
    annotateReturned T answers kind header attrs = .ok
      (if kind = .parameterReturned then
        match returnedArg T answers header with
        | none => attrs
        | some argNo => attrs.addAttribute (.param argNo) .returned 0
      else attrs) := by
  by_cases hkind : kind = .parameterReturned
  · subst hkind
    have hdecision := answers.inRange (header.possibleReturnedArgs.length + 1) none
      .parameterReturned (Nat.succ_pos _)
    simp only [annotateReturned, returnedArg, true_and, if_true]
    generalize answers.getOptimisticChoice _ none .parameterReturned = decision at hdecision ⊢
    by_cases hzero : decision = 0
    · simp [hzero]
    · have hne : header.possibleReturnedArgs ≠ [] := by
        intro hempty
        rw [hempty] at hdecision
        simp only [List.length_nil] at hdecision
        omega
      have hle : ¬ header.possibleReturnedArgs.length < decision := by omega
      by_cases hpointer : T.isPointerTy header.returnType = true
      · simp [hzero, hne, hle, hpointer]
      · simp [hpointer]
  · simp [annotateReturned, hkind]

omit [DecidableEq Ty] in
theorem annotateParameters_eq_ok :
    annotateParameters T answers kind 0 f = .ok f' ↔
      (∀ argNo, Fits (chosenAtParameter T answers f.toFunctionHeader f.attributes kind argNo)) ∧
        f' = { f with
          attributes := afterParameters T answers f.toFunctionHeader f.attributes kind } := by
  have hresult {attrs' : AttributeList}
      (hok : annotateArgs T answers kind 0 f.args f.attributes = .ok attrs') :
      (∀ argNo, Fits (chosenAtParameter T answers f.toFunctionHeader f.attributes kind argNo)) ∧
        attrs' = afterParameters T answers f.toFunctionHeader f.attributes kind := by
    obtain ⟨hargs, hother⟩ := annotateArgs_eq_ok hok
    simp only [Nat.zero_add] at hargs hother
    constructor
    · intro argNo
      rw [chosenAtParameter]
      cases harg : f.args[argNo]? with
      | none => exact fits_none
      | some arg => exact (hargs argNo arg harg).1
    · funext index
      cases index with
      | returnIndex => exact hother _ fun _ _ => AttrIndex.noConfusion
      | functionIndex => exact hother _ fun _ _ => AttrIndex.noConfusion
      | param argNo =>
          rw [afterParameters, chosenAtParameter]
          cases harg : f.args[argNo]? with
          | none =>
              apply hother
              rintro j hj heq
              obtain rfl := AttrIndex.param.inj heq
              exact absurd hj (Nat.not_lt.mpr (List.getElem?_eq_none_iff.mp harg))
          | some arg => exact (hargs argNo arg harg).2
  simp only [annotateParameters, Nat.lt_irrefl, if_false, Except.bind_eq_ok_iff,
    Except.pure_eq_ok_iff]
  constructor
  · rintro ⟨attributes, hok, rfl⟩
    obtain ⟨hfits, rfl⟩ := hresult hok
    exact ⟨hfits, rfl⟩
  · rintro ⟨hfits, rfl⟩
    have hargs (j : Nat) (arg : Argument Ty) (harg : f.args[j]? = some arg) :
        Fits (chosenForParameter T answers kind (0 + j) arg (f.attributes (.param (0 + j)))) := by
      have hj := hfits j
      rwa [chosenAtParameter, harg, ← Nat.zero_add j] at hj
    obtain ⟨attributes, hok⟩ := exists_annotateArgs hargs
    obtain ⟨-, rfl⟩ := hresult hok
    exact ⟨_, hok, rfl⟩

/-- The last part of `annotateFunction`. -/
theorem afterReturned_eq (hannotated : header.isAnnotated = true) (attrs : AttributeList) :
    (if kind = .parameterReturned then
        match returnedArg T answers header with
        | none => attrs
        | some argNo => attrs.addAttribute (.param argNo) .returned 0
      else attrs) = fun
        | .param argNo => (attrs (.param argNo)).added (returnedAt T answers header kind argNo)
        | .returnIndex => attrs .returnIndex
        | .functionIndex => attrs .functionIndex := by
  funext index
  by_cases hkind : kind = .parameterReturned
  · cases hreturned : returnedArg T answers header with
    | none => cases index <;> simp [hkind, returnedAt, hreturned, AttributeSet.added]
    | some target =>
        rw [if_pos hkind]
        cases index with
        | param argNo =>
            by_cases hsame : target = argNo
            · subst hsame
              simp [AttributeList.addAttribute, returnedAt, hkind, hannotated, hreturned,
                AttributeSet.added]
            · simp [AttributeList.addAttribute, returnedAt, hsame, Ne.symm hsame, hreturned,
                AttributeSet.added]
        | returnIndex => exact Function.update_of_ne AttrIndex.noConfusion _ _
        | functionIndex => exact Function.update_of_ne AttrIndex.noConfusion _ _
  · cases index <;> simp [hkind, returnedAt, AttributeSet.added]

/-- A function that is left alone. -/
theorem afterFunction_of_not_isAnnotated (attrs : AttributeList)
    (h : header.isAnnotated = false) : afterFunction T answers header attrs kind = attrs := by
  funext index
  cases index with
  | returnIndex => simp [afterFunction, chosenAtReturn, h, AttributeSet.added]
  | functionIndex => simp [afterFunction, effectsOf, h]
  | param argNo => simp [afterFunction, returnedAt, h, AttributeSet.added]

theorem annotateFunction_of_not_isAnnotated (h : f.isAnnotated = false) :
    annotateFunction T answers kind 0 f = .ok f := by
  rw [FunctionHeader.isAnnotated, Bool.not_eq_false'] at h
  rw [annotateFunction, if_neg (Nat.lt_irrefl 0), if_pos h]

theorem annotateFunction_eq_ok (hok : annotateFunction T answers kind 0 f = .ok f') :
    Fits (chosenAtReturn T answers f.toFunctionHeader f.attributes kind) ∧
      f'.toFunctionHeader = f.toFunctionHeader ∧
      f'.attributes = afterFunction T answers f.toFunctionHeader f.attributes kind := by
  cases hannotated : f.isAnnotated with
  | false =>
      rw [annotateFunction_of_not_isAnnotated hannotated] at hok
      obtain rfl := Except.ok.inj hok
      rw [afterFunction_of_not_isAnnotated _ hannotated, chosenAtReturn, hannotated]
      exact ⟨fits_none, rfl, rfl⟩
  | true =>
      have huses := hannotated
      rw [FunctionHeader.isAnnotated, Bool.not_eq_true'] at huses
      simp only [annotateFunction, Nat.lt_irrefl, huses, if_false, Except.bind_eq_ok_iff,
        addChosen_eq_ok, annotateReturned_eq, Except.pure_eq_ok_iff, Except.ok.injEq,
        Bool.false_eq_true] at hok
      obtain ⟨fnAttrs, heffects, attributes, ⟨hfits, rfl⟩, attributes', rfl, rfl⟩ := hok
      have hreturn : (Function.update f.attributes .functionIndex fnAttrs : AttributeList)
          .returnIndex = f.attributes .returnIndex := Function.update_of_ne (by decide) _ _
      rw [hreturn] at hfits
      refine ⟨by rwa [chosenAtReturn, if_pos hannotated], rfl, ?_⟩
      rw [afterReturned_eq hannotated]
      funext index
      cases index with
      | returnIndex =>
          simp [afterFunction, chosenAtReturn, hannotated]
      | functionIndex =>
          simp [afterFunction, effectsOf, hannotated, heffects]
      | param argNo => simp [afterFunction]

theorem exists_annotateFunction
    (hfits : Fits (chosenAtReturn T answers f.toFunctionHeader f.attributes kind)) :
    ∃ f', annotateFunction T answers kind 0 f = .ok f' := by
  cases hannotated : f.isAnnotated with
  | false => exact ⟨f, annotateFunction_of_not_isAnnotated hannotated⟩
  | true =>
      have huses := hannotated
      rw [FunctionHeader.isAnnotated, Bool.not_eq_true'] at huses
      rw [chosenAtReturn, if_pos hannotated] at hfits
      obtain ⟨fnAttrs, heffects, -⟩ := exists_annotateEffects answers kind f.name
        (f.attributes .functionIndex)
      simp only [annotateFunction, Nat.lt_irrefl, huses, if_false, Except.bind_eq_ok_iff,
        addChosen_eq_ok, annotateReturned_eq, Except.pure_eq_ok_iff, Except.ok.injEq,
        Bool.false_eq_true]
      refine ⟨_, fnAttrs, heffects, _, ⟨?_, rfl⟩, _, rfl, rfl⟩
      rwa [Function.update_of_ne AttrIndex.noConfusion]

/-- What `annotateParameters` leaves to `annotateFunction` is what it found, where it matters. -/
theorem afterFunction_afterParameters (attrs : AttributeList) :
    afterFunction T answers header (afterParameters T answers header attrs kind) kind =
      afterKind T answers header attrs kind := by
  funext index
  cases index with
  | returnIndex => rfl
  | functionIndex => rfl
  | param argNo =>
      rw [afterFunction, afterParameters, afterKind, chosen]
      by_cases hkind : kind = .parameterReturned
      · rw [if_pos hkind, hkind, chosenAtParameter_returned]
        rfl
      · have hnone : returnedAt T answers header kind argNo = none := by
          rw [returnedAt, if_neg (fun h => hkind h.1)]
        rw [hnone, if_neg hkind]
        rfl

/-- The attributes that a kind adds can be made. -/
def KindFits (T : TypeInfo Ty) (answers : Answers) (header : FunctionHeader Ty)
    (attrs : AttributeList) (kind : OptimisticChoiceKind) : Prop :=
  (∀ argNo, Fits (chosenAtParameter T answers header attrs kind argNo)) ∧
    Fits (chosenAtReturn T answers header attrs kind)

theorem annotateKind_eq_ok (hok : annotateKind T answers kind 0 f = .ok f') :
    KindFits T answers f.toFunctionHeader f.attributes kind ∧
      f'.toFunctionHeader = f.toFunctionHeader ∧
      f'.attributes = afterKind T answers f.toFunctionHeader f.attributes kind := by
  rw [annotateKind, Except.bind_eq_ok_iff] at hok
  obtain ⟨middle, hparameters, hfunction⟩ := hok
  obtain ⟨hfits, rfl⟩ := annotateParameters_eq_ok.mp hparameters
  obtain ⟨hfits', hheader, hattributes⟩ := annotateFunction_eq_ok hfunction
  exact ⟨⟨hfits, hfits'⟩, hheader, hattributes.trans (afterFunction_afterParameters _)⟩

theorem exists_annotateKind (hfits : KindFits T answers f.toFunctionHeader f.attributes kind) :
    ∃ f', annotateKind T answers kind 0 f = .ok f' := by
  rw [annotateKind, annotateParameters_eq_ok.mpr ⟨hfits.1, rfl⟩]
  exact exists_annotateFunction hfits.2

end Petospa

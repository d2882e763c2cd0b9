import Petospa.Annotator.StaysValid

/-!
# How many bytes are dereferenceable

For a pointer to objects of `size` bytes the first choice stands for one object
and the second one for 64. The size has 64 bits in the data layout and in the
attribute, but both passes hold it in an `unsigned` between the two.
-/

namespace Petospa

namespace AttributeSet

/-- The value of the attribute for dereferenceable bytes, 0 without one. -/
def getDereferenceableBytes (attrs : AttributeSet) : Nat :=
  match attrs.find? (Attribute.isKind .dereferenceable) with
  | some (.enum _ value) => value
  | _ => 0

@[simp] theorem getDereferenceableBytes_addAttribute (attrs : AttributeSet) (value : Nat) :
    (attrs.addAttribute .dereferenceable value).getDereferenceableBytes = value := by
  have hnone : (attrs.filter fun a => !a.isKind .dereferenceable).find?
      (Attribute.isKind .dereferenceable) = none := by
    simp [List.find?_eq_none]
  rw [getDereferenceableBytes, addAttribute, List.find?_append, hnone]
  rfl

theorem getDereferenceableBytes_eq_zero {attrs : AttributeSet}
    (h : attrs.hasAttribute .dereferenceable = false) : attrs.getDereferenceableBytes = 0 := by
  have hnone : attrs.find? (Attribute.isKind .dereferenceable) = none := by
    rw [List.find?_eq_none]
    intro a ha hkind
    rw [hasAttribute, List.any_eq_false] at h
    exact h a ha hkind
  rw [getDereferenceableBytes, hnone]

end AttributeSet

section Bytes

variable {Ty : Type} [DecidableEq Ty] {T : TypeInfo Ty} {answers : Answers}
variable {f f' : IRFunction Ty} {ty : Ty} {p : Option Nat}

/-! ### The two passes -/

/-- The question about the return value or a parameter. -/
def dereferenceableKind : Option Nat → OptimisticChoiceKind
  | none => .functionReturnDereferenceable
  | some _ => .parameterDereferenceable

/-- The pass that asks it. Only the first instance annotates functions. -/
def annotatePlace (T : TypeInfo Ty) (answers : Answers) :
    Option Nat → IRFunction Ty → Except Fault (IRFunction Ty)
  | none, f => annotateFunction T answers .functionReturnDereferenceable 0 f
  | some _, f => annotateParameters T answers .parameterDereferenceable 0 f

def Answers.dereferenceable (answers : Answers) (p : Option Nat) : Nat :=
  answers.getOptimisticChoice 3 p (dereferenceableKind p)

/-- A pointer of type `ty` that is asked about. -/
def AskedAt (T : TypeInfo Ty) (f : IRFunction Ty) (ty : Ty) (p : Option Nat) : Prop :=
  T.isPointerTy ty = true ∧ (f.attributes (place p)).hasAttribute .dereferenceable = false ∧
    match p with
    | none => f.isAnnotated = true ∧ f.returnType = ty
    | some argNo => ∃ arg, f.args[argNo]? = some arg ∧ arg.numUses ≠ 0 ∧ arg.type = ty

/-- What the pass for the place `p` adds at a place. -/
def chosenBy (T : TypeInfo Ty) (answers : Answers) (f : IRFunction Ty) (p : Option Nat) :
    Option Nat → Option (AttrKind × Nat) :=
  chosen T answers f.toFunctionHeader f.attributes (dereferenceableKind p)

theorem chosenBy_of_askedAt (h : AskedAt T f ty p) :
    chosenBy T answers f p p = chosenDereferenceable T ty (answers.dereferenceable p) := by
  obtain ⟨hpointer, hattr, hp⟩ := h
  cases p with
  | none =>
      obtain ⟨hannotated, rfl⟩ := hp
      change (f.attributes .returnIndex).hasAttribute .dereferenceable = false at hattr
      simp [chosenBy, chosen, dereferenceableKind, chosenAtReturn, chosenForReturn, hannotated,
        hpointer, hattr, Answers.dereferenceable]
  | some argNo =>
      obtain ⟨arg, harg, huses, rfl⟩ := hp
      change (f.attributes (.param argNo)).hasAttribute .dereferenceable = false at hattr
      simp [chosenBy, chosen, dereferenceableKind, chosenAtParameter, chosenForParameter, harg,
        huses, hpointer, hattr, Answers.dereferenceable]

/-- Nothing but the place itself stops the pass. -/
def ElsewhereFits (T : TypeInfo Ty) (answers : Answers) (f : IRFunction Ty) (p : Option Nat) :
    Prop :=
  ∀ q ≠ p, Fits (chosenBy T answers f p q)

theorem annotatePlace_eq_ok (hok : annotatePlace T answers p f = .ok f') :
    Fits (chosenBy T answers f p p) ∧
      f'.attributes (place p) = (f.attributes (place p)).added (chosenBy T answers f p p) := by
  cases p with
  | none =>
      obtain ⟨hfits, -, hattributes⟩ := annotateFunction_eq_ok hok
      exact ⟨hfits, by rw [hattributes]; rfl⟩
  | some argNo =>
      obtain ⟨hfits, rfl⟩ := annotateParameters_eq_ok.mp hok
      exact ⟨hfits argNo, rfl⟩

theorem exists_annotatePlace (helsewhere : ElsewhereFits T answers f p)
    (hfits : Fits (chosenBy T answers f p p)) : ∃ f', annotatePlace T answers p f = .ok f' := by
  cases p with
  | none => exact exists_annotateFunction hfits
  | some argNo =>
      refine ⟨_, annotateParameters_eq_ok.mpr ⟨?_, rfl⟩⟩
      intro other
      by_cases hother : other = argNo
      · subst hother
        exact hfits
      · exact helsewhere (some other) (fun h => hother (Option.some.inj h))

/-! ### Bytes -/

/-- What a choice stands for. -/
def choiceBytes (size : Nat) : Nat → Nat
  | 0 => 0
  | 1 => size
  | _ => 64 * size

/-- What a choice adds, in 32 bits. -/
def chosenBytes (T : TypeInfo Ty) (ty : Ty) : Nat → Nat
  | 0 => 0
  | 1 => typeSize T ty
  | _ => typeSize T ty * 64 % 2 ^ 32

theorem Answers.dereferenceable_lt (answers : Answers) (p : Option Nat) :
    answers.dereferenceable p < 3 :=
  answers.inRange 3 p (dereferenceableKind p) (by decide)

omit [DecidableEq Ty] in
/-- The attribute cannot be made for no bytes. -/
theorem fits_iff_chosenBytes {choice : Nat} (hchoice : choice < 3) :
    Fits (chosenDereferenceable T ty choice) ↔ choice = 0 ∨ chosenBytes T ty choice ≠ 0 := by
  rw [fits_chosenDereferenceable, NoBytes]
  obtain rfl | rfl | rfl : choice = 0 ∨ choice = 1 ∨ choice = 2 := by omega
  · simp
  · simp [chosenBytes]
  · simp [chosenBytes]

omit [DecidableEq Ty] in
theorem getDereferenceableBytes_added {attrs : AttributeSet} {choice : Nat}
    (hattrs : attrs.hasAttribute .dereferenceable = false) (hchoice : choice < 3) :
    (attrs.added (chosenDereferenceable T ty choice)).getDereferenceableBytes =
      chosenBytes T ty choice := by
  match choice, hchoice with
  | 0, _ => exact AttributeSet.getDereferenceableBytes_eq_zero hattrs
  | 1, _ => exact AttributeSet.getDereferenceableBytes_addAttribute _ _
  | 2, _ => exact AttributeSet.getDereferenceableBytes_addAttribute _ _

/-- What a run that gets past a place adds there. -/
theorem getDereferenceableBytes_annotatePlace (hasked : AskedAt T f ty p)
    (hok : annotatePlace T answers p f = .ok f') :
    (f'.attributes (place p)).getDereferenceableBytes =
      chosenBytes T ty (answers.dereferenceable p) := by
  obtain ⟨-, hattributes⟩ := annotatePlace_eq_ok hok
  rw [hattributes, chosenBy_of_askedAt hasked]
  exact getDereferenceableBytes_added hasked.2.1 (answers.dereferenceable_lt p)

/-! ### Growth -/

/-- Every run that nothing else stops annotates what the choice stands for. -/
def AnnotatesExactly (T : TypeInfo Ty) (f : IRFunction Ty) (p : Option Nat) (size : Nat) : Prop :=
  ∀ answers, ElsewhereFits T answers f p →
    ∃ f', annotatePlace T answers p f = .ok f' ∧
      (f'.attributes (place p)).getDereferenceableBytes =
        choiceBytes size (answers.dereferenceable p)

/-- A lower choice for a place says less about it. -/
def LowerIsWeaker (T : TypeInfo Ty) (f : IRFunction Ty) (p : Option Nat) : Prop :=
  ∀ lower upper fLower fUpper,
    annotatePlace T lower p f = .ok fLower → annotatePlace T upper p f = .ok fUpper →
    lower.dereferenceable p < upper.dereferenceable p →
    (fLower.attributes (place p)).getDereferenceableBytes <
      (fUpper.attributes (place p)).getDereferenceableBytes

theorem choiceBytes_lt {size lower upper : Nat} (hsize : 0 < size) (hupper : upper < 3)
    (h : lower < upper) : choiceBytes size lower < choiceBytes size upper := by
  obtain ⟨rfl, rfl⟩ | ⟨rfl, rfl⟩ | ⟨rfl, rfl⟩ :
      (lower = 0 ∧ upper = 1) ∨ (lower = 0 ∧ upper = 2) ∨ (lower = 1 ∧ upper = 2) := by omega
  · exact hsize
  · exact Nat.mul_pos (by decide) hsize
  · change size < 64 * size
    omega

/-- A choice at one place, and nothing anywhere else. -/
def choosesAt (p : Option Nat) (choice : Nat) : Answers where
  getOptimisticChoice numChoices q _ := if q = p ∧ choice < numChoices then choice else 0
  inRange numChoices q _ h := by split <;> omega

theorem dereferenceable_choosesAt {choice : Nat} (hchoice : choice < 3) :
    (choosesAt p choice).dereferenceable p = choice :=
  if_pos ⟨rfl, hchoice⟩

theorem elsewhereFits_choosesAt {choice : Nat} : ElsewhereFits T (choosesAt p choice) f p := by
  intro q hq
  have hzero : (choosesAt p choice).getOptimisticChoice 3 q (dereferenceableKind p) = 0 :=
    if_neg fun h => hq h.1
  suffices hnone : chosenBy T (choosesAt p choice) f p q = none by
    rw [hnone]
    exact fits_none
  cases p with
  | none =>
      cases q with
      | none => exact absurd rfl hq
      | some argNo =>
          cases harg : f.args[argNo]? <;>
            simp [chosenBy, chosen, dereferenceableKind, chosenAtParameter, chosenForParameter,
              harg]
  | some target =>
      cases q with
      | none =>
          simp [chosenBy, chosen, dereferenceableKind, chosenAtReturn, chosenForReturn]
      | some argNo =>
          rw [dereferenceableKind] at hzero
          cases harg : f.args[argNo]? <;>
            simp [chosenBy, chosen, dereferenceableKind, chosenAtParameter, chosenForParameter,
              harg, hzero, chosenDereferenceable]

/-- A choice is made in some run, unless it asks for no bytes. -/
theorem exists_choosesAt (choice : Nat) (hasked : AskedAt T f ty p) (hchoice : choice < 3)
    (hbytes : chosenBytes T ty choice ≠ 0) :
    ∃ f', annotatePlace T (choosesAt p choice) p f = .ok f' ∧
      (f'.attributes (place p)).getDereferenceableBytes = chosenBytes T ty choice := by
  have hfits : Fits (chosenBy T (choosesAt p choice) f p p) := by
    rw [chosenBy_of_askedAt hasked, dereferenceable_choosesAt hchoice,
      fits_iff_chosenBytes hchoice]
    exact .inr hbytes
  obtain ⟨f', hok⟩ := exists_annotatePlace elsewhereFits_choosesAt hfits
  refine ⟨f', hok, ?_⟩
  rw [getDereferenceableBytes_annotatePlace hasked hok, dereferenceable_choosesAt hchoice]

section Sized

variable (hsized : T.isSized (T.getPointerElementType ty) = true)
include hsized

omit [DecidableEq Ty] in
/-- Nothing wraps while 64 objects have fewer than 2³² bytes. -/
theorem chosenBytes_eq {choice : Nat} (hchoice : choice < 3)
    (hfits : 64 * T.getTypeAllocSize (T.getPointerElementType ty) < 2 ^ 32) :
    chosenBytes T ty choice =
      choiceBytes (T.getTypeAllocSize (T.getPointerElementType ty)) choice := by
  match choice, hchoice with
  | 0, _ => rfl
  | 1, _ =>
      rw [chosenBytes, typeSize, if_pos hsized, choiceBytes]
      omega
  | 2, _ =>
      rw [chosenBytes, typeSize, if_pos hsized, choiceBytes] <;> omega

theorem exact_and_lowerIsWeaker_iff (hasked : AskedAt T f ty p)
    (hsize : 0 < T.getTypeAllocSize (T.getPointerElementType ty)) :
    (AnnotatesExactly T f p (T.getTypeAllocSize (T.getPointerElementType ty)) ∧
        LowerIsWeaker T f p) ↔
      64 * T.getTypeAllocSize (T.getPointerElementType ty) < 2 ^ 32 := by
  constructor
  · rintro ⟨hexact, -⟩
    obtain ⟨f', hok, hbytes⟩ := hexact (choosesAt p 2) elsewhereFits_choosesAt
    rw [getDereferenceableBytes_annotatePlace hasked hok,
      dereferenceable_choosesAt (by decide)] at hbytes
    calc
      64 * T.getTypeAllocSize (T.getPointerElementType ty) = typeSize T ty * 64 % 2 ^ 32 :=
        hbytes.symm
      _ < 2 ^ 32 := Nat.mod_lt _ (by decide)
  · intro hfits
    have hchosen (answers : Answers) := chosenBytes_eq hsized (answers.dereferenceable_lt p) hfits
    constructor
    · intro answers helsewhere
      have hp : Fits (chosenBy T answers f p p) := by
        rw [chosenBy_of_askedAt hasked, fits_iff_chosenBytes (answers.dereferenceable_lt p),
          hchosen]
        by_cases hzero : answers.dereferenceable p = 0
        · exact .inl hzero
        · have hpos := choiceBytes_lt hsize (answers.dereferenceable_lt p)
            (Nat.pos_of_ne_zero hzero)
          exact .inr (Nat.ne_of_gt hpos)
      obtain ⟨f', hok⟩ := exists_annotatePlace helsewhere hp
      exact ⟨f', hok, (getDereferenceableBytes_annotatePlace hasked hok).trans (hchosen answers)⟩
    · intro lower upper fLower fUpper hlower hupper hlt
      rw [getDereferenceableBytes_annotatePlace hasked hlower,
        getDereferenceableBytes_annotatePlace hasked hupper, hchosen, hchosen]
      exact choiceBytes_lt hsize (upper.dereferenceable_lt p) hlt

end Sized

end Bytes

/-- Objects of `size` bytes and pointers to them. -/
def pointersTo (size : Nat) : TypeInfo Bool :=
  { bytePointers with getTypeAllocSize := fun _ => size }

/-- A function with one pointer, which it uses. -/
def takesPointer : IRFunction Bool where
  name := []
  args := [⟨true, 1⟩]
  returnType := false
  numUses := 1
  isIntrinsic := false
  isDeclaration := false
  hasGlobalUnnamedAddr := false
  hasInternalLinkage := false
  attributes _ := []

theorem askedAt_takesPointer (size : Nat) :
    AskedAt (pointersTo size) takesPointer true (some 0) :=
  ⟨rfl, rfl, ⟨true, 1⟩, rfl, by decide, rfl⟩

theorem exact_and_lowerIsWeaker_iff_bytes :
    0 < 1 ∧ ((AnnotatesExactly (pointersTo 1) takesPointer (some 0) 1 ∧
      LowerIsWeaker (pointersTo 1) takesPointer (some 0)) ↔ 64 * 1 < 2 ^ 32) :=
  ⟨by decide, exact_and_lowerIsWeaker_iff (T := pointersTo 1) rfl (askedAt_takesPointer 1)
    (by decide)⟩

/-- Of objects of 2²⁶ + 1 bytes the second choice asks for 64 bytes. -/
theorem not_exact_and_lowerIsWeaker :
    AskedAt (pointersTo (2 ^ 26 + 1)) takesPointer true (some 0) ∧
      64 * (2 ^ 26 + 1) < 2 ^ 64 ∧
      ¬ AnnotatesExactly (pointersTo (2 ^ 26 + 1)) takesPointer (some 0) (2 ^ 26 + 1) ∧
      ¬ LowerIsWeaker (pointersTo (2 ^ 26 + 1)) takesPointer (some 0) := by
  have hasked := askedAt_takesPointer (2 ^ 26 + 1)
  refine ⟨hasked, by decide, ?_, ?_⟩
  · intro hexact
    obtain ⟨f', hok, hbytes⟩ := hexact (choosesAt (some 0) 2) elsewhereFits_choosesAt
    rw [getDereferenceableBytes_annotatePlace hasked hok] at hbytes
    exact absurd hbytes (by decide)
  · intro hweaker
    obtain ⟨fOne, hone, hbytesOne⟩ := exists_choosesAt 1 hasked (by decide) (by decide)
    obtain ⟨fTwo, htwo, hbytesTwo⟩ := exists_choosesAt 2 hasked (by decide) (by decide)
    have hlt := hweaker _ _ fOne fTwo hone htwo (by decide)
    rw [hbytesOne, hbytesTwo] at hlt
    exact absurd hlt (by decide)

end Petospa

import Petospa.Lib.Owned
import Petospa.Annotator.AnnotatedKind

/-!
# What a run adds

What a kind adds to a parameter or to the return value only depends on
attributes that no other kind adds there. So a run over all kinds adds what each
kind would have added at the beginning.
-/

namespace Petospa

variable {Ty : Type} {T : TypeInfo Ty} {answers : Answers} {kind : OptimisticChoiceKind}
variable {header : FunctionHeader Ty} {f f' : IRFunction Ty} [DecidableEq Ty]

/-- The kind that decides about an attribute at a place. -/
def owner : Option Nat × AttrKind → Option OptimisticChoiceKind
  | (none, .noAlias) => some .functionReturnNoAlias
  | (none, .dereferenceable) => some .functionReturnDereferenceable
  | (some _, .noCapture) => some .parameterNoCapture
  | (some _, .noAlias) => some .parameterNoAlias
  | (some _, .dereferenceable) => some .parameterDereferenceable
  | (some _, .alignment) => some .parameterAligned
  | (some _, .readNone) => some .parameterMemBehavior
  | (some _, .readOnly) => some .parameterMemBehavior
  | (some _, .writeOnly) => some .parameterMemBehavior
  | (some _, .returned) => some .parameterReturned
  | _ => none

/-- An attribute of the return value or a parameter. -/
def hasAt (attrs : AttributeList) (key : Option Nat × AttrKind) : Bool :=
  (attrs (place key.1)).hasAttribute key.2

omit [DecidableEq Ty] in
theorem chosenDereferenceable_eq_some {ty : Ty} {choice : Nat} {k : AttrKind} {value : Nat}
    (h : chosenDereferenceable T ty choice = some (k, value)) : k = .dereferenceable := by
  unfold chosenDereferenceable at h
  split at h
  · exact (congrArg Prod.fst (Option.some.inj h)).symm
  · exact (congrArg Prod.fst (Option.some.inj h)).symm
  · cases h

omit [DecidableEq Ty] in
theorem owner_of_chosenForParameter {argNo : Nat} {arg : Argument Ty} {attrs : AttributeSet}
    {k : AttrKind} {value : Nat}
    (h : chosenForParameter T answers kind argNo arg attrs = some (k, value)) :
    owner (some argNo, k) = some kind := by
  simp only [chosenForParameter, Option.ite_none_left_eq_some] at h
  obtain ⟨-, -, h⟩ := h
  split at h
  case h_1 =>
    obtain ⟨-, h⟩ := Option.ite_none_right_eq_some.mp h
    obtain ⟨rfl, -⟩ := Prod.mk.inj (Option.some.inj h)
    rfl
  case h_2 =>
    obtain ⟨-, h⟩ := Option.ite_none_right_eq_some.mp h
    obtain ⟨rfl, -⟩ := Prod.mk.inj (Option.some.inj h)
    rfl
  case h_3 =>
    obtain ⟨-, h⟩ := Option.ite_none_left_eq_some.mp h
    obtain rfl := chosenDereferenceable_eq_some h
    rfl
  case h_4 =>
    obtain ⟨-, h⟩ := Option.ite_none_left_eq_some.mp h
    split at h <;> cases h <;> rfl
  case h_5 =>
    obtain ⟨-, h⟩ := Option.ite_none_left_eq_some.mp h
    split at h <;> cases h <;> rfl
  case h_6 => cases h

omit [DecidableEq Ty] in
theorem owner_of_chosenForReturn {ty : Ty} {attrs : AttributeSet} {k : AttrKind} {value : Nat}
    (h : chosenForReturn T answers kind ty attrs = some (k, value)) :
    owner (none, k) = some kind := by
  simp only [chosenForReturn, Option.ite_none_left_eq_some] at h
  obtain ⟨-, h⟩ := h
  split at h
  case h_1 =>
    obtain ⟨-, h⟩ := Option.ite_none_right_eq_some.mp h
    obtain ⟨rfl, -⟩ := Prod.mk.inj (Option.some.inj h)
    rfl
  case h_2 =>
    obtain ⟨-, h⟩ := Option.ite_none_left_eq_some.mp h
    obtain rfl := chosenDereferenceable_eq_some h
    rfl
  case h_3 => cases h

/-- A kind adds what it decides about. -/
theorem owner_of_chosen {attrs : AttributeList} {p : Option Nat} {k : AttrKind} {value : Nat}
    (h : chosen T answers header attrs kind p = some (k, value)) : owner (p, k) = some kind := by
  cases p with
  | none =>
      rw [chosen, chosenAtReturn] at h
      exact owner_of_chosenForReturn (Option.ite_none_right_eq_some.mp h).2
  | some argNo =>
      by_cases hkind : kind = .parameterReturned
      · rw [chosen, if_pos hkind, returnedAt] at h
        obtain ⟨-, h⟩ := Option.ite_none_right_eq_some.mp h
        obtain ⟨rfl, -⟩ := Prod.mk.inj (Option.some.inj h)
        rw [hkind]
        rfl
      · rw [chosen, if_neg hkind, chosenAtParameter] at h
        cases harg : header.args[argNo]? with
        | none =>
            rw [harg] at h
            cases h
        | some arg =>
            rw [harg] at h
            exact owner_of_chosenForParameter h

omit [DecidableEq Ty] in
theorem chosenForParameter_congr {argNo : Nat} {arg : Argument Ty} {attrs attrs' : AttributeSet}
    (h : ∀ k, owner (some argNo, k) = some kind → attrs.hasAttribute k = attrs'.hasAttribute k) :
    chosenForParameter T answers kind argNo arg attrs =
      chosenForParameter T answers kind argNo arg attrs' := by
  cases kind
  case parameterNoCapture => simp only [chosenForParameter, h .noCapture rfl]
  case parameterNoAlias => simp only [chosenForParameter, h .noAlias rfl]
  case parameterDereferenceable => simp only [chosenForParameter, h .dereferenceable rfl]
  case parameterAligned => simp only [chosenForParameter, h .alignment rfl]
  case parameterMemBehavior =>
    simp only [chosenForParameter, h .readNone rfl, h .readOnly rfl, h .writeOnly rfl]
  all_goals rfl

omit [DecidableEq Ty] in
theorem chosenForReturn_congr {ty : Ty} {attrs attrs' : AttributeSet}
    (h : ∀ k, owner (none, k) = some kind → attrs.hasAttribute k = attrs'.hasAttribute k) :
    chosenForReturn T answers kind ty attrs = chosenForReturn T answers kind ty attrs' := by
  cases kind
  case functionReturnNoAlias => simp only [chosenForReturn, h .noAlias rfl]
  case functionReturnDereferenceable => simp only [chosenForReturn, h .dereferenceable rfl]
  all_goals rfl

/-- What a kind adds depends on what it decides about. -/
theorem chosen_congr {attrs attrs' : AttributeList} {p : Option Nat}
    (h : ∀ k, owner (p, k) = some kind → hasAt attrs (p, k) = hasAt attrs' (p, k)) :
    chosen T answers header attrs kind p = chosen T answers header attrs' kind p := by
  cases p with
  | none =>
      have hreturn : ∀ k, owner (none, k) = some kind →
          (attrs .returnIndex).hasAttribute k = (attrs' .returnIndex).hasAttribute k := h
      rw [chosen, chosen, chosenAtReturn, chosenAtReturn, chosenForReturn_congr hreturn]
  | some argNo =>
      have hparameter : ∀ k, owner (some argNo, k) = some kind →
          (attrs (.param argNo)).hasAttribute k = (attrs' (.param argNo)).hasAttribute k := h
      rw [chosen, chosen, chosenAtParameter, chosenAtParameter]
      cases header.args[argNo]? with
      | none => rfl
      | some arg => simp only [chosenForParameter_congr hparameter]

theorem hasAt_afterKind (attrs : AttributeList) (p : Option Nat) (k : AttrKind) :
    hasAt (afterKind T answers header attrs kind) (p, k) =
      (hasAt attrs (p, k) ||
        decide ((chosen T answers header attrs kind p).map Prod.fst = some k)) := by
  rw [hasAt, afterKind_place, AttributeSet.hasAttribute_added]
  rfl

theorem owned : Owned hasAt (afterKind T answers header) owner where
  frame attrs kind key hne := by
    obtain ⟨p, k⟩ := key
    have hnot : (chosen T answers header attrs kind p).map Prod.fst ≠ some k := by
      intro hsome
      obtain ⟨⟨j, value⟩, hchosen, rfl⟩ := Option.map_eq_some_iff.mp hsome
      exact hne (owner_of_chosen hchosen)
    rw [hasAt_afterKind]
    simp [hnot]
  reads attrs attrs' kind hsame key howner := by
    obtain ⟨p, k⟩ := key
    rw [hasAt_afterKind, hasAt_afterKind, hsame _ howner,
      chosen_congr fun k hk => hsame (p, k) hk]

/-- What a run makes of the attributes: those of the return value and the parameters
are as their owners leave them at the beginning. -/
def afterKinds (T : TypeInfo Ty) (answers : Answers) (header : FunctionHeader Ty)
    (kinds : List OptimisticChoiceKind) (attrs : AttributeList) : AttributeList :=
  kinds.foldl (afterKind T answers header) attrs

theorem hasAt_afterKinds {kinds : List OptimisticChoiceKind} (hnodup : kinds.Nodup)
    (attrs : AttributeList) {p : Option Nat} {k : AttrKind} (hkind : kind ∈ kinds)
    (howner : owner (p, k) = some kind) :
    hasAt (afterKinds T answers header kinds attrs) (p, k) =
      (hasAt attrs (p, k) ||
        decide ((chosen T answers header attrs kind p).map Prod.fst = some k)) :=
  (owned.read_foldl hnodup hkind howner).trans (hasAt_afterKind attrs p k)

theorem hasAt_afterKinds_of_none (kinds : List OptimisticChoiceKind) (attrs : AttributeList)
    {p : Option Nat} {k : AttrKind} (howner : owner (p, k) = none) :
    hasAt (afterKinds T answers header kinds attrs) (p, k) = hasAt attrs (p, k) := by
  apply owned.read_foldl_of_ne
  simp [howner]

theorem kindFits_iff {attrs : AttributeList} :
    KindFits T answers header attrs kind ↔ ∀ p, Fits (chosen T answers header attrs kind p) := by
  constructor
  · rintro ⟨hparameter, hreturn⟩ p
    cases p with
    | none => exact hreturn
    | some argNo =>
        rw [chosen]
        split
        · rw [returnedAt]
          split <;> simp [Fits]
        · exact hparameter argNo
  · intro h
    refine ⟨fun argNo => ?_, h none⟩
    have hargNo := h (some argNo)
    rw [chosen] at hargNo
    split at hargNo
    · rename_i hkind
      rw [hkind, chosenAtParameter_returned]
      exact fits_none
    · exact hargNo

/-- Whether a kind can make what it adds does not change before it. -/
theorem kindFits_afterKind {kind' : OptimisticChoiceKind} (hne : kind' ≠ kind)
    (attrs : AttributeList) : KindFits T answers header (afterKind T answers header attrs kind')
      kind ↔ KindFits T answers header attrs kind := by
  have hsame (p : Option Nat) : chosen T answers header
      (afterKind T answers header attrs kind') kind p = chosen T answers header attrs kind p := by
    apply chosen_congr
    intro k howner
    apply owned.frame
    rw [howner]
    intro heq
    exact hne (Option.some.inj heq).symm
  simp only [kindFits_iff, hsame]

theorem foldlM_annotateKind_eq_ok {kinds : List OptimisticChoiceKind} (hnodup : kinds.Nodup)
    (hok : kinds.foldlM (fun f kind => annotateKind T answers kind 0 f) f = .ok f') :
    (∀ kind ∈ kinds, KindFits T answers f.toFunctionHeader f.attributes kind) ∧
      f'.toFunctionHeader = f.toFunctionHeader ∧
      f'.attributes = afterKinds T answers f.toFunctionHeader kinds f.attributes := by
  induction kinds generalizing f with
  | nil =>
      obtain rfl := Except.ok.inj hok
      exact ⟨fun _ h => absurd h List.not_mem_nil, rfl, rfl⟩
  | cons kind kinds ih =>
      rw [List.foldlM_cons, Except.bind_eq_ok_iff] at hok
      obtain ⟨middle, hhead, htail⟩ := hok
      obtain ⟨hnotMem, hnodup⟩ := List.nodup_cons.mp hnodup
      obtain ⟨hfits, hheader, hattributes⟩ := annotateKind_eq_ok hhead
      obtain ⟨hrest, hheader', hattributes'⟩ := ih hnodup htail
      rw [hheader, hattributes] at hrest hattributes'
      refine ⟨fun kind' hmem => ?_, hheader'.trans hheader, hattributes'⟩
      cases hmem with
      | head => exact hfits
      | tail _ hmem =>
          have hne : kind ≠ kind' := fun heq => hnotMem (heq ▸ hmem)
          exact (kindFits_afterKind hne _).mp (hrest kind' hmem)

theorem exists_foldlM_annotateKind {kinds : List OptimisticChoiceKind} (hnodup : kinds.Nodup)
    (hfits : ∀ kind ∈ kinds, KindFits T answers f.toFunctionHeader f.attributes kind) :
    ∃ f', kinds.foldlM (fun f kind => annotateKind T answers kind 0 f) f = .ok f' := by
  induction kinds generalizing f with
  | nil => exact ⟨f, rfl⟩
  | cons kind kinds ih =>
      obtain ⟨hnotMem, hnodup⟩ := List.nodup_cons.mp hnodup
      obtain ⟨hhead, htail⟩ := List.forall_mem_cons.mp hfits
      obtain ⟨middle, hok⟩ := exists_annotateKind hhead
      obtain ⟨-, hheader, hattributes⟩ := annotateKind_eq_ok hok
      have hrest : ∀ kind' ∈ kinds,
          KindFits T answers middle.toFunctionHeader middle.attributes kind' := by
        intro kind' hmem
        have hne : kind ≠ kind' := fun heq => hnotMem (heq ▸ hmem)
        rw [hheader, hattributes, kindFits_afterKind hne]
        exact htail kind' hmem
      rw [List.foldlM_cons, hok]
      exact ih hnodup hrest

/-! ### Effects of all kinds -/

omit [DecidableEq Ty] in
variable (answers header kind) in
theorem effects_effectsOf (attrs : AttributeSet) :
    Effects attrs (effectsOf answers header attrs kind) ∧
      (header.isAnnotated = true →
        (effectsOf answers header attrs kind).hasAttribute .speculatable = true →
        (effectsOf answers header attrs kind).hasAttribute .readNone = true) := by
  cases hannotated : header.isAnnotated with
  | false =>
      rw [effectsOf, hannotated]
      exact ⟨.refl attrs, fun h => absurd h Bool.false_ne_true⟩
  | true =>
      obtain ⟨attrs', hok, heffects, hspec⟩ := exists_annotateEffects answers kind
        header.name attrs
      rw [effectsOf, if_pos hannotated, hok]
      exact ⟨heffects, fun _ => hspec⟩

variable (T answers header) in
theorem afterKinds_functionIndex (kinds : List OptimisticChoiceKind) (attrs : AttributeList) :
    Effects (attrs .functionIndex) (afterKinds T answers header kinds attrs .functionIndex) ∧
      (header.isAnnotated = true → kinds ≠ [] →
        let fnAttrs := afterKinds T answers header kinds attrs .functionIndex
        fnAttrs.hasAttribute .speculatable = true → fnAttrs.hasAttribute .readNone = true) := by
  induction kinds generalizing attrs with
  | nil => exact ⟨.refl _, fun _ h => absurd rfl h⟩
  | cons kind kinds ih =>
      obtain ⟨hhead, hspec⟩ := effects_effectsOf answers kind header (attrs .functionIndex)
      obtain ⟨htail, hspec'⟩ := ih (afterKind T answers header attrs kind)
      refine ⟨hhead.trans htail, fun hannotated _ => ?_⟩
      cases kinds with
      | nil => exact hspec hannotated
      | cons kind' kinds => exact hspec' hannotated (List.cons_ne_nil _ _)

theorem afterKinds_functionIndex_of_not_isAnnotated (h : header.isAnnotated = false)
    (kinds : List OptimisticChoiceKind) (attrs : AttributeList) :
    afterKinds T answers header kinds attrs .functionIndex = attrs .functionIndex := by
  induction kinds generalizing attrs with
  | nil => rfl
  | cons kind kinds ih =>
      refine (ih _).trans ?_
      rw [afterKind, effectsOf, h]
      rfl

end Petospa

import Petospa.Annotator.AttributeRuns

/-!
# Annotated functions stay valid

The passes look at other attributes than the verifier. Nothing is asked about
the parameters that are returned already, a speculatable function is made one
that does not access memory whatever it has, `inalloca` and `sret` are not looked
at, and a pointee without size is dereferenceable for no bytes. An accepted list
of attributes is still accepted afterwards if and only if none of this happens.
-/

namespace Petospa

variable {Ty : Type} {T : TypeInfo Ty} {answers : Answers} {kind : OptimisticChoiceKind}
variable {header : FunctionHeader Ty} {f : IRFunction Ty}

/-- The choice to make a pointer dereferenceable for no bytes. -/
def NoBytes (T : TypeInfo Ty) (ty : Ty) (choice : Nat) : Prop :=
  choice = 1 ∧ typeSize T ty = 0 ∨ choice = 2 ∧ typeSize T ty * 64 % 2 ^ 32 = 0

theorem fits_chosenDereferenceable {ty : Ty} {choice : Nat} :
    Fits (chosenDereferenceable T ty choice) ↔ ¬ NoBytes T ty choice := by
  unfold chosenDereferenceable
  split
  · simp [Fits, NoBytes]
  · simp [Fits, NoBytes]
  · rename_i htwo hone
    exact iff_of_true fits_none fun h => h.elim (fun h => hone h.1) fun h => htwo h.1

/-- The answers keep clear of what the passes do not look at. -/
structure Compatible [DecidableEq Ty] (T : TypeInfo Ty) (answers : Answers)
    (header : FunctionHeader Ty) (attrs : AttributeList) : Prop where
  bytes : ∀ argNo arg, header.args[argNo]? = some arg → T.isPointerTy arg.type = true →
    arg.numUses ≠ 0 → (attrs (.param argNo)).hasAttribute .dereferenceable = false →
    ¬ NoBytes T arg.type
      (answers.getOptimisticChoice 3 (some argNo) .parameterDereferenceable)
  inAlloca : ∀ argNo arg, header.args[argNo]? = some arg → T.isPointerTy arg.type = true →
    arg.numUses ≠ 0 → (attrs (.param argNo)).hasAttribute .inAlloca = true →
    (attrs (.param argNo)).hasAttribute .readNone = false →
    (attrs (.param argNo)).hasAttribute .readOnly = false →
    (attrs (.param argNo)).hasAttribute .writeOnly = false →
    answers.getOptimisticChoice 4 (some argNo) .parameterMemBehavior ≠ 2
  returnBytes : header.isAnnotated = true → T.isPointerTy header.returnType = true →
    (attrs .returnIndex).hasAttribute .dereferenceable = false →
    ¬ NoBytes T header.returnType
      (answers.getOptimisticChoice 3 none .functionReturnDereferenceable)
  speculatable : header.isAnnotated = true →
    (attrs .functionIndex).hasAttribute .speculatable = true →
    (attrs .functionIndex).hasAttribute .readOnly = false ∧
      (attrs .functionIndex).hasAttribute .writeOnly = false ∧
      (attrs .functionIndex).hasAttribute .inaccessibleMemOnly = false ∧
      (attrs .functionIndex).hasAttribute .inaccessibleMemOrArgMemOnly = false
  returned : header.isAnnotated = true → ∀ target, returnedArg T answers header = some target →
    (attrs (.param target)).hasAttribute .structRet = false ∧
      ∀ argNo < header.args.length, argNo ≠ target →
        (attrs (.param argNo)).hasAttribute .returned = false

/-! ### The attributes that are made -/

theorem nodup_choiceKinds : choiceKinds.Nodup := by decide

theorem mem_choiceKinds_of_owner {p : Option Nat} {k : AttrKind} (h : owner (p, k) = some kind) :
    kind ∈ choiceKinds := by
  cases p <;> cases k <;> cases h <;> decide

theorem fits_chosenForParameter {argNo : Nat} {arg : Argument Ty} {attrs : AttributeSet} :
    Fits (chosenForParameter T answers kind argNo arg attrs) ↔
      (kind = .parameterDereferenceable → T.isPointerTy arg.type = true → arg.numUses ≠ 0 →
        attrs.hasAttribute .dereferenceable = false → ¬ NoBytes T arg.type
          (answers.getOptimisticChoice 3 (some argNo) .parameterDereferenceable)) := by
  by_cases hkind : kind = .parameterDereferenceable
  · subst hkind
    simp only [chosenForParameter, true_imp_iff]
    cases hpointer : T.isPointerTy arg.type with
    | false => simp [fits_none]
    | true =>
        by_cases huses : arg.numUses = 0
        · simp [fits_none, huses]
        · cases hhas : attrs.hasAttribute .dereferenceable with
          | false => simp [fits_chosenDereferenceable, huses]
          | true => simp [fits_none]
  · refine iff_of_true (fun h => ?_) fun h => absurd h hkind
    exact hkind (Option.some.inj (owner_of_chosenForParameter h)).symm

theorem fits_chosenForReturn {ty : Ty} {attrs : AttributeSet} :
    Fits (chosenForReturn T answers kind ty attrs) ↔
      (kind = .functionReturnDereferenceable → T.isPointerTy ty = true →
        attrs.hasAttribute .dereferenceable = false → ¬ NoBytes T ty
          (answers.getOptimisticChoice 3 none .functionReturnDereferenceable)) := by
  by_cases hkind : kind = .functionReturnDereferenceable
  · subst hkind
    simp only [chosenForReturn, true_imp_iff]
    cases hpointer : T.isPointerTy ty with
    | false => simp [fits_none]
    | true =>
        cases hhas : attrs.hasAttribute .dereferenceable with
        | false => simp [fits_chosenDereferenceable]
        | true => simp [fits_none]
  · refine iff_of_true (fun h => ?_) fun h => absurd h hkind
    exact hkind (Option.some.inj (owner_of_chosenForReturn h)).symm

/-- A run ends if no pointer is made dereferenceable for no bytes. -/
theorem kindFits_choiceKinds {attrs : AttributeList} :
    (∀ kind ∈ choiceKinds, KindFits T answers header attrs kind) ↔
      (∀ argNo arg, header.args[argNo]? = some arg → T.isPointerTy arg.type = true →
        arg.numUses ≠ 0 → (attrs (.param argNo)).hasAttribute .dereferenceable = false →
        ¬ NoBytes T arg.type
          (answers.getOptimisticChoice 3 (some argNo) .parameterDereferenceable)) ∧
      (header.isAnnotated = true → T.isPointerTy header.returnType = true →
        (attrs .returnIndex).hasAttribute .dereferenceable = false →
        ¬ NoBytes T header.returnType
          (answers.getOptimisticChoice 3 none .functionReturnDereferenceable)) := by
  constructor
  · intro h
    constructor
    · intro argNo arg harg
      have hfits := (h .parameterDereferenceable (by decide)).1 argNo
      rw [chosenAtParameter, harg] at hfits
      exact fits_chosenForParameter.mp hfits rfl
    · intro hannotated
      have hfits := (h .functionReturnDereferenceable (by decide)).2
      rw [chosenAtReturn, if_pos hannotated] at hfits
      exact fits_chosenForReturn.mp hfits rfl
  · rintro ⟨hparameter, hreturn⟩ kind -
    constructor
    · intro argNo
      rw [chosenAtParameter]
      cases harg : header.args[argNo]? with
      | none => exact fits_none
      | some arg => exact fits_chosenForParameter.mpr fun _ => hparameter argNo arg harg
    · rw [chosenAtReturn]
      split
      · rename_i hannotated
        exact fits_chosenForReturn.mpr fun _ => hreturn hannotated
      · exact fits_none

/-! ### Parameters -/

section Parameters

variable [DecidableEq Ty] {attrs : AttributeList}

/-- The attributes after all kinds. -/
def afterAll (T : TypeInfo Ty) (answers : Answers) (header : FunctionHeader Ty)
    (attrs : AttributeList) : AttributeList :=
  afterKinds T answers header choiceKinds attrs

theorem hasAt_afterAll {p : Option Nat} {k : AttrKind} (howner : owner (p, k) = some kind) :
    hasAt (afterAll T answers header attrs) (p, k) =
      (hasAt attrs (p, k) ||
        decide ((chosen T answers header attrs kind p).map Prod.fst = some k)) :=
  hasAt_afterKinds nodup_choiceKinds attrs (mem_choiceKinds_of_owner howner) howner

theorem hasAt_afterAll_of_none {p : Option Nat} {k : AttrKind} (howner : owner (p, k) = none) :
    hasAt (afterAll T answers header attrs) (p, k) = hasAt attrs (p, k) :=
  hasAt_afterKinds_of_none choiceKinds attrs howner

theorem owner_of_not_isAnnotated {p : Option Nat} {k : AttrKind} (h : isAnnotated k = false) :
    owner (p, k) = none := by
  cases p <;> cases k <;> first | rfl | cases h

theorem hasAt_afterAll_of_not_isAnnotated (p : Option Nat) {k : AttrKind}
    (h : isAnnotated k = false) :
    hasAt (afterAll T answers header attrs) (p, k) = hasAt attrs (p, k) :=
  hasAt_afterAll_of_none (owner_of_not_isAnnotated h)

/-- The returned parameter has the return type. -/
theorem returnedArg_eq_some {target : Nat} (h : returnedArg T answers header = some target) :
    T.isPointerTy header.returnType = true ∧
      ∃ arg, header.args[target]? = some arg ∧ arg.type = header.returnType := by
  have hdecision := answers.inRange (header.possibleReturnedArgs.length + 1) none
    .parameterReturned (Nat.succ_pos _)
  simp only [returnedArg, Option.ite_none_right_eq_some] at h
  generalize answers.getOptimisticChoice _ none .parameterReturned = decision at hdecision h
  obtain ⟨⟨hpointer, hne⟩, htarget⟩ := h
  have hlt : header.possibleReturnedArgs.length - decision <
      header.possibleReturnedArgs.length := by omega
  rw [List.getD_eq_getElem?_getD, List.getElem?_eq_getElem hlt, Option.getD_some,
    Option.some_inj] at htarget
  have hmem : target ∈ header.possibleReturnedArgs := htarget ▸ List.getElem_mem hlt
  rw [FunctionHeader.possibleReturnedArgs, List.mem_filter, decide_eq_true_eq,
    Option.map_eq_some_iff] at hmem
  exact ⟨hpointer, hmem.2⟩

theorem hasAt_returned (argNo : Nat) :
    hasAt (afterAll T answers header attrs) (some argNo, .returned) = true ↔
      hasAt attrs (some argNo, .returned) = true ∨
        header.isAnnotated = true ∧ returnedArg T answers header = some argNo := by
  have howner : owner (some argNo, .returned) = some .parameterReturned := rfl
  rw [hasAt_afterAll howner, Bool.or_eq_true, decide_eq_true_eq, chosen, if_pos rfl, returnedAt]
  simp only [true_and]
  split
  · rename_i h
    simp [h]
  · rename_i h
    simp [h]

omit [DecidableEq Ty] in
/-- A parameter becomes readonly by the choice 2, if nothing is known about its memory. -/
theorem chosenForParameter_readOnly {argNo : Nat} {arg : Argument Ty} {set : AttributeSet} :
    (chosenForParameter T answers .parameterMemBehavior argNo arg set).map Prod.fst =
        some .readOnly ↔
      T.isPointerTy arg.type = true ∧ arg.numUses ≠ 0 ∧ set.hasAttribute .readNone = false ∧
        set.hasAttribute .readOnly = false ∧ set.hasAttribute .writeOnly = false ∧
        answers.getOptimisticChoice 4 (some argNo) .parameterMemBehavior = 2 := by
  simp only [chosenForParameter, Option.map_eq_some_iff, Option.ite_none_left_eq_some]
  generalize answers.getOptimisticChoice 4 (some argNo) .parameterMemBehavior = choice
  constructor
  · rintro ⟨c, ⟨hpointer, huses, hknown, hc⟩, hfst⟩
    simp only [Bool.not_eq_true', Bool.not_eq_false, Bool.or_eq_true, not_or,
      Bool.not_eq_true] at hpointer hknown
    refine ⟨hpointer, huses, hknown.1.1, hknown.1.2, hknown.2, ?_⟩
    split at hc
    · cases hc
      cases hfst
    · rfl
    · cases hc
      cases hfst
    · cases hc
  · rintro ⟨hpointer, huses, hnone, hro, hwo, rfl⟩
    exact ⟨_, ⟨by simp [hpointer], huses, by simp [hnone, hro, hwo], rfl⟩, rfl⟩

theorem hasAt_readOnly {argNo : Nat} {arg : Argument Ty} (harg : header.args[argNo]? = some arg) :
    hasAt (afterAll T answers header attrs) (some argNo, .readOnly) = true ↔
      hasAt attrs (some argNo, .readOnly) = true ∨
        T.isPointerTy arg.type = true ∧ arg.numUses ≠ 0 ∧
          hasAt attrs (some argNo, .readNone) = false ∧
          hasAt attrs (some argNo, .readOnly) = false ∧
          hasAt attrs (some argNo, .writeOnly) = false ∧
          answers.getOptimisticChoice 4 (some argNo) .parameterMemBehavior = 2 := by
  have howner : owner (some argNo, .readOnly) = some .parameterMemBehavior := rfl
  rw [hasAt_afterAll howner, Bool.or_eq_true, decide_eq_true_eq, chosen,
    if_neg OptimisticChoiceKind.noConfusion, chosenAtParameter, harg]
  exact or_congr_right chosenForParameter_readOnly

/-- Only pointers get new attributes. -/
theorem hasAt_pointer {argNo : Nat} {arg : Argument Ty} (harg : header.args[argNo]? = some arg)
    {k : AttrKind} (h : hasAt (afterAll T answers header attrs) (some argNo, k) = true) :
    hasAt attrs (some argNo, k) = true ∨ T.isPointerTy arg.type = true := by
  cases howner : owner (some argNo, k) with
  | none => exact .inl ((hasAt_afterAll_of_none howner).symm.trans h)
  | some kind =>
      rw [hasAt_afterAll howner, Bool.or_eq_true, decide_eq_true_eq] at h
      refine h.imp_right fun hchosen => ?_
      obtain ⟨⟨j, value⟩, hchosen, -⟩ := Option.map_eq_some_iff.mp hchosen
      rw [chosen] at hchosen
      split at hchosen
      · rw [returnedAt] at hchosen
        obtain ⟨⟨-, -, hreturned⟩, -⟩ := Option.ite_none_right_eq_some.mp hchosen
        obtain ⟨hpointer, arg', harg', htype⟩ := returnedArg_eq_some hreturned
        obtain rfl := Option.some.inj (harg.symm.trans harg')
        rwa [htype]
      · rw [chosenAtParameter, harg] at hchosen
        simp only [chosenForParameter, Option.ite_none_left_eq_some, Bool.not_eq_true',
          Bool.not_eq_false] at hchosen
        exact hchosen.1

/-- It becomes `readonly` beside `inalloca` by such a choice only. -/
theorem inAlloca_afterAll {argNo : Nat} {arg : Argument Ty}
    (harg : header.args[argNo]? = some arg)
    (h : hasAt attrs (some argNo, .inAlloca) = true → hasAt attrs (some argNo, .readOnly) = false) :
    (hasAt attrs (some argNo, .inAlloca) = true →
        hasAt (afterAll T answers header attrs) (some argNo, .readOnly) = false) ↔
      (T.isPointerTy arg.type = true → arg.numUses ≠ 0 →
        hasAt attrs (some argNo, .inAlloca) = true →
        hasAt attrs (some argNo, .readNone) = false →
        hasAt attrs (some argNo, .readOnly) = false →
        hasAt attrs (some argNo, .writeOnly) = false →
        answers.getOptimisticChoice 4 (some argNo) .parameterMemBehavior ≠ 2) := by
  constructor
  · intro hafter hpointer huses halloca hnone hro hwo hchoice
    have hreadOnly : hasAt (afterAll T answers header attrs) (some argNo, .readOnly) = true :=
      (hasAt_readOnly harg).mpr (.inr ⟨hpointer, huses, hnone, hro, hwo, hchoice⟩)
    rw [hafter halloca] at hreadOnly
    cases hreadOnly
  · intro hchoice halloca
    by_contra hafter
    obtain hro | ⟨hpointer, huses, hnone, hro, hwo, htwo⟩ :=
      (hasAt_readOnly harg).mp (Bool.eq_true_of_not_eq_false hafter)
    · rw [h halloca] at hro
      cases hro
    · exact hchoice hpointer huses halloca hnone hro hwo htwo

theorem structRet_afterAll {argNo : Nat}
    (h : hasAt attrs (some argNo, .structRet) = true →
      hasAt attrs (some argNo, .returned) = false) :
    (hasAt attrs (some argNo, .structRet) = true →
        hasAt (afterAll T answers header attrs) (some argNo, .returned) = false) ↔
      (header.isAnnotated = true → returnedArg T answers header = some argNo →
        hasAt attrs (some argNo, .structRet) = false) := by
  constructor
  · intro hafter hannotated htarget
    by_contra hsret
    have hreturned : hasAt (afterAll T answers header attrs) (some argNo, .returned) = true :=
      (hasAt_returned argNo).mpr (.inr ⟨hannotated, htarget⟩)
    rw [hafter (Bool.eq_true_of_not_eq_false hsret)] at hreturned
    cases hreturned
  · intro htarget hsret
    by_contra hafter
    obtain hreturned | ⟨hannotated, hreturned⟩ :=
      (hasAt_returned argNo).mp (Bool.eq_true_of_not_eq_false hafter)
    · rw [h hsret] at hreturned
      cases hreturned
    · rw [htarget hannotated hreturned] at hsret
      cases hsret

/-- A parameter stays valid unless `inalloca` and `readonly` or `sret` and `returned` meet. -/
theorem argumentOk_afterAll {argNo : Nat} {arg : Argument Ty}
    (harg : header.args[argNo]? = some arg) (h : ArgumentOk T header attrs argNo arg) :
    ArgumentOk T header (afterAll T answers header attrs) argNo arg ↔
      (T.isPointerTy arg.type = true → arg.numUses ≠ 0 →
        hasAt attrs (some argNo, .inAlloca) = true →
        hasAt attrs (some argNo, .readNone) = false →
        hasAt attrs (some argNo, .readOnly) = false →
        hasAt attrs (some argNo, .writeOnly) = false →
        answers.getOptimisticChoice 4 (some argNo) .parameterMemBehavior ≠ 2) ∧
      (header.isAnnotated = true → returnedArg T answers header = some argNo →
        hasAt attrs (some argNo, .structRet) = false) := by
  have hsame (k : AttrKind) (hk : isAnnotated k = false) :
      hasAt (afterAll T answers header attrs) (some argNo, k) = hasAt attrs (some argNo, k) :=
    hasAt_afterAll_of_not_isAnnotated _ hk
  have hparameter := h.parameter.annotated_iff hsame fun k => hasAt_pointer harg
  rw [← inAlloca_afterAll harg h.parameter.inAlloca, ← structRet_afterAll h.parameter.structRet]
  refine ⟨fun hok => hparameter.mp hok.parameter, fun hok => ?_⟩
  refine ⟨hparameter.mpr hok, fun hreturned => ?_, fun hsret => ?_, fun halloca => ?_⟩
  · obtain hreturned | ⟨-, hreturned⟩ := (hasAt_returned argNo).mp hreturned
    · exact h.returned hreturned
    · obtain ⟨-, arg', harg', htype⟩ := returnedArg_eq_some hreturned
      obtain rfl := Option.some.inj (harg.symm.trans harg')
      rw [htype]
      exact T.bitCast_self _
  · exact h.structRet ((hsame .structRet rfl).symm.trans hsret)
  · exact h.inAlloca ((hsame .inAlloca rfl).symm.trans halloca)

theorem isAnnotated_of_mem_seenOnce {k : AttrKind} (hk : k ∈ seenOnce) (hne : k ≠ .returned) :
    isAnnotated k = false := by
  cases k <;> first | rfl | exact absurd rfl hne | exact absurd hk (by decide)

/-- A second parameter is returned if the new one is not the old one. -/
theorem once_afterAll (h : ∀ k ∈ seenOnce, Once attrs header.args.length k) :
    (∀ k ∈ seenOnce, Once (afterAll T answers header attrs) header.args.length k) ↔
      (header.isAnnotated = true → ∀ target, returnedArg T answers header = some target →
        ∀ argNo < header.args.length, argNo ≠ target →
          hasAt attrs (some argNo, .returned) = false) := by
  constructor
  · intro hafter hannotated target htarget argNo hargNo hne
    obtain ⟨-, arg, harg, -⟩ := returnedArg_eq_some htarget
    obtain ⟨hlt, -⟩ := List.getElem?_eq_some_iff.mp harg
    by_contra hreturned
    have hreturned : hasAt (afterAll T answers header attrs) (some argNo, .returned) = true :=
      (hasAt_returned argNo).mpr (.inl (Bool.eq_true_of_not_eq_false hreturned))
    have hnew : hasAt (afterAll T answers header attrs) (some target, .returned) = true :=
      (hasAt_returned target).mpr (.inr ⟨hannotated, htarget⟩)
    exact hne (hafter .returned (by decide) argNo hargNo target hlt hreturned hnew)
  · intro hreturned k hk i hi j hj hasi hasj
    by_cases hkind : k = .returned
    · subst hkind
      obtain holdi | ⟨hannotated, htargeti⟩ := (hasAt_returned i).mp hasi
      · obtain holdj | ⟨hannotated, htargetj⟩ := (hasAt_returned j).mp hasj
        · exact h .returned hk i hi j hj holdi holdj
        · by_contra hne
          rw [hreturned hannotated j htargetj i hi hne] at holdi
          cases holdi
      · obtain holdj | ⟨-, htargetj⟩ := (hasAt_returned j).mp hasj
        · by_contra hne
          rw [hreturned hannotated i htargeti j hj (Ne.symm hne)] at holdj
          cases holdj
        · exact Option.some.inj (htargeti.symm.trans htargetj)
    · have hsame (argNo : Nat) :
          hasAt (afterAll T answers header attrs) (some argNo, k) = hasAt attrs (some argNo, k) :=
        hasAt_afterAll_of_not_isAnnotated _ (isAnnotated_of_mem_seenOnce hk hkind)
      exact h k hk i hi j hj ((hsame i).symm.trans hasi) ((hsame j).symm.trans hasj)

/-! ### The return value and the function -/

theorem returnValue_afterAll
    (hon : ∀ k ∈ notOnReturn, (attrs .returnIndex).hasAttribute k = false)
    (h : ParameterOk T (attrs .returnIndex).hasAttribute header.returnType) :
    (∀ k ∈ notOnReturn,
      (afterAll T answers header attrs .returnIndex).hasAttribute k = false) ∧
    ParameterOk T (afterAll T answers header attrs .returnIndex).hasAttribute
      header.returnType := by
  have hsame (k : AttrKind) (hk : owner (none, k) = none) :
      (afterAll T answers header attrs .returnIndex).hasAttribute k =
        (attrs .returnIndex).hasAttribute k := hasAt_afterAll_of_none hk
  have hafter : ∀ k ∈ notOnReturn,
      (afterAll T answers header attrs .returnIndex).hasAttribute k = false := by
    intro k hk
    have howner : owner (none, k) = none := by
      cases k <;> first | rfl | exact absurd hk (by decide)
    rw [hsame k howner]
    exact hon k hk
  refine ⟨hafter, ?_⟩
  refine (h.annotated_iff (fun k hk => hsame k (owner_of_not_isAnnotated hk)) fun k hk => ?_).mpr
    ⟨fun _ => hafter .readOnly (by decide), fun _ => hafter .returned (by decide)⟩
  cases howner : owner (none, k) with
  | none => exact .inl ((hsame k howner).symm.trans hk)
  | some kind =>
      have hk : hasAt (afterAll T answers header attrs) (none, k) = true := hk
      rw [hasAt_afterAll howner, Bool.or_eq_true, decide_eq_true_eq] at hk
      refine hk.imp_right fun hchosen => ?_
      obtain ⟨⟨j, value⟩, hchosen, -⟩ := Option.map_eq_some_iff.mp hchosen
      simp only [chosen, chosenAtReturn, chosenForReturn, Option.ite_none_left_eq_some,
        Option.ite_none_right_eq_some, Bool.not_eq_true', Bool.not_eq_false] at hchosen
      exact hchosen.2.1

theorem fnOk_afterAll (h : FnOk T header (attrs .functionIndex)) :
    FnOk T header (afterAll T answers header attrs .functionIndex) ↔
      (header.isAnnotated = true → (attrs .functionIndex).hasAttribute .speculatable = true →
        (attrs .functionIndex).hasAttribute .readOnly = false ∧
          (attrs .functionIndex).hasAttribute .writeOnly = false ∧
          (attrs .functionIndex).hasAttribute .inaccessibleMemOnly = false ∧
          (attrs .functionIndex).hasAttribute .inaccessibleMemOrArgMemOnly = false) := by
  cases hannotated : header.isAnnotated with
  | false =>
      rw [afterAll, afterKinds_functionIndex_of_not_isAnnotated hannotated]
      exact iff_of_true h fun h => absurd h Bool.false_ne_true
  | true =>
      obtain ⟨heffects, hspec⟩ := afterKinds_functionIndex T answers header choiceKinds attrs
      have hspec := hspec hannotated (by decide)
      rw [imp_iff_right rfl, ← h.memory.not_clashes_iff]
      refine (h.effects_iff heffects.same heffects.allocSize).trans ⟨fun hmemory hclash => ?_,
        fun hclash => ?_⟩
      · exact hmemory.not_clashes hspec (heffects.clashes hclash)
      · obtain ⟨hclash, hrw⟩ := heffects.memory hclash h.memory.readOnly
        exact memoryOk_of_not_clashes hclash hrw

/-- What the verifier accepts afterwards. -/
theorem attributesOk_afterAll (h : AttributesOk T header attrs) :
    (∀ kind ∈ choiceKinds, KindFits T answers header attrs kind) ∧
        AttributesOk T header (afterAll T answers header attrs) ↔
      Compatible T answers header attrs := by
  constructor
  · rintro ⟨hfits, hok⟩
    obtain ⟨hbytes, hreturn⟩ := kindFits_choiceKinds.mp hfits
    refine ⟨hbytes, fun argNo arg harg => ?_, hreturn, (fnOk_afterAll h.function).mp hok.function,
      fun hannotated target htarget => ?_⟩
    · exact ((argumentOk_afterAll harg (h.arguments argNo arg harg)).mp
        (hok.arguments argNo arg harg)).1
    · obtain ⟨-, arg, harg, -⟩ := returnedArg_eq_some htarget
      exact ⟨((argumentOk_afterAll harg (h.arguments target arg harg)).mp
          (hok.arguments target arg harg)).2 hannotated htarget,
        (once_afterAll h.once).mp hok.once hannotated target htarget⟩
  · intro hcompatible
    refine ⟨kindFits_choiceKinds.mpr ⟨hcompatible.bytes, hcompatible.returnBytes⟩, ?_⟩
    obtain ⟨honReturn, hreturn⟩ := returnValue_afterAll h.onReturn h.returnValue
    refine ⟨honReturn, hreturn, fun argNo arg harg => ?_, ?_, ?_⟩
    · exact (argumentOk_afterAll harg (h.arguments argNo arg harg)).mpr
        ⟨hcompatible.inAlloca argNo arg harg,
          fun hannotated htarget => (hcompatible.returned hannotated argNo htarget).1⟩
    · exact (once_afterAll h.once).mpr
        fun hannotated target htarget => (hcompatible.returned hannotated target htarget).2
    · exact (fnOk_afterAll h.function).mpr hcompatible.speculatable

end Parameters

/-! ### The run -/

section Run

variable [DecidableEq Ty]

/-- The passes end, and the verifier accepts what they leave. -/
def StaysValid (T : TypeInfo Ty) (answers : Answers) (inst : Nat) (f : IRFunction Ty) : Prop :=
  ∃ f', annotateAllKinds T answers inst f = .ok f' ∧ verifyFunctionAttrs T f' = true

/-- Only the first instance annotates functions. -/
theorem annotateAllKinds_of_pos {inst : Nat} (hinst : 0 < inst) :
    annotateAllKinds T answers inst f = .ok f := by
  have hkind (kind : OptimisticChoiceKind) : annotateKind T answers kind inst f = .ok f := by
    rw [annotateKind, annotateParameters, if_pos hinst]
    exact if_pos hinst
  rw [annotateAllKinds]
  induction choiceKinds with
  | nil => rfl
  | cons kind kinds ih =>
      rw [List.foldlM_cons, hkind]
      exact ih

theorem staysValid_iff {inst : Nat} (hvalid : verifyFunctionAttrs T f = true) :
    StaysValid T answers inst f ↔
      (inst = 0 → Compatible T answers f.toFunctionHeader f.attributes) := by
  obtain rfl | hinst := Nat.eq_zero_or_pos inst
  · rw [imp_iff_right rfl, ← attributesOk_afterAll (verifyFunctionAttrs_eq_true.mp hvalid)]
    constructor
    · rintro ⟨f', hok, hvalid'⟩
      obtain ⟨hfits, hheader, hattributes⟩ := foldlM_annotateKind_eq_ok nodup_choiceKinds hok
      rw [verifyFunctionAttrs_eq_true, hheader, hattributes] at hvalid'
      exact ⟨hfits, hvalid'⟩
    · rintro ⟨hfits, hok'⟩
      obtain ⟨f', hok⟩ := exists_foldlM_annotateKind nodup_choiceKinds hfits
      obtain ⟨-, hheader, hattributes⟩ := foldlM_annotateKind_eq_ok nodup_choiceKinds hok
      refine ⟨f', hok, ?_⟩
      rw [verifyFunctionAttrs_eq_true, hheader, hattributes]
      exact hok'
  · refine iff_of_true ⟨f, annotateAllKinds_of_pos hinst, hvalid⟩ fun hzero => ?_
    omega

end Run

/-- The type of bytes and that of pointers to them. -/
def bytePointers : TypeInfo Bool where
  isPointerTy ty := ty
  isIntegerTy ty := !ty
  getPointerElementType _ := false
  isSized _ := true
  getTypeAllocSize _ := 1
  getPointerSize := 8
  canLosslesslyBitCastTo ty ty' := ty = ty'
  bitCast_self _ := decide_eq_true rfl

/-- The first choice that annotates something, for every question. -/
def firstChoices : Answers where
  getOptimisticChoice numChoices _ _ := if 1 < numChoices then 1 else 0
  inRange numChoices _ _ h := by split <;> omega

/-- A function of two pointers that is known to return the first. -/
def returnsFirst : IRFunction Bool where
  name := []
  args := [⟨true, 1⟩, ⟨true, 1⟩]
  returnType := true
  numUses := 1
  isIntrinsic := false
  isDeclaration := false
  hasGlobalUnnamedAddr := false
  hasInternalLinkage := false
  attributes index := if index = .param 0 then [.enum .returned 0] else []

theorem staysValid_iff_returnsFirst :
    verifyFunctionAttrs bytePointers returnsFirst = true ∧
      (StaysValid bytePointers firstChoices 0 returnsFirst ↔
        (0 = 0 → Compatible bytePointers firstChoices returnsFirst.toFunctionHeader
          returnsFirst.attributes)) :=
  ⟨by decide, staysValid_iff (by decide)⟩

/-- The first choice is that the last pointer is returned. -/
theorem not_staysValid_returnsFirst :
    verifyFunctionAttrs bytePointers returnsFirst = true ∧
      ¬ StaysValid bytePointers firstChoices 0 returnsFirst := by
  refine ⟨by decide, ?_⟩
  rintro ⟨final, hok, hvalid⟩
  have hbroken : (annotateAllKinds bytePointers firstChoices 0 returnsFirst).map
      (verifyFunctionAttrs bytePointers) = .ok false := by decide
  rw [hok] at hbroken
  exact absurd (Except.ok.inj hbroken) (by simp [hvalid])

end Petospa

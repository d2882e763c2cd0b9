import Petospa.Annotator.AttributePasses
import Petospa.Annotator.AttributeRuns

/-!
# What is asked about attributes

The questions of a kind about the attributes of a function depend on what the kind
decides about, and no other kind changes that.
-/

namespace Petospa

open Text Interaction

namespace Passes

section Offers

variable {Fn Ty Const : Type} (T : TypeInfo Ty) (kind : OptimisticChoiceKind)

theorem isOpen_congr {o : Offer} {attrs attrs' : AttributeSet}
    (h : ∀ k ∈ o.barred, attrs'.hasAttribute k = attrs.hasAttribute k) :
    o.isOpen attrs' = o.isOpen attrs := by
  rw [Offer.isOpen, Offer.isOpen, Bool.eq_iff_iff, List.all_eq_true, List.all_eq_true]
  exact forall₂_congr fun k hk => by rw [h k hk]

/-- The offer is about attributes at a place that the kind decides about. -/
def OwnedOffer (o : Offer) (p : Option Nat) : Prop :=
  (∀ k ∈ o.barred, owner (p, k) = some kind) ∧
    ∀ choice k value, o.chosen choice = some (k, value) → owner (p, k) = some kind

theorem ownedOffer_single {k : AttrKind} {p : Option Nat} (h : owner (p, k) = some kind) :
    OwnedOffer kind (.single k) p := by
  constructor
  · intro j hj
    rwa [List.mem_singleton.mp hj]
  · intro choice j value hchosen
    obtain ⟨-, hchosen⟩ := Option.ite_none_right_eq_some.mp hchosen
    obtain ⟨rfl, -⟩ := Prod.mk.inj (Option.some.inj hchosen)
    exact h

theorem ownedOffer_dereferenceable {ty : Ty} {p : Option Nat}
    (h : owner (p, .dereferenceable) = some kind) :
    OwnedOffer kind (dereferenceableOffer T ty) p := by
  constructor
  · intro j hj
    rwa [List.mem_singleton.mp hj]
  · intro choice j value hchosen
    obtain rfl := chosenDereferenceable_eq_some hchosen
    exact h

variable {T kind}

theorem ownedOffer_of_parameterOffer {ty : Ty} {o : Offer} (h : parameterOffer T kind ty = some o)
    (argNo : Nat) : OwnedOffer kind o (some argNo) := by
  unfold parameterOffer at h
  split at h
  · obtain rfl := Option.some.inj h
    exact ownedOffer_single _ rfl
  · obtain rfl := Option.some.inj h
    exact ownedOffer_single _ rfl
  · obtain rfl := Option.some.inj h
    exact ownedOffer_dereferenceable T _ rfl
  · obtain rfl := Option.some.inj h
    refine ⟨fun k hk => ?_, fun choice k value hchosen => ?_⟩
    · rw [List.mem_singleton.mp hk]
      rfl
    · obtain ⟨-, hchosen⟩ := Option.ite_none_right_eq_some.mp hchosen
      obtain ⟨rfl, -⟩ := Prod.mk.inj (Option.some.inj hchosen)
      rfl
  · obtain rfl := Option.some.inj h
    refine ⟨fun k hk => ?_, fun choice k value hchosen => ?_⟩
    · simp only [List.mem_cons, List.not_mem_nil, or_false] at hk
      obtain rfl | rfl | rfl := hk <;> rfl
    · dsimp only at hchosen
      split at hchosen <;> cases hchosen <;> rfl
  · cases h

theorem ownedOffer_of_argumentOffer {arg : Argument Ty} {o : Offer}
    (h : argumentOffer T kind arg = some o) (argNo : Nat) : OwnedOffer kind o (some argNo) := by
  simp only [argumentOffer, Option.ite_none_left_eq_some] at h
  exact ownedOffer_of_parameterOffer h.2.2 argNo

theorem ownedOffer_of_returnOffer {ty : Ty} {o : Offer} (h : returnOffer T kind ty = some o) :
    OwnedOffer kind o none := by
  simp only [returnOffer, Option.ite_none_left_eq_some] at h
  obtain ⟨-, h⟩ := h
  split at h
  · obtain rfl := Option.some.inj h
    exact ownedOffer_single _ rfl
  · obtain rfl := Option.some.inj h
    exact ownedOffer_dereferenceable T _ rfl
  · cases h

variable (kind) in
/-- The question of an offer. -/
def takeQuestions (f : Fn) (subject : Subject Const) (offer : Option Offer) (attrs : AttributeSet) :
    List (PassQuestion Fn Const) :=
  match offer with
  | none => []
  | some o =>
      if o.isOpen attrs then [.choice ⟨o.numChoices, f, subject, kind, o.numChoices_pos⟩] else []

theorem asks_take (f : Fn) (subject : Subject Const) (offer : Option Offer) (attrs : AttributeSet) :
    (take kind f subject offer attrs).Asks
      (fun chosen => ∀ c, chosen = some c → ∃ o choice, offer = some o ∧ o.chosen choice = some c)
      (takeQuestions kind f subject offer attrs) := by
  cases offer with
  | none => exact .done nofun
  | some o =>
      cases hopen : o.isOpen attrs with
      | false =>
          simp only [take, takeQuestions, hopen, Bool.false_eq_true, if_false]
          exact .done nofun
      | true =>
          simp only [take, takeQuestions, hopen, if_true]
          exact .ask fun choice => .done fun c hc => ⟨o, choice, rfl, hc⟩

theorem takeQuestions_congr {f : Fn} {subject : Subject Const} {offer : Option Offer}
    {attrs attrs' : AttributeSet}
    (h : ∀ o, offer = some o → ∀ k ∈ o.barred, attrs'.hasAttribute k = attrs.hasAttribute k) :
    takeQuestions kind f subject offer attrs' = takeQuestions kind f subject offer attrs := by
  cases offer with
  | none => rfl
  | some o => rw [takeQuestions, takeQuestions, isOpen_congr (h o rfl)]

end Offers

/-! ### Parameters -/

section Parameters

variable {Fn Ty Const : Type} {T : TypeInfo Ty} {kind : OptimisticChoiceKind} {f : Fn}

variable (T kind f) in
/-- The questions about the parameters from the one with number `argNo` on. -/
def argQuestions : Nat → List (Argument Ty) → AttributeList → List (PassQuestion Fn Const)
  | _, [], _ => []
  | argNo, arg :: args, attrs =>
      takeQuestions kind f (.local (.argument argNo)) (argumentOffer T kind arg)
        (attrs (.param argNo)) ++ argQuestions (argNo + 1) args attrs

theorem argQuestions_congr {argNo : Nat} {args : List (Argument Ty)} {attrs attrs' : AttributeList}
    (h : ∀ n k, argNo ≤ n → owner (some n, k) = some kind →
      hasAt attrs' (some n, k) = hasAt attrs (some n, k)) :
    (argQuestions T kind f argNo args attrs' : List (PassQuestion Fn Const)) =
      argQuestions T kind f argNo args attrs := by
  induction args generalizing argNo with
  | nil => rfl
  | cons arg args ih =>
      have htail := ih fun n k hn => h n k (Nat.le_of_succ_le hn)
      rw [argQuestions, argQuestions, htail]
      congr 1
      apply takeQuestions_congr
      intro o ho k hk
      exact h argNo k le_rfl ((ownedOffer_of_argumentOffer ho argNo).1 k hk)

/-- Attributes that differ in what a kind decides about. -/
structure KeepsOthers (kind : OptimisticChoiceKind) (attrs attrs' : AttributeList) : Prop where
  functionIndex : attrs' .functionIndex = attrs .functionIndex
  others : ∀ key, owner key ≠ some kind → hasAt attrs' key = hasAt attrs key

theorem KeepsOthers.refl (attrs : AttributeList) : KeepsOthers kind attrs attrs :=
  ⟨rfl, fun _ _ => rfl⟩

theorem KeepsOthers.trans {attrs attrs' attrs'' : AttributeList} (h : KeepsOthers kind attrs attrs')
    (h' : KeepsOthers kind attrs' attrs'') : KeepsOthers kind attrs attrs'' where
  functionIndex := h'.functionIndex.trans h.functionIndex
  others key hkey := (h'.others key hkey).trans (h.others key hkey)

theorem keepsOthers_added {attrs : AttributeList} {p : Option Nat}
    {chosen : Option (AttrKind × Nat)}
    (h : ∀ k value, chosen = some (k, value) → owner (p, k) = some kind) :
    KeepsOthers kind attrs (Function.update attrs (place p) ((attrs (place p)).added chosen)) where
  functionIndex := by
    apply Function.update_of_ne
    cases p <;> exact nofun
  others := by
    rintro ⟨p', k⟩ hkey
    rw [hasAt, hasAt]
    by_cases hplace : place p' = place p
    · have hsame : p' = p := by
        cases p <;> cases p' <;> simp_all [place]
      subst hsame
      rw [Function.update_self, AttributeSet.hasAttribute_added]
      have hnot : chosen.map Prod.fst ≠ some k := by
        intro hk
        obtain ⟨⟨k', value⟩, hchosen, rfl⟩ := Option.map_eq_some_iff.mp hk
        exact hkey (h k' value hchosen)
      simp [hnot]
    · rw [Function.update_of_ne hplace]

theorem asks_addChosen {attrs : AttributeList} {p : Option Nat} {chosen : Option (AttrKind × Nat)}
    (h : ∀ k value, chosen = some (k, value) → owner (p, k) = some kind) :
    (Program.ofExcept (attrs.addChosen (place p) chosen) : Pass Fn Const AttributeList).Asks
      (fun attrs' => KeepsOthers kind attrs attrs' ∧
        ∀ index ≠ place p, attrs' index = attrs index) [] := by
  cases hadd : attrs.addChosen (place p) chosen with
  | error e => exact .fails [] e
  | ok attrs' =>
      obtain ⟨-, rfl⟩ := addChosen_eq_ok.mp hadd
      exact .done ⟨keepsOthers_added h, fun index hindex => Function.update_of_ne hindex _ _⟩

theorem asks_annotateArgs (argNo : Nat) (args : List (Argument Ty)) (attrs : AttributeList) :
    (annotateArgs T kind f argNo args attrs : Pass Fn Const AttributeList).Asks
      (fun attrs' => KeepsOthers kind attrs attrs' ∧ attrs' .returnIndex = attrs .returnIndex)
      (argQuestions T kind f argNo args attrs) := by
  induction args generalizing argNo attrs with
  | nil => exact .done ⟨.refl attrs, rfl⟩
  | cons arg args ih =>
      rw [annotateArgs, argQuestions]
      refine (asks_take f _ _ _).bind fun chosen hchosen => ?_
      have howner : ∀ k value, chosen = some (k, value) → owner (some argNo, k) = some kind := by
        intro k value hk
        obtain ⟨o, choice, ho, hchoice⟩ := hchosen (k, value) hk
        exact (ownedOffer_of_argumentOffer ho argNo).2 choice k value hchoice
      refine (asks_addChosen howner).bind fun attrs' hattrs' => ?_
      obtain ⟨hkeeps, hother⟩ := hattrs'
      have hquestions : (argQuestions T kind f (argNo + 1) args attrs' :
          List (PassQuestion Fn Const)) = argQuestions T kind f (argNo + 1) args attrs := by
        apply argQuestions_congr
        intro n k hn _
        have hne : AttrIndex.param n ≠ place (some argNo) := by
          rw [place, ne_eq, AttrIndex.param.injEq]
          omega
        rw [hasAt, hasAt, place, hother _ hne]
      rw [← hquestions]
      refine (ih (argNo + 1) attrs').mono fun _ h => ⟨hkeeps.trans h.1, h.2.trans ?_⟩
      apply hother
      rintro ⟨⟩

end Parameters

/-! ### Functions -/

section Functions

variable {Fn Ty Const : Type} [DecidableEq Ty] {T : TypeInfo Ty} {kind : OptimisticChoiceKind}
variable {f : Fn}

variable (kind f) in
def internalQuestions (fn : IRFunction Ty) : List (PassQuestion Fn Const) :=
  if kind = .functionInternal && !fn.isDeclaration && !fn.hasInternalLinkage && fn.numUses ≠ 0 then
    [.choice ⟨2, f, .function, kind, Nat.two_pos⟩]
  else []

variable (kind f) in
def memEffectsQuestions (name : Str) (attrs : AttributeSet) : List (PassQuestion Fn Const) :=
  if kind = .functionMemEffects then
    match memEffectsOffer name (attrs.hasAttribute .speculatable) (settled attrs) with
    | none => []
    | some others => [.choice ⟨others + 1, f, .function, kind, Nat.succ_pos others⟩]
  else []

variable (T kind f) in
def returnedQuestions (header : FunctionHeader Ty) : List (PassQuestion Fn Const) :=
  let possible := header.possibleReturnedArgs
  if kind = .parameterReturned ∧ possible ≠ [] ∧ T.isPointerTy header.returnType = true then
    [.choice (.among possible.length f .function kind)]
  else []

variable (T kind f) in
/-- The questions of `annotateFunction`. -/
def functionQuestions (fn : IRFunction Ty) : List (PassQuestion Fn Const) :=
  if fn.numUses = 0 && !fn.isIntrinsic then []
  else
    internalQuestions kind f fn ++
      (takeQuestions kind f .function (unwindOffer kind) (fn.attributes .functionIndex) ++
        memEffectsQuestions kind f fn.name (fn.attributes .functionIndex)) ++
      takeQuestions kind f .function (returnOffer T kind fn.returnType)
        (fn.attributes .returnIndex) ++
      returnedQuestions T kind f fn.toFunctionHeader

variable (T kind) in
/-- The questions of a kind about the attributes of a function. -/
def attributeQuestions (inst : Nat) (f : Fn) (fn : IRFunction Ty) :
    List (PassQuestion Fn Const) :=
  if 0 < inst then []
  else argQuestions T kind f 0 fn.args fn.attributes ++ functionQuestions T kind f fn

/-! What a kind asks is the same for two functions. -/

/-- Two functions are the same for a kind. -/
structure SameFor (kind : OptimisticChoiceKind) (fn fn' : IRFunction Ty) : Prop where
  header : fn'.toFunctionHeader = fn.toFunctionHeader
  owned : ∀ key, owner key = some kind → hasAt fn'.attributes key = hasAt fn.attributes key
  linkage : kind = .functionInternal → fn'.hasInternalLinkage = fn.hasInternalLinkage
  unwind : kind = .functionNoUnwind →
    (fn'.attributes .functionIndex).hasAttribute .noUnwind =
      (fn.attributes .functionIndex).hasAttribute .noUnwind
  effects : kind = .functionMemEffects → ∀ k ≠ .noUnwind,
    (settled (fn'.attributes .functionIndex)).hasAttribute k =
      (settled (fn.attributes .functionIndex)).hasAttribute k

namespace SameFor

variable {fn fn' fn'' : IRFunction Ty}

omit [DecidableEq Ty] in
theorem refl (fn : IRFunction Ty) : SameFor kind fn fn :=
  ⟨rfl, fun _ _ => rfl, fun _ => rfl, fun _ => rfl, fun _ _ _ => rfl⟩

omit [DecidableEq Ty] in
theorem trans (h : SameFor kind fn fn') (h' : SameFor kind fn' fn'') : SameFor kind fn fn'' where
  header := h'.header.trans h.header
  owned key hkey := (h'.owned key hkey).trans (h.owned key hkey)
  linkage hkind := (h'.linkage hkind).trans (h.linkage hkind)
  unwind hkind := (h'.unwind hkind).trans (h.unwind hkind)
  effects hkind k hk := (h'.effects hkind k hk).trans (h.effects hkind k hk)

omit [DecidableEq Ty] in
theorem symm (h : SameFor kind fn fn') : SameFor kind fn' fn where
  header := h.header.symm
  owned key hkey := (h.owned key hkey).symm
  linkage hkind := (h.linkage hkind).symm
  unwind hkind := (h.unwind hkind).symm
  effects hkind k hk := (h.effects hkind k hk).symm

end SameFor

omit [DecidableEq Ty] in
@[simp] theorem hasAttribute_settled (attrs : AttributeSet) (k : AttrKind) :
    (settled attrs).hasAttribute k =
      (attrs.hasAttribute k || (attrs.hasAttribute .speculatable && decide (k = .readNone))) := by
  unfold settled
  split <;> simp_all

omit [DecidableEq Ty] in
theorem memEffectsOffer_congr {name : Str} {isSpeculatable : Bool} {attrs attrs' : AttributeSet}
    (h : ∀ k ≠ .noUnwind, attrs'.hasAttribute k = attrs.hasAttribute k) :
    memEffectsOffer name isSpeculatable attrs' = memEffectsOffer name isSpeculatable attrs := by
  simp only [memEffectsOffer, h .readNone (by decide), h .writeOnly (by decide),
    h .inaccessibleMemOnly (by decide), h .argMemOnly (by decide),
    h .inaccessibleMemOrArgMemOnly (by decide)]

omit [DecidableEq Ty] in
theorem memEffectsQuestions_congr {name : Str} {attrs attrs' : AttributeSet}
    (h : kind = .functionMemEffects → ∀ k ≠ .noUnwind,
      (settled attrs').hasAttribute k = (settled attrs).hasAttribute k) :
    (memEffectsQuestions kind f name attrs' : List (PassQuestion Fn Const)) =
      memEffectsQuestions kind f name attrs := by
  unfold memEffectsQuestions
  split
  · rename_i hkind
    have hspec : attrs'.hasAttribute .speculatable = attrs.hasAttribute .speculatable := by
      simpa using h hkind .speculatable (by decide)
    rw [hspec, memEffectsOffer_congr (h hkind)]
  · rfl

/-- The questions of a kind are those of a function that is the same for it. -/
theorem attributeQuestions_congr {fn fn' : IRFunction Ty} (h : SameFor kind fn fn') (inst : Nat) :
    (attributeQuestions T kind inst f fn' : List (PassQuestion Fn Const)) =
      attributeQuestions T kind inst f fn := by
  obtain ⟨header, internal, attributes⟩ := fn
  obtain ⟨header', internal', attributes'⟩ := fn'
  obtain rfl : header' = header := h.header
  have hargs : (argQuestions T kind f 0 header'.args attributes' : List (PassQuestion Fn Const)) =
      argQuestions T kind f 0 header'.args attributes :=
    argQuestions_congr fun n k _ hk => h.owned (some n, k) hk
  have hinternal : (internalQuestions kind f ⟨header', internal', attributes'⟩ :
      List (PassQuestion Fn Const)) = internalQuestions kind f ⟨header', internal, attributes⟩ := by
    by_cases hkind : kind = .functionInternal
    · obtain rfl : internal' = internal := h.linkage hkind
      rfl
    · simp [internalQuestions, hkind]
  have hunwind : (takeQuestions kind f .function (unwindOffer kind) (attributes' .functionIndex) :
      List (PassQuestion Fn Const)) =
        takeQuestions kind f .function (unwindOffer kind) (attributes .functionIndex) := by
    apply takeQuestions_congr
    intro o ho k hk
    obtain ⟨hkind, ho⟩ := Option.ite_none_right_eq_some.mp ho
    obtain rfl := Option.some.inj ho
    obtain rfl := List.mem_singleton.mp hk
    exact h.unwind hkind
  have hreturn : (takeQuestions kind f .function (returnOffer T kind header'.returnType)
      (attributes' .returnIndex) : List (PassQuestion Fn Const)) =
        takeQuestions kind f .function (returnOffer T kind header'.returnType)
          (attributes .returnIndex) := by
    apply takeQuestions_congr
    intro o ho k hk
    exact h.owned (none, k) ((ownedOffer_of_returnOffer ho).1 k hk)
  have heffects : (memEffectsQuestions kind f header'.name (attributes' .functionIndex) :
      List (PassQuestion Fn Const)) =
        memEffectsQuestions kind f header'.name (attributes .functionIndex) :=
    memEffectsQuestions_congr h.effects
  simp only [attributeQuestions, functionQuestions, hargs, hinternal, hunwind, hreturn, heffects]

/-! The passes ask these questions and change what the kind is about. -/

omit [DecidableEq Ty] in
theorem asks_internalize (fn : IRFunction Ty) :
    (internalize kind f fn : Pass Fn Const Bool).Asks
      (fun internal => internal = true → kind = .functionInternal)
      (internalQuestions kind f fn) := by
  unfold internalize internalQuestions
  split
  · rename_i hasks
    simp only [Bool.and_eq_true, decide_eq_true_eq] at hasks
    exact .ask fun choice => .done fun _ => hasks.1.1.1
  · exact .done nofun

/-- Sets of attributes that are the same for all other kinds. -/
structure KeepsEffects (kind : OptimisticChoiceKind) (attrs attrs' : AttributeSet) : Prop where
  unwind : kind ≠ .functionNoUnwind → attrs'.hasAttribute .noUnwind = attrs.hasAttribute .noUnwind
  effects : kind ≠ .functionMemEffects → ∀ k ≠ .noUnwind,
    (settled attrs').hasAttribute k = (settled attrs).hasAttribute k

theorem noUnwind_notMem_memEffects {choice : Nat} {kinds : List AttrKind}
    (h : memEffects choice = .ok kinds) : .noUnwind ∉ kinds := by
  unfold memEffects at h
  split at h
  all_goals first | (obtain rfl := Except.ok.inj h; decide) | cases h

theorem asks_annotateMemEffects (name : Str) (isSpeculatable : Bool) (attrs : AttributeSet) :
    (annotateMemEffects kind f name isSpeculatable attrs : Pass Fn Const AttributeSet).Asks
      (fun attrs' => attrs'.hasAttribute .noUnwind = attrs.hasAttribute .noUnwind)
      (match memEffectsOffer name isSpeculatable attrs with
        | none => []
        | some others => [.choice ⟨others + 1, f, .function, kind, Nat.succ_pos others⟩]) := by
  cases hoffer : memEffectsOffer name isSpeculatable attrs with
  | none =>
      rw [annotateMemEffects, hoffer]
      exact .done rfl
  | some others =>
      rw [annotateMemEffects, hoffer]
      apply asks_getOptimisticChoice
      intro choice
      cases hkinds : memEffects choice with
      | error e => exact .fails [] e
      | ok kinds =>
          refine .done ?_
          rw [hasAttribute_foldl, decide_eq_false (noUnwind_notMem_memEffects hkinds),
            Bool.or_false]
          split <;> simp

theorem asks_annotateEffects (name : Str) (attrs : AttributeSet) :
    (annotateEffects kind f name attrs : Pass Fn Const AttributeSet).Asks (KeepsEffects kind attrs)
      (takeQuestions kind f .function (unwindOffer kind) attrs ++
        memEffectsQuestions kind f name attrs) := by
  rw [annotateEffects]
  refine (asks_take f _ _ _).bind fun chosen hchosen => ?_
  have hunwind : ∀ c, chosen = some c → kind = .functionNoUnwind ∧ c.1 = .noUnwind := by
    intro c hc
    obtain ⟨o, choice, ho, hchoice⟩ := hchosen c hc
    obtain ⟨hkind, ho⟩ := Option.ite_none_right_eq_some.mp ho
    obtain rfl := Option.some.inj ho
    obtain ⟨-, hchoice⟩ := Option.ite_none_right_eq_some.mp hchoice
    exact ⟨hkind, (congrArg Prod.fst (Option.some.inj hchoice)).symm⟩
  have hadded : ∀ k ≠ .noUnwind, (attrs.added chosen).hasAttribute k = attrs.hasAttribute k := by
    intro k hk
    have hnot : chosen.map Prod.fst ≠ some k := by
      intro hc
      obtain ⟨c, hchosen, rfl⟩ := Option.map_eq_some_iff.mp hc
      exact hk (hunwind c hchosen).2
    simp [hnot]
  by_cases hkind : kind = .functionMemEffects
  · have hnone : chosen = none := by
      cases chosen with
      | none => rfl
      | some c =>
          have hother := (hunwind c rfl).1
          rw [hkind] at hother
          cases hother
    subst hnone
    simp only [if_pos hkind, memEffectsQuestions, AttributeSet.added]
    refine (asks_annotateMemEffects _ _ _).mono fun attrs' h =>
      ⟨fun _ => ?_, fun h => absurd hkind h⟩
    simpa using h
  · simp only [if_neg hkind, memEffectsQuestions]
    refine .done ⟨fun hother => ?_, fun _ k hk => ?_⟩
    · have hnone : chosen = none := by
        cases chosen with
        | none => rfl
        | some c => exact absurd (hunwind c rfl).1 hother
      simp [hnone, AttributeSet.added]
    · simp [hadded k hk, hadded .speculatable (by decide)]

theorem asks_annotateReturned (header : FunctionHeader Ty) (attrs : AttributeList) :
    (annotateReturned T kind f header attrs : Pass Fn Const AttributeList).Asks
      (KeepsOthers kind attrs) (returnedQuestions T kind f header) := by
  unfold annotateReturned returnedQuestions
  dsimp only
  split
  · rename_i hasks
    obtain ⟨rfl, -⟩ := hasks
    apply asks_getOptimisticChoice
    intro decision
    split
    · exact .done (.refl attrs)
    · split
      · exact .fails [] _
      · have howner (argNo : Nat) : ∀ k value, some (AttrKind.returned, 0) = some (k, value) →
            owner (some argNo, k) = some .parameterReturned := by
          rintro _ _ ⟨⟩
          rfl
        exact .done (keepsOthers_added (howner _))
  · exact .done (.refl attrs)

/-- Two functions that are the same for all kinds but one. -/
structure Keeps (kind : OptimisticChoiceKind) (fn fn' : IRFunction Ty) : Prop where
  header : fn'.toFunctionHeader = fn.toFunctionHeader
  linkage : kind ≠ .functionInternal → fn'.hasInternalLinkage = fn.hasInternalLinkage
  effects : KeepsEffects kind (fn.attributes .functionIndex) (fn'.attributes .functionIndex)
  others : ∀ key, owner key ≠ some kind → hasAt fn'.attributes key = hasAt fn.attributes key

namespace Keeps

variable {fn fn' fn'' : IRFunction Ty}

omit [DecidableEq Ty] in
theorem refl (fn : IRFunction Ty) : Keeps kind fn fn :=
  ⟨rfl, fun _ => rfl, ⟨fun _ => rfl, fun _ _ _ => rfl⟩, fun _ _ => rfl⟩

omit [DecidableEq Ty] in
theorem trans (h : Keeps kind fn fn') (h' : Keeps kind fn' fn'') : Keeps kind fn fn'' where
  header := h'.header.trans h.header
  linkage hkind := (h'.linkage hkind).trans (h.linkage hkind)
  effects :=
    { unwind := fun hkind => (h'.effects.unwind hkind).trans (h.effects.unwind hkind)
      effects := fun hkind k hk =>
        (h'.effects.effects hkind k hk).trans (h.effects.effects hkind k hk) }
  others key hkey := (h'.others key hkey).trans (h.others key hkey)

omit [DecidableEq Ty] in
theorem sameFor (h : Keeps kind fn fn') {j : OptimisticChoiceKind} (hne : kind ≠ j) :
    SameFor j fn fn' where
  header := h.header
  owned key hkey := h.others key fun hkind => hne (Option.some.inj (hkind.symm.trans hkey))
  linkage hj := h.linkage fun hkind => hne (hkind.trans hj.symm)
  unwind hj := h.effects.unwind fun hkind => hne (hkind.trans hj.symm)
  effects hj := h.effects.effects fun hkind => hne (hkind.trans hj.symm)

omit [DecidableEq Ty] in
theorem of_keepsOthers {attrs : AttributeList} (h : KeepsOthers kind fn.attributes attrs) :
    Keeps kind fn { fn with attributes := attrs } where
  header := rfl
  linkage _ := rfl
  effects := by
    dsimp only
    rw [h.functionIndex]
    exact ⟨fun _ => rfl, fun _ _ _ => rfl⟩
  others := h.others

end Keeps

variable (T kind f) in
/-- The questions about the function are no matter of its parameters. -/
theorem functionQuestions_congr {fn : IRFunction Ty} {attrs : AttributeList}
    (hfunction : attrs .functionIndex = fn.attributes .functionIndex)
    (hreturn : attrs .returnIndex = fn.attributes .returnIndex) :
    (functionQuestions T kind f { fn with attributes := attrs } : List (PassQuestion Fn Const)) =
      functionQuestions T kind f fn := by
  simp only [functionQuestions, hfunction, hreturn]
  rfl

theorem asks_annotateParameters (fn : IRFunction Ty) :
    (annotateParameters T kind 0 f fn : Pass Fn Const (IRFunction Ty)).Asks
      (fun fn' => Keeps kind fn fn' ∧
        (functionQuestions T kind f fn' : List (PassQuestion Fn Const)) =
          functionQuestions T kind f fn)
      (argQuestions T kind f 0 fn.args fn.attributes) := by
  apply Program.Asks.map
  refine (asks_annotateArgs 0 fn.args fn.attributes).mono fun attrs h => ?_
  exact ⟨Keeps.of_keepsOthers h.1, functionQuestions_congr T kind f h.1.functionIndex h.2⟩

theorem asks_annotateFunction (fn : IRFunction Ty) :
    (annotateFunction T kind 0 f fn : Pass Fn Const (IRFunction Ty)).Asks (Keeps kind fn)
      (functionQuestions T kind f fn) := by
  rw [annotateFunction, functionQuestions, if_neg (Nat.lt_irrefl 0)]
  split
  · exact .done (.refl fn)
  · rw [List.append_assoc, List.append_assoc]
    refine (asks_internalize fn).bind fun internal hinternal => ?_
    refine (asks_annotateEffects fn.name _).bind fun fnAttrs heffects => ?_
    have hreturnIndex : (Function.update fn.attributes .functionIndex fnAttrs : AttributeList)
        .returnIndex = fn.attributes .returnIndex := by
      apply Function.update_of_ne
      exact nofun
    simp only [hreturnIndex]
    refine (asks_take f _ _ _).bind fun chosen hchosen => ?_
    have howner : ∀ k value, chosen = some (k, value) → owner (none, k) = some kind := by
      intro k value hk
      obtain ⟨o, choice, ho, hchoice⟩ := hchosen (k, value) hk
      exact (ownedOffer_of_returnOffer ho).2 choice k value hchoice
    rw [← List.nil_append (returnedQuestions T kind f fn.toFunctionHeader)]
    refine (asks_addChosen howner).bind fun attributes hattributes => ?_
    apply Program.Asks.map
    refine (asks_annotateReturned fn.toFunctionHeader attributes).mono
      fun attributes' hreturned => ?_
    have hkeeps := hattributes.1.trans hreturned
    refine ⟨rfl, fun hkind => ?_, ?_, fun key hkey => ?_⟩
    · have hfalse : internal = false := by
        cases internal with
        | false => rfl
        | true => exact absurd (hinternal rfl) hkind
      simp [hfalse]
    · dsimp only
      rw [hkeeps.functionIndex, Function.update_self]
      exact heffects
    · refine (hkeeps.others key hkey).trans ?_
      have hne : place key.1 ≠ .functionIndex := by
        obtain ⟨p, k⟩ := key
        cases p <;> exact nofun
      rw [hasAt, Function.update_of_ne hne, hasAt]

variable (T kind f) in
/-- The passes over the attributes of a function and their questions. -/
theorem asks_annotateAttributes (inst : Nat) (fn : IRFunction Ty) :
    (annotateAttributes T kind inst f fn : Pass Fn Const (IRFunction Ty)).Asks (Keeps kind fn)
      (attributeQuestions T kind inst f fn) := by
  by_cases hinst : 0 < inst
  · rw [annotateAttributes, annotateParameters, attributeQuestions, if_pos hinst, if_pos hinst]
    simp only [pure_bind, annotateFunction, if_pos hinst]
    exact .done (.refl fn)
  · obtain rfl : inst = 0 := by omega
    rw [attributeQuestions, if_neg hinst]
    refine (asks_annotateParameters fn).bind fun fn' h => ?_
    rw [← h.2]
    exact (asks_annotateFunction fn').mono fun _ h' => h.1.trans h'

end Functions

end Passes

end Petospa

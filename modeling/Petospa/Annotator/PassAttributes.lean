import Petospa.Annotator.AttributeQuestions
import Petospa.Annotator.StaysValid

/-!
# The passes over attributes with given answers

With answers that are a function of the questions, the passes over the attributes of a
function are `annotateKind`. They ask no question twice.
-/

namespace Petospa

open Text Interaction

/-- The kinds of `annotateParameters` and `annotateFunction`. -/
def OptimisticChoiceKind.isAboutAttributes : OptimisticChoiceKind → Bool
  | .parameterNoAlias | .parameterNoCapture | .parameterDereferenceable | .parameterAligned
  | .parameterMemBehavior | .parameterReturned | .functionInternal | .functionNoUnwind
  | .functionMemEffects | .functionReturnNoAlias | .functionReturnDereferenceable => true
  | _ => false

namespace Passes

section Evaluation

variable {Fn Ty Const : Type} (T : TypeInfo Ty) (kind : OptimisticChoiceKind) (f : Fn)

/-- The function, or the parameter with a number. -/
def subjectOf : Option Nat → Subject Const
  | none => .function
  | some argNo => .local (.argument argNo)

variable (answers : (q : PassQuestion Fn Const) → PassAnswer q)
variable (hrange : ∀ q : ChoiceQuestion Fn Const, answers (.choice q) < q.numChoices)

/-- Answers to all questions as answers about one function. -/
def answersAbout : Answers where
  getOptimisticChoice numChoices argNo kind :=
    if h : 0 < numChoices then answers (.choice ⟨numChoices, f, subjectOf argNo, kind, h⟩) else 0
  inRange numChoices argNo kind h := by
    rw [dif_pos h]
    exact hrange _

variable {answers}

@[simp] theorem evaluate_getOptimisticChoice {numChoices : Nat} (hpos : 0 < numChoices)
    (argNo : Option Nat) :
    (getOptimisticChoice numChoices hpos f (subjectOf argNo) kind).evaluate answers =
      .ok ((answersAbout f answers hrange).getOptimisticChoice numChoices argNo kind) := by
  simp only [answersAbout, dif_pos hpos]
  rfl

/-- What is chosen from an offer. -/
def taken (A : Answers) (p : Option Nat) (offer : Option Offer) (attrs : AttributeSet) :
    Option (AttrKind × Nat) :=
  match offer with
  | none => none
  | some o =>
      if o.isOpen attrs then o.chosen (A.getOptimisticChoice o.numChoices p kind) else none

theorem evaluate_take (p : Option Nat) (offer : Option Offer) (attrs : AttributeSet) :
    (take kind f (subjectOf p) offer attrs).evaluate answers =
      .ok (taken kind (answersAbout f answers hrange) p offer attrs) := by
  cases offer with
  | none => rfl
  | some o =>
      cases hopen : o.isOpen attrs with
      | false => simp [take, taken, hopen]
      | true =>
          simp only [take, taken, hopen, if_true, Program.evaluate_bind]
          rw [evaluate_getOptimisticChoice kind f hrange]
          rfl

theorem taken_single (A : Answers) (p : Option Nat) (k : AttrKind) (attrs : AttributeSet) :
    taken kind A p (some (.single k)) attrs =
      if !attrs.hasAttribute k && A.getOptimisticChoice 2 p kind ≠ 0 then some (k, 0)
      else none := by
  cases hk : attrs.hasAttribute k <;> simp [taken, Offer.single, Offer.isOpen, hk]

theorem taken_dereferenceable (A : Answers) (p : Option Nat) (ty : Ty) (attrs : AttributeSet) :
    taken kind A p (some (dereferenceableOffer T ty)) attrs =
      if attrs.hasAttribute .dereferenceable then none
      else chosenDereferenceable T ty (A.getOptimisticChoice 3 p kind) := by
  cases hk : attrs.hasAttribute .dereferenceable <;>
    simp [taken, dereferenceableOffer, Offer.isOpen, hk]

theorem taken_argumentOffer (A : Answers) (argNo : Nat) (arg : Argument Ty) (attrs : AttributeSet) :
    taken kind A (some argNo) (argumentOffer T kind arg) attrs =
      chosenForParameter T A kind argNo arg attrs := by
  unfold argumentOffer chosenForParameter
  dsimp only
  split
  · rfl
  · split
    · rfl
    · cases kind with
      | parameterNoCapture => exact taken_single _ A _ _ attrs
      | parameterNoAlias => exact taken_single _ A _ _ attrs
      | parameterDereferenceable => exact taken_dereferenceable T _ A _ _ attrs
      | parameterAligned =>
          cases hk : attrs.hasAttribute .alignment with
          | false =>
              simp only [taken, parameterOffer, Offer.isOpen, List.all_cons, List.all_nil, hk]
              rcases A.getOptimisticChoice 3 (some argNo) .parameterAligned with
                _ | _ | _ | choice <;>
                rfl
          | true => simp [taken, parameterOffer, Offer.isOpen, hk]
      | parameterMemBehavior =>
          cases hnone : attrs.hasAttribute .readNone with
          | true => simp [taken, parameterOffer, Offer.isOpen, hnone]
          | false =>
              cases hro : attrs.hasAttribute .readOnly with
              | true => simp [taken, parameterOffer, Offer.isOpen, hro]
              | false =>
                  cases hwo : attrs.hasAttribute .writeOnly with
                  | true => simp [taken, parameterOffer, Offer.isOpen, hwo]
                  | false =>
                      simp only [taken, parameterOffer, Offer.isOpen, List.all_cons, List.all_nil,
                        hnone, hro, hwo]
                      rfl
      | _ => rfl

theorem taken_returnOffer (A : Answers) (ty : Ty) (attrs : AttributeSet) :
    taken kind A none (returnOffer T kind ty) attrs = chosenForReturn T A kind ty attrs := by
  unfold returnOffer chosenForReturn
  dsimp only
  split
  · rfl
  · cases kind with
    | functionReturnNoAlias => exact taken_single _ A _ _ attrs
    | functionReturnDereferenceable => exact taken_dereferenceable T _ A _ _ attrs
    | _ => rfl

theorem evaluate_annotateArgs (argNo : Nat) (args : List (Argument Ty)) (attrs : AttributeList) :
    (annotateArgs T kind f argNo args attrs : Pass Fn Const AttributeList).evaluate answers =
      Petospa.annotateArgs T (answersAbout f answers hrange) kind argNo args attrs := by
  induction args generalizing argNo attrs with
  | nil => rfl
  | cons arg args ih =>
      rw [annotateArgs, Petospa.annotateArgs, Program.evaluate_bind]
      rw [show Subject.local (.argument argNo) = (subjectOf (some argNo) : Subject Const) from rfl,
        evaluate_take kind f hrange, taken_argumentOffer]
      simp only [Program.evaluate_bind, Program.evaluate_ofExcept, ih]
      rfl

theorem annotateMemEffects_eq (A : Answers) (name : Str) (isSpeculatable : Bool)
    (attrs : AttributeSet) :
    Petospa.annotateMemEffects A kind name isSpeculatable attrs =
      match memEffectsOffer name isSpeculatable attrs with
      | none => .ok attrs
      | some others =>
          let choice := A.getOptimisticChoice (others + 1) none kind
          let attrs :=
            if choice ≠ 0 then (attrs.removeAttribute .writeOnly).removeAttribute .readOnly
            else attrs
          (memEffects choice).map (.foldl (fun attrs k => attrs.addAttribute k 0) attrs) := by
  unfold Petospa.annotateMemEffects memEffectsOffer
  dsimp only
  by_cases hname : name = lit "llvm.assume"
  · simp only [hname, if_true]
    split <;> rfl
  · simp only [hname, if_false]
    split <;> rfl

theorem evaluate_annotateMemEffects (name : Str) (isSpeculatable : Bool) (attrs : AttributeSet) :
    (annotateMemEffects kind f name isSpeculatable attrs : Pass Fn Const AttributeSet).evaluate
        answers =
      Petospa.annotateMemEffects (answersAbout f answers hrange) kind name isSpeculatable
        attrs := by
  rw [annotateMemEffects_eq]
  unfold annotateMemEffects
  cases memEffectsOffer name isSpeculatable attrs with
  | none => rfl
  | some others =>
      simp only [Program.evaluate_bind, Program.evaluate_ofExcept]
      rw [show Subject.function = (subjectOf none : Subject Const) from rfl,
        evaluate_getOptimisticChoice kind f hrange]
      rfl

theorem taken_unwindOffer (A : Answers) (attrs : AttributeSet) :
    attrs.added (taken kind A none (unwindOffer kind) attrs) =
      if kind = .functionNoUnwind ∧ attrs.hasAttribute .noUnwind = false ∧
        A.getOptimisticChoice 2 none kind ≠ 0 then attrs.addAttribute .noUnwind 0 else attrs := by
  unfold unwindOffer
  by_cases hkind : kind = .functionNoUnwind
  · rw [if_pos hkind, taken_single]
    simp only [hkind, Bool.and_eq_true, Bool.not_eq_true', decide_eq_true_eq, true_and]
    split <;> rfl
  · simp [hkind, taken, AttributeSet.added]

theorem evaluate_annotateEffects (name : Str) (attrs : AttributeSet) :
    (annotateEffects kind f name attrs : Pass Fn Const AttributeSet).evaluate answers =
      Petospa.annotateEffects (answersAbout f answers hrange) kind name attrs := by
  rw [annotateEffects, Petospa.annotateEffects, ← taken_unwindOffer]
  rw [show Subject.function = (subjectOf none : Subject Const) from rfl, Program.evaluate_bind,
    evaluate_take kind f hrange]
  simp only [bind, Except.bind]
  by_cases hkind : kind = .functionMemEffects
  · simp only [if_pos hkind]
    exact evaluate_annotateMemEffects kind f hrange name _ _
  · simp only [if_neg hkind]
    rfl

variable [DecidableEq Ty]

theorem evaluate_annotateReturned (header : FunctionHeader Ty) (attrs : AttributeList) :
    (annotateReturned T kind f header attrs : Pass Fn Const AttributeList).evaluate answers =
      Petospa.annotateReturned T (answersAbout f answers hrange) kind header attrs := by
  unfold annotateReturned Petospa.annotateReturned
  dsimp only
  split
  · rw [show Subject.function = (subjectOf none : Subject Const) from rfl, Program.evaluate_bind,
      evaluate_getOptimisticChoice kind f hrange]
    simp only [bind, Except.bind]
    split
    · rfl
    · split <;> rfl
  · rfl

omit [DecidableEq Ty] in
theorem evaluate_internalize (fn : IRFunction Ty) :
    (internalize kind f fn : Pass Fn Const Bool).evaluate answers =
      .ok (kind = .functionInternal && !fn.isDeclaration && !fn.hasInternalLinkage &&
        fn.numUses ≠ 0 &&
        (answersAbout f answers hrange).getOptimisticChoice 2 none kind ≠ 0) := by
  unfold internalize
  split
  · rename_i hasks
    rw [show Subject.function = (subjectOf none : Subject Const) from rfl, Program.evaluate_bind,
      evaluate_getOptimisticChoice kind f hrange, hasks]
    rfl
  · rename_i hasks
    rw [Bool.not_eq_true] at hasks
    rw [hasks]
    rfl

theorem evaluate_annotateFunction (inst : Nat) (fn : IRFunction Ty) :
    (annotateFunction T kind inst f fn : Pass Fn Const (IRFunction Ty)).evaluate answers =
      Petospa.annotateFunction T (answersAbout f answers hrange) kind inst fn := by
  unfold annotateFunction Petospa.annotateFunction
  split
  · rfl
  · split
    · rfl
    · simp only [Program.evaluate_bind, Program.evaluate_ofExcept, Program.evaluate_pure,
        evaluate_internalize kind f hrange, evaluate_annotateEffects kind f hrange,
        evaluate_annotateReturned T kind f hrange]
      rw [show Subject.function = (subjectOf none : Subject Const) from rfl]
      simp only [evaluate_take kind f hrange, taken_returnOffer]
      rfl

/-- With answers that are a function of the questions, the passes over the attributes of a
function are those of one kind of choice. -/
theorem evaluate_annotateAttributes (inst : Nat) (fn : IRFunction Ty) :
    (annotateAttributes T kind inst f fn : Pass Fn Const (IRFunction Ty)).evaluate answers =
      annotateKind T (answersAbout f answers hrange) kind inst fn := by
  have hparameters : (annotateParameters T kind inst f fn : Pass Fn Const (IRFunction Ty)).evaluate
      answers = Petospa.annotateParameters T (answersAbout f answers hrange) kind inst fn := by
    unfold annotateParameters Petospa.annotateParameters
    split
    · rfl
    · rw [Program.evaluate_bind, evaluate_annotateArgs T kind f hrange]
      rfl
  rw [annotateAttributes, annotateKind, Program.evaluate_bind, hparameters]
  congr 1
  funext fn'
  exact evaluate_annotateFunction T kind f hrange inst fn'

end Evaluation

/-! ### No question is asked twice -/

section Nodup

variable {Fn Ty Const : Type} {T : TypeInfo Ty} {kind : OptimisticChoiceKind} {f : Fn}

/-- A question of a kind about a function. -/
structure IsAsked (kind : OptimisticChoiceKind) (f : Fn) (subject : Subject Const)
    (q : PassQuestion Fn Const) (c : ChoiceQuestion Fn Const) : Prop where
  eq : q = .choice c
  kind : c.kind = kind
  function : c.function = f
  subject : c.subject = subject

variable (kind f) in
theorem length_takeQuestions (subject : Subject Const) (offer : Option Offer)
    (attrs : AttributeSet) : (takeQuestions kind f subject offer attrs).length ≤ 1 := by
  unfold takeQuestions
  split
  · exact Nat.zero_le 1
  · split
    · exact le_rfl
    · exact Nat.zero_le 1

theorem isAsked_of_mem_takeQuestions {subject : Subject Const} {offer : Option Offer}
    {attrs : AttributeSet} {q : PassQuestion Fn Const}
    (h : q ∈ takeQuestions kind f subject offer attrs) : ∃ c, IsAsked kind f subject q c := by
  unfold takeQuestions at h
  split at h
  · cases h
  · split at h
    · exact ⟨_, List.mem_singleton.mp h, rfl, rfl, rfl⟩
    · cases h

theorem isAsked_of_mem_argQuestions {argNo : Nat} {args : List (Argument Ty)}
    {attrs : AttributeList} {q : PassQuestion Fn Const}
    (h : q ∈ argQuestions T kind f argNo args attrs) :
    ∃ n ≥ argNo, ∃ c, IsAsked kind f (.local (.argument n)) q c := by
  induction args generalizing argNo with
  | nil => cases h
  | cons arg args ih =>
      rw [argQuestions, List.mem_append] at h
      obtain h | h := h
      · exact ⟨argNo, le_rfl, isAsked_of_mem_takeQuestions h⟩
      · obtain ⟨n, hn, hasked⟩ := ih h
        exact ⟨n, Nat.le_of_succ_le hn, hasked⟩

theorem nodup_of_length_le_one {α : Type*} {xs : List α} (h : xs.length ≤ 1) : xs.Nodup := by
  match xs, h with
  | [], _ => exact List.nodup_nil
  | [x], _ => exact List.nodup_singleton x

theorem nodup_argQuestions (argNo : Nat) (args : List (Argument Ty)) (attrs : AttributeList) :
    (argQuestions T kind f argNo args attrs : List (PassQuestion Fn Const)).Nodup := by
  induction args generalizing argNo with
  | nil => exact List.nodup_nil
  | cons arg args ih =>
      rw [argQuestions, List.nodup_append]
      refine ⟨nodup_of_length_le_one (length_takeQuestions _ _ _ _ _), ih (argNo + 1), ?_⟩
      rintro _ hq _ hq' rfl
      obtain ⟨c, rfl, -, -, hsubject⟩ := isAsked_of_mem_takeQuestions hq
      obtain ⟨n, hn, c', hc, -, -, hsubject'⟩ := isAsked_of_mem_argQuestions hq'
      obtain rfl := PassQuestion.choice.inj hc
      rw [hsubject'] at hsubject
      obtain rfl : n = argNo := LocalRef.argument.inj (Subject.local.inj hsubject)
      omega

variable [DecidableEq Ty]

variable (kind f) in
omit [DecidableEq Ty] in
theorem length_internalQuestions (fn : IRFunction Ty) :
    (internalQuestions kind f fn : List (PassQuestion Fn Const)).length ≤ 1 := by
  unfold internalQuestions
  split
  · exact le_rfl
  · exact Nat.zero_le 1

variable (kind f) in
theorem length_memEffectsQuestions (name : Str) (attrs : AttributeSet) :
    (memEffectsQuestions kind f name attrs : List (PassQuestion Fn Const)).length ≤ 1 := by
  unfold memEffectsQuestions
  split
  · split
    · exact Nat.zero_le 1
    · exact le_rfl
  · exact Nat.zero_le 1

variable (T kind f) in
theorem length_returnedQuestions (header : FunctionHeader Ty) :
    (returnedQuestions T kind f header : List (PassQuestion Fn Const)).length ≤ 1 := by
  unfold returnedQuestions
  dsimp only
  split
  · exact le_rfl
  · exact Nat.zero_le 1

/-- A kind asks at most one question about the function itself. -/
theorem length_functionQuestions (fn : IRFunction Ty) :
    (functionQuestions T kind f fn : List (PassQuestion Fn Const)).length ≤ 1 := by
  have hnone (hkind : kind ≠ .functionReturnNoAlias)
      (hkind' : kind ≠ .functionReturnDereferenceable) :
      returnOffer T kind fn.returnType = none := by
    unfold returnOffer
    split
    · rfl
    · cases kind <;> first | rfl | contradiction
  unfold functionQuestions
  split
  · exact Nat.zero_le 1
  · cases kind with
    | functionInternal =>
        simpa [unwindOffer, memEffectsQuestions, returnedQuestions, takeQuestions, hnone] using
          length_internalQuestions .functionInternal f fn
    | functionNoUnwind =>
        simpa [internalQuestions, memEffectsQuestions, returnedQuestions, takeQuestions, hnone]
          using length_takeQuestions .functionNoUnwind f .function
            (unwindOffer .functionNoUnwind) (fn.attributes .functionIndex)
    | functionMemEffects =>
        simpa [internalQuestions, unwindOffer, returnedQuestions, takeQuestions, hnone] using
          length_memEffectsQuestions .functionMemEffects f fn.name
            (fn.attributes .functionIndex)
    | functionReturnNoAlias =>
        simpa [internalQuestions, unwindOffer, memEffectsQuestions, returnedQuestions,
          takeQuestions] using length_takeQuestions .functionReturnNoAlias f .function
            (returnOffer T .functionReturnNoAlias fn.returnType) (fn.attributes .returnIndex)
    | functionReturnDereferenceable =>
        simpa [internalQuestions, unwindOffer, memEffectsQuestions, returnedQuestions,
          takeQuestions] using length_takeQuestions .functionReturnDereferenceable f .function
            (returnOffer T .functionReturnDereferenceable fn.returnType)
            (fn.attributes .returnIndex)
    | parameterReturned =>
        simpa [internalQuestions, unwindOffer, memEffectsQuestions, takeQuestions, hnone] using
          length_returnedQuestions T .parameterReturned f fn.toFunctionHeader
    | _ =>
        simp [internalQuestions, unwindOffer, memEffectsQuestions, returnedQuestions, takeQuestions,
          hnone]

theorem isAsked_of_mem_functionQuestions {fn : IRFunction Ty} {q : PassQuestion Fn Const}
    (h : q ∈ functionQuestions T kind f fn) : ∃ c, IsAsked kind f .function q c := by
  unfold functionQuestions at h
  split at h
  · cases h
  · simp only [List.mem_append] at h
    obtain ((hinternal | hunwind | heffects) | hreturn) | hreturned := h
    · unfold internalQuestions at hinternal
      split at hinternal
      · exact ⟨_, List.mem_singleton.mp hinternal, rfl, rfl, rfl⟩
      · cases hinternal
    · exact isAsked_of_mem_takeQuestions hunwind
    · unfold memEffectsQuestions at heffects
      split at heffects
      · split at heffects
        · cases heffects
        · exact ⟨_, List.mem_singleton.mp heffects, rfl, rfl, rfl⟩
      · cases heffects
    · exact isAsked_of_mem_takeQuestions hreturn
    · unfold returnedQuestions at hreturned
      dsimp only at hreturned
      split at hreturned
      · exact ⟨_, List.mem_singleton.mp hreturned, rfl, rfl, rfl⟩
      · cases hreturned

theorem isAsked_of_mem_attributeQuestions {inst : Nat} {fn : IRFunction Ty}
    {q : PassQuestion Fn Const} (h : q ∈ attributeQuestions T kind inst f fn) :
    ∃ subject c, IsAsked kind f subject q c := by
  unfold attributeQuestions at h
  split at h
  · cases h
  · obtain h | h := List.mem_append.mp h
    · obtain ⟨n, -, hasked⟩ := isAsked_of_mem_argQuestions h
      exact ⟨_, hasked⟩
    · exact ⟨_, isAsked_of_mem_functionQuestions h⟩

/-- Only these kinds ask about attributes. -/
theorem isAboutAttributes_of_mem {inst : Nat} {fn : IRFunction Ty} {q : PassQuestion Fn Const}
    (h : q ∈ attributeQuestions T kind inst f fn) : kind.isAboutAttributes = true := by
  have htake {subject : Subject Const} {attrs : AttributeSet} :
      takeQuestions kind f subject none attrs = [] := rfl
  have hargs {args : List (Argument Ty)} {argNo : Nat} {attrs : AttributeList}
      (hoffer : ∀ ty, parameterOffer T kind ty = none) :
      (argQuestions T kind f argNo args attrs : List (PassQuestion Fn Const)) = [] := by
    induction args generalizing argNo with
    | nil => rfl
    | cons arg args ih =>
        have hnone : argumentOffer T kind arg = none := by
          unfold argumentOffer
          split
          · rfl
          · split
            · rfl
            · exact hoffer arg.type
        rw [argQuestions, ih, hnone, htake]
        rfl
  have hreturn {ty : Ty} (hkind : kind ≠ .functionReturnNoAlias)
      (hkind' : kind ≠ .functionReturnDereferenceable) : returnOffer T kind ty = none := by
    unfold returnOffer
    split
    · rfl
    · cases kind <;> first | rfl | contradiction
  by_contra hnot
  unfold attributeQuestions at h
  split at h
  · cases h
  · cases kind <;> first
      | exact hnot rfl
      | simp [hargs fun _ => rfl, functionQuestions, internalQuestions, unwindOffer, htake,
          memEffectsQuestions, hreturn, returnedQuestions] at h

theorem nodup_attributeQuestions (inst : Nat) (fn : IRFunction Ty) :
    (attributeQuestions T kind inst f fn : List (PassQuestion Fn Const)).Nodup := by
  unfold attributeQuestions
  split
  · exact List.nodup_nil
  · rw [List.nodup_append]
    refine ⟨nodup_argQuestions _ _ _, nodup_of_length_le_one (length_functionQuestions fn), ?_⟩
    rintro _ hq _ hq' rfl
    obtain ⟨n, -, c, rfl, -, -, hsubject⟩ := isAsked_of_mem_argQuestions hq
    obtain ⟨c', hc, -, -, hsubject'⟩ := isAsked_of_mem_functionQuestions hq'
    obtain rfl := PassQuestion.choice.inj hc
    rw [hsubject'] at hsubject
    cases hsubject

end Nodup

end Passes

end Petospa

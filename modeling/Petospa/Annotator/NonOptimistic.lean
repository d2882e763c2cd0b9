import Petospa.Annotator.Pinned
import Petospa.Annotator.Strengthening

/-!
# The build without optimistic choices

With every answer 0 the passes change nothing but that speculatable functions are said
not to access memory. The empty control string gives these answers by default.
-/

namespace Petospa

open Text Interaction

/-- No choice is taken. -/
def PassQuestion.Declined {Fn Const : Type} : (q : PassQuestion Fn Const) → PassAnswer q → Prop
  | .choice _, value => value = 0
  | .getName _ _, _ => True

instance {Fn Const : Type} :
    (q : PassQuestion Fn Const) → (a : PassAnswer q) → Decidable (q.Declined a)
  | .choice _, value => inferInstanceAs (Decidable (value = 0))
  | .getName _ _, _ => inferInstanceAs (Decidable True)

namespace Passes

open PassQuestion

/-! ### Attributes -/

section Attributes

variable {Fn Ty Const : Type} {T : TypeInfo Ty} {kind : OptimisticChoiceKind} {f : Fn}
variable {exc : Fault → Prop}

theorem meets_getOptimisticChoice_declined {numChoices : Nat} {hpos : 0 < numChoices}
    {subject : Subject Const} :
    (getOptimisticChoice numChoices hpos f subject kind).Meets Declined exc (· = 0) :=
  fun _ h => h

/-- The choice 0 adds nothing. -/
def Offer.MayDecline (o : Offer) : Prop := o.chosen 0 = none

theorem mayDecline_of_argumentOffer {arg : Argument Ty} {o : Offer}
    (h : argumentOffer T kind arg = some o) : Offer.MayDecline o := by
  unfold argumentOffer at h
  split at h
  · cases h
  · split at h
    · cases h
    · cases kind <;> cases h <;> rfl

theorem mayDecline_of_returnOffer {ty : Ty} {o : Offer} (h : returnOffer T kind ty = some o) :
    Offer.MayDecline o := by
  unfold returnOffer at h
  split at h
  · cases h
  · cases kind <;> cases h <;> rfl

theorem mayDecline_of_unwindOffer {o : Offer} (h : unwindOffer kind = some o) :
    Offer.MayDecline o := by
  unfold unwindOffer at h
  split at h
  · cases h
    rfl
  · cases h

theorem meets_take_declined {subject : Subject Const} {offer : Option Offer}
    (hoffer : ∀ o, offer = some o → Offer.MayDecline o) (attrs : AttributeSet) :
    (take kind f subject offer attrs).Meets Declined exc (· = none) := by
  unfold take
  split
  · rfl
  · split
    · refine meets_getOptimisticChoice_declined.bind fun choice hchoice => ?_
      subst hchoice
      exact hoffer _ rfl
    · rfl

theorem meets_annotateArgs_declined (argNo : Nat) (args : List (Argument Ty))
    (attrs : AttributeList) :
    (annotateArgs T kind f argNo args attrs : Pass Fn Const AttributeList).Meets Declined exc
      (· = attrs) := by
  induction args generalizing argNo with
  | nil => rfl
  | cons arg args ih =>
      rw [annotateArgs]
      refine (meets_take_declined (fun _ => mayDecline_of_argumentOffer) _).bind fun chosen h => ?_
      subst h
      exact ih (argNo + 1)

theorem meets_annotateParameters_declined (inst : Nat) (fn : IRFunction Ty) :
    (annotateParameters T kind inst f fn : Pass Fn Const (IRFunction Ty)).Meets Declined exc
      (· = fn) := by
  unfold annotateParameters
  split
  · rfl
  · refine (meets_annotateArgs_declined 0 fn.args fn.attributes).bind fun attributes h => ?_
    subst h
    rfl

theorem meets_annotateEffects_declined (name : Str) (attrs : AttributeSet) :
    (annotateEffects kind f name attrs : Pass Fn Const AttributeSet).Meets Declined exc
      (· = settled attrs) := by
  unfold annotateEffects
  refine (meets_take_declined (fun _ => mayDecline_of_unwindOffer) _).bind fun chosen h => ?_
  subst h
  dsimp only [AttributeSet.added]
  split
  · unfold annotateMemEffects
    split
    · rfl
    · refine meets_getOptimisticChoice_declined.bind fun choice hchoice => ?_
      subst hchoice
      rfl
  · rfl

variable [DecidableEq Ty]

theorem meets_annotateReturned_declined (header : FunctionHeader Ty) (attrs : AttributeList) :
    (annotateReturned T kind f header attrs : Pass Fn Const AttributeList).Meets Declined exc
      (· = attrs) := by
  unfold annotateReturned
  dsimp only
  split
  · refine meets_getOptimisticChoice_declined.bind fun decision h => ?_
    rw [if_pos h]
    rfl
  · rfl

omit [DecidableEq Ty] in
theorem meets_internalize_declined (fn : IRFunction Ty) :
    (internalize kind f fn : Pass Fn Const Bool).Meets Declined exc (· = false) := by
  unfold internalize
  split
  · refine meets_getOptimisticChoice_declined.bind fun choice h => ?_
    subst h
    rfl
  · rfl

end Attributes

end Passes

/-- A function after a pass over its attributes that took no choice. -/
def IRFunction.settled {Ty : Type} (fn : IRFunction Ty) : IRFunction Ty :=
  if fn.numUses = 0 && !fn.isIntrinsic then fn
  else
    { fn with
      attributes := Function.update fn.attributes .functionIndex
        (Passes.settled (fn.attributes .functionIndex)) }

theorem Passes.settled_settled (attrs : AttributeSet) :
    settled (settled attrs) = settled attrs := by
  unfold settled
  split
  · split
    · simp only [AttributeSet.addAttribute, List.filter_append, List.filter_filter, Bool.and_self,
        List.filter_cons, List.filter_nil]
      simp [Attribute.isKind]
    · rfl
  · rfl

namespace IRFunction

variable {Ty : Type} (fn : IRFunction Ty)

@[simp] theorem isDeclaration_settled : fn.settled.isDeclaration = fn.isDeclaration := by
  unfold settled
  split <;> rfl

@[simp] theorem settled_settled : fn.settled.settled = fn.settled := by
  unfold settled
  split
  · rfl
  · simp only [Function.update_self, Passes.settled_settled, Function.update_idem]

end IRFunction

namespace Passes

open PassQuestion

section Functions

variable {Fn Ty Const Op Loop : Type} {P : PassInfo Fn Ty Const Op Loop}
variable {kind : OptimisticChoiceKind} {f : Fn} {exc : Fault → Prop} {inst : Nat}

theorem meets_annotateAttributes_declined [DecidableEq Ty] {T : TypeInfo Ty} (fn : IRFunction Ty) :
    (annotateAttributes T kind 0 f fn : Pass Fn Const (IRFunction Ty)).Meets Declined exc
      (· = fn.settled) := by
  refine (meets_annotateParameters_declined 0 fn).bind fun fn' h => ?_
  subst h
  unfold annotateFunction IRFunction.settled
  rw [if_neg (Nat.lt_irrefl 0)]
  split
  · rfl
  · refine (meets_internalize_declined fn').bind fun internal h => ?_
    subst h
    refine (meets_annotateEffects_declined _ _).bind fun fnAttrs h => ?_
    subst h
    refine (meets_take_declined (fun _ => mayDecline_of_returnOffer) _).bind fun chosen h => ?_
    subst h
    refine (meets_annotateReturned_declined fn'.toFunctionHeader _).bind fun attributes h => ?_
    subst h
    rw [Bool.or_false]
    rfl

/-! ### Code -/

theorem declined_withChoice {fn : FunctionState Fn Ty Const Op} {block : Nat}
    {i : Instruction Fn Ty Const Op} {q : ChoiceQuestion Fn Const}
    (h : instructionQuestion P kind f fn block i = some q) : withChoice P kind fn 0 i = i := by
  have hraise (data : Nat) : raiseAlignment data 0 = data := rfl
  obtain ⟨id, ty, opcode⟩ := i
  unfold instructionQuestion at h
  dsimp only at h
  split at h
  · have hasks := (of_question?_eq_some h).1
    rw [Bool.not_eq_true'] at hasks
    rw [hasks]
    rfl
  · have hasks := (of_question?_eq_some h).1
    rw [Bool.not_eq_true'] at hasks
    rw [hasks]
    rfl
  · have hasks := (of_question?_eq_some h).1
    rw [Bool.not_eq_true'] at hasks
    rw [hasks]
    rfl
  · rename_i l
    have hasks := (of_question?_eq_some h).1
    simp only [Bool.and_eq_true, Bool.not_eq_true'] at hasks
    obtain ⟨pointer, isSimple, alignmentData, invariantLoad, dereferenceable, align⟩ := l
    obtain rfl : invariantLoad = false := hasks.2
    rfl
  · rfl
  · rfl
  · rfl
  · rfl
  · cases h

theorem meets_mapInstructions_declined {fn : FunctionState Fn Ty Const Op} :
    (fn.mapInstructions (askAbout P kind f fn)).Meets Declined exc (· = fn) := by
  have hask (block : Nat) (i : Instruction Fn Ty Const Op) :
      (askAbout P kind f fn block i).Meets Declined exc (i = ·) := by
    unfold askAbout
    split
    · rfl
    · rename_i q hq
      intro choice hchoice
      obtain rfl : choice = 0 := hchoice
      exact (declined_withChoice hq).symm
  unfold FunctionState.mapInstructions
  refine (Program.meets_mapM (· = ·) fun b _ => ?_).bind fun code hcode => ?_
  · refine (Program.meets_mapM (· = ·) fun i _ => hask b.no i).bind fun instructions h => ?_
    obtain rfl := List.forall₂_eq_eq_eq ▸ h
    rfl
  · obtain rfl := List.forall₂_eq_eq_eq ▸ hcode
    rfl

/-- Loops are annotated by another instance. -/
theorem annotateLoops_of_ne [DecidableEq Loop] (hinst : inst ≠ 7) (s : LoopState Nat Nat) :
    annotateLoops P inst kind f s = pure s := by
  have hfold {δ σ : Type} {g : σ → δ → Pass Fn Const σ} (hg : ∀ s x, g s x = pure s) (xs : List δ)
      (s : σ) : xs.foldlM g s = pure s := by
    induction xs with
    | nil => rfl
    | cons x xs ih => rw [List.foldlM_cons, hg, pure_bind, ih]
  apply hfold
  intro s O
  have hrequest (r : LoopState Nat Nat × List Loop) (L : Loop) :
      requestLoop P inst kind f r L = pure r := if_neg hinst
  have hnone : (P.order f).visit kind O [] = [] := List.perm_nil.mp ((P.order f).perm kind O [])
  rw [annotateNest, hfold hrequest, pure_bind]
  dsimp only
  rw [hnone]
  rfl

variable [DecidableEq Const] [DecidableEq Loop]

theorem meets_annotateCode_declined (hinst : inst ≠ 7) (fn : FunctionState Fn Ty Const Op)
    (map : SpeculationMap Fn Const) :
    (annotateCode P inst kind f fn map).Meets Declined (fun _ => True) fun r => r.1 = fn := by
  rw [annotateCode, ← bind_assoc, annotateInstructions_eq]
  refine meets_mapInstructions_declined.bind fun fn' h => ?_
  subst h
  refine (Program.meets_trivial _).bind fun map' _ => ?_
  rw [annotateLoops_of_ne hinst, pure_bind]
  rfl

variable [DecidableEq Ty] [DecidableEq Fn]

omit [DecidableEq Const] [DecidableEq Loop] in
theorem meets_createSpeculativeAssumptions_declined (functions : Fn → FunctionState Fn Ty Const Op)
    (map : SpeculationMap Fn Const) :
    (createSpeculativeAssumptions P kind functions map).Meets Declined (fun _ => True)
      (· = functions) := by
  unfold createSpeculativeAssumptions
  split
  · rfl
  · refine Program.meets_foldlM (fun _ (functions' : Fn → FunctionState Fn Ty Const Op) =>
      functions' = functions) (fun entry _ functions' h => ?_) rfl
    subst h
    unfold assumeGroup
    split
    · trivial
    · refine meets_getOptimisticChoice_declined.bind fun choice h => ?_
      subst h
      rfl

/-! ### Runs -/

/-- The functions after passes that took no choice, if these functions are looked at. -/
def settleAll (functions : List Fn) (states : Fn → FunctionState Fn Ty Const Op) (f : Fn) :
    FunctionState Fn Ty Const Op :=
  if f ∈ functions then { states f with function := (states f).function.settled } else states f

omit [DecidableEq Const] [DecidableEq Ty] in
theorem settleAll_settleAll (functions : List Fn) (states : Fn → FunctionState Fn Ty Const Op) :
    settleAll functions (settleAll functions states) = settleAll functions states := by
  funext f
  unfold settleAll
  split
  · rw [IRFunction.settled_settled]
  · rfl

theorem meets_runFunction_declined (declOnly : Fn → Bool) (st : ModuleState Fn Ty Const Op) :
    (runFunction P 0 kind declOnly st f).Meets Declined (fun _ => True) fun st' =>
      st'.functions = Function.update st.functions f
        { st.functions f with function := (st.functions f).function.settled } := by
  refine (meets_annotateAttributes_declined _).bind fun function h => ?_
  subst h
  dsimp only
  split
  · rfl
  · refine (meets_annotateCode_declined (by decide) _ _).bind fun r h => ?_
    exact congrArg (Function.update st.functions f) h

theorem meets_runKind_declined (declOnly : Fn → Bool) (functions : List Fn)
    (st : ModuleState Fn Ty Const Op) :
    (runKind P 0 declOnly functions st kind).Meets Declined (fun _ => True) fun st' =>
      st'.functions = settleAll functions st.functions := by
  have hfunctions : (functions.foldlM (runFunction P 0 kind declOnly) st).Meets Declined
      (fun _ => True) fun st' => st'.functions = settleAll functions st.functions := by
    refine (Program.meets_foldlM (fun rest (st' : ModuleState Fn Ty Const Op) =>
      settleAll rest st'.functions = settleAll functions st.functions) (fun f rest st' h => ?_)
      rfl).mono fun st' h => h
    refine (meets_runFunction_declined declOnly st').mono fun st'' hst'' => ?_
    rw [← h, hst'']
    funext g
    unfold settleAll
    by_cases hg : g = f
    · subst hg
      rw [Function.update_self, if_pos List.mem_cons_self, IRFunction.settled_settled, ite_self]
    · rw [Function.update_of_ne hg]
      simp only [List.mem_cons, hg, false_or]
  refine hfunctions.bind fun st' h => ?_
  refine (meets_createSpeculativeAssumptions_declined _ _).bind fun states hstates => ?_
  exact hstates.trans h

/-- With every answer 0, an instance changes nothing but memory effects of speculatable
functions. -/
theorem meets_runPasses_declined (declOnly : Fn → Bool) (functions : List Fn)
    (states : Fn → FunctionState Fn Ty Const Op) :
    (runPasses P 0 declOnly functions states).Meets Declined (fun _ => True) fun st =>
      st.functions = settleAll functions states := by
  obtain ⟨kind, kinds, hkinds⟩ : ∃ kind kinds, choiceKinds = kind :: kinds := ⟨_, _, rfl⟩
  rw [runPasses, hkinds, List.foldlM_cons]
  refine (meets_runKind_declined declOnly functions _).bind fun st h => ?_
  refine Program.meets_foldlM (fun _ (st : ModuleState Fn Ty Const Op) =>
    st.functions = settleAll functions states) (fun kind _ st h => ?_) h
  refine (meets_runKind_declined declOnly functions st).mono fun st' hst' => ?_
  rw [hst', h, settleAll_settleAll]

end Functions

end Passes

/-! ### Answers by default -/

section Default

variable {Fn : Type} [DecidableEq Fn]

/-- The tables hold no choice but 0. -/
structure Annotator.Declines (st : Annotator Fn) : Prop where
  maps : ∀ kind fnNo, ∀ entry ∈ st.choiceMaps kind fnNo, entry ≤ 1
  cache : ∀ kind name, st.nameCache kind name ≤ 1

theorem le_one_of_mem_resize {map : List Nat} {size : Nat} (h : ∀ entry ∈ map, entry ≤ 1) :
    ∀ entry ∈ resize map size, entry ≤ 1 := by
  unfold resize
  split
  · intro entry hentry
    obtain hentry | hentry := List.mem_append.mp hentry
    · exact h entry hentry
    · rw [List.eq_of_mem_replicate hentry]
      exact Nat.zero_le 1
  · exact h

theorem mem_of_getD_pos {map : List Nat} {pos : Nat} (h : 0 < map.getD pos 0) :
    map.getD pos 0 ∈ map := by
  rw [List.getD_eq_getElem?_getD] at h ⊢
  cases hget : map[pos]? with
  | none =>
      rw [hget] at h
      cases h
  | some entry => exact List.mem_of_getElem? hget

open Annotator in
/-- By default no choice is taken. -/
theorem Annotator.Declines.getOptimisticChoice {st : Annotator Fn} (h : st.Declines)
    {opts : Options}
    (hdefault : opts.annotationsDefault = false) (inst : Nat) (q : Query Fn) :
    (st.getOptimisticChoice opts inst q).2.value = 0 ∧
      (st.getOptimisticChoice opts inst q).1.Declines := by
  have hentry : entryFor opts st q ≤ 1 := by
    simp only [entryFor, hdefault, Bool.false_eq_true, if_false]
    split
    · rename_i hchoice
      exact le_one_of_mem_resize (h.maps _ _) _ (mem_of_getD_pos hchoice)
    · split
      · exact h.cache _ _
      · exact le_rfl
  refine ⟨?_, ⟨fun kind fnNo => ?_, fun kind name => ?_⟩⟩
  · rw [getOptimisticChoice_value]
    omega
  · rw [getOptimisticChoice_choiceMaps]
    split
    · intro entry hmem
      obtain hmem | rfl := List.mem_or_eq_of_mem_set hmem
      · exact le_one_of_mem_resize (h.maps _ _) _ hmem
      · exact hentry
    · exact h.maps kind fnNo
  · dsimp only [Annotator.getOptimisticChoice]
    split
    · split
      · rename_i hchoice
        refine le_one_of_mem_resize ?_ _ (mem_of_getD_pos hchoice)
        rw [see_choiceMaps]
        exact h.maps _ _
      · exact h.cache _ _
    · rw [Annotator.see_eq]
      exact h.cache kind name

end Default

namespace IRModule

variable {Fn : Type} [DecidableEq Fn] (M : IRModule Fn) (annotatable : Fn → Bool)

/-- The cache by name is empty when the passes begin. -/
theorem nameCache_load {controlStr : List CChar} {loaded : LoadState Fn}
    (h : M.load annotatable controlStr = .ok loaded) (kind : OptimisticChoiceKind) (name : Str) :
    loaded.annotator.nameCache kind name = 0 := by
  have hstart : (M.numberFunctions annotatable).annotator.nameCache = fun _ _ => 0 := by
    rw [numberFunctions, (foldl_numberFunction M annotatable M.functions _).1, foldl_see_eq]
    rfl
  have hstep (f : Fn) (_ : f ∈ M.functions) (st : LoadState Fn) (r : ForInStep (LoadState Fn))
      (hcache : st.annotator.nameCache = fun _ _ => 0) (hbody : M.loadFunction 0 st f = .ok r) :
      r.value.annotator.nameCache = fun _ _ => 0 := by
    have hsee : (st.annotator.see f).nameCache = fun _ _ => 0 := by
      rw [Annotator.see_eq]
      exact hcache
    unfold loadFunction at hbody
    split at hbody
    · obtain rfl := Except.ok.inj hbody
      exact hcache
    · split at hbody
      · obtain rfl := Except.ok.inj hbody
        exact hcache
      · obtain rfl := Except.ok.inj hbody
        exact hcache
      · cases hbody
      · dsimp only at hbody
        rw [if_neg (Nat.lt_irrefl 0)] at hbody
        split at hbody
        · obtain rfl := Except.ok.inj hbody
          exact hsee
        · split at hbody
          · cases hbody
          · obtain rfl := Except.ok.inj hbody
            exact hsee
  suffices hall : loaded.annotator.nameCache = fun _ _ => 0 by rw [hall]
  have hloop {r : ForInStep (LoadState Fn)}
      (hr : BreakLoop.loop (M.loadFunction 0) (M.numberFunctions annotatable) M.functions = .ok r) :
      r.value.annotator.nameCache = fun _ _ => 0 :=
    BreakLoop.loop_invariant (fun st => st.annotator.nameCache = fun _ _ => 0) hstep hstart hr
  rw [load, initializeChoiceMaps] at h
  split at h
  · cases h
  · rename_i st hr
    obtain rfl := Except.ok.inj h
    exact hloop hr
  · rename_i st hr
    rw [if_neg (Nat.lt_irrefl 0)] at h
    split at h
    · cases h
    · obtain rfl := Except.ok.inj h
      exact hloop hr

/-- Without annotations and control string the choice maps are empty. -/
theorem choiceMaps_load_empty (hplain : M.Shows fun _ => none) {loaded : LoadState Fn}
    (h : M.load annotatable [] = .ok loaded) : loaded.annotator.choiceMaps = .empty := by
  have hread (fs : List Fn) (st : Annotator Fn) :
      readEmbedded M.getName (fun _ => none) 0 M.unused fs st = .ok st := by
    induction fs with
    | nil => rfl
    | cons f fs ih =>
        rw [readEmbedded]
        split
        · exact ih
        · exact ih
  have hnil : fsencode [] = some [] := rfl
  have hinitialize := initializeChoiceMaps_eq hplain hnil 0 annotatable []
    (M.numberFunctions annotatable)
  rw [load] at h
  rw [h, Petospa.initializeChoiceMaps, hread] at hinitialize
  obtain hannotator := Except.ok.inj hinitialize
  rw [hannotator, numberFunctions, (foldl_numberFunction M annotatable M.functions _).1,
    foldl_see_eq]
  rfl

end IRModule

namespace Input

open Passes PassQuestion

variable {Fn Ty Const Op Loop : Type} [DecidableEq Fn] [DecidableEq Ty] [DecidableEq Const]
variable [DecidableEq Loop] {I : Input Fn Ty Const Op Loop} {opts : Options}
variable {controlStr : List CChar}

/-- As long as nothing but 0 is chosen, the first instance leaves the module as it is, but
for the memory effects of speculatable functions. -/
theorem nonOptimistic_build (hdefault : opts.annotationsDefault = false) {loaded : LoadState Fn}
    (hload : I.irModule.load I.annotatable controlStr = .ok loaded)
    (hmaps : ∀ kind fnNo, ∀ entry ∈ loaded.annotator.choiceMaps kind fnNo, entry ≤ 1)
    {r : ModuleState Fn Ty Const Op × Environment Fn}
    (hr : I.annotateModule opts controlStr = .ok r) :
    r.1.functions = settleAll loaded.functions I.states := by
  rw [annotateModule, hload] at hr
  have hmeets : (I.passes loaded.functions).Meets Declined (fun _ => True) fun st =>
      st.functions = settleAll loaded.functions I.states :=
    meets_runPasses_declined (I.irModule.declOnly I.annotatable) loaded.functions I.states
  refine (hmeets.run (fun env => env.annotator.Declines) (fun q env a env' hinv hanswer => ?_) ?_
    r.1 r.2 hr).1
  · cases q with
    | getName f v =>
        obtain ⟨rfl, rfl⟩ := Prod.mk.inj (Except.ok.inj hanswer)
        exact ⟨trivial, hinv⟩
    | choice q =>
        simp only [answer, Petospa.answer, Except.bind_eq_ok_iff] at hanswer
        obtain ⟨⟨name, table⟩, -, hanswer⟩ := hanswer
        obtain ⟨rfl, rfl⟩ := Prod.mk.inj (Except.ok.inj hanswer)
        exact hinv.getOptimisticChoice hdefault 0 _
  · refine ⟨hmaps, fun kind name => ?_⟩
    have hcache := I.irModule.nameCache_load I.annotatable hload kind name
    exact hcache.le.trans (Nat.zero_le 1)

/-- The empty control string leaves a module without annotations and without speculatable
functions as it is. -/
theorem empty_controlString (hdefault : opts.annotationsDefault = false)
    (hplain : I.irModule.Shows fun _ => none)
    (hspeculatable : ∀ f,
      ((I.states f).function.attributes .functionIndex).hasAttribute .speculatable = false)
    {r : ModuleState Fn Ty Const Op × Environment Fn} (hr : I.annotateModule opts [] = .ok r) :
    r.1.functions = I.states := by
  obtain ⟨loaded, hload, -⟩ := Except.bind_eq_ok_iff.mp hr
  have hempty := I.irModule.choiceMaps_load_empty I.annotatable hplain hload
  have hmaps : ∀ kind fnNo, ∀ entry ∈ loaded.annotator.choiceMaps kind fnNo, entry ≤ 1 := by
    rw [hempty]
    intro kind fnNo entry hentry
    cases hentry
  rw [nonOptimistic_build hdefault hload hmaps hr]
  funext f
  have hsettled : (I.states f).function.settled = (I.states f).function := by
    rw [IRFunction.settled, Passes.settled, hspeculatable f]
    split
    · rfl
    · rw [if_neg Bool.false_ne_true, Function.update_eq_self]
  rw [settleAll, hsettled, ite_self]

theorem nonOptimistic_build_sample : ∃ loaded r,
    sample.irModule.load sample.annotatable [] = .ok loaded ∧
    sample.annotateModule ⟨false, -1, false⟩ [] = .ok r ∧
    r.1.functions = settleAll loaded.functions sample.states := by
  obtain ⟨loaded, hload⟩ : ∃ loaded, sample.irModule.load sample.annotatable [] = .ok loaded :=
    ⟨_, rfl⟩
  obtain ⟨r, hr⟩ : ∃ r, sample.annotateModule ⟨false, -1, false⟩ [] = .ok r := ⟨_, rfl⟩
  refine ⟨loaded, r, hload, hr, nonOptimistic_build rfl hload ?_ hr⟩
  rw [sample.irModule.choiceMaps_load_empty sample.annotatable (fun _ => rfl) hload]
  intro kind fnNo entry hentry
  cases hentry

end Input

end Petospa

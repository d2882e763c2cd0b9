import Petospa.Annotator.PassAttributes
import Petospa.Annotator.PassRuns

/-!
# What a run makes of attributes

No question about attributes is asked twice in a run over all kinds of choices, and
what the run makes of the attributes of a function is what `annotateAllKinds` makes of
them with the answers of the run.
-/

namespace Petospa

open Text Interaction

namespace PassQuestion

variable {Fn Const : Type}

/-- Choices are among those that are offered. -/
def InRange : (q : PassQuestion Fn Const) → PassAnswer q → Prop
  | .choice q, value => value < q.numChoices
  | .getName _ _, _ => True

def isAboutAttributes : PassQuestion Fn Const → Bool
  | .choice q => q.kind.isAboutAttributes
  | .getName _ _ => false

/-- The answers to the questions about attributes are given. -/
def Given (answers : (q : PassQuestion Fn Const) → PassAnswer q) (q : PassQuestion Fn Const)
    (a : PassAnswer q) : Prop :=
  q.isAboutAttributes = true → answers q = a

instance : (q : PassQuestion Fn Const) → (a : PassAnswer q) → Decidable (InRange q a)
  | .choice q, value => inferInstanceAs (Decidable (value < q.numChoices))
  | .getName _ _, _ => inferInstanceAs (Decidable True)

theorem exists_inRange : ∃ answers : (q : PassQuestion Fn Const) → PassAnswer q,
    ∀ q, InRange q (answers q) := by
  refine ⟨fun | .choice _ => 0 | .getName _ _ => [], fun q => ?_⟩
  cases q with
  | choice q => exact q.numChoices_pos
  | getName f r => trivial

end PassQuestion

namespace Passes

section Module

open PassQuestion

variable {Fn Ty Const Op Loop : Type} [DecidableEq Ty] {P : PassInfo Fn Ty Const Op Loop}
variable {inst : Nat} {kind : OptimisticChoiceKind} {f : Fn}

/-! The passes over code. -/

section Code

variable [DecidableEq Const] [DecidableEq Loop]
  {ok : (q : PassQuestion Fn Const) → PassAnswer q → Prop}

omit [DecidableEq Ty] [DecidableEq Loop] in
theorem only_annotateBranchConditions {allowed : PassQuestion Fn Const → Prop}
    (hnames : ∀ f r, allowed (.getName f r)) (fn : FunctionState Fn Ty Const Op)
    (map : SpeculationMap Fn Const) :
    (annotateBranchConditions P kind f fn map).Only allowed := by
  have hname (v : ValueRef Const) : (getName P f v).Only allowed := by
    cases v with
    | «local» r => exact ⟨hnames f r, fun _ => trivial⟩
    | constant c => exact Program.only_pure
  unfold annotateBranchConditions
  split
  · exact Program.only_pure
  · refine Program.only_foldlM (fun map b _ => ?_) map
    unfold annotateBranch
    split
    · exact Program.only_pure
    · refine Program.Only.bind ?_ fun _ => Program.only_pure
      unfold idString
      split
      · exact Program.only_pure
      · exact hname _
      · exact hname _

omit [DecidableEq Ty] [DecidableEq Const] [DecidableEq Loop] in
theorem isAboutAttributes_of_mem_instructionQuestions {fn : FunctionState Fn Ty Const Op}
    {q : PassQuestion Fn Const} (h : q ∈ instructionQuestions P kind f fn) :
    q.isAboutAttributes = false := by
  obtain ⟨b, -, hq⟩ := List.mem_flatMap.mp h
  obtain ⟨i, -, hq⟩ := List.mem_flatMap.mp hq
  obtain ⟨c, hc, rfl⟩ := Option.map_eq_some_iff.mp (Option.mem_toList.mp hq)
  unfold instructionQuestion question? at hc
  dsimp only at hc
  split at hc <;> first
    | cases hc
    | split at hc
      · obtain rfl := Option.some.inj hc
        rfl
      · cases hc

omit [DecidableEq Ty] [DecidableEq Const] [DecidableEq Loop] in
theorem isAboutAttributes_of_mem_loopQuestions {q : PassQuestion Fn Const}
    (h : q ∈ loopQuestions P kind f inst) : q.isAboutAttributes = false := by
  obtain ⟨O, -, hq⟩ := List.mem_flatMap.mp h
  obtain ⟨L, -, hq⟩ := List.mem_flatMap.mp hq
  unfold loopQuestion at hq
  split at hq
  · rename_i hkind
    obtain rfl := List.mem_singleton.mp hq
    obtain ⟨-, hkind⟩ := hkind
    dsimp only [isAboutAttributes]
    rw [hkind, LoopInfo.kindOf]
    split <;> rfl
  · cases hq

omit [DecidableEq Ty] in
/-- The passes over code ask nothing about attributes. -/
theorem only_annotateCode (fn : FunctionState Fn Ty Const Op) (map : SpeculationMap Fn Const) :
    (annotateCode P inst kind f fn map).Only fun q => q.isAboutAttributes = false := by
  rw [annotateCode, ← bind_assoc]
  refine ((asks_annotateInstructions P kind f fn).only fun q =>
    isAboutAttributes_of_mem_instructionQuestions).bind fun fn' => ?_
  refine (only_annotateBranchConditions (fun _ _ => rfl) _ _).bind fun map' => ?_
  refine ((asks_annotateLoops P kind f inst fn'.loops).only fun q =>
    isAboutAttributes_of_mem_loopQuestions).bind fun loops => ?_
  exact Program.only_pure

omit [DecidableEq Ty] in
/-- The passes over code leave the attributes alone. -/
theorem meets_annotateCode (fn : FunctionState Fn Ty Const Op) (map : SpeculationMap Fn Const) :
    (annotateCode P inst kind f fn map).Meets ok (fun _ => True)
      fun r => r.1.function = fn.function := by
  rw [annotateCode, ← bind_assoc]
  refine ((asks_annotateInstructions P kind f fn).meets ok).bind fun fn' hchanged => ?_
  refine (Program.meets_trivial _).bind fun map' _ => ?_
  refine (Program.meets_trivial _).bind fun loops _ => ?_
  exact hchanged.function

end Code

variable [DecidableEq Fn]

theorem only_createSpeculativeAssumptions (functions : Fn → FunctionState Fn Ty Const Op)
    (map : SpeculationMap Fn Const) :
    (createSpeculativeAssumptions P kind functions map).Only
      fun q => q.isAboutAttributes = false := by
  unfold createSpeculativeAssumptions
  split
  · exact Program.only_pure
  · rename_i hkind
    obtain rfl := not_not.mp hkind
    refine Program.only_foldlM (fun functions entry _ => ?_) functions
    unfold assumeGroup
    split
    · trivial
    · exact ⟨rfl, fun choice => Program.only_ofExcept⟩

omit [DecidableEq Fn] in
theorem Assumed.function {fn fn' : FunctionState Fn Ty Const Op} (h : Assumed P fn fn') :
    fn'.function = fn.function := by
  induction h with
  | refl => rfl
  | tail _ hstep ih =>
      obtain ⟨c, r, point, rfl⟩ := hstep
      exact ih

variable [DecidableEq Const] [DecidableEq Loop]

/-! What is asked about attributes. -/

omit [DecidableEq Fn] [DecidableEq Ty] [DecidableEq Const] [DecidableEq Loop] in
/-- What is asked about attributes is asked once, and about these kinds and functions. -/
structure AskedOnce (about : OptimisticChoiceKind → Fn → Prop)
    (asked : List (PassQuestion Fn Const)) : Prop where
  nodup : (asked.filter isAboutAttributes).Nodup
  about : ∀ q ∈ asked.filter isAboutAttributes,
    ∃ kind f subject c, about kind f ∧ IsAsked kind f subject q c

namespace AskedOnce

variable {about about' : OptimisticChoiceKind → Fn → Prop}
variable {asked asked' : List (PassQuestion Fn Const)}

omit [DecidableEq Fn] [DecidableEq Const] in
theorem mono (h : AskedOnce about asked) (himp : ∀ kind f, about kind f → about' kind f) :
    AskedOnce about' asked := by
  refine ⟨h.nodup, fun q hq => ?_⟩
  obtain ⟨kind, f, subject, c, habout, hasked⟩ := h.about q hq
  exact ⟨kind, f, subject, c, himp kind f habout, hasked⟩

omit [DecidableEq Fn] [DecidableEq Const] in
theorem of_forall (h : ∀ q ∈ asked, q.isAboutAttributes = false) : AskedOnce about asked := by
  have hnone : asked.filter isAboutAttributes = [] :=
    List.filter_eq_nil_iff.mpr fun q hq => by simp [h q hq]
  constructor
  · rw [hnone]
    exact List.nodup_nil
  · rw [hnone]
    exact nofun

omit [DecidableEq Fn] [DecidableEq Const] in
theorem append (h : AskedOnce about asked) (h' : AskedOnce about' asked')
    (hdisjoint : ∀ kind f, about kind f → ¬ about' kind f) :
    AskedOnce (fun kind f => about kind f ∨ about' kind f) (asked ++ asked') := by
  constructor
  · rw [List.filter_append, List.nodup_append]
    refine ⟨h.nodup, h'.nodup, ?_⟩
    rintro q hq _ hq' rfl
    obtain ⟨kind, f, _, c, habout, rfl, hkind, hfunction, -⟩ := h.about q hq
    obtain ⟨kind', f', _, c', habout', hc, hkind', hfunction', -⟩ := h'.about _ hq'
    obtain rfl := PassQuestion.choice.inj hc
    obtain rfl : kind = kind' := hkind.symm.trans hkind'
    obtain rfl : f = f' := hfunction.symm.trans hfunction'
    exact hdisjoint kind f habout habout'
  · intro q hq
    rw [List.filter_append, List.mem_append] at hq
    obtain hq | hq := hq
    · exact (h.mono fun _ _ => .inl).about q hq
    · exact (h'.mono fun _ _ => .inr).about q hq

omit [DecidableEq Fn] [DecidableEq Const] in
theorem append_of_forall (h : AskedOnce about asked)
    (h' : ∀ q ∈ asked', q.isAboutAttributes = false) : AskedOnce about (asked ++ asked') := by
  have hnothing : AskedOnce (fun _ _ => False) asked' := .of_forall h'
  refine (h.append hnothing nofun).mono ?_
  rintro kind f (hf | hf)
  · exact hf
  · exact hf.elim

end AskedOnce

/-- A function is asked about for the kind. -/
theorem logs_runFunction (declOnly : Fn → Bool) (st : ModuleState Fn Ty Const Op) :
    (runFunction P inst kind declOnly st f).Logs fun asked _ =>
      AskedOnce (fun j g => j = kind ∧ g = f) asked := by
  unfold runFunction
  dsimp only
  refine (asks_annotateAttributes P.types kind f inst (st.functions f).function).logs.bind
    fun asked function h => ?_
  obtain ⟨rfl, -⟩ := h
  have hattributes : AskedOnce (fun j g => j = kind ∧ g = f)
      (attributeQuestions P.types kind inst f (st.functions f).function :
        List (PassQuestion Fn Const)) := by
    refine ⟨(nodup_attributeQuestions inst _).filter _, fun q hq => ?_⟩
    obtain ⟨subject, c, hasked⟩ := isAsked_of_mem_attributeQuestions (List.mem_of_mem_filter hq)
    exact ⟨kind, f, subject, c, ⟨rfl, rfl⟩, hasked⟩
  split
  · apply Program.logs_pure
    rwa [List.append_nil]
  · refine (only_annotateCode _ _).logs.bind fun asked r hasked => Program.logs_pure ?_
    rw [List.append_nil]
    exact hattributes.append_of_forall hasked

/-- All functions are asked about for the kind. -/
theorem logs_runKind (declOnly : Fn → Bool) {functions : List Fn} (hnodup : functions.Nodup)
    (st : ModuleState Fn Ty Const Op) :
    (runKind P inst declOnly functions st kind).Logs fun asked _ =>
      AskedOnce (fun j _ => j = kind) asked := by
  have hfunctions : (functions.foldlM (runFunction P inst kind declOnly) st).Logs fun asked _ =>
      ([] : List Fn).Nodup ∧ AskedOnce (fun j g => j = kind ∧ g ∉ ([] : List Fn)) asked := by
    refine Program.logs_foldlM (fun (rest : List Fn) asked _ =>
      rest.Nodup ∧ AskedOnce (fun j g => j = kind ∧ g ∉ rest) asked)
      (fun f rest asked st' hinv => ?_) ⟨hnodup, .of_forall fun _ => nofun⟩
    obtain ⟨hrest, hasked⟩ := hinv
    obtain ⟨hf, hrest⟩ := List.nodup_cons.mp hrest
    refine (logs_runFunction declOnly st').mono fun asked' _ hasked' => ⟨hrest, ?_⟩
    refine (hasked.append hasked' ?_).mono ?_
    · rintro j g ⟨-, hg⟩ ⟨-, rfl⟩
      exact hg List.mem_cons_self
    · rintro j g (⟨hj, hg⟩ | ⟨hj, rfl⟩)
      · exact ⟨hj, fun hmem => hg (List.mem_cons_of_mem f hmem)⟩
      · exact ⟨hj, hf⟩
  unfold runKind
  refine hfunctions.bind fun asked st' h => ?_
  refine (only_createSpeculativeAssumptions _ _).logs.bind fun asked' states hasked' =>
    Program.logs_pure ?_
  rw [List.append_nil]
  exact (h.2.append_of_forall hasked').mono fun _ _ h => h.1

/-- No question about attributes is asked twice. -/
theorem logs_runPasses (declOnly : Fn → Bool) {functions : List Fn} (hnodup : functions.Nodup)
    (states : Fn → FunctionState Fn Ty Const Op) :
    (runPasses P inst declOnly functions states).Logs fun asked _ =>
      (asked.filter isAboutAttributes).Nodup := by
  have hkinds : (runPasses P inst declOnly functions states).Logs fun asked _ =>
      ([] : List OptimisticChoiceKind).Nodup ∧
        AskedOnce (fun j _ => j ∉ ([] : List OptimisticChoiceKind)) asked := by
    refine Program.logs_foldlM (fun (rest : List OptimisticChoiceKind) asked _ =>
      rest.Nodup ∧ AskedOnce (fun j _ => j ∉ rest) asked)
      (fun kind rest asked st hinv => ?_) ⟨nodup_choiceKinds, .of_forall fun _ => nofun⟩
    obtain ⟨hrest, hasked⟩ := hinv
    obtain ⟨hkind, hrest⟩ := List.nodup_cons.mp hrest
    refine (logs_runKind declOnly hnodup st).mono fun asked' _ hasked' => ⟨hrest, ?_⟩
    refine (hasked.append hasked' ?_).mono ?_
    · rintro j _ hj rfl
      exact hj List.mem_cons_self
    · rintro j _ (hj | rfl)
      · exact fun hmem => hj (List.mem_cons_of_mem kind hmem)
      · exact hkind
  exact hkinds.mono fun asked _ h => h.2.nodup

/-! What is made of attributes. -/

variable {answers : (q : PassQuestion Fn Const) → PassAnswer q}
variable (hrange : ∀ q : ChoiceQuestion Fn Const, answers (.choice q) < q.numChoices)

omit [DecidableEq Fn] [DecidableEq Const] in
theorem meets_annotateAttributes (kind : OptimisticChoiceKind) (T : TypeInfo Ty) (inst : Nat)
    (f : Fn)
    (fn : IRFunction Ty) :
    (annotateAttributes T kind inst f fn : Pass Fn Const (IRFunction Ty)).Meets (Given answers)
      (fun _ => True)
      fun fn' => annotateKind T (answersAbout f answers hrange) kind inst fn = .ok fn' := by
  rw [← evaluate_annotateAttributes T kind f hrange]
  refine ((asks_annotateAttributes T kind f inst fn).meets_evaluate fun q hq a ha => ha ?_).weaken
  obtain ⟨_, c, rfl, hkind, -⟩ := isAsked_of_mem_attributeQuestions hq
  dsimp only [isAboutAttributes]
  rw [hkind]
  exact isAboutAttributes_of_mem hq

theorem meets_runFunction (declOnly : Fn → Bool) (st : ModuleState Fn Ty Const Op) :
    (runFunction P inst kind declOnly st f).Meets (Given answers) (fun _ => True) fun st' =>
      annotateKind P.types (answersAbout f answers hrange) kind inst (st.functions f).function =
        .ok (st'.functions f).function ∧
      ∀ g ≠ f, st'.functions g = st.functions g := by
  refine (meets_annotateAttributes hrange kind P.types inst f _).bind fun function hfunction => ?_
  dsimp only
  split
  · refine ⟨?_, fun g hg => Function.update_of_ne hg _ _⟩
    dsimp only
    rwa [Function.update_self]
  · refine (meets_annotateCode _ _).bind fun r hr => ⟨?_, fun g hg => Function.update_of_ne hg _ _⟩
    dsimp only at hr ⊢
    rwa [Function.update_self, hr]

/-- Which functions a kind was run on. -/
theorem meets_runKind (declOnly : Fn → Bool) {functions : List Fn} (hnodup : functions.Nodup)
    (st : ModuleState Fn Ty Const Op) :
    (runKind P inst declOnly functions st kind).Meets (Given answers) (fun _ => True)
      fun st' => ∀ f,
      if f ∈ functions then annotateKind P.types (answersAbout f answers hrange) kind inst
        (st.functions f).function = .ok (st'.functions f).function
      else (st'.functions f).function = (st.functions f).function := by
  let inv (rest : List Fn) (st' : ModuleState Fn Ty Const Op) : Prop :=
    (rest.Nodup ∧ rest ⊆ functions) ∧ ∀ f, if f ∈ functions ∧ f ∉ rest then
      annotateKind P.types (answersAbout f answers hrange) kind inst (st.functions f).function =
        .ok (st'.functions f).function
    else (st'.functions f).function = (st.functions f).function
  have hfunctions : (functions.foldlM (runFunction P inst kind declOnly) st).Meets (Given answers)
      (fun _ => True) (inv []) := by
    refine Program.meets_foldlM inv (fun f rest st' hinv => ?_)
      ⟨⟨hnodup, List.Subset.refl _⟩, fun f => by simp⟩
    obtain ⟨⟨hnodup, hsubset⟩, hst'⟩ := hinv
    obtain ⟨hf, hnodup⟩ := List.nodup_cons.mp hnodup
    obtain ⟨hmem, hsubset⟩ := List.cons_subset.mp hsubset
    refine (meets_runFunction hrange declOnly st').mono fun st'' h =>
      ⟨⟨hnodup, hsubset⟩, fun g => ?_⟩
    obtain ⟨hself, hother⟩ := h
    by_cases hg : g = f
    · subst hg
      have hbefore := hst' g
      rw [if_neg (fun h => h.2 List.mem_cons_self)] at hbefore
      rw [if_pos ⟨hmem, hf⟩, ← hbefore]
      exact hself
    · rw [hother g hg]
      simpa [hg] using hst' g
  refine hfunctions.bind fun st' hst' => (meets_createSpeculativeAssumptions kind _ _).bind
    fun states hstates f => ?_
  dsimp only
  rw [(hstates f).function]
  simpa using hst'.2 f

/-- All passes of an instance act on the attributes of the functions that they look at as
`annotateAllKinds` does with the answers of the run, and leave those of the others alone. -/
theorem meets_runPasses (declOnly : Fn → Bool) {functions : List Fn} (hnodup : functions.Nodup)
    (states : Fn → FunctionState Fn Ty Const Op) :
    (runPasses P inst declOnly functions states).Meets (Given answers) (fun _ => True)
      fun st => ∀ f,
      if f ∈ functions then annotateAllKinds P.types (answersAbout f answers hrange) inst
        (states f).function = .ok (st.functions f).function
      else (st.functions f).function = (states f).function := by
  refine Program.meets_foldlM (fun rest (st : ModuleState Fn Ty Const Op) => ∀ f,
    if f ∈ functions then
      annotateAllKinds P.types (answersAbout f answers hrange) inst (states f).function =
        rest.foldlM
            (fun fn kind => annotateKind P.types (answersAbout f answers hrange) kind inst fn)
          (st.functions f).function
    else (st.functions f).function = (states f).function) (fun kind rest st hinv => ?_) fun f => ?_
  · refine (meets_runKind hrange declOnly hnodup st).mono fun st' hst' f => ?_
    have hbefore := hinv f
    have hafter := hst' f
    by_cases hf : f ∈ functions
    · rw [if_pos hf] at hbefore hafter ⊢
      rw [hbefore, List.foldlM_cons, hafter]
      rfl
    · rw [if_neg hf] at hbefore hafter ⊢
      exact hafter.trans hbefore
  · split <;> rfl

end Module

end Passes

/-! ### The first instance -/

namespace Input

open Passes PassQuestion

variable {Fn Ty Const Op Loop : Type} [DecidableEq Fn] [DecidableEq Ty] [DecidableEq Const]
variable [DecidableEq Loop] {I : Input Fn Ty Const Op Loop} {opts : Options}
variable {controlStr : List CChar}

variable (I opts controlStr) in
/-- What is asked and answered in the first instance. -/
def transcript : List (Sigma fun q : PassQuestion Fn Const => PassAnswer q) :=
  match I.irModule.load I.annotatable controlStr with
  | .error _ => []
  | .ok loaded => (I.passes loaded.functions).transcript (I.answer opts) (I.environment loaded)

/-- A run that ends with a result loads and goes through the passes. -/
theorem ends_of_annotateModule {loaded : LoadState Fn}
    (hload : I.irModule.load I.annotatable controlStr = .ok loaded)
    {r : ModuleState Fn Ty Const Op × Environment Fn}
    (hr : I.annotateModule opts controlStr = .ok r) :
    (I.passes loaded.functions).Ends (I.transcript opts controlStr) r.1 := by
  rw [transcript, hload]
  rw [annotateModule, hload] at hr
  exact Program.ends_of_run hr

/-- No question about attributes is asked twice. What the first instance makes of the
attributes of a function is what the passes over attributes make of it with the answers of
the run. The verifier goes on accepting the function if and only if the choices are
compatible. -/
theorem annotates_attributes {loaded : LoadState Fn}
    (hload : I.irModule.load I.annotatable controlStr = .ok loaded)
    {r : ModuleState Fn Ty Const Op × Environment Fn}
    (hr : I.annotateModule opts controlStr = .ok r)
    (hrange : ∀ e ∈ I.transcript opts controlStr, InRange e.1 e.2) :
    (((I.transcript opts controlStr).map Sigma.fst).filter isAboutAttributes).Nodup ∧
    ∃ A : Fn → Answers,
      (∀ (q : ChoiceQuestion Fn Const) (value : Nat) (p : Option Nat),
        ⟨.choice q, value⟩ ∈ I.transcript opts controlStr → q.kind.isAboutAttributes = true →
        q.subject = subjectOf p →
        (A q.function).getOptimisticChoice q.numChoices p q.kind = value) ∧
      (∀ f ∉ loaded.functions, (r.1.functions f).function = (I.states f).function) ∧
      ∀ f ∈ loaded.functions,
        annotateAllKinds I.passInfo.types (A f) 0 (I.states f).function =
          .ok (r.1.functions f).function ∧
        (verifyFunctionAttrs I.passInfo.types (I.states f).function = true →
          (verifyFunctionAttrs I.passInfo.types (r.1.functions f).function = true ↔
            Compatible I.passInfo.types (A f) (I.states f).function.toFunctionHeader
              (I.states f).function.attributes)) := by
  have hends := ends_of_annotateModule hload hr
  have hnodup := I.irModule.nodup_load I.annotatable hload
  have honce : (((I.transcript opts controlStr).map Sigma.fst).filter isAboutAttributes).Nodup :=
    logs_runPasses _ hnodup I.states _ _ hends
  obtain ⟨answers, hanswers, hgiven⟩ :=
    Program.exists_answers isAboutAttributes honce exists_inRange hrange
  have hin : ∀ q : ChoiceQuestion Fn Const, answers (.choice q) < q.numChoices :=
    fun q => hanswers (.choice q)
  have hresult := (meets_runPasses hin _ hnodup I.states).ends hends fun e he => hgiven e he
  refine ⟨honce, fun f => answersAbout f answers hin, ?_, ?_, ?_⟩
  · intro q value p hmem hkind hsubject
    have hvalue := hgiven _ hmem hkind
    obtain ⟨numChoices, g, subject, kind, hpos⟩ := q
    obtain rfl : subject = subjectOf p := hsubject
    simp only [answersAbout, dif_pos hpos]
    exact hvalue
  · intro f hf
    have hsame := hresult f
    rwa [if_neg hf] at hsame
  · intro f hf
    have hok := hresult f
    rw [if_pos hf] at hok
    refine ⟨hok, fun hvalid => ?_⟩
    obtain ⟨hfits, hheader, hattributes⟩ := foldlM_annotateKind_eq_ok nodup_choiceKinds hok
    rw [verifyFunctionAttrs_eq_true, hheader, hattributes,
      ← attributesOk_afterAll (verifyFunctionAttrs_eq_true.mp hvalid)]
    exact ⟨fun h => ⟨hfits, h⟩, fun h => h.2⟩

/-- By default all choices are taken. -/
theorem annotates_attributes_sample : ∃ r A, sample.annotateModule ⟨true, -1, false⟩ [] = .ok r ∧
    annotateAllKinds sampleTypes A 0 (sample.states 0).function = .ok (r.1.functions 0).function ∧
    A.getOptimisticChoice 4 (some 0) .parameterMemBehavior = 3 ∧
    verifyFunctionAttrs sampleTypes (r.1.functions 0).function = true := by
  obtain ⟨loaded, hload⟩ : ∃ loaded, sample.irModule.load sample.annotatable [] = .ok loaded :=
    ⟨_, rfl⟩
  obtain ⟨r, hr⟩ : ∃ r, sample.annotateModule ⟨true, -1, false⟩ [] = .ok r := ⟨_, rfl⟩
  have hrange : ∀ e ∈ sample.transcript ⟨true, -1, false⟩ [], InRange e.1 e.2 := by decide
  have hmem : (⟨.choice ⟨4, 0, .local (.argument 0), .parameterMemBehavior, by decide⟩, 3⟩ :
      Sigma fun q : PassQuestion Nat Nat => PassAnswer q) ∈
        sample.transcript ⟨true, -1, false⟩ [] :=
    List.mem_of_getElem? (i := 8) rfl
  have hloaded : 0 ∈ loaded.functions := by
    obtain rfl := Except.ok.inj hload
    decide
  obtain ⟨-, A, hA, -, hfunctions⟩ := annotates_attributes hload hr hrange
  obtain ⟨hok, -⟩ := hfunctions 0 hloaded
  refine ⟨r, A 0, hr, hok, hA _ 3 (some 0) hmem rfl rfl, ?_⟩
  obtain rfl := Except.ok.inj hr
  decide

end Input

end Petospa

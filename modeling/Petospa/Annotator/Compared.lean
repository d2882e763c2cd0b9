import Petospa.Annotator.Parts
import Petospa.Annotator.PassAttributes

/-!
# Two runs of the passes

Two runs of an instance in lockstep, the second one with choices that are at least as high.
What the first run makes of the code of a function promises and assumes at most what the
second one makes of it.
-/

namespace Petospa

open Text Interaction

variable {Fn Ty Const Op Loop : Type}

/-- A choice that is taken for no more than another one. The choices for a branch are
constants, which have no order. -/
def ChoiceQuestion.AtMost (q : ChoiceQuestion Fn Const) (choice choice' : Nat) : Prop :=
  if q.kind = .controlFlowTrg then choice = 0 ∨ choice = choice'
  else choice ≤ choice' ∧ choice' < q.numChoices

/-- Answers about attributes are arbitrary, names are not. -/
def AnswersAtMost : (q : PassQuestion Fn Const) → PassAnswer q → PassAnswer q → Prop
  | .choice q, choice, choice' => q.kind.isAboutAttributes = false → q.AtMost choice choice'
  | .getName _ _, name, name' => name = name'

theorem namesAgree_of_answersAtMost (q : PassQuestion Fn Const) (a a' : PassAnswer q)
    (h : AnswersAtMost q a a') : NamesAgree q a a' := by
  cases q with
  | choice q => trivial
  | getName f r => exact h

/-- 64 accesses to what a load points at do not wrap. -/
def FunctionState.LoadsFit (P : PassInfo Fn Ty Const Op Loop)
    (fn : FunctionState Fn Ty Const Op) : Prop :=
  ∀ i ∈ fn.code.instructions, ∀ l, i.opcode = .load l →
    Passes.accessSize P (fn.typeOf P l.pointer) * 64 < 2 ^ 32

/-- The code of a function as the first instance expects it. -/
structure FunctionState.Regular (P : PassInfo Fn Ty Const Op Loop)
    (fn : FunctionState Fn Ty Const Op) : Prop extends fn.Numbered where
  fits : fn.LoadsFit P

/-- Two states of an instruction; the kinds in `todo` have not changed either. -/
structure Instruction.Compared (code : Code Fn Ty Const Op) (todo : OptimisticChoiceKind → Prop)
    (i i' : Instruction Fn Ty Const Op) : Prop where
  origin : ∃ i₀ ∈ code.instructions, i₀.Strengthens i
  atMost : i.AtMost i'
  same : ∀ j, todo j → i'.only j = i.only j

section

open Passes

variable {P : PassInfo Fn Ty Const Op Loop} {todo : OptimisticChoiceKind → Prop}
variable {base : FunctionState Fn Ty Const Op} {i i' : Instruction Fn Ty Const Op}

/-- What a load of a regular function is about. -/
theorem Instruction.Compared.load (hbase : base.Regular P)
    (h : i.Compared base.code todo i') {l : LoadInst Const} (hl : i.opcode = .load l) :
    l.pointer.IsBelow base.nextId ∧ accessSize P (base.typeOf P l.pointer) * 64 < 2 ^ 32 := by
  obtain ⟨i₀, hi₀, hstrengthens⟩ := h.origin
  have hopcode := hstrengthens.opcode
  rw [hl] at hopcode
  obtain ⟨l₀, hl₀, hpointer⟩ : ∃ l₀, i₀.opcode = .load l₀ ∧ l.pointer = l₀.pointer := by
    cases hsource : i₀.opcode with
    | load l₀ =>
        rw [hsource] at hopcode
        cases hopcode with
        | same => exact ⟨l, rfl, rfl⟩
        | load hl => exact ⟨l₀, rfl, hl.pointer⟩
    | _ =>
        rw [hsource] at hopcode
        cases hopcode
  rw [hpointer]
  refine ⟨?_, hbase.fits i₀ hi₀ l₀ hl₀⟩
  obtain ⟨b, hb, hib⟩ := List.mem_flatMap.mp hi₀
  exact hbase.operands.instruction b hb i₀ hib l₀.pointer (by simp [hl₀, Opcode.operands])

theorem Instruction.Compared.id_lt (hbase : base.Regular P)
    (h : i.Compared base.code todo i') : i.id < base.nextId := by
  obtain ⟨i₀, hi₀, hstrengthens⟩ := h.origin
  rw [hstrengthens.id]
  exact hbase.id_lt i₀ hi₀

end

namespace Passes

/-- Two states of a function; the kinds in `todo` have changed neither. -/
structure Compared (P : PassInfo Fn Ty Const Op Loop) (todo : OptimisticChoiceKind → Prop)
    (base fn fn' : FunctionState Fn Ty Const Op) : Prop where
  annotated : Annotated P base fn
  annotated' : Annotated P base fn'
  header : fn.function.toFunctionHeader = base.function.toFunctionHeader
  header' : fn'.function.toFunctionHeader = base.function.toFunctionHeader
  code : fn.code.Matches (Part P base.nextId (Instruction.Compared base.code todo)) fn'.code
  old : todo .controlFlowTrg → (∀ i ∈ fn.code.instructions, i.id < base.nextId) ∧
    ∀ i ∈ fn'.code.instructions, i.id < base.nextId

variable {P : PassInfo Fn Ty Const Op Loop} {kind : OptimisticChoiceKind} {f : Fn}
variable {todo todo' : OptimisticChoiceKind → Prop} {base fn fn' : FunctionState Fn Ty Const Op}

theorem Compared.refl (h : fn.Regular P) (todo : OptimisticChoiceKind → Prop) :
    Compared P todo fn fn fn where
  annotated := .refl h.toNumbered
  annotated' := .refl h.toNumbered
  header := rfl
  header' := rfl
  code := List.forall₂_same.mpr fun b hb => by
    refine ⟨rfl, rfl, List.Segmented.of_forall₂ (R := fun i i' => i' = i ∧ i ∈ fn.code.instructions)
      (List.forall₂_same.mpr fun i hi => ⟨rfl, List.mem_flatMap.mpr ⟨b, hb, hi⟩⟩) fun i i' hi => ?_⟩
    obtain ⟨rfl, hi⟩ := hi
    exact .old (h.id_lt _ hi) ⟨⟨_, hi, .refl _⟩, .refl _, fun _ _ => rfl⟩
  old _ := ⟨h.id_lt, h.id_lt⟩

theorem Compared.mono (h : Compared P todo base fn fn') (htodo : ∀ j, todo' j → todo j) :
    Compared P todo' base fn fn' where
  annotated := h.annotated
  annotated' := h.annotated'
  header := h.header
  header' := h.header'
  code := h.code.imp fun _ _ hpart => hpart.imp fun _ _ hi =>
    ⟨hi.origin, hi.atMost, fun j hj => hi.same j (htodo j hj)⟩
  old hbranch := h.old (htodo _ hbranch)

/-! ### Instructions -/

theorem kind_of_instructionQuestion {block : Nat} {i : Instruction Fn Ty Const Op}
    {q : ChoiceQuestion Fn Const} (h : instructionQuestion P kind f fn block i = some q) :
    q.kind = kind ∧ kind ≠ .controlFlowTrg ∧ kind.isAboutAttributes = false := by
  unfold instructionQuestion at h
  dsimp only at h
  split at h
  all_goals first
    | exact ⟨(of_question?_eq_some h).2.2, by decide, rfl⟩
    | cases h

/-- The question about an instruction is the same one, and the answer promises more. -/
theorem lockstep_askAbout (hbase : base.Regular P) (h : Compared P todo base fn fn')
    (hkind : todo kind) (htodo : ∀ j, todo' j → todo j ∧ kind ≠ j) (block : Nat)
    {i i' : Instruction Fn Ty Const Op} (hi : i.Compared base.code todo i') :
    Program.Lockstep AnswersAtMost (Instruction.Compared base.code todo')
      (askAbout P kind f fn block i) (askAbout P kind f fn' block i') := by
  have htype (l : LoadInst Const) (hl : i.opcode = .load l) :
      fn.typeOf P l.pointer = base.typeOf P l.pointer :=
    h.annotated.typeOf h.header (hi.load hbase hl).1
  have htype' (l : LoadInst Const) (hl : i.opcode = .load l) :
      fn'.typeOf P l.pointer = base.typeOf P l.pointer :=
    h.annotated'.typeOf h.header' (hi.load hbase hl).1
  have hquestion : instructionQuestion P kind f fn' block i' =
      instructionQuestion P kind f fn block i := by
    rw [← instructionQuestion_only P kind f fn' block i', hi.same kind hkind,
      instructionQuestion_only]
    apply instructionQuestion_congr
    intro l id hl hpointer
    have hbelow := (hi.load hbase hl).1
    rw [hpointer] at hbelow
    rw [h.annotated.getParent hbelow, h.annotated'.getParent hbelow]
  unfold askAbout
  rw [hquestion]
  cases hq : instructionQuestion P kind f fn block i with
  | none => exact .done ⟨hi.origin, hi.atMost, fun j hj => hi.same j (htodo j hj).1⟩
  | some q =>
      obtain ⟨hqkind, hne, hcode⟩ := kind_of_instructionQuestion hq
      refine .ask fun choice choice' hchoice => .done ⟨?_, ?_, fun j hj => ?_⟩
      · obtain ⟨i₀, hi₀, hstrengthens⟩ := hi.origin
        have hanswered : Answered P kind f fn block i (withChoice P kind fn choice i) := by
          unfold Answered
          rw [hq]
          exact ⟨choice, rfl⟩
        exact ⟨i₀, hi₀, hstrengthens.trans hanswered.strengthens⟩
      · obtain ⟨hle, hlt⟩ : choice ≤ choice' ∧ choice' < q.numChoices := by
          have hbranch : q.kind ≠ .controlFlowTrg := hqkind ▸ hne
          exact (if_neg hbranch).mp (hchoice (hqkind ▸ hcode))
        refine atMost_withChoice hi.atMost (hi.same kind hkind) hq hle hlt (fun l hl => ?_)
          fun l hl => ?_
        · rw [htype l hl, htype' l hl]
        · rw [htype l hl]
          exact (hi.load hbase hl).2
      · obtain ⟨hj, hne⟩ := htodo j hj
        rw [withChoice_only P fn hne, withChoice_only P fn' hne, hi.same j hj]

/-- Assumptions are not asked about. -/
theorem mapM_assuming (block id : Nat) (r : LocalRef) (c : Const) :
    (assuming P id r c).mapM (askAbout P kind f fn block) =
      (pure (assuming P id r c) : Pass Fn Const _) := by
  cases kind <;> rfl

theorem lockstep_part (hbase : base.Regular P) (h : Compared P todo base fn fn')
    (hkind : todo kind) (htodo : ∀ j, todo' j → todo j ∧ kind ≠ j) (block : Nat)
    {is is' : List (Instruction Fn Ty Const Op)}
    (hpart : Part P base.nextId (Instruction.Compared base.code todo) is is') :
    Program.Lockstep AnswersAtMost (Part P base.nextId (Instruction.Compared base.code todo'))
      (is.mapM (askAbout P kind f fn block)) (is'.mapM (askAbout P kind f fn' block)) := by
  cases hpart with
  | old hid hi =>
      simp only [List.mapM_cons, List.mapM_nil, pure_bind]
      refine (lockstep_askAbout hbase h hkind htodo block hi).bind fun j j' hj => ?_
      exact .done (.old (hj.id_lt hbase) hj)
  | further id' r c hid' =>
      rw [mapM_assuming]
      exact .done (.further id' r c hid')
  | kept id id' r c hid hid' hr =>
      rw [mapM_assuming, mapM_assuming]
      exact .done (.kept id id' r c hid hid' hr)

/-- A kind makes its pass over the instructions. -/
theorem lockstep_annotateInstructions (hbase : base.Regular P) (h : Compared P todo base fn fn')
    (hkind : todo kind) (htodo : ∀ j, todo' j → todo j ∧ kind ≠ j) :
    Program.Lockstep AnswersAtMost (fun fn₁ fn₁' =>
        fn₁.code.Matches (Part P base.nextId (Instruction.Compared base.code todo')) fn₁'.code ∧
          fn.Changed (Answered P kind f fn) fn₁ ∧ fn'.Changed (Answered P kind f fn') fn₁')
      (annotateOverflowComputations kind f fn >>= annotateMemoryOperations P kind f)
      (annotateOverflowComputations kind f fn' >>= annotateMemoryOperations P kind f) := by
  refine Program.Lockstep.and_meets ?_ ((asks_annotateInstructions P kind f fn).meets _)
    ((asks_annotateInstructions P kind f fn').meets _)
  rw [annotateInstructions_eq, annotateInstructions_eq]
  unfold FunctionState.mapInstructions
  refine (Program.lockstep_mapM h.code fun b b' hb => ?_).bind fun code code' hcode => .done hcode
  obtain ⟨hno, hterminator, his⟩ := hb
  rw [hno]
  refine (Program.lockstep_mapM_segmented his fun is is' hpart =>
    lockstep_part hbase h hkind htodo b.no hpart).bind fun is is' his => ?_
  exact .done ⟨rfl, hterminator, his⟩

theorem Compared.answered (h : Compared P todo base fn fn')
    (htodo : ∀ j, todo' j → todo j ∧ kind ≠ j) {fn₁ fn₁' : FunctionState Fn Ty Const Op}
    (hcode : fn₁.code.Matches (Part P base.nextId (Instruction.Compared base.code todo')) fn₁'.code)
    (hanswered : fn.Changed (Answered P kind f fn) fn₁)
    (hanswered' : fn'.Changed (Answered P kind f fn') fn₁') (loops loops' : LoopState Nat Nat) :
    Compared P todo' base { fn₁ with loops := loops } { fn₁' with loops := loops' } where
  annotated := (h.annotated.answered hanswered).of_eq rfl rfl
  annotated' := (h.annotated'.answered hanswered').of_eq rfl rfl
  header := (congrArg IRFunction.toFunctionHeader hanswered.function).trans h.header
  header' := (congrArg IRFunction.toFunctionHeader hanswered'.function).trans h.header'
  code := hcode
  old hbranch := by
    obtain ⟨hold, hold'⟩ := h.old (htodo _ hbranch).1
    exact ⟨hanswered.code.forall_mem (fun _ _ _ hi hid => hi.strengthens.id ▸ hid) hold,
      hanswered'.code.forall_mem (fun _ _ _ hi hid => hi.strengthens.id ▸ hid) hold'⟩

end Passes

end Petospa

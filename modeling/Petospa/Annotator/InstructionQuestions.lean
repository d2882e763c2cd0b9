import Petospa.Annotator.InstructionPasses

/-!
# What is asked about instructions

For one kind of choice at most one question is asked about an instruction, and the
answer changes what the kind is about and nothing else.
-/

namespace Petospa

open Text Interaction

namespace Passes

variable {Fn Ty Const Op Loop : Type} (P : PassInfo Fn Ty Const Op Loop)
variable (kind : OptimisticChoiceKind) (f : Fn)

/-- A question with three choices about an access, if it is one that asks. -/
def question? (asks : Bool) (numChoices : Nat) (hpos : 0 < numChoices) (subject : Subject Const) :
    Option (ChoiceQuestion Fn Const) :=
  if asks then some ⟨numChoices, f, subject, kind, hpos⟩ else none

/-- The question that a kind asks about an instruction. -/
def instructionQuestion (fn : FunctionState Fn Ty Const Op) (block : Nat)
    (i : Instruction Fn Ty Const Op) : Option (ChoiceQuestion Fn Const) :=
  let L := (P.loopInfo f).getLoopFor block
  let subject := .local (.instruction i.id)
  match kind, i.opcode with
  | .inboundsGep, .getElementPtr isInBounds _ _ =>
      question? kind f (!isInBounds) 2 Nat.two_pos subject
  | .overflowNsw, .overflowing _ nsw _ _ _ => question? kind f (!nsw) 2 Nat.two_pos subject
  | .overflowNuw, .overflowing _ _ nuw _ _ => question? kind f (!nuw) 2 Nat.two_pos subject
  | .memoryLoadInvariant, .load l =>
      question? kind f (l.isSimple && isInvariantPtr P f fn L l.pointer && !l.invariantLoad) 2
        Nat.two_pos subject
  | .memoryAccessAlign, .load l =>
      question? kind f (l.isSimple && L.isSome && getAlignment l.alignmentData < 64) 3 three_pos
        subject
  | .memoryAccessAlign, .store s =>
      question? kind f (s.isSimple && L.isSome && getAlignment s.alignmentData < 64) 3 three_pos
        (.store i.id s.pointer)
  | .memoryAccessDereferenceable, .load l =>
      question? kind f (l.isSimple && P.types.isPointerTy i.type && l.dereferenceable.isNone) 3
        three_pos subject
  | .memoryAccessResAlign, .load l =>
      question? kind f (l.isSimple && P.types.isPointerTy i.type && l.align.isNone) 3 three_pos
        subject
  | _, _ => none

/-- The access behind an answer. -/
def loadWithChoice (fn : FunctionState Fn Ty Const Op) (choice : Nat) (l : LoadInst Const) :
    LoadInst Const :=
  match kind with
  | .memoryLoadInvariant => { l with invariantLoad := choice ≠ 0 }
  | .memoryAccessAlign => { l with alignmentData := raiseAlignment l.alignmentData choice }
  | .memoryAccessDereferenceable =>
      match choice with
      | 2 => { l with dereferenceable := some (accessSize P (fn.typeOf P l.pointer) * 64 % 2 ^ 32) }
      | 1 => { l with dereferenceable := some (accessSize P (fn.typeOf P l.pointer)) }
      | _ => l
  | .memoryAccessResAlign =>
      if newAlignment choice ≠ 0 then { l with align := some (newAlignment choice) } else l
  | _ => l

def storeWithChoice (choice : Nat) (s : StoreInst Const) : StoreInst Const :=
  if kind = .memoryAccessAlign then
    { s with alignmentData := raiseAlignment s.alignmentData choice }
  else s

def opcodeWithChoice (fn : FunctionState Fn Ty Const Op) (choice : Nat) :
    Opcode Fn Const Op → Opcode Fn Const Op
  | .load l => .load (loadWithChoice P kind fn choice l)
  | .store s => .store (storeWithChoice kind choice s)
  | .getElementPtr isInBounds pointer indices =>
      .getElementPtr (if kind = .inboundsGep then choice ≠ 0 else isInBounds) pointer indices
  | .overflowing op nsw nuw lhs rhs =>
      .overflowing op (if kind = .overflowNsw then choice ≠ 0 else nsw)
        (if kind = .overflowNuw then choice ≠ 0 else nuw) lhs rhs
  | opcode => opcode

/-- The instruction behind an answer. -/
def withChoice (fn : FunctionState Fn Ty Const Op) (choice : Nat) (i : Instruction Fn Ty Const Op) :
    Instruction Fn Ty Const Op :=
  { i with opcode := opcodeWithChoice P kind fn choice i.opcode }

/-- Ask about an instruction and change it. -/
def askAbout (fn : FunctionState Fn Ty Const Op) (block : Nat) (i : Instruction Fn Ty Const Op) :
    Pass Fn Const (Instruction Fn Ty Const Op) :=
  match instructionQuestion P kind f fn block i with
  | none => return i
  | some q => do
      let choice ← Program.question (PassQuestion.choice q)
      return withChoice P kind fn choice i

/-- The kinds of `annotateOverflowComputations`. -/
def IsOverflowKind : Prop := kind = .inboundsGep ∨ kind = .overflowNsw ∨ kind = .overflowNuw

instance : Decidable (IsOverflowKind kind) := inferInstanceAs (Decidable (_ ∨ _))

variable {P kind f} {fn : FunctionState Fn Ty Const Op}

variable (P fn) in
theorem annotateOverflow_eq (block : Nat) (i : Instruction Fn Ty Const Op) :
    annotateOverflow kind f i =
      if IsOverflowKind kind then askAbout P kind f fn block i else return i := by
  obtain ⟨id, ty, opcode⟩ := i
  cases opcode with
  | getElementPtr isInBounds pointer indices =>
      cases kind <;> cases isInBounds <;> rfl
  | overflowing op nsw nuw lhs rhs =>
      cases kind <;> cases nsw <;> cases nuw <;> rfl
  | _ => cases kind <;> rfl

@[simp] theorem annotateInvariant_of_ne (h : kind ≠ .memoryLoadInvariant) (L : Option Loop)
    (i : Instruction Fn Ty Const Op) (l : LoadInst Const) :
    annotateInvariant P kind f fn L i l = return l.invariantLoad := by
  rw [annotateInvariant, decide_eq_false h]
  rfl

@[simp] theorem annotateAlignment_of_ne (h : kind ≠ .memoryAccessAlign) (L : Option Loop)
    (subject : Subject Const) (alignmentData : Nat) :
    annotateAlignment kind f L subject alignmentData = return alignmentData := by
  rw [annotateAlignment, decide_eq_false h]
  rfl

@[simp] theorem annotateLoaded_of_ne (hderef : kind ≠ .memoryAccessDereferenceable)
    (halign : kind ≠ .memoryAccessResAlign) (i : Instruction Fn Ty Const Op) (ty : Ty)
    (l : LoadInst Const) : annotateLoaded P kind f i ty l = return l := by
  rw [annotateLoaded, decide_eq_false hderef, decide_eq_false halign]
  rfl

theorem annotateMemory_load_eq (block id : Nat) (ty : Ty) (l : LoadInst Const) :
    annotateMemory P kind f fn block ⟨id, ty, .load l⟩ =
      askAbout P kind f fn block ⟨id, ty, .load l⟩ := by
  obtain ⟨pointer, isSimple, alignmentData, invariantLoad, dereferenceable, align⟩ := l
  cases isSimple with
  | false => cases kind <;> rfl
  | true =>
      cases kind with
      | memoryLoadInvariant =>
          cases hasks : isInvariantPtr P f fn ((P.loopInfo f).getLoopFor block) pointer &&
            !invariantLoad <;>
          simp [annotateMemory, annotateLoad, annotateInvariant, askFlag, getOptimisticChoice,
            askAbout, instructionQuestion, question?, withChoice, opcodeWithChoice, loadWithChoice,
            hasks]
      | memoryAccessAlign =>
          cases hasks : ((P.loopInfo f).getLoopFor block).isSome &&
            decide (getAlignment alignmentData < 64) <;>
          simp [annotateMemory, annotateLoad, annotateAlignment, getOptimisticChoice, askAbout,
            instructionQuestion, question?, withChoice, opcodeWithChoice, loadWithChoice, hasks]
      | memoryAccessDereferenceable =>
          cases hptr : P.types.isPointerTy ty <;> cases dereferenceable <;>
          simp [annotateMemory, annotateLoad, annotateLoaded, getOptimisticChoice, askAbout,
            instructionQuestion, question?, withChoice, opcodeWithChoice, loadWithChoice, hptr]
          apply congrArg (Program.ask _)
          funext choice
          rcases choice with _ | _ | _ | choice <;> rfl
      | memoryAccessResAlign =>
          cases hptr : P.types.isPointerTy ty <;> cases align <;>
          simp [annotateMemory, annotateLoad, annotateLoaded, getOptimisticChoice, askAbout,
            instructionQuestion, question?, withChoice, opcodeWithChoice, loadWithChoice, hptr]
      | _ => simp [annotateMemory, annotateLoad, askAbout, instructionQuestion]

theorem annotateMemory_store_eq (block id : Nat) (ty : Ty) (s : StoreInst Const) :
    annotateMemory P kind f fn block ⟨id, ty, .store s⟩ =
      askAbout P kind f fn block ⟨id, ty, .store s⟩ := by
  obtain ⟨value, pointer, isSimple, alignmentData⟩ := s
  cases isSimple with
  | false => cases kind <;> rfl
  | true =>
      cases kind with
      | memoryAccessAlign =>
          cases hasks : ((P.loopInfo f).getLoopFor block).isSome &&
            decide (getAlignment alignmentData < 64) <;>
          simp [annotateMemory, annotateStore, annotateAlignment, getOptimisticChoice, askAbout,
            instructionQuestion, question?, withChoice, opcodeWithChoice, storeWithChoice, hasks]
      | _ => simp [annotateMemory, annotateStore, askAbout, instructionQuestion]

theorem annotateMemory_eq (block : Nat) (i : Instruction Fn Ty Const Op) :
    annotateMemory P kind f fn block i =
      if IsOverflowKind kind then return i else askAbout P kind f fn block i := by
  obtain ⟨id, ty, opcode⟩ := i
  cases opcode with
  | load l =>
      rw [annotateMemory_load_eq]
      cases kind <;> rfl
  | store s =>
      rw [annotateMemory_store_eq]
      cases kind <;> rfl
  | _ => cases kind <;> rfl

/-! ### One pass -/

def questionsAbout (P : PassInfo Fn Ty Const Op Loop) (kind : OptimisticChoiceKind) (f : Fn)
    (fn : FunctionState Fn Ty Const Op) (block : Nat) (i : Instruction Fn Ty Const Op) :
    List (PassQuestion Fn Const) :=
  ((instructionQuestion P kind f fn block i).map PassQuestion.choice).toList

/-- The questions of a kind about the instructions of a function, in order. -/
def instructionQuestions (P : PassInfo Fn Ty Const Op Loop) (kind : OptimisticChoiceKind) (f : Fn)
    (fn : FunctionState Fn Ty Const Op) : List (PassQuestion Fn Const) :=
  fn.code.flatMap fun b => b.instructions.flatMap (questionsAbout P kind f fn b.no)

theorem mapInstructions_pure : fn.mapInstructions (fun _ i => pure i) = pure fn := by
  have hsame {α : Type} (xs : List α) : (xs.mapM pure : Pass Fn Const (List α)) = pure xs := by
    simpa using List.mapM_pure (m := Pass Fn Const) (l := xs) (f := id)
  have hblock (b : BasicBlock Fn Ty Const Op) : (do
      let instructions ← b.instructions.mapM fun i => (pure i : Pass Fn Const _)
      return { b with instructions := instructions } : Pass Fn Const _) = pure b := by
    rw [hsame, pure_bind]
  rw [FunctionState.mapInstructions, funext hblock, hsame, pure_bind]

/-- A kind is one pass over the instructions. -/
theorem annotateInstructions_eq :
    (annotateOverflowComputations kind f fn >>= annotateMemoryOperations P kind f) =
      fn.mapInstructions (askAbout P kind f fn) := by
  by_cases hkind : IsOverflowKind kind
  · have hoverflow : (fun _ => annotateOverflow kind f) = askAbout P kind f fn := by
      funext block i
      rw [annotateOverflow_eq P fn block i, if_pos hkind]
    have hmemory (fn : FunctionState Fn Ty Const Op) :
        annotateMemoryOperations P kind f fn = pure fn := by
      rw [annotateMemoryOperations, ← mapInstructions_pure]
      congr 1
      funext block i
      rw [annotateMemory_eq, if_pos hkind]
    rw [funext hmemory, bind_pure, annotateOverflowComputations, hoverflow]
  · have hoverflow : annotateOverflowComputations kind f fn = pure fn := by
      rw [annotateOverflowComputations, ← mapInstructions_pure]
      congr 1
      funext block i
      rw [annotateOverflow_eq P fn block i, if_neg hkind]
    have hmemory : annotateMemory P kind f fn = askAbout P kind f fn := by
      funext block i
      rw [annotateMemory_eq, if_neg hkind]
    rw [hoverflow, pure_bind, annotateMemoryOperations, hmemory]

/-- The instruction was asked about and changed, or was not asked about. -/
def Answered (P : PassInfo Fn Ty Const Op Loop) (kind : OptimisticChoiceKind) (f : Fn)
    (fn : FunctionState Fn Ty Const Op) (block : Nat) (i i' : Instruction Fn Ty Const Op) : Prop :=
  match instructionQuestion P kind f fn block i with
  | none => i' = i
  | some _ => ∃ choice, i' = withChoice P kind fn choice i

theorem asks_askAbout (block : Nat) (i : Instruction Fn Ty Const Op) :
    (askAbout P kind f fn block i).Asks (Answered P kind f fn block i)
      (questionsAbout P kind f fn block i) := by
  cases hquestion : instructionQuestion P kind f fn block i with
  | none =>
      rw [askAbout, questionsAbout, hquestion]
      exact .done (by rw [Answered, hquestion])
  | some q =>
      rw [askAbout, questionsAbout, hquestion]
      refine .ask fun choice => .done ?_
      rw [Answered, hquestion]
      exact ⟨choice, rfl⟩

theorem asks_mapInstructions
    {change : Nat → Instruction Fn Ty Const Op → Pass Fn Const (Instruction Fn Ty Const Op)}
    {needed : Nat → Instruction Fn Ty Const Op → List (PassQuestion Fn Const)}
    {R : Nat → Instruction Fn Ty Const Op → Instruction Fn Ty Const Op → Prop}
    (h : ∀ block i, (change block i).Asks (R block i) (needed block i)) :
    (fn.mapInstructions change).Asks (fn.Changed R)
      (fn.code.flatMap fun b => b.instructions.flatMap (needed b.no)) := by
  refine Program.Asks.map ((Program.asks_mapM fun b _ => ?_).mono
    fun code hcode => ⟨rfl, hcode, rfl, rfl⟩)
  apply Program.Asks.map
  exact (Program.asks_mapM fun i _ => h b.no i).mono fun _ his => ⟨rfl, rfl, his⟩

/-! ### What is left as it was -/

section Frame

variable {choice : Nat} {l : LoadInst Const}

variable (P kind fn choice l) in
/-- A kind changes what it is about. -/
theorem loadWithChoice_frame :
    let l' := loadWithChoice P kind fn choice l
    l'.pointer = l.pointer ∧ l'.isSimple = l.isSimple ∧
      (kind ≠ .memoryLoadInvariant → l'.invariantLoad = l.invariantLoad) ∧
      (kind ≠ .memoryAccessAlign → l'.alignmentData = l.alignmentData) ∧
      (kind ≠ .memoryAccessDereferenceable → l'.dereferenceable = l.dereferenceable) ∧
      (kind ≠ .memoryAccessResAlign → l'.align = l.align) := by
  dsimp only
  unfold loadWithChoice
  split
  · simp
  · simp
  · split <;> simp
  · split <;> simp
  · simp

variable (P kind f fn choice) in
theorem isInvariantPtr_congr {fn' : FunctionState Fn Ty Const Op}
    (hplain : fn'.code.plain = fn.code.plain) (L : Option Loop) (pointer : ValueRef Const) :
    isInvariantPtr P f fn' L pointer = isInvariantPtr P f fn L pointer := by
  have hparent (id : Nat) : fn'.code.getParent id = fn.code.getParent id := by
    rw [← Code.getParent_plain, hplain, Code.getParent_plain]
  simp only [isInvariantPtr, hparent]

/-- The answer to a kind is no matter for the questions of the others. -/
theorem instructionQuestion_withChoice {j : OptimisticChoiceKind} (hne : kind ≠ j)
    {fn' : FunctionState Fn Ty Const Op} (hplain : fn'.code.plain = fn.code.plain) (block : Nat)
    (i : Instruction Fn Ty Const Op) :
    instructionQuestion P j f fn' block (withChoice P kind fn choice i) =
      instructionQuestion P j f fn block i := by
  obtain ⟨id, ty, opcode⟩ := i
  cases opcode with
  | load l =>
      obtain ⟨hpointer, hsimple, hinvariant, halignment, hderef, halign⟩ :=
        loadWithChoice_frame P kind fn choice l
      cases j with
      | memoryLoadInvariant =>
          simp only [withChoice, opcodeWithChoice, instructionQuestion, hpointer, hsimple,
            hinvariant hne, isInvariantPtr_congr P f fn hplain]
      | memoryAccessAlign =>
          simp only [withChoice, opcodeWithChoice, instructionQuestion, hsimple, halignment hne]
      | memoryAccessDereferenceable =>
          simp only [withChoice, opcodeWithChoice, instructionQuestion, hsimple, hderef hne]
      | memoryAccessResAlign =>
          simp only [withChoice, opcodeWithChoice, instructionQuestion, hsimple, halign hne]
      | _ => rfl
  | store s =>
      cases j with
      | memoryAccessAlign =>
          simp only [withChoice, opcodeWithChoice, instructionQuestion, storeWithChoice, if_neg hne]
      | _ => rfl
  | getElementPtr isInBounds pointer indices =>
      cases j with
      | inboundsGep =>
          simp only [withChoice, opcodeWithChoice, instructionQuestion, if_neg hne]
      | _ => rfl
  | overflowing op nsw nuw lhs rhs =>
      cases j with
      | overflowNsw =>
          simp only [withChoice, opcodeWithChoice, instructionQuestion, if_neg hne]
      | overflowNuw =>
          simp only [withChoice, opcodeWithChoice, instructionQuestion, if_neg hne]
      | _ => rfl
  | _ => cases j <;> rfl

variable (P kind fn choice) in
@[simp] theorem withChoice_plain (i : Instruction Fn Ty Const Op) :
    (withChoice P kind fn choice i).plain = i.plain := by
  obtain ⟨id, ty, opcode⟩ := i
  cases opcode with
  | load l =>
      obtain ⟨hpointer, hsimple, -⟩ := loadWithChoice_frame P kind fn choice l
      simp only [withChoice, opcodeWithChoice, Instruction.plain, Opcode.plain, hpointer, hsimple]
  | store s =>
      simp only [withChoice, opcodeWithChoice, Instruction.plain, Opcode.plain, storeWithChoice]
      split <;> rfl
  | _ => rfl

end Frame

variable {fn' : FunctionState Fn Ty Const Op}

theorem Answered.plain_eq {block : Nat} {i i' : Instruction Fn Ty Const Op}
    (h : Answered P kind f fn block i i') : i'.plain = i.plain := by
  unfold Answered at h
  split at h
  · rw [h]
  · obtain ⟨choice, rfl⟩ := h
    exact withChoice_plain P kind fn choice i

theorem plain_of_answered (h : fn.Changed (Answered P kind f fn) fn') :
    fn'.code.plain = fn.code.plain :=
  h.code.plain_eq fun _ _ _ hi => hi.plain_eq

theorem instructionQuestions_of_answered (h : fn.Changed (Answered P kind f fn) fn')
    {j : OptimisticChoiceKind} (hne : kind ≠ j) :
    instructionQuestions P j f fn' = instructionQuestions P j f fn := by
  refine h.code.flatMap_eq (f := questionsAbout P j f fn) (g := questionsAbout P j f fn')
    fun block i i' hi => ?_
  unfold Answered at hi
  split at hi
  · rename_i hnone
    obtain rfl := hi
    have hsame :
        instructionQuestion P j f fn' block i' = instructionQuestion P j f fn block i' := by
      have hparent := isInvariantPtr_congr P f fn (plain_of_answered h)
      simp only [instructionQuestion, hparent]
    rw [questionsAbout, hsame, questionsAbout]
  · obtain ⟨choice, rfl⟩ := hi
    rw [questionsAbout, questionsAbout, instructionQuestion_withChoice hne (plain_of_answered h)]

variable (P kind f fn) in
/-- The instructions of a function and their questions. -/
theorem asks_annotateInstructions :
    (annotateOverflowComputations kind f fn >>= annotateMemoryOperations P kind f).Asks
      (fn.Changed (Answered P kind f fn)) (instructionQuestions P kind f fn) := by
  rw [annotateInstructions_eq]
  exact asks_mapInstructions fun block i => asks_askAbout block i

end Passes

end Petospa

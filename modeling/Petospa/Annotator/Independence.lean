import Petospa.Annotator.AttributeQuestions
import Petospa.Annotator.InstructionQuestions
import Petospa.Annotator.ModulePasses

/-!
# What is asked whatever is answered

All passes of an instance ask the same questions in the same order, whatever they are
answered. An answer decides about annotations of its kind; later questions are about
other kinds, and the values that are assumed later still are looked at without them.
-/

namespace Petospa

open Text Interaction

variable {Fn Ty Const Op Loop : Type}

/-- Answers are arbitrary, names are not. -/
def NamesAgree : (q : PassQuestion Fn Const) → PassAnswer q → PassAnswer q → Prop
  | .choice _, _, _ => True
  | .getName _ _, name, name' => name = name'

namespace Passes

variable (P : PassInfo Fn Ty Const Op Loop) (kind : OptimisticChoiceKind) (f : Fn)

/-! ### Loops -/

section Loops

variable [DecidableEq Loop] (inst : Nat)

def loopQuestion (L : Loop) : List (PassQuestion Fn Const) :=
  if inst = 7 ∧ kind = (P.loopInfo f).kindOf L then
    [.choice ⟨2, f, .local (.block ((P.loopInfo f).getHeader L)), kind, Nat.two_pos⟩]
  else []

/-- The questions of a kind about the loops of a function. -/
def loopQuestions : List (PassQuestion Fn Const) :=
  (P.loopInfo f).topLevel.flatMap fun O =>
    ((P.loopInfo f).depthFirst O).flatMap (loopQuestion P kind f inst)

variable {P kind f inst}

theorem asks_requestLoop (r : LoopState Nat Nat × List Loop) (L : Loop) :
    (requestLoop P inst kind f r L).Asks (fun _ => True) (loopQuestion P kind f inst L) := by
  unfold requestLoop loopQuestion
  dsimp only
  by_cases hinst : inst = 7
  · by_cases hkind : kind = (P.loopInfo f).kindOf L
    · simp only [hinst, hkind, ne_eq, not_true, if_true, if_false, and_self]
      apply asks_getOptimisticChoice
      intro choice
      split
      · exact .done trivial
      · exact .done trivial
    · simp only [hinst, hkind, ne_eq, not_false_iff, if_true, if_false, and_false]
      exact .done trivial
  · simp only [hinst, if_false, false_and]
    exact .done trivial

variable (P kind f inst) in
theorem asks_annotateLoops (s : LoopState Nat Nat) :
    (annotateLoops P inst kind f s).Asks (fun _ => True) (loopQuestions P kind f inst) := by
  refine Program.asks_foldlM (fun _ => True) (fun O _ s _ => ?_) trivial
  have hrequest : (((P.loopInfo f).depthFirst O).foldlM (requestLoop P inst kind f) (s, [])).Asks
      (fun _ => True) (((P.loopInfo f).depthFirst O).flatMap (loopQuestion P kind f inst)) :=
    Program.asks_foldlM (fun _ => True) (fun L _ r _ => asks_requestLoop r L) trivial
  rw [← List.append_nil (List.flatMap _ _)]
  refine hrequest.bind fun r _ => ?_
  dsimp only
  split
  · exact .done trivial
  · exact .fails [] _

end Loops

/-! ### Branches -/

section Branches

/-- `GetUnderlyingObject` finds the same for the loads of a function whatever its flags,
alignments and metadata are. It folds selects, and that can look at `inbounds`. -/
def LooksThroughAnnotations (P : PassInfo Fn Ty Const Op Loop) (f : Fn)
    (code : Code Fn Ty Const Op) : Prop :=
  ∀ code' : Code Fn Ty Const Op, code'.plain = code.plain → ∀ i ∈ code'.instructions, ∀ l,
    i.opcode = .load l →
      P.getUnderlyingObject f code.plain l.pointer = P.getUnderlyingObject f code' l.pointer

variable {P f}

theorem LooksThroughAnnotations.congr {code code' : Code Fn Ty Const Op}
    (h : LooksThroughAnnotations P f code) (hplain : code'.plain = code.plain) :
    LooksThroughAnnotations P f code' := by
  rw [LooksThroughAnnotations, hplain]
  exact h

/-- A function without the annotations of its instructions. -/
def plain (fn : FunctionState Fn Ty Const Op) : FunctionState Fn Ty Const Op :=
  { fn with code := fn.code.plain }

variable (fn : FunctionState Fn Ty Const Op)

theorem definition_plain (v : ValueRef Const) :
    (plain fn).definition v = (fn.definition v).map Instruction.plain := by
  unfold FunctionState.definition
  split
  · exact Code.instruction?_plain fn.code _
  · rfl

theorem comparison_plain (condition : ValueRef Const) :
    comparison (plain fn) condition = comparison fn condition := by
  rw [comparison, comparison, definition_plain]
  cases fn.definition condition with
  | none => rfl
  | some i =>
      obtain ⟨id, ty, opcode⟩ := i
      cases opcode <;> rfl

theorem isSpeculated_plain (r : LocalRef) : isSpeculated (plain fn) r = isSpeculated fn r := by
  cases r with
  | instruction id =>
      simp only [isSpeculated, plain, Code.instruction?_plain]
      cases fn.code.instruction? id with
      | none => rfl
      | some i =>
          obtain ⟨id, ty, opcode⟩ := i
          cases opcode <;> rfl
  | _ => rfl

theorem branchSite_plain (b : BasicBlock Fn Ty Const Op) :
    branchSite P f (plain fn) b.plain = branchSite P f fn b := by
  simp only [branchSite, decidesLoop, BasicBlock.plain_no, BasicBlock.plain_terminator,
    comparison_plain, isSpeculated_plain]
  rfl

theorem mem_of_definition {v : ValueRef Const} {i : Instruction Fn Ty Const Op}
    (h : fn.definition v = some i) : i ∈ fn.code.instructions := by
  unfold FunctionState.definition at h
  split at h
  · exact List.mem_of_find?_eq_some h
  · cases h

theorem idString_plain (hlooks : LooksThroughAnnotations P f fn.code) (r : LocalRef) :
    idString P f (plain fn) r = idString P f fn r := by
  rw [idString, idString, definition_plain]
  cases hdefinition : fn.definition (.local r) with
  | none => rfl
  | some i =>
      have hmem := mem_of_definition fn hdefinition
      obtain ⟨id, ty, opcode⟩ := i
      cases opcode with
      | load l => exact congrArg (getName P f) (hlooks fn.code rfl _ hmem l rfl)
      | call callee args => cases callee <;> rfl
      | _ => rfl

theorem insertionPoint_plain (r : LocalRef) :
    insertionPoint (plain fn) r = insertionPoint fn r := by
  cases r with
  | instruction id => exact Code.behind_plain fn.code id
  | _ => exact Code.entryPoint_plain fn.code

variable [DecidableEq Const]

theorem annotateBranch_plain (hlooks : LooksThroughAnnotations P f fn.code)
    (map : SpeculationMap Fn Const) (b : BasicBlock Fn Ty Const Op) :
    annotateBranch P f (plain fn) map b.plain = annotateBranch P f fn map b := by
  simp only [annotateBranch, branchSite_plain, idString_plain fn hlooks, insertionPoint_plain]

/-- The branches of two functions that only differ in annotations. -/
theorem annotateBranchConditions_congr {fn fn' : FunctionState Fn Ty Const Op}
    (hlooks : LooksThroughAnnotations P f fn.code) (hplain : fn'.code.plain = fn.code.plain)
    (map : SpeculationMap Fn Const) :
    annotateBranchConditions P kind f fn' map = annotateBranchConditions P kind f fn map := by
  have hfold {fn : FunctionState Fn Ty Const Op} (hlooks : LooksThroughAnnotations P f fn.code) :
      fn.code.plain.foldlM (annotateBranch P f (plain fn)) map =
        fn.code.foldlM (annotateBranch P f fn) map := by
    rw [Code.plain, List.foldlM_map]
    simp only [annotateBranch_plain fn hlooks]
  have hcode : annotateBranch P f (plain fn') = annotateBranch P f (plain fn) := by
    rw [plain, hplain]
    rfl
  rw [annotateBranchConditions, annotateBranchConditions, ← hfold (hlooks.congr hplain),
    ← hfold hlooks, hplain, hcode]

omit [DecidableEq Const] in
theorem lockstep_getName (v : ValueRef Const) :
    Program.Lockstep NamesAgree Eq (getName P f v) (getName P f v) := by
  cases v with
  | «local» r => exact .ask fun name name' h => .done h
  | constant c => exact .done rfl

omit [DecidableEq Const] in
theorem lockstep_idString (r : LocalRef) :
    Program.Lockstep NamesAgree Eq (idString P f fn r) (idString P f fn r) := by
  unfold idString
  split
  · exact .done rfl
  · exact lockstep_getName _
  · exact lockstep_getName _

theorem lockstep_annotateBranchConditions (map : SpeculationMap Fn Const) :
    Program.Lockstep NamesAgree Eq (annotateBranchConditions P kind f fn map)
      (annotateBranchConditions P kind f fn map) := by
  unfold annotateBranchConditions
  split
  · exact .done rfl
  · refine Program.lockstep_foldlM (R := fun _ => Eq) (fun b _ map map' hmap => ?_) rfl
    subst hmap
    unfold annotateBranch
    split
    · exact .done rfl
    · refine (lockstep_idString fn _).bind fun name name' hname => ?_
      subst hname
      exact .done rfl

end Branches

/-! ### Assumptions -/

section Assumptions

variable {P f} {fn : FunctionState Fn Ty Const Op}

/-- The pointers of loads are no later instructions. -/
def LoadsNumbered (fn : FunctionState Fn Ty Const Op) : Prop :=
  ∀ i ∈ fn.code.instructions, ∀ l id, i.opcode = .load l → l.pointer = .local (.instruction id) →
    id < fn.nextId

theorem LoadsNumbered.of_numbered (h : fn.Numbered) : LoadsNumbered fn := by
  intro i hi l id hload hpointer
  obtain ⟨b, hb, hib⟩ := List.mem_flatMap.mp hi
  have hbelow := h.operands.instruction b hb i hib l.pointer (by simp [hload, Opcode.operands])
  rwa [hpointer] at hbelow

theorem instructionQuestion_congr {fn fn' : FunctionState Fn Ty Const Op} {block : Nat}
    {i : Instruction Fn Ty Const Op}
    (h : ∀ l id, i.opcode = .load l → l.pointer = .local (.instruction id) →
      fn'.code.getParent id = fn.code.getParent id) :
    instructionQuestion P kind f fn' block i = instructionQuestion P kind f fn block i := by
  obtain ⟨id, ty, opcode⟩ := i
  cases opcode with
  | load l =>
      have hinvariant (L : Option Loop) :
          isInvariantPtr P f fn' L l.pointer = isInvariantPtr P f fn L l.pointer := by
        unfold isInvariantPtr
        split
        · rename_i hpointer
          rw [h l _ rfl hpointer]
        · rfl
      cases kind with
      | memoryLoadInvariant => simp only [instructionQuestion, hinvariant]
      | _ => rfl
  | _ => cases kind <;> rfl

variable [DecidableEq Ty]

theorem le_id_of_mem_assumption {r : LocalRef} {c : Const} {i : Instruction Fn Ty Const Op}
    (h : i ∈ assumption P fn r c) : fn.nextId ≤ i.id ∧ ∀ l, i.opcode ≠ .load l := by
  simp only [assumption, List.mem_cons, List.not_mem_nil, or_false] at h
  obtain rfl | rfl := h
  · exact ⟨le_rfl, nofun⟩
  · exact ⟨Nat.le_succ _, nofun⟩

theorem LoadsNumbered.withAssumption (h : LoadsNumbered fn) (c : Const) (r : LocalRef)
    (point : InsertionPoint) : LoadsNumbered (withAssumption P c fn r point) := by
  intro i hi l id hload hpointer
  obtain hi | hi := Code.mem_instructions_insertAt hi
  · exact absurd hload ((le_id_of_mem_assumption hi).2 l)
  · exact Nat.lt_add_right 2 (h i hi l id hload hpointer)

/-- An assumption is not asked about, and the others are asked about as before. -/
theorem instructionQuestions_withAssumption (h : LoadsNumbered fn) (c : Const) (r : LocalRef)
    (point : InsertionPoint) :
    instructionQuestions P kind f (withAssumption P c fn r point) =
      instructionQuestions P kind f fn := by
  have hnew (block : Nat) : (assumption P fn r c).flatMap
      (questionsAbout P kind f (withAssumption P c fn r point) block) = [] := by
    cases kind <;> rfl
  have hsame : ∀ i ∈ fn.code.instructions, ∀ block,
      questionsAbout P kind f (withAssumption P c fn r point) block i =
        questionsAbout P kind f fn block i := by
    intro i hi block
    rw [questionsAbout, questionsAbout, instructionQuestion_congr]
    intro l id hload hpointer
    apply Code.getParent_insertAt
    intro j hj
    have hlt := h i hi l id hload hpointer
    have hle := (le_id_of_mem_assumption hj).1
    omega
  rw [instructionQuestions, instructionQuestions]
  refine (Code.flatMap_insertAt hnew).trans ?_
  apply List.flatMap_congr
  intro b hb
  apply List.flatMap_congr
  intro i hi
  exact hsame i (List.mem_flatMap.mpr ⟨b, hb, hi⟩) b.no

end Assumptions

/-! ### One function -/

section Runs

/-- A kind asks the same about two states of a function. -/
structure LooksSame (P : PassInfo Fn Ty Const Op Loop) (f : Fn) (kind : OptimisticChoiceKind)
    (fn fn' : FunctionState Fn Ty Const Op) : Prop where
  function : SameFor kind fn.function fn'.function
  instructions : instructionQuestions P kind f fn' = instructionQuestions P kind f fn
  plain : kind = .controlFlowTrg → fn'.code.plain = fn.code.plain

namespace LooksSame

variable {P kind f} {fn fn' fn'' : FunctionState Fn Ty Const Op}

theorem refl (fn : FunctionState Fn Ty Const Op) : LooksSame P f kind fn fn :=
  ⟨.refl _, rfl, fun _ => rfl⟩

theorem symm (h : LooksSame P f kind fn fn') : LooksSame P f kind fn' fn :=
  ⟨h.function.symm, h.instructions.symm, fun hkind => (h.plain hkind).symm⟩

theorem trans (h : LooksSame P f kind fn fn') (h' : LooksSame P f kind fn' fn'') :
    LooksSame P f kind fn fn'' :=
  ⟨h.function.trans h'.function, h'.instructions.trans h.instructions,
    fun hkind => (h'.plain hkind).trans (h.plain hkind)⟩

end LooksSame

/-- What a kind makes of a function: the other kinds ask as before. -/
structure Ran (P : PassInfo Fn Ty Const Op Loop) (f : Fn) (kind : OptimisticChoiceKind)
    (fn fn' : FunctionState Fn Ty Const Op) : Prop where
  others : ∀ j, kind ≠ j → LooksSame P f j fn fn'
  numbered : LoadsNumbered fn → LoadsNumbered fn'

variable {P kind f}

theorem LoadsNumbered.of_plain_eq {fn fn' : FunctionState Fn Ty Const Op} (h : LoadsNumbered fn)
    (hplain : fn'.code.plain = fn.code.plain) (hid : fn'.nextId = fn.nextId) :
    LoadsNumbered fn' := by
  intro i' hi' l' id hload hpointer
  have hmem : i'.plain ∈ fn.code.instructions.map Instruction.plain := by
    rw [← Code.instructions_plain, ← hplain, Code.instructions_plain]
    exact List.mem_map_of_mem hi'
  obtain ⟨i, hi, hsame⟩ := List.mem_map.mp hmem
  have hopcode : i.opcode.plain = i'.opcode.plain := congrArg Instruction.opcode hsame
  rw [hload] at hopcode
  rw [hid]
  cases hcase : i.opcode with
  | load l =>
      rw [hcase] at hopcode
      rw [Opcode.plain, Opcode.plain, Opcode.load.injEq] at hopcode
      obtain ⟨hpointers, -⟩ := LoadInst.mk.inj hopcode
      exact h i hi l id hcase (hpointers.trans hpointer)
  | _ =>
      rw [hcase] at hopcode
      cases hopcode

theorem ran_of_answered {fn fn' : FunctionState Fn Ty Const Op}
    (h : fn.Changed (Answered P kind f fn) fn') (loops : LoopState Nat Nat) :
    Ran P f kind fn { fn' with loops := loops } := by
  have hplain := plain_of_answered h
  refine ⟨fun j hne => ⟨?_, instructionQuestions_of_answered h hne, fun _ => hplain⟩, fun hn => ?_⟩
  · rw [h.function]
    exact .refl _
  · exact hn.of_plain_eq hplain h.nextId

section

variable [DecidableEq Const] [DecidableEq Loop] {inst : Nat}

theorem lockstep_annotateCode {fn fn' : FunctionState Fn Ty Const Op}
    (hlooks : kind = .controlFlowTrg → LooksThroughAnnotations P f fn.code)
    (hsame : instructionQuestions P kind f fn' = instructionQuestions P kind f fn)
    (hplain : kind = .controlFlowTrg → fn'.code.plain = fn.code.plain)
    (map : SpeculationMap Fn Const) :
    Program.Lockstep NamesAgree
      (fun r r' => r.2 = r'.2 ∧ Ran P f kind fn r.1 ∧ Ran P f kind fn' r'.1)
      (annotateCode P inst kind f fn map) (annotateCode P inst kind f fn' map) := by
  have hinstructions := asks_annotateInstructions P kind f fn
  have hinstructions' := asks_annotateInstructions P kind f fn'
  rw [hsame] at hinstructions'
  rw [annotateCode, annotateCode, ← bind_assoc, ← bind_assoc]
  refine (Program.lockstep_of_asks hinstructions hinstructions').bind fun fn₁ fn₁' hanswered => ?_
  have hbranches : annotateBranchConditions P kind f fn₁' map =
      annotateBranchConditions P kind f fn₁ map := by
    by_cases hkind : kind = .controlFlowTrg
    · apply annotateBranchConditions_congr kind
      · exact (hlooks hkind).congr (plain_of_answered hanswered.1)
      · rw [plain_of_answered hanswered.1, plain_of_answered hanswered.2, hplain hkind]
    · rw [annotateBranchConditions, annotateBranchConditions, if_pos hkind, if_pos hkind]
  rw [hbranches]
  refine (lockstep_annotateBranchConditions kind fn₁ map).bind fun map₁ map₁' hmap => ?_
  subst hmap
  have hloops := asks_annotateLoops P kind f inst
  refine (Program.lockstep_of_asks (hloops _) (hloops _)).bind fun loops loops' _ => ?_
  exact .done ⟨rfl, ran_of_answered hanswered.1 loops, ran_of_answered hanswered.2 loops'⟩

end

/-! ### All functions -/

/-- What is still to be asked is the same for two states of the functions. -/
structure Alike (P : PassInfo Fn Ty Const Op Loop) (todo : Fn → OptimisticChoiceKind → Prop)
    (functions functions' : Fn → FunctionState Fn Ty Const Op) : Prop where
  same : ∀ f kind, todo f kind → LooksSame P f kind (functions f) (functions' f)
  looks : ∀ f, todo f .controlFlowTrg → LooksThroughAnnotations P f (functions f).code
  numbered : ∀ f, LoadsNumbered (functions f)
  numbered' : ∀ f, LoadsNumbered (functions' f)

theorem Ran.trans {fn fn' fn'' : FunctionState Fn Ty Const Op} (h : Ran P f kind fn fn')
    (h' : Ran P f kind fn' fn'') : Ran P f kind fn fn'' :=
  ⟨fun j hne => (h.others j hne).trans (h'.others j hne), fun hn => h'.numbered (h.numbered hn)⟩

theorem Ran.of_keeps {fn : FunctionState Fn Ty Const Op} {function : IRFunction Ty}
    (h : Keeps kind fn.function function) : Ran P f kind fn { fn with function := function } where
  others _ hne := ⟨h.sameFor hne, rfl, fun _ => rfl⟩
  numbered := id

/-- Running a kind on both states of a function. -/
theorem Alike.update [DecidableEq Fn] {todo todo' : Fn → OptimisticChoiceKind → Prop}
    {functions functions' : Fn → FunctionState Fn Ty Const Op}
    (h : Alike P todo functions functions')
    (htodo : ∀ g j, todo' g j → todo g j ∧ (g = f → kind ≠ j))
    {fn fn' : FunctionState Fn Ty Const Op} (hran : Ran P f kind (functions f) fn)
    (hran' : Ran P f kind (functions' f) fn') :
    Alike P todo' (Function.update functions f fn) (Function.update functions' f fn') where
  same g j hj := by
    obtain ⟨hg, hne⟩ := htodo g j hj
    have hsame := h.same g j hg
    by_cases hgf : g = f
    · subst hgf
      rw [Function.update_self, Function.update_self]
      exact (hran.others j (hne rfl)).symm.trans (hsame.trans (hran'.others j (hne rfl)))
    · rwa [Function.update_of_ne hgf, Function.update_of_ne hgf]
  looks g hj := by
    obtain ⟨hg, hne⟩ := htodo g _ hj
    by_cases hgf : g = f
    · subst hgf
      rw [Function.update_self]
      exact (h.looks g hg).congr ((hran.others _ (hne rfl)).plain rfl)
    · rw [Function.update_of_ne hgf]
      exact h.looks g hg
  numbered g := by
    by_cases hgf : g = f
    · subst hgf
      rw [Function.update_self]
      exact hran.numbered (h.numbered g)
    · rw [Function.update_of_ne hgf]
      exact h.numbered g
  numbered' g := by
    by_cases hgf : g = f
    · subst hgf
      rw [Function.update_self]
      exact hran'.numbered (h.numbered' g)
    · rw [Function.update_of_ne hgf]
      exact h.numbered' g

variable [DecidableEq Fn] [DecidableEq Ty] [DecidableEq Const] [DecidableEq Loop] {inst : Nat}

/-- Two states of a module that are asked about in the same way. -/
def AlikeStates (P : PassInfo Fn Ty Const Op Loop) (todo : Fn → OptimisticChoiceKind → Prop)
    (st st' : ModuleState Fn Ty Const Op) : Prop :=
  Alike P todo st.functions st'.functions ∧ st.speculation = st'.speculation

theorem lockstep_runFunction (declOnly : Fn → Bool)
    {todo todo' : Fn → OptimisticChoiceKind → Prop} {st st' : ModuleState Fn Ty Const Op}
    (hf : todo f kind) (htodo : ∀ g j, todo' g j → todo g j ∧ (g = f → kind ≠ j))
    (h : AlikeStates P todo st st') :
    Program.Lockstep NamesAgree (AlikeStates P todo') (runFunction P inst kind declOnly st f)
      (runFunction P inst kind declOnly st' f) := by
  obtain ⟨halike, hmap⟩ := h
  have hsame := halike.same f kind hf
  have hattributes := @asks_annotateAttributes _ _ Const _ P.types kind f inst
    (st.functions f).function
  have hattributes' := @asks_annotateAttributes _ _ Const _ P.types kind f inst
    (st'.functions f).function
  rw [attributeQuestions_congr hsame.function] at hattributes'
  refine (Program.lockstep_of_asks hattributes hattributes').bind
    fun function function' hkeeps => ?_
  have hran : Ran P f kind (st.functions f) _ := Ran.of_keeps hkeeps.1
  have hran' : Ran P f kind (st'.functions f) _ := Ran.of_keeps hkeeps.2
  have hheader : function'.isDeclaration = function.isDeclaration := by
    rw [hkeeps.1.header, hkeeps.2.header, hsame.function.header]
  simp only [hheader]
  split
  · exact .done ⟨halike.update htodo hran hran', hmap⟩
  · rw [← hmap]
    refine (lockstep_annotateCode ?_ ?_ ?_ st.speculation).bind fun r r' hr => ?_
    · rintro rfl
      exact halike.looks f hf
    · exact hsame.instructions
    · exact hsame.plain
    · obtain ⟨hmaps, hcode, hcode'⟩ := hr
      exact .done ⟨halike.update htodo (hran.trans hcode) (hran'.trans hcode'), hmaps⟩

/-! ### Assumptions about all functions -/

omit [DecidableEq Fn] [DecidableEq Const] [DecidableEq Loop] in
theorem Ran.withAssumption {fn : FunctionState Fn Ty Const Op} (hnumbered : LoadsNumbered fn)
    (c : Const) (r : LocalRef) (point : InsertionPoint) :
    Ran P f .controlFlowTrg fn (withAssumption P c fn r point) where
  others _ hne :=
    ⟨.refl _, instructionQuestions_withAssumption _ hnumbered c r point,
      fun hkind => absurd hkind.symm hne⟩
  numbered h := h.withAssumption c r point

/-- The questions about branches are over. -/
def NoBranches (todo : Fn → OptimisticChoiceKind → Prop) : Prop :=
  ∀ f kind, todo f kind → .controlFlowTrg ≠ kind

omit [DecidableEq Const] [DecidableEq Loop] in
/-- Assumptions in one of two states. -/
theorem Alike.assume_left {todo : Fn → OptimisticChoiceKind → Prop} (htodo : NoBranches todo)
    {functions functions' : Fn → FunctionState Fn Ty Const Op}
    (h : Alike P todo functions functions')
    (c : Const) (s : Speculated Fn) : Alike P todo (assume P c functions s) functions' := by
  unfold assume
  split
  · exact h
  · rename_i point hpoint
    have hran : Ran P s.function .controlFlowTrg (functions s.function) _ :=
      .withAssumption (h.numbered s.function) c s.value point
    have hself : Ran P s.function .controlFlowTrg (functions' s.function) (functions' s.function) :=
      ⟨fun _ _ => .refl _, id⟩
    have hupdate := h.update (fun g j hj => ⟨hj, fun _ => htodo g j hj⟩) hran hself
    rwa [Function.update_eq_self] at hupdate

omit [DecidableEq Fn] [DecidableEq Ty] [DecidableEq Const] [DecidableEq Loop] in
theorem Alike.mono {todo todo' : Fn → OptimisticChoiceKind → Prop}
    {functions functions' : Fn → FunctionState Fn Ty Const Op}
    (h : Alike P todo functions functions')
    (htodo : ∀ f kind, todo' f kind → todo f kind) : Alike P todo' functions functions' :=
  ⟨fun f kind hf => h.same f kind (htodo f kind hf), fun f hf => h.looks f (htodo f _ hf),
    h.numbered, h.numbered'⟩

omit [DecidableEq Fn] [DecidableEq Ty] [DecidableEq Const] [DecidableEq Loop] in
theorem Alike.symm {todo : Fn → OptimisticChoiceKind → Prop}
    {functions functions' : Fn → FunctionState Fn Ty Const Op}
    (h : Alike P todo functions functions') : Alike P todo functions' functions :=
  ⟨fun f kind hf => (h.same f kind hf).symm,
    fun f hf => (h.looks f hf).congr ((h.same f _ hf).plain rfl), h.numbered', h.numbered⟩

omit [DecidableEq Const] [DecidableEq Loop] in
theorem Alike.assumeAll_left {todo : Fn → OptimisticChoiceKind → Prop} (htodo : NoBranches todo)
    {functions functions' : Fn → FunctionState Fn Ty Const Op}
    (h : Alike P todo functions functions')
    (c : Const) (points : List (Speculated Fn)) :
    Alike P todo (points.foldl (assume P c) functions) functions' := by
  induction points generalizing functions with
  | nil => exact h
  | cons s points ih => exact ih (h.assume_left htodo c s)

omit [DecidableEq Const] [DecidableEq Loop] in
theorem Alike.assumeChosen_left {todo : Fn → OptimisticChoiceKind → Prop}
    (htodo : NoBranches todo) {functions functions' r : Fn → FunctionState Fn Ty Const Op}
    (h : Alike P todo functions functions') {info : SpeculationInfo Fn Const} {choice : Nat}
    (hchosen : assumeChosen P functions info choice = .ok r) : Alike P todo r functions' := by
  unfold assumeChosen at hchosen
  split at hchosen
  · rwa [← Except.ok.inj hchosen]
  · split at hchosen
    · cases hchosen
    · rw [← Except.ok.inj hchosen]
      exact h.assumeAll_left htodo _ _

omit [DecidableEq Const] [DecidableEq Loop] in
theorem lockstep_createSpeculativeAssumptions {todo : Fn → OptimisticChoiceKind → Prop}
    (htodo : kind = .controlFlowTrg → NoBranches todo)
    {functions functions' : Fn → FunctionState Fn Ty Const Op}
    (h : Alike P todo functions functions')
    (map : SpeculationMap Fn Const) :
    Program.Lockstep NamesAgree (Alike P todo) (createSpeculativeAssumptions P kind functions map)
      (createSpeculativeAssumptions P kind functions' map) := by
  unfold createSpeculativeAssumptions
  split
  · exact .done h
  · rename_i hkind
    have htodo := htodo (not_not.mp hkind)
    refine Program.lockstep_foldlM (R := fun _ => Alike P todo)
      (fun entry _ functions functions' halike => ?_) h
    unfold assumeGroup
    split
    · exact .failsLeft _ _
    · refine .ask fun choice choice' _ => Program.lockstep_ofExcept fun r r' hr hr' => ?_
      exact ((halike.assumeChosen_left htodo hr).symm.assumeChosen_left htodo hr').symm

/-! ### The module -/

/-- What is left to be done in a kind and in the kinds behind it. -/
def Remaining (kind : OptimisticChoiceKind) (kinds : List OptimisticChoiceKind) (fs : List Fn)
    (f : Fn) (j : OptimisticChoiceKind) : Prop :=
  j ∈ kinds ∨ (j = kind ∧ f ∈ fs)

theorem lockstep_runKind (declOnly : Fn → Bool) {functions : List Fn}
    (hnodup : functions.Nodup) {kinds : List OptimisticChoiceKind} (hkind : kind ∉ kinds)
    {st st' : ModuleState Fn Ty Const Op}
    (h : AlikeStates P (fun _ j => j ∈ kind :: kinds) st st') :
    Program.Lockstep NamesAgree (AlikeStates P fun _ j => j ∈ kinds)
      (runKind P inst declOnly functions st kind) (runKind P inst declOnly functions st' kind) := by
  have hfunctions : Program.Lockstep NamesAgree (fun st st' =>
      ([] : List Fn).Nodup ∧ AlikeStates P (Remaining kind kinds []) st st')
      (functions.foldlM (runFunction P inst kind declOnly) st)
      (functions.foldlM (runFunction P inst kind declOnly) st') := by
    refine Program.lockstep_foldlM
      (R := fun fs st st' => fs.Nodup ∧ AlikeStates P (Remaining kind kinds fs) st st')
      (fun f fs st st' hst => ?_) ⟨hnodup, ?_⟩
    · obtain ⟨hnodup, hst⟩ := hst
      obtain ⟨hf, hnodup⟩ := List.nodup_cons.mp hnodup
      refine (lockstep_runFunction declOnly (.inr ⟨rfl, List.mem_cons_self⟩)
        (fun g j (hj : Remaining kind kinds fs g j) => ?_) hst).mono fun _ _ hst => ⟨hnodup, hst⟩
      · refine ⟨hj.imp id fun hj => ⟨hj.1, List.mem_cons_of_mem f hj.2⟩, ?_⟩
        rintro rfl rfl
        obtain hj | hj := hj
        · exact hkind hj
        · exact hf hj.2
    · refine ⟨h.1.mono fun f j hj => ?_, h.2⟩
      obtain hj | ⟨rfl, -⟩ := hj
      · exact List.mem_cons_of_mem kind hj
      · exact List.mem_cons_self
  refine hfunctions.bind fun st st' hst => ?_
  obtain ⟨-, halike, hmap⟩ := hst
  rw [← hmap]
  have hrest : Alike P (fun _ j => j ∈ kinds) st.functions st'.functions :=
    halike.mono fun _ _ hj => .inl hj
  refine (lockstep_createSpeculativeAssumptions (fun hbranch f j hj => ?_) hrest
    st.speculation).bind fun r r' hr => .done ⟨hr, rfl⟩
  · rintro rfl
    rw [hbranch] at hkind
    exact hkind hj

/-- All passes of an instance. -/
theorem lockstep_runPasses (declOnly : Fn → Bool) {functions : List Fn}
    (hnodup : functions.Nodup) {states : Fn → FunctionState Fn Ty Const Op}
    (hlooks : ∀ f, LooksThroughAnnotations P f (states f).code)
    (hnumbered : ∀ f, (states f).Numbered) :
    Program.Lockstep NamesAgree (fun _ _ => True) (runPasses P inst declOnly functions states)
      (runPasses P inst declOnly functions states) := by
  have hstart : AlikeStates P (fun _ j => j ∈ choiceKinds) ⟨states, .empty⟩ ⟨states, .empty⟩ :=
    ⟨⟨fun _ _ _ => .refl _, fun f _ => hlooks f, fun f => .of_numbered (hnumbered f),
      fun f => .of_numbered (hnumbered f)⟩, rfl⟩
  refine (Program.lockstep_foldlM (R := fun kinds st st' => kinds.Nodup ∧
    AlikeStates P (fun _ j => j ∈ kinds) st st') (fun kind kinds st st' hst => ?_)
    ⟨by decide, hstart⟩).mono fun _ _ _ => trivial
  obtain ⟨hkinds, hst⟩ := hst
  obtain ⟨hkind, hkinds⟩ := List.nodup_cons.mp hkinds
  exact (lockstep_runKind declOnly hnodup hkind hst).mono fun _ _ h => ⟨hkinds, h⟩

end Runs

end Passes

end Petospa

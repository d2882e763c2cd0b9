import Petospa.Annotator.PassRuns
import Petospa.Lib.Pointwise

/-!
# What a run makes of code

Whatever is answered, the passes only raise alignments and add flags, metadata and
assumptions. The instructions of a function stay where they are.
-/

namespace Petospa

open Text Interaction

/-! ### Stronger instructions -/

/-- An alignment that is kept, or raised to a multiple of 8. -/
def AlignsMore (data data' : Nat) : Prop :=
  data' = data ∨ 8 ∣ getAlignment data' ∧ getAlignment data < getAlignment data'

theorem AlignsMore.trans {data data' data'' : Nat} (h : AlignsMore data data')
    (h' : AlignsMore data' data'') : AlignsMore data data'' := by
  obtain rfl | ⟨hdvd, hlt⟩ := h
  · exact h'
  · obtain rfl | ⟨hdvd', hlt'⟩ := h'
    · exact .inr ⟨hdvd, hlt⟩
    · exact .inr ⟨hdvd', hlt.trans hlt'⟩

/-- A load with further metadata. -/
structure LoadInst.Strengthens {Const : Type} (l l' : LoadInst Const) : Prop where
  pointer : l'.pointer = l.pointer
  isSimple : l'.isSimple = l.isSimple
  alignmentData : AlignsMore l.alignmentData l'.alignmentData
  invariantLoad : l.invariantLoad = true → l'.invariantLoad = true
  dereferenceable : ∀ bytes, l.dereferenceable = some bytes → l'.dereferenceable = some bytes
  align : ∀ bytes, l.align = some bytes → l'.align = some bytes
  /-- Volatile and atomic accesses are left alone. -/
  notSimple : l.isSimple = false → l' = l

structure StoreInst.Strengthens {Const : Type} (s s' : StoreInst Const) : Prop where
  value : s'.value = s.value
  pointer : s'.pointer = s.pointer
  isSimple : s'.isSimple = s.isSimple
  alignmentData : AlignsMore s.alignmentData s'.alignmentData
  notSimple : s.isSimple = false → s' = s

inductive Opcode.Strengthens {Fn Const Op : Type} :
    Opcode Fn Const Op → Opcode Fn Const Op → Prop where
  | same (opcode : Opcode Fn Const Op) : Strengthens opcode opcode
  | load {l l' : LoadInst Const} (h : l.Strengthens l') : Strengthens (.load l) (.load l')
  | store {s s' : StoreInst Const} (h : s.Strengthens s') : Strengthens (.store s) (.store s')
  | getElementPtr {isInBounds isInBounds' : Bool} (h : isInBounds = true → isInBounds' = true)
      (pointer : ValueRef Const) (indices : List (ValueRef Const)) :
      Strengthens (.getElementPtr isInBounds pointer indices)
        (.getElementPtr isInBounds' pointer indices)
  | overflowing {nsw nuw nsw' nuw' : Bool} (hnsw : nsw = true → nsw' = true)
      (hnuw : nuw = true → nuw' = true) (op : OverflowingOp) (lhs rhs : ValueRef Const) :
      Strengthens (.overflowing op nsw nuw lhs rhs) (.overflowing op nsw' nuw' lhs rhs)

/-- An instruction with further flags or metadata. -/
structure Instruction.Strengthens {Fn Ty Const Op : Type} (i i' : Instruction Fn Ty Const Op) :
    Prop where
  id : i'.id = i.id
  type : i'.type = i.type
  opcode : i.opcode.Strengthens i'.opcode

section Preorder

variable {Fn Ty Const Op : Type}

theorem LoadInst.Strengthens.refl (l : LoadInst Const) : l.Strengthens l :=
  ⟨rfl, rfl, .inl rfl, id, fun _ => id, fun _ => id, fun _ => rfl⟩

theorem LoadInst.Strengthens.trans {l l' l'' : LoadInst Const} (h : l.Strengthens l')
    (h' : l'.Strengthens l'') : l.Strengthens l'' where
  pointer := h'.pointer.trans h.pointer
  isSimple := h'.isSimple.trans h.isSimple
  alignmentData := h.alignmentData.trans h'.alignmentData
  invariantLoad := h'.invariantLoad ∘ h.invariantLoad
  dereferenceable bytes := h'.dereferenceable bytes ∘ h.dereferenceable bytes
  align bytes := h'.align bytes ∘ h.align bytes
  notSimple hl := (h'.notSimple (h.isSimple.trans hl)).trans (h.notSimple hl)

theorem StoreInst.Strengthens.refl (s : StoreInst Const) : s.Strengthens s :=
  ⟨rfl, rfl, rfl, .inl rfl, fun _ => rfl⟩

theorem StoreInst.Strengthens.trans {s s' s'' : StoreInst Const} (h : s.Strengthens s')
    (h' : s'.Strengthens s'') : s.Strengthens s'' where
  value := h'.value.trans h.value
  pointer := h'.pointer.trans h.pointer
  isSimple := h'.isSimple.trans h.isSimple
  alignmentData := h.alignmentData.trans h'.alignmentData
  notSimple hs := (h'.notSimple (h.isSimple.trans hs)).trans (h.notSimple hs)

theorem Opcode.Strengthens.trans {opcode opcode' opcode'' : Opcode Fn Const Op}
    (h : opcode.Strengthens opcode') (h' : opcode'.Strengthens opcode'') :
    opcode.Strengthens opcode'' := by
  cases h with
  | same => exact h'
  | load h =>
      cases h' with
      | same => exact .load h
      | load h' => exact .load (h.trans h')
  | store h =>
      cases h' with
      | same => exact .store h
      | store h' => exact .store (h.trans h')
  | getElementPtr h pointer indices =>
      cases h' with
      | same => exact .getElementPtr h pointer indices
      | getElementPtr h' => exact .getElementPtr (h' ∘ h) pointer indices
  | overflowing hnsw hnuw op lhs rhs =>
      cases h' with
      | same => exact .overflowing hnsw hnuw op lhs rhs
      | overflowing hnsw' hnuw' => exact .overflowing (hnsw' ∘ hnsw) (hnuw' ∘ hnuw) op lhs rhs

theorem Instruction.Strengthens.refl (i : Instruction Fn Ty Const Op) : i.Strengthens i :=
  ⟨rfl, rfl, .same _⟩

theorem Instruction.Strengthens.trans {i i' i'' : Instruction Fn Ty Const Op}
    (h : i.Strengthens i') (h' : i'.Strengthens i'') : i.Strengthens i'' :=
  ⟨h'.id.trans h.id, h'.type.trans h.type, h.opcode.trans h'.opcode⟩

end Preorder

namespace Passes

section Answered

variable {Fn Ty Const Op Loop : Type} {P : PassInfo Fn Ty Const Op Loop}
variable {kind : OptimisticChoiceKind} {f : Fn} {fn : FunctionState Fn Ty Const Op}

theorem alignsMore_raiseAlignment (data choice : Nat) :
    AlignsMore data (raiseAlignment data choice) := by
  unfold raiseAlignment
  split
  · rename_i hlt
    right
    match choice, hlt with
    | 1, hlt => exact ⟨by decide, hlt⟩
    | 2, hlt => exact ⟨by decide, hlt⟩
  · exact .inl rfl

theorem strengthens_loadWithChoice {choice : Nat} {l : LoadInst Const}
    (hsimple : l.isSimple = true)
    (hinvariant : kind = .memoryLoadInvariant → l.invariantLoad = false)
    (hderef : kind = .memoryAccessDereferenceable → l.dereferenceable = none)
    (halign : kind = .memoryAccessResAlign → l.align = none) :
    l.Strengthens (loadWithChoice P kind fn choice l) := by
  obtain ⟨hpointer, hsimple', hinvariant', halignment', hderef', halign'⟩ :=
    loadWithChoice_frame P kind fn choice l
  refine ⟨hpointer, hsimple', ?_, ?_, ?_, ?_, fun h => ?_⟩
  · by_cases hkind : kind = .memoryAccessAlign
    · subst hkind
      exact alignsMore_raiseAlignment _ _
    · exact .inl (halignment' hkind)
  · by_cases hkind : kind = .memoryLoadInvariant
    · simp [hinvariant hkind]
    · rw [hinvariant' hkind]
      exact id
  · by_cases hkind : kind = .memoryAccessDereferenceable
    · simp [hderef hkind]
    · rw [hderef' hkind]
      exact fun _ => id
  · by_cases hkind : kind = .memoryAccessResAlign
    · simp [halign hkind]
    · rw [halign' hkind]
      exact fun _ => id
  · rw [hsimple] at h
    cases h

theorem of_question?_eq_some {asks : Bool} {numChoices : Nat} {hpos : 0 < numChoices}
    {subject : Subject Const} {q : ChoiceQuestion Fn Const}
    (h : question? kind f asks numChoices hpos subject = some q) :
    asks = true ∧ q.numChoices = numChoices ∧ q.kind = kind := by
  unfold question? at h
  split at h
  · obtain rfl := Option.some.inj h
    exact ⟨‹_›, rfl, rfl⟩
  · cases h

/-- An answer adds what its kind is about. -/
theorem Answered.strengthens {block : Nat} {i i' : Instruction Fn Ty Const Op}
    (h : Answered P kind f fn block i i') : i.Strengthens i' := by
  unfold Answered at h
  split at h
  · obtain rfl := h
    exact .refl i'
  · rename_i q hquestion
    obtain ⟨choice, rfl⟩ := h
    refine ⟨rfl, rfl, ?_⟩
    unfold instructionQuestion at hquestion
    dsimp only at hquestion
    split at hquestion
    · rename_i hopcode
      have hasks := (of_question?_eq_some hquestion).1
      simp only [withChoice, hopcode, opcodeWithChoice, if_true]
      exact .getElementPtr (fun h => by simp [h] at hasks) _ _
    · rename_i hopcode
      have hasks := (of_question?_eq_some hquestion).1
      simp only [withChoice, hopcode, opcodeWithChoice, if_true, reduceCtorEq, if_false]
      exact .overflowing (fun h => by simp [h] at hasks) id _ _ _
    · rename_i hopcode
      have hasks := (of_question?_eq_some hquestion).1
      simp only [withChoice, hopcode, opcodeWithChoice, if_true, reduceCtorEq, if_false]
      exact .overflowing id (fun h => by simp [h] at hasks) _ _ _
    · rename_i hopcode
      have hasks := (of_question?_eq_some hquestion).1
      simp only [Bool.and_eq_true, Bool.not_eq_true'] at hasks
      simp only [withChoice, hopcode, opcodeWithChoice]
      exact .load (strengthens_loadWithChoice hasks.1.1 (fun _ => hasks.2) (absurd · (by decide))
        (absurd · (by decide)))
    · rename_i hopcode
      have hasks := (of_question?_eq_some hquestion).1
      simp only [Bool.and_eq_true] at hasks
      simp only [withChoice, hopcode, opcodeWithChoice]
      exact .load (strengthens_loadWithChoice hasks.1.1 (absurd · (by decide))
        (absurd · (by decide))
        (absurd · (by decide)))
    · rename_i hopcode
      have hasks := (of_question?_eq_some hquestion).1
      simp only [Bool.and_eq_true] at hasks
      simp only [withChoice, hopcode, opcodeWithChoice, storeWithChoice, if_true]
      refine .store ⟨rfl, rfl, rfl, alignsMore_raiseAlignment _ _, fun h => ?_⟩
      simp [h] at hasks
    · rename_i hopcode
      have hasks := (of_question?_eq_some hquestion).1
      simp only [Bool.and_eq_true, Option.isNone_iff_eq_none] at hasks
      simp only [withChoice, hopcode, opcodeWithChoice]
      exact .load (strengthens_loadWithChoice hasks.1.1 (absurd · (by decide)) (fun _ => hasks.2)
        (absurd · (by decide)))
    · rename_i hopcode
      have hasks := (of_question?_eq_some hquestion).1
      simp only [Bool.and_eq_true, Option.isNone_iff_eq_none] at hasks
      simp only [withChoice, hopcode, opcodeWithChoice]
      exact .load (strengthens_loadWithChoice hasks.1.1 (absurd · (by decide))
        (absurd · (by decide))
        fun _ => hasks.2)
    · cases hquestion

end Answered

end Passes

/-! ### Old and new instructions -/

section Below

variable {Fn Ty Const Op : Type}

def BasicBlock.below (n : Nat) (b : BasicBlock Fn Ty Const Op) : BasicBlock Fn Ty Const Op :=
  { b with instructions := b.instructions.filter fun i => i.id < n }

namespace Code

/-- The instructions with numbers below a bound. -/
def below (n : Nat) (code : Code Fn Ty Const Op) : Code Fn Ty Const Op :=
  code.map (BasicBlock.below n)

variable {n : Nat} {code code' : Code Fn Ty Const Op}

theorem below_of_forall_lt (h : ∀ i ∈ code.instructions, i.id < n) : code.below n = code := by
  have hblock : ∀ b ∈ code, b.below n = b := by
    intro b hb
    have hall : ∀ i ∈ b.instructions, decide (i.id < n) = true :=
      fun i hi => decide_eq_true (h i (List.mem_flatMap.mpr ⟨b, hb, hi⟩))
    rw [BasicBlock.below, List.filter_eq_self.mpr hall]
  rw [below, List.map_congr_left hblock, List.map_id']

theorem filter_insertBefore {new : List (Instruction Fn Ty Const Op)} (hnew : ∀ i ∈ new, n ≤ i.id)
    (before : Option Nat) (is : List (Instruction Fn Ty Const Op)) :
    (insertBefore new before is).filter (fun i => i.id < n) = is.filter fun i => i.id < n := by
  have hnone : new.filter (fun i => i.id < n) = [] :=
    List.filter_eq_nil_iff.mpr fun i hi => by simpa using hnew i hi
  induction is with
  | nil =>
      rw [insertBefore]
      split
      · exact hnone
      · rfl
  | cons i is ih =>
      rw [insertBefore]
      split
      · rw [List.filter_append, hnone, List.nil_append]
      · rw [List.filter_cons, List.filter_cons, ih]

theorem below_insertAt {new : List (Instruction Fn Ty Const Op)} (hnew : ∀ i ∈ new, n ≤ i.id)
    (point : InsertionPoint) : (code.insertAt new point).below n = code.below n := by
  rw [below, insertAt, List.map_map]
  apply List.map_congr_left
  intro b _
  dsimp only [Function.comp_apply]
  split
  · simp only [BasicBlock.below, filter_insertBefore hnew]
  · rfl

/-- A change that keeps the numbers of the instructions. -/
theorem Relates.below {R : Nat → Instruction Fn Ty Const Op → Instruction Fn Ty Const Op → Prop}
    (h : Relates R code code') (hid : ∀ b i i', R b i i' → i'.id = i.id) :
    Relates R (code.below n) (code'.below n) := by
  rw [Code.below, Code.below, Relates, List.forall₂_map_left_iff, List.forall₂_map_right_iff]
  exact h.imp fun b b' ⟨hno, hterminator, his⟩ =>
    ⟨hno, hterminator, his.filter fun i i' hi => by rw [hid _ i i' hi]⟩

theorem Relates.refl {R : Nat → Instruction Fn Ty Const Op → Instruction Fn Ty Const Op → Prop}
    (hR : ∀ b i, R b i i) (code : Code Fn Ty Const Op) : Relates R code code :=
  List.forall₂_same.mpr fun _ _ => ⟨rfl, rfl, List.forall₂_same.mpr fun i _ => hR _ i⟩

theorem Relates.trans {R : Nat → Instruction Fn Ty Const Op → Instruction Fn Ty Const Op → Prop}
    (hR : ∀ b i i' i'', R b i i' → R b i' i'' → R b i i'') {code'' : Code Fn Ty Const Op}
    (h : Relates R code code') (h' : Relates R code' code'') : Relates R code code'' := by
  refine List.Forall₂.trans_of (fun b b' b'' hb hb' => ?_) h h'
  obtain ⟨hno, hterminator, his⟩ := hb
  obtain ⟨hno', hterminator', his'⟩ := hb'
  rw [hno] at his'
  exact ⟨hno'.trans hno, hterminator'.trans hterminator, his.trans_of (hR _) his'⟩

/-- What is true of all instructions stays true. -/
theorem Relates.forall_mem
    {R : Nat → Instruction Fn Ty Const Op → Instruction Fn Ty Const Op → Prop}
    {p : Instruction Fn Ty Const Op → Prop} (h : Relates R code code')
    (hR : ∀ b i i', R b i i' → p i → p i') (hp : ∀ i ∈ code.instructions, p i) :
    ∀ i' ∈ code'.instructions, p i' := by
  intro i' hi'
  obtain ⟨b', hb', hi'⟩ := List.mem_flatMap.mp hi'
  obtain ⟨b, hb, -, -, his⟩ := h.exists_of_mem_right hb'
  obtain ⟨i, hi, hRi⟩ := his.exists_of_mem_right hi'
  exact hR _ i i' hRi (hp i (List.mem_flatMap.mpr ⟨b, hb, hi⟩))

end Code

end Below

/-! ### Annotated functions -/

section Annotated

variable {Fn Ty Const Op Loop : Type}

/-- What `createSpeculativeAssumptions` inserts. -/
inductive IsAssumption (P : PassInfo Fn Ty Const Op Loop) : Instruction Fn Ty Const Op → Prop where
  | comparison (id : Nat) (r : LocalRef) (c : Const) :
      IsAssumption P ⟨id, P.int1Ty, .icmp .eq (.local r) (.constant c)⟩
  | assume (id : Nat) :
      IsAssumption P
        ⟨id + 1, P.voidTy, .call (.function P.assumeIntrinsic) [.local (.instruction id)]⟩

/-- A function with stronger instructions and with assumptions between them. -/
structure Annotated (P : PassInfo Fn Ty Const Op Loop) (fn fn' : FunctionState Fn Ty Const Op) :
    Prop where
  nextId : fn.nextId ≤ fn'.nextId
  old : fn.code.Relates (fun _ => Instruction.Strengthens) (fn'.code.below fn.nextId)
  new : ∀ i ∈ fn'.code.instructions, fn.nextId ≤ i.id → IsAssumption P i

namespace Annotated

open Passes

variable {P : PassInfo Fn Ty Const Op Loop} {kind : OptimisticChoiceKind} {f : Fn}
variable {fn fn' fn'' : FunctionState Fn Ty Const Op}

theorem refl (h : fn.Numbered) : Annotated P fn fn where
  nextId := le_rfl
  old := by
    rw [Code.below_of_forall_lt h.id_lt]
    exact .refl (fun _ => .refl) fn.code
  new i hi hid := absurd (h.id_lt i hi) (Nat.not_lt.mpr hid)

/-- Assumptions are not asked about. -/
theorem isAssumption_of_answered {block : Nat} {i i' : Instruction Fn Ty Const Op}
    (h : Answered P kind f fn block i i') (hi : IsAssumption P i) : IsAssumption P i' := by
  have hnone : instructionQuestion P kind f fn block i = none := by
    cases hi <;> cases kind <;> rfl
  rw [Answered, hnone] at h
  rwa [h]

/-- Answers make a function stronger. -/
theorem answered (h : Annotated P fn fn') (hanswered : fn'.Changed (Answered P kind f fn') fn'') :
    Annotated P fn fn'' where
  nextId := hanswered.nextId ▸ h.nextId
  old := by
    refine h.old.trans (fun _ _ _ _ => .trans) ?_
    exact (hanswered.code.below fun _ _ _ hi => hi.strengthens.id).mono fun _ _ _ hi =>
      hi.strengthens
  new := by
    refine hanswered.code.forall_mem (p := fun i => fn.nextId ≤ i.id → IsAssumption P i)
      (fun _ i i' hi hnew hid => ?_) h.new
    rw [hi.strengthens.id] at hid
    exact isAssumption_of_answered hi (hnew hid)

theorem withAssumption [DecidableEq Ty] (h : Annotated P fn fn') (c : Const) (r : LocalRef)
    (point : InsertionPoint) : Annotated P fn (withAssumption P c fn' r point) where
  nextId := h.nextId.trans (Nat.le_add_right _ 2)
  old := by
    rw [Passes.withAssumption, Code.below_insertAt]
    · exact h.old
    · exact fun i hi => h.nextId.trans (le_id_of_mem_assumption hi).1
  new i hi hid := by
    obtain hi | hi := Code.mem_instructions_insertAt hi
    · simp only [assumption, List.mem_cons, List.not_mem_nil, or_false] at hi
      obtain rfl | rfl := hi
      · exact .comparison _ r _
      · exact .assume fn'.nextId
    · exact h.new i hi hid

theorem assumed [DecidableEq Ty] (h : Annotated P fn fn') (hassumed : Assumed P fn' fn'') :
    Annotated P fn fn'' := by
  induction hassumed with
  | refl => exact h
  | tail _ hstep ih =>
      obtain ⟨c, r, point, rfl⟩ := hstep
      exact ih.withAssumption c r point

/-- Only code and numbers matter. -/
theorem of_eq (h : Annotated P fn fn') (hcode : fn''.code = fn'.code)
    (hnextId : fn''.nextId = fn'.nextId) : Annotated P fn fn'' where
  nextId := hnextId ▸ h.nextId
  old := hcode ▸ h.old
  new := hcode ▸ h.new

end Annotated

end Annotated

/-! ### Runs -/

namespace Passes

variable {Fn Ty Const Op Loop : Type} [DecidableEq Fn] [DecidableEq Ty] [DecidableEq Const]
variable [DecidableEq Loop] {P : PassInfo Fn Ty Const Op Loop} {inst : Nat}
variable {kind : OptimisticChoiceKind} {f : Fn}
  {ok : (q : PassQuestion Fn Const) → PassAnswer q → Prop}

omit [DecidableEq Fn] [DecidableEq Ty] in
theorem annotated_annotateCode {fn fn' : FunctionState Fn Ty Const Op} (h : Annotated P fn fn')
    (map : SpeculationMap Fn Const) :
    (annotateCode P inst kind f fn' map).Meets ok (fun _ => True) fun r => Annotated P fn r.1 := by
  rw [annotateCode, ← bind_assoc]
  refine ((asks_annotateInstructions P kind f fn').meets ok).bind fun fn'' hanswered => ?_
  refine (Program.meets_trivial _).bind fun map' _ => ?_
  refine (Program.meets_trivial _).bind fun loops _ => ?_
  exact (h.answered hanswered).of_eq rfl rfl

theorem annotated_runFunction {states : Fn → FunctionState Fn Ty Const Op} (declOnly : Fn → Bool)
    {st : ModuleState Fn Ty Const Op} (h : ∀ g, Annotated P (states g) (st.functions g)) :
    (runFunction P inst kind declOnly st f).Meets ok (fun _ => True) fun st' =>
      ∀ g, Annotated P (states g) (st'.functions g) := by
  have hupdate {fn : FunctionState Fn Ty Const Op} (hfn : Annotated P (states f) fn) (g : Fn) :
      Annotated P (states g) (Function.update st.functions f fn g) := by
    by_cases hg : g = f
    · subst hg
      rwa [Function.update_self]
    · rw [Function.update_of_ne hg]
      exact h g
  refine (Program.meets_trivial _).bind fun function _ => ?_
  have hfunction : Annotated P (states f) { st.functions f with function := function } :=
    (h f).of_eq rfl rfl
  dsimp only
  split
  · exact hupdate hfunction
  · exact (annotated_annotateCode hfunction _).bind fun r hr => hupdate hr

/-- The passes annotate the functions. -/
theorem annotated_runPasses (declOnly : Fn → Bool) (functions : List Fn)
    {states : Fn → FunctionState Fn Ty Const Op} (hnumbered : ∀ f, (states f).Numbered) :
    (runPasses P inst declOnly functions states).Meets ok (fun _ => True) fun st =>
      ∀ f, Annotated P (states f) (st.functions f) := by
  refine Program.meets_foldlM (fun _ (st : ModuleState Fn Ty Const Op) =>
    ∀ f, Annotated P (states f) (st.functions f)) (fun kind _ st h => ?_)
    fun f => .refl (hnumbered f)
  refine (Program.meets_foldlM (fun _ (st : ModuleState Fn Ty Const Op) =>
    ∀ f, Annotated P (states f) (st.functions f)) (fun f _ st h => annotated_runFunction declOnly h)
    h).bind fun st' h' => ?_
  refine (meets_createSpeculativeAssumptions kind _ _).bind fun functions' hassumed => ?_
  exact fun f => (h' f).assumed (hassumed f)

end Passes

namespace Input

open Passes

variable {Fn Ty Const Op Loop : Type} [DecidableEq Fn] [DecidableEq Ty] [DecidableEq Const]
variable [DecidableEq Loop] {I : Input Fn Ty Const Op Loop} {opts : Options}
variable {controlStr : List CChar}

/-- The first instance leaves the instructions of a function where they are and makes them
stronger; the new ones are assumptions. -/
theorem annotates_code {r : ModuleState Fn Ty Const Op × Environment Fn}
    (hr : I.annotateModule opts controlStr = .ok r)
    (f : Fn) : Annotated I.passInfo (I.states f) (r.1.functions f) := by
  obtain ⟨loaded, -, hr⟩ := Except.bind_eq_ok_iff.mp hr
  have hmeets : (I.passes loaded.functions).Meets (fun _ _ => True) (fun _ => True) fun st =>
      ∀ f, Annotated I.passInfo (I.states f) (st.functions f) :=
    annotated_runPasses (I.irModule.declOnly I.annotatable) loaded.functions I.numbered
  exact (hmeets.run (fun _ => True) (fun _ _ _ _ _ _ => ⟨trivial, trivial⟩) trivial r.1 r.2 hr).1 f

/-- A branch decides on a load that is assumed to be what it is compared with. -/
theorem annotates_code_sample : ∃ r, sample.annotateModule ⟨true, -1, false⟩ [] = .ok r ∧
    Annotated sampleInfo (sample.states 0) (r.1.functions 0) ∧
    (r.1.functions 0).code.instructions.length = 5 := by
  obtain ⟨r, hr⟩ : ∃ r, sample.annotateModule ⟨true, -1, false⟩ [] = .ok r := ⟨_, rfl⟩
  refine ⟨r, hr, annotates_code hr 0, ?_⟩
  obtain rfl := Except.ok.inj hr
  rfl

end Input

end Petospa

import Petospa.Annotator.Strengthening

/-!
# Fewer promises

One instruction promises at most what another one promises if they only differ in flags,
alignments and metadata, and those of the first one follow from those of the second one.
A higher choice promises more.
-/

namespace Petospa

open Text Interaction

/-! ### Instructions -/

/-- A load that promises at most what another one does. -/
structure LoadInst.AtMost {Const : Type} (l l' : LoadInst Const) : Prop where
  pointer : l'.pointer = l.pointer
  isSimple : l'.isSimple = l.isSimple
  alignmentData : AlignsMore l.alignmentData l'.alignmentData
  invariantLoad : l.invariantLoad = true → l'.invariantLoad = true
  dereferenceable : ∀ bytes, l.dereferenceable = some bytes →
    ∃ bytes', l'.dereferenceable = some bytes' ∧ bytes ≤ bytes'
  align : ∀ bytes, l.align = some bytes → ∃ bytes', l'.align = some bytes' ∧ bytes ∣ bytes'

structure StoreInst.AtMost {Const : Type} (s s' : StoreInst Const) : Prop where
  value : s'.value = s.value
  pointer : s'.pointer = s.pointer
  isSimple : s'.isSimple = s.isSimple
  alignmentData : AlignsMore s.alignmentData s'.alignmentData

inductive Opcode.AtMost {Fn Const Op : Type} : Opcode Fn Const Op → Opcode Fn Const Op → Prop where
  | same (opcode : Opcode Fn Const Op) : AtMost opcode opcode
  | load {l l' : LoadInst Const} (h : l.AtMost l') : AtMost (.load l) (.load l')
  | store {s s' : StoreInst Const} (h : s.AtMost s') : AtMost (.store s) (.store s')
  | getElementPtr {isInBounds isInBounds' : Bool} (h : isInBounds = true → isInBounds' = true)
      (pointer : ValueRef Const) (indices : List (ValueRef Const)) :
      AtMost (.getElementPtr isInBounds pointer indices)
        (.getElementPtr isInBounds' pointer indices)
  | overflowing {nsw nuw nsw' nuw' : Bool} (hnsw : nsw = true → nsw' = true)
      (hnuw : nuw = true → nuw' = true) (op : OverflowingOp) (lhs rhs : ValueRef Const) :
      AtMost (.overflowing op nsw nuw lhs rhs) (.overflowing op nsw' nuw' lhs rhs)

structure Instruction.AtMost {Fn Ty Const Op : Type} (i i' : Instruction Fn Ty Const Op) :
    Prop where
  id : i'.id = i.id
  type : i'.type = i.type
  opcode : i.opcode.AtMost i'.opcode

section AtMost

variable {Fn Ty Const Op : Type}

theorem LoadInst.AtMost.refl (l : LoadInst Const) : l.AtMost l :=
  ⟨rfl, rfl, .inl rfl, id, fun bytes h => ⟨bytes, h, le_rfl⟩, fun bytes h => ⟨bytes, h, dvd_rfl⟩⟩

theorem StoreInst.AtMost.refl (s : StoreInst Const) : s.AtMost s := ⟨rfl, rfl, rfl, .inl rfl⟩

theorem Instruction.AtMost.refl (i : Instruction Fn Ty Const Op) : i.AtMost i := ⟨rfl, rfl, .same _⟩

/-- A stronger instruction only has further annotations. -/
theorem Instruction.Strengthens.plain_eq {i i' : Instruction Fn Ty Const Op}
    (h : i.Strengthens i') : i'.plain = i.plain := by
  obtain ⟨id, ty, opcode⟩ := i
  obtain ⟨id', ty', opcode'⟩ := i'
  obtain ⟨hid, hty, hopcode⟩ := h
  dsimp only at hid hty hopcode
  subst hid hty
  cases hopcode with
  | same => rfl
  | load hl => simp only [Instruction.plain, Opcode.plain, hl.pointer, hl.isSimple]
  | store hs => simp only [Instruction.plain, Opcode.plain, hs.value, hs.pointer, hs.isSimple]
  | getElementPtr => rfl
  | overflowing => rfl

end AtMost

/-! ### What a kind is about -/

section Only

variable {Fn Ty Const Op : Type} (kind : OptimisticChoiceKind)

/-- The flags, alignments and metadata that a kind decides about, and no others. -/
def Opcode.only : Opcode Fn Const Op → Opcode Fn Const Op
  | .load l =>
      .load
        { l with
          alignmentData := if kind = .memoryAccessAlign then l.alignmentData else 0
          invariantLoad := if kind = .memoryLoadInvariant then l.invariantLoad else false
          dereferenceable :=
            if kind = .memoryAccessDereferenceable then l.dereferenceable else none
          align := if kind = .memoryAccessResAlign then l.align else none }
  | .store s =>
      .store { s with alignmentData := if kind = .memoryAccessAlign then s.alignmentData else 0 }
  | .getElementPtr isInBounds pointer indices =>
      .getElementPtr (if kind = .inboundsGep then isInBounds else false) pointer indices
  | .overflowing op nsw nuw lhs rhs =>
      .overflowing op (if kind = .overflowNsw then nsw else false)
        (if kind = .overflowNuw then nuw else false) lhs rhs
  | opcode => opcode

def Instruction.only (i : Instruction Fn Ty Const Op) : Instruction Fn Ty Const Op :=
  { i with opcode := i.opcode.only kind }

end Only

namespace Passes

variable {Fn Ty Const Op Loop : Type} {P : PassInfo Fn Ty Const Op Loop}
variable {kind : OptimisticChoiceKind} {f : Fn} {fn fn' : FunctionState Fn Ty Const Op}

variable (P kind f fn) in
/-- A kind looks at nothing else. -/
theorem instructionQuestion_only (block : Nat) (i : Instruction Fn Ty Const Op) :
    instructionQuestion P kind f fn block (i.only kind) =
      instructionQuestion P kind f fn block i := by
  obtain ⟨id, ty, opcode⟩ := i
  cases opcode <;> cases kind <;> rfl

variable (P fn) in
/-- The other kinds decide about something else. -/
theorem withChoice_only {j : OptimisticChoiceKind} (hne : kind ≠ j) (choice : Nat)
    (i : Instruction Fn Ty Const Op) : (withChoice P kind fn choice i).only j = i.only j := by
  obtain ⟨id, ty, opcode⟩ := i
  cases opcode with
  | load l =>
      obtain ⟨hpointer, hsimple, hinvariant, halignment, hderef, halign⟩ :=
        loadWithChoice_frame P kind fn choice l
      -- a field of another kind is as before, and one of this kind is not looked at
      have hfield {α : Type} {k : OptimisticChoiceKind} {x y : α} (h : kind ≠ k → x = y) (d : α) :
          (if j = k then x else d) = if j = k then y else d := by
        split
        · rename_i hj
          exact h (hj ▸ hne)
        · rfl
      simp only [withChoice, opcodeWithChoice, Instruction.only, Opcode.only, hpointer, hsimple,
        hfield hinvariant, hfield halignment, hfield hderef, hfield halign]
  | store s =>
      by_cases hkind : kind = .memoryAccessAlign
      · subst hkind
        simp only [withChoice, opcodeWithChoice, storeWithChoice, Instruction.only, Opcode.only,
          if_true, if_neg hne.symm]
      · simp only [withChoice, opcodeWithChoice, storeWithChoice, if_neg hkind]
  | getElementPtr isInBounds pointer indices =>
      by_cases hkind : kind = .inboundsGep
      · subst hkind
        simp only [withChoice, opcodeWithChoice, Instruction.only, Opcode.only, if_neg hne.symm]
      · simp only [withChoice, opcodeWithChoice, if_neg hkind]
  | overflowing op nsw nuw lhs rhs =>
      by_cases hnsw : kind = .overflowNsw
      · subst hnsw
        simp only [withChoice, opcodeWithChoice, Instruction.only, Opcode.only, if_neg hne.symm,
          reduceCtorEq, if_false]
      · by_cases hnuw : kind = .overflowNuw
        · subst hnuw
          simp only [withChoice, opcodeWithChoice, Instruction.only, Opcode.only, if_neg hne.symm,
            reduceCtorEq, if_false]
        · simp only [withChoice, opcodeWithChoice, if_neg hnsw, if_neg hnuw]
  | _ => rfl

/-! ### Higher choices -/

theorem raiseAlignment_zero (data : Nat) : raiseAlignment data 0 = data :=
  if_neg (Nat.not_lt_zero _)

theorem alignsMore_of_le (data : Nat) {choice choice' : Nat} (hle : choice ≤ choice')
    (hlt : choice' < 3) :
    AlignsMore (raiseAlignment data choice) (raiseAlignment data choice') := by
  by_cases hzero : choice = 0
  · subst hzero
    rw [raiseAlignment_zero]
    exact alignsMore_raiseAlignment data choice'
  · obtain heq | ⟨rfl, rfl⟩ : choice' = choice ∨ choice = 1 ∧ choice' = 2 := by omega
    · subst heq
      exact .inl rfl
    · by_cases hlow : getAlignment data < 8
      · have hlow' : getAlignment data < 64 := hlow.trans (by decide)
        rw [raiseAlignment, raiseAlignment, newAlignment, newAlignment, if_pos hlow, if_pos hlow']
        exact .inr ⟨by decide, by decide⟩
      · have hone : raiseAlignment data 1 = data := if_neg hlow
        rw [hone]
        exact alignsMore_raiseAlignment data 2

variable {choice choice' : Nat}

theorem decide_ne_zero_of_le (hle : choice ≤ choice') (h : decide (choice ≠ 0) = true) :
    decide (choice' ≠ 0) = true := by
  have hne := of_decide_eq_true h
  exact decide_eq_true (by omega)

/-- A higher choice for a load promises more, if sizes are small. -/
theorem atMost_loadWithChoice {l l' : LoadInst Const} (h : l.AtMost l') (hle : choice ≤ choice')
    (hlt : kind ≠ .memoryLoadInvariant → choice' < 3)
    (halignment : kind = .memoryAccessAlign → l'.alignmentData = l.alignmentData)
    (hderef : kind = .memoryAccessDereferenceable → l.dereferenceable = none)
    (halign : kind = .memoryAccessResAlign → l.align = none)
    (htype : fn'.typeOf P l.pointer = fn.typeOf P l.pointer)
    (hfits : accessSize P (fn.typeOf P l.pointer) * 64 < 2 ^ 32) :
    (loadWithChoice P kind fn choice l).AtMost (loadWithChoice P kind fn' choice' l') := by
  obtain ⟨hpointer, hsimple, hinvariantF, halignmentF, hderefF, halignF⟩ :=
    loadWithChoice_frame P kind fn choice l
  obtain ⟨hpointer', hsimple', hinvariantF', halignmentF', hderefF', halignF'⟩ :=
    loadWithChoice_frame P kind fn' choice' l'
  refine ⟨?_, ?_, ?_, ?_, fun bytes hbytes => ?_, fun bytes hbytes => ?_⟩
  · rw [hpointer, hpointer', h.pointer]
  · rw [hsimple, hsimple', h.isSimple]
  · by_cases hkind : kind = .memoryAccessAlign
    · subst hkind
      dsimp only [loadWithChoice]
      rw [halignment rfl]
      exact alignsMore_of_le _ hle (hlt (by decide))
    · rw [halignmentF hkind, halignmentF' hkind]
      exact h.alignmentData
  · by_cases hkind : kind = .memoryLoadInvariant
    · subst hkind
      exact decide_ne_zero_of_le hle
    · rw [hinvariantF hkind, hinvariantF' hkind]
      exact h.invariantLoad
  · by_cases hkind : kind = .memoryAccessDereferenceable
    · subst hkind
      have hlt := hlt (by decide)
      have hsize : accessSize P (fn'.typeOf P l'.pointer) =
          accessSize P (fn.typeOf P l.pointer) := by
        rw [h.pointer, htype]
      obtain rfl | rfl | rfl : choice = 0 ∨ choice = 1 ∨ choice = 2 := by omega
      · cases (hderef rfl).symm.trans hbytes
      · obtain rfl := Option.some.inj hbytes
        obtain rfl | rfl : choice' = 1 ∨ choice' = 2 := by omega
        · exact ⟨_, rfl, hsize.ge⟩
        · refine ⟨_, rfl, ?_⟩
          rw [hsize, Nat.mod_eq_of_lt hfits]
          exact Nat.le_mul_of_pos_right _ (by decide)
      · obtain rfl := Option.some.inj hbytes
        obtain rfl : choice' = 2 := by omega
        exact ⟨_, rfl, by rw [hsize]⟩
    · rw [hderefF hkind] at hbytes
      rw [hderefF' hkind]
      exact h.dereferenceable bytes hbytes
  · by_cases hkind : kind = .memoryAccessResAlign
    · subst hkind
      have hlt := hlt (by decide)
      obtain rfl | rfl | rfl : choice = 0 ∨ choice = 1 ∨ choice = 2 := by omega
      · cases (halign rfl).symm.trans hbytes
      · obtain rfl := Option.some.inj hbytes
        obtain rfl | rfl : choice' = 1 ∨ choice' = 2 := by omega
        · exact ⟨8, rfl, dvd_rfl⟩
        · exact ⟨64, rfl, by decide⟩
      · obtain rfl := Option.some.inj hbytes
        obtain rfl : choice' = 2 := by omega
        exact ⟨64, rfl, dvd_rfl⟩
    · rw [halignF hkind] at hbytes
      rw [halignF' hkind]
      exact h.align bytes hbytes

/-- A higher choice promises more. -/
theorem atMost_withChoice {block : Nat} {i i' : Instruction Fn Ty Const Op}
    {q : ChoiceQuestion Fn Const} (h : i.AtMost i') (hsame : i'.only kind = i.only kind)
    (hq : instructionQuestion P kind f fn block i = some q) (hle : choice ≤ choice')
    (hlt : choice' < q.numChoices)
    (htype : ∀ l, i.opcode = .load l → fn'.typeOf P l.pointer = fn.typeOf P l.pointer)
    (hfits : ∀ l, i.opcode = .load l → accessSize P (fn.typeOf P l.pointer) * 64 < 2 ^ 32) :
    (withChoice P kind fn choice i).AtMost (withChoice P kind fn' choice' i') := by
  obtain ⟨id, ty, opcode⟩ := i
  obtain ⟨id', ty', opcode'⟩ := i'
  obtain ⟨hid, hty, hopcode⟩ := h
  have hsame : opcode'.only kind = opcode.only kind := congrArg Instruction.opcode hsame
  refine ⟨hid, hty, ?_⟩
  dsimp only at hopcode htype hfits
  dsimp only [withChoice]
  cases opcode with
  | load l =>
      obtain ⟨l', rfl, hl⟩ : ∃ l', opcode' = .load l' ∧ l.AtMost l' := by
        cases hopcode with
        | same => exact ⟨l, rfl, .refl l⟩
        | load hl => exact ⟨_, rfl, hl⟩
      refine .load (atMost_loadWithChoice hl hle (fun hne => ?_) (fun hkind => ?_) (fun hkind => ?_)
        (fun hkind => ?_) (htype l rfl) (hfits l rfl))
      · cases kind with
        | memoryLoadInvariant => exact absurd rfl hne
        | memoryAccessAlign | memoryAccessDereferenceable | memoryAccessResAlign =>
            have hthree := (of_question?_eq_some hq).2.1
            omega
        | _ => cases hq
      · subst hkind
        simp only [Opcode.only, if_true, Opcode.load.injEq, LoadInst.mk.injEq] at hsame
        exact hsame.2.2.1
      · subst hkind
        have hasks := (of_question?_eq_some hq).1
        rw [Bool.and_eq_true, Option.isNone_iff_eq_none] at hasks
        exact hasks.2
      · subst hkind
        have hasks := (of_question?_eq_some hq).1
        rw [Bool.and_eq_true, Option.isNone_iff_eq_none] at hasks
        exact hasks.2
  | store s =>
      obtain ⟨s', rfl, hs⟩ : ∃ s', opcode' = .store s' ∧ s.AtMost s' := by
        cases hopcode with
        | same => exact ⟨s, rfl, .refl s⟩
        | store hs => exact ⟨_, rfl, hs⟩
      by_cases hkind : kind = .memoryAccessAlign
      · subst hkind
        have hlt : choice' < 3 := (of_question?_eq_some hq).2.1 ▸ hlt
        simp only [Opcode.only, if_true, Opcode.store.injEq, StoreInst.mk.injEq] at hsame
        simp only [opcodeWithChoice, storeWithChoice, if_true, hsame.2.2.2]
        exact .store ⟨hs.value, hs.pointer, hs.isSimple, alignsMore_of_le _ hle hlt⟩
      · simp only [opcodeWithChoice, storeWithChoice, if_neg hkind]
        exact .store hs
  | getElementPtr isInBounds pointer indices =>
      obtain ⟨isInBounds', rfl, himp⟩ : ∃ isInBounds', opcode' = .getElementPtr isInBounds' pointer
          indices ∧ (isInBounds = true → isInBounds' = true) := by
        cases hopcode with
        | same => exact ⟨isInBounds, rfl, fun h => h⟩
        | getElementPtr himp => exact ⟨_, rfl, himp⟩
      refine .getElementPtr ?_ pointer indices
      split
      · exact decide_ne_zero_of_le hle
      · exact himp
  | overflowing op nsw nuw lhs rhs =>
      obtain ⟨nsw', nuw', rfl, hnsw, hnuw⟩ : ∃ nsw' nuw',
          opcode' = .overflowing op nsw' nuw' lhs rhs ∧ (nsw = true → nsw' = true) ∧
            (nuw = true → nuw' = true) := by
        cases hopcode with
        | same => exact ⟨nsw, nuw, rfl, fun h => h, fun h => h⟩
        | overflowing hnsw hnuw => exact ⟨_, _, rfl, hnsw, hnuw⟩
      refine .overflowing ?_ ?_ op lhs rhs
      · split
        · exact decide_ne_zero_of_le hle
        · exact hnsw
      · split
        · exact decide_ne_zero_of_le hle
        · exact hnuw
  | _ =>
      cases hopcode
      exact .same _

end Passes

end Petospa

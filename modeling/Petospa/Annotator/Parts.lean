import Petospa.Annotator.Promises
import Petospa.Annotator.Refinement

/-!
# Code with fewer assumptions

The instructions of two annotated codes in pairs. Between them the second code may have
further assumptions.
-/

namespace Petospa

open Text Interaction

variable {Fn Ty Const Op Loop : Type}

/-- An inserted comparison and the assumption of it. -/
def assuming (P : PassInfo Fn Ty Const Op Loop) (id : Nat) (r : LocalRef) (c : Const) :
    List (Instruction Fn Ty Const Op) :=
  [⟨id, P.int1Ty, .icmp .eq (.local r) (.constant c)⟩,
    ⟨id + 1, P.voidTy, .call (.function P.assumeIntrinsic) [.local (.instruction id)]⟩]

/-- The parts of two codes: instructions that were there before, assumptions of the second
code, and assumptions of both. -/
inductive Part (P : PassInfo Fn Ty Const Op Loop) (n : Nat)
    (R : Instruction Fn Ty Const Op → Instruction Fn Ty Const Op → Prop) :
    List (Instruction Fn Ty Const Op) → List (Instruction Fn Ty Const Op) → Prop where
  | old {i i' : Instruction Fn Ty Const Op} (hid : i.id < n) (h : R i i') : Part P n R [i] [i']
  | further (id' : Nat) (r : LocalRef) (c : Const) (hid' : n ≤ id') :
      Part P n R [] (assuming P id' r c)
  | kept (id id' : Nat) (r : LocalRef) (c : Const) (hid : n ≤ id) (hid' : n ≤ id')
      (hr : (ValueRef.local r : ValueRef Const).IsBelow n) :
      Part P n R (assuming P id r c) (assuming P id' r c)

namespace Code

/-- Two codes with the same blocks, whose instructions are related part by part. -/
def Matches (S : List (Instruction Fn Ty Const Op) → List (Instruction Fn Ty Const Op) → Prop)
    (code code' : Code Fn Ty Const Op) : Prop :=
  List.Forall₂ (fun b b' => b'.no = b.no ∧ b'.terminator = b.terminator ∧
    List.Segmented S b.instructions b'.instructions) code code'

/-- The code promises and assumes at most what another one does. -/
def AtMost (P : PassInfo Fn Ty Const Op Loop) (n : Nat) (code code' : Code Fn Ty Const Op) : Prop :=
  code.Matches (Part P n Instruction.AtMost) code'

end Code

theorem Part.imp {P : PassInfo Fn Ty Const Op Loop} {n : Nat}
    {R R' : Instruction Fn Ty Const Op → Instruction Fn Ty Const Op → Prop}
    {is is' : List (Instruction Fn Ty Const Op)} (h : Part P n R is is')
    (himp : ∀ i i', R i i' → R' i i') : Part P n R' is is' := by
  cases h with
  | old hid h => exact .old hid (himp _ _ h)
  | further id' r c hid' => exact .further id' r c hid'
  | kept id id' r c hid hid' hr => exact .kept id id' r c hid hid' hr

/-! ### Insertions -/

section Insertion

variable {new new' : List (Instruction Fn Ty Const Op)} {before : Option Nat}

theorem insertBefore_append {xs : List (Instruction Fn Ty Const Op)}
    (h : ∀ i ∈ xs, before ≠ some i.id) (is : List (Instruction Fn Ty Const Op)) :
    insertBefore new before (xs ++ is) = xs ++ insertBefore new before is := by
  induction xs with
  | nil => rfl
  | cons i xs ih =>
      obtain ⟨hi, hxs⟩ := List.forall_mem_cons.mp h
      rw [List.cons_append, insertBefore, if_neg hi, ih hxs, List.cons_append]

theorem insertBefore_nil (before : Option Nat) (is : List (Instruction Fn Ty Const Op)) :
    insertBefore [] before is = is := by
  induction is with
  | nil =>
      rw [insertBefore]
      split <;> rfl
  | cons i is ih =>
      rw [insertBefore, ih]
      split <;> rfl

variable {S : List (Instruction Fn Ty Const Op) → List (Instruction Fn Ty Const Op) → Prop}

/-- Something is inserted into both lists, in front of an instruction with a counterpart. -/
theorem segmented_insertBefore (hnew : S new new')
    (hS : ∀ is is', S is is' → (∃ i i', is = [i] ∧ is' = [i'] ∧ i'.id = i.id) ∨
      (∀ i ∈ is, before ≠ some i.id) ∧ ∀ i ∈ is', before ≠ some i.id)
    {is is' : List (Instruction Fn Ty Const Op)} (h : List.Segmented S is is') :
    List.Segmented S (insertBefore new before is) (insertBefore new' before is') := by
  induction h with
  | nil =>
      rw [insertBefore, insertBefore]
      split
      · exact .single hnew
      · exact .nil
  | append head tail ih =>
      obtain ⟨i, i', rfl, rfl, hid⟩ | ⟨hskip, hskip'⟩ := hS _ _ head
      · rw [List.singleton_append, List.singleton_append, insertBefore, insertBefore, hid]
        split
        · exact .append hnew (.append head tail)
        · exact .append head ih
      · rw [insertBefore_append hskip, insertBefore_append hskip']
        exact .append head ih

namespace Code

variable {code code' : Code Fn Ty Const Op} {point : InsertionPoint}

theorem insertAt_nil (code : Code Fn Ty Const Op) (point : InsertionPoint) :
    code.insertAt [] point = code := by
  have hblock : ∀ b ∈ code, (if b.no = point.block then
      { b with instructions := insertBefore [] point.before b.instructions } else b) = b := by
    intro b _
    split
    · rw [insertBefore_nil]
    · rfl
  rw [insertAt, List.map_congr_left hblock, List.map_id']

theorem Matches.insertAt (h : code.Matches S code') (hnew : S new new')
    (hS : ∀ is is', S is is' → (∃ i i', is = [i] ∧ is' = [i'] ∧ i'.id = i.id) ∨
      (∀ i ∈ is, point.before ≠ some i.id) ∧ ∀ i ∈ is', point.before ≠ some i.id) :
    (code.insertAt new point).Matches S (code'.insertAt new' point) := by
  rw [Matches, Code.insertAt, Code.insertAt, List.forall₂_map_left_iff, List.forall₂_map_right_iff]
  refine h.imp fun b b' hb => ?_
  obtain ⟨hno, hterminator, his⟩ := hb
  by_cases hblock : b.no = point.block
  · rw [if_pos hblock, if_pos (hno.trans hblock)]
    exact ⟨hno, hterminator, segmented_insertBefore hnew hS his⟩
  · rw [if_neg hblock, if_neg (hno ▸ hblock)]
    exact ⟨hno, hterminator, his⟩

/-- Only the parts matter. -/
theorem Matches.imp
    {S' : List (Instruction Fn Ty Const Op) → List (Instruction Fn Ty Const Op) → Prop}
    (h : code.Matches S code') (himp : ∀ is is', S is is' → S' is is') : code.Matches S' code' :=
  List.Forall₂.imp (fun _ _ ⟨hno, hterminator, his⟩ =>
    ⟨hno, hterminator, his.imp fun _ _ _ _ => himp _ _⟩) h

end Code

end Insertion

/-! ### What all annotated codes of a function have in common -/

namespace Code

variable {n : Nat} (code : Code Fn Ty Const Op)

theorem getParent_below {id : Nat} (hid : id < n) :
    (code.below n).getParent id = code.getParent id := by
  have hany (b : BasicBlock Fn Ty Const Op) :
      ((b.below n).instructions.any fun i => i.id = id) =
        b.instructions.any fun i => i.id = id := by
    rw [BasicBlock.below, List.any_filter]
    congr 1
    funext i
    by_cases hi : i.id = id
    · simp [hi, hid]
    · simp [hi]
  simp only [getParent, below, List.find?_map, Option.map_map, Function.comp_def, hany]
  rfl

theorem instruction?_below {id : Nat} (hid : id < n) :
    (code.below n).instruction? id = code.instruction? id := by
  have hinstructions : (code.below n).instructions =
      code.instructions.filter fun i => i.id < n := by
    rw [instructions, instructions, below, List.flatMap_map, List.filter_flatMap]
    rfl
  rw [instruction?, hinstructions, List.find?_filter]
  rw [instruction?]
  congr 1
  funext i
  by_cases hi : i.id = id
  · simp [hi, hid]
  · simp [hi]

end Code

namespace Annotated

variable {P : PassInfo Fn Ty Const Op Loop} {base fn : FunctionState Fn Ty Const Op}

theorem plain_below (h : Annotated P base fn) :
    (fn.code.below base.nextId).plain = base.code.plain :=
  h.old.plain_eq fun _ _ _ hi => hi.plain_eq

theorem plain_eq (h : Annotated P base fn)
    (hids : ∀ i ∈ fn.code.instructions, i.id < base.nextId) : fn.code.plain = base.code.plain := by
  rw [← h.plain_below, Code.below_of_forall_lt hids]

theorem getParent (h : Annotated P base fn) {id : Nat} (hid : id < base.nextId) :
    fn.code.getParent id = base.code.getParent id := by
  rw [← Code.getParent_below fn.code hid, ← Code.getParent_plain, h.plain_below,
    Code.getParent_plain]

theorem typeOf (h : Annotated P base fn)
    (hheader : fn.function.toFunctionHeader = base.function.toFunctionHeader) {v : ValueRef Const}
    (hv : v.IsBelow base.nextId) : fn.typeOf P v = base.typeOf P v := by
  cases v with
  | constant c => rfl
  | «local» r =>
      cases r with
      | argument argNo => simp only [FunctionState.typeOf, hheader]
      | block no => rfl
      | instruction id =>
          have htype (code : Code Fn Ty Const Op) : (code.instruction? id).map Instruction.type =
              (code.plain.instruction? id).map Instruction.type := by
            rw [Code.instruction?_plain, Option.map_map]
            rfl
          rw [FunctionState.typeOf, FunctionState.typeOf, ← Code.instruction?_below fn.code hv,
            htype, h.plain_below, ← htype]

end Annotated

end Petospa

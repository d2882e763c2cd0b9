import Mathlib.Data.List.Forall2
import Petospa.Annotator.Attributes
import Petospa.Annotator.Loops

/-!
# Instructions and blocks

The code of a function, with what the passes over its instructions look at and
what they annotate: the flags of arithmetic and of address computations, and the
alignment and the metadata of memory accesses. Every other opcode is an element
of `Op`. An instruction has a number in its function, by which its uses name it.
-/

namespace Petospa

open Text

/-- What can have a name in a function. -/
inductive LocalRef where
  | argument (argNo : Nat)
  | block (no : Nat)
  | instruction (id : Nat)
  deriving DecidableEq

/-- An operand: defined in the function, or a constant. -/
inductive ValueRef (Const : Type) where
  | local (r : LocalRef)
  | constant (c : Const)
  deriving DecidableEq

/-- The opcodes of `OverflowingBinaryOperator`. -/
inductive OverflowingOp where
  | add | sub | mul | shl
  deriving DecidableEq

/-- The predicates of `icmp`. -/
inductive CmpPredicate where
  | eq | ne | ugt | uge | ult | ule | sgt | sge | slt | sle
  deriving DecidableEq

def CmpPredicate.isEquality (p : CmpPredicate) : Bool := p = eq || p = ne

inductive Callee (Fn Const : Type) where
  | function (f : Fn)
  | indirect (v : ValueRef Const)

structure LoadInst (Const : Type) where
  pointer : ValueRef Const
  /-- Neither volatile nor atomic. -/
  isSimple : Bool
  /-- `Log2(Alignment) + 1`, or 0 if it is left to the target. -/
  alignmentData : Nat
  invariantLoad : Bool
  dereferenceable : Option Nat
  align : Option Nat

structure StoreInst (Const : Type) where
  value : ValueRef Const
  pointer : ValueRef Const
  isSimple : Bool
  alignmentData : Nat

/-- `getAlignment`. -/
def getAlignment (alignmentData : Nat) : Nat := 2 ^ alignmentData / 2

/-- The data that `setAlignment` stores for a power of 2. -/
def alignmentDataOf (alignment : Nat) : Nat := Nat.log2 alignment + 1

inductive Opcode (Fn Const Op : Type) where
  | load (l : LoadInst Const)
  | store (s : StoreInst Const)
  | getElementPtr (isInBounds : Bool) (pointer : ValueRef Const) (indices : List (ValueRef Const))
  | overflowing (op : OverflowingOp) (hasNoSignedWrap hasNoUnsignedWrap : Bool)
      (lhs rhs : ValueRef Const)
  | icmp (predicate : CmpPredicate) (lhs rhs : ValueRef Const)
  | call (callee : Callee Fn Const) (args : List (ValueRef Const))
  | other (op : Op) (operands : List (ValueRef Const))

structure Instruction (Fn Ty Const Op : Type) where
  id : Nat
  type : Ty
  opcode : Opcode Fn Const Op

inductive Terminator (Const Op : Type) where
  | br (target : Nat)
  | condBr (condition : ValueRef Const) (ifTrue ifFalse : Nat)
  | ret (value : Option (ValueRef Const))
  | other (op : Op) (operands : List (ValueRef Const))

/-- A block; its terminator is no element of `instructions`. -/
structure BasicBlock (Fn Ty Const Op : Type) where
  no : Nat
  instructions : List (Instruction Fn Ty Const Op)
  terminator : Terminator Const Op

/-- The code of a function, the entry block first. -/
abbrev Code (Fn Ty Const Op : Type) := List (BasicBlock Fn Ty Const Op)

namespace Code

variable {Fn Ty Const Op : Type} (code : Code Fn Ty Const Op)

def instructions : List (Instruction Fn Ty Const Op) := code.flatMap BasicBlock.instructions

def instruction? (id : Nat) : Option (Instruction Fn Ty Const Op) :=
  code.instructions.find? fun i => i.id = id

/-- The block of an instruction. -/
def getParent (id : Nat) : Option Nat :=
  (code.find? fun b => b.instructions.any fun i => i.id = id).map BasicBlock.no

end Code

/-- The place in front of an instruction, or in front of the terminator. -/
structure InsertionPoint where
  block : Nat
  before : Option Nat
  deriving DecidableEq

section Insertion

variable {Fn Ty Const Op : Type}

/-- `getNextNode` of an instruction. -/
def nextNode (id : Nat) : List (Instruction Fn Ty Const Op) → Option Nat
  | [] => none
  | i :: rest => if i.id = id then rest.head?.map Instruction.id else nextNode id rest

/-- New instructions in front of the instruction with a number, or at the end. -/
def insertBefore (new : List (Instruction Fn Ty Const Op)) (before : Option Nat) :
    List (Instruction Fn Ty Const Op) → List (Instruction Fn Ty Const Op)
  | [] => if before = none then new else []
  | i :: rest => if before = some i.id then new ++ i :: rest else i :: insertBefore new before rest

namespace Code

variable (code : Code Fn Ty Const Op)

/-- The place behind an instruction. -/
def behind (id : Nat) : Option InsertionPoint :=
  (code.find? fun b => b.instructions.any fun i => i.id = id).map fun b =>
    ⟨b.no, nextNode id b.instructions⟩

/-- `getFirstInsertionPt` of the entry block, which has no phi nodes. -/
def entryPoint : Option InsertionPoint :=
  code.head?.map fun b => ⟨b.no, b.instructions.head?.map Instruction.id⟩

def insertAt (new : List (Instruction Fn Ty Const Op)) (point : InsertionPoint) :
    Code Fn Ty Const Op :=
  code.map fun b =>
    if b.no = point.block then
      { b with instructions := insertBefore new point.before b.instructions }
    else b

end Code

variable {new : List (Instruction Fn Ty Const Op)}

/-- The new instructions are no matter for what they have nothing of. -/
theorem flatMap_insertBefore {α : Type*} {g : Instruction Fn Ty Const Op → List α}
    (hnew : new.flatMap g = []) (before : Option Nat) (is : List (Instruction Fn Ty Const Op)) :
    (insertBefore new before is).flatMap g = is.flatMap g := by
  induction is with
  | nil =>
      rw [insertBefore]
      split
      · exact hnew
      · rfl
  | cons i is ih =>
      rw [insertBefore]
      split
      · rw [List.flatMap_append, hnew, List.nil_append]
      · rw [List.flatMap_cons, List.flatMap_cons, ih]

theorem mem_insertBefore {before : Option Nat} {is : List (Instruction Fn Ty Const Op)}
    {i : Instruction Fn Ty Const Op} (h : i ∈ insertBefore new before is) : i ∈ new ∨ i ∈ is := by
  induction is with
  | nil =>
      rw [insertBefore] at h
      split at h
      · exact .inl h
      · cases h
  | cons j is ih =>
      rw [insertBefore] at h
      split at h
      · exact List.mem_append.mp h
      · obtain rfl | h := List.mem_cons.mp h
        · exact .inr List.mem_cons_self
        · exact (ih h).imp id (List.mem_cons_of_mem j)

theorem mem_insertBefore_of_mem {before : Option Nat} {is : List (Instruction Fn Ty Const Op)}
    {i : Instruction Fn Ty Const Op} (h : i ∈ is) : i ∈ insertBefore new before is := by
  induction is with
  | nil => cases h
  | cons j is ih =>
      rw [insertBefore]
      split
      · exact List.mem_append_right new h
      · obtain rfl | h := List.mem_cons.mp h
        · exact List.mem_cons_self
        · exact List.mem_cons_of_mem j (ih h)

namespace Code

variable {code : Code Fn Ty Const Op} {point : InsertionPoint}

theorem flatMap_insertAt {α : Type*} {g : Nat → Instruction Fn Ty Const Op → List α}
    (hnew : ∀ b, new.flatMap (g b) = []) :
    ((code.insertAt new point).flatMap fun b => b.instructions.flatMap (g b.no)) =
      code.flatMap fun b => b.instructions.flatMap (g b.no) := by
  rw [insertAt, List.flatMap_map]
  congr 1
  funext b
  split
  · exact flatMap_insertBefore (hnew b.no) _ _
  · rfl

theorem mem_instructions_insertAt {i : Instruction Fn Ty Const Op}
    (h : i ∈ (code.insertAt new point).instructions) : i ∈ new ∨ i ∈ code.instructions := by
  obtain ⟨b', hb', hi⟩ := List.mem_flatMap.mp h
  obtain ⟨b, hb, rfl⟩ := List.mem_map.mp hb'
  split at hi
  · exact (mem_insertBefore hi).imp id fun hi => List.mem_flatMap.mpr ⟨b, hb, hi⟩
  · exact .inr (List.mem_flatMap.mpr ⟨b, hb, hi⟩)

/-- The blocks of the old instructions are as before. -/
theorem getParent_insertAt {id : Nat} (hnew : ∀ i ∈ new, i.id ≠ id) :
    (code.insertAt new point).getParent id = code.getParent id := by
  have hany (b : BasicBlock Fn Ty Const Op) :
      ((insertBefore new point.before b.instructions).any fun i => i.id = id) =
        b.instructions.any fun i => i.id = id := by
    rw [Bool.eq_iff_iff, List.any_eq_true, List.any_eq_true]
    constructor
    · rintro ⟨i, hi, hid⟩
      obtain hi | hi := mem_insertBefore hi
      · exact absurd (of_decide_eq_true hid) (hnew i hi)
      · exact ⟨i, hi, hid⟩
    · rintro ⟨i, hi, hid⟩
      exact ⟨i, mem_insertBefore_of_mem hi, hid⟩
  have hblock (b : BasicBlock Fn Ty Const Op) :
      ((if b.no = point.block then
          { b with instructions := insertBefore new point.before b.instructions }
        else b).instructions.any fun i => i.id = id) = b.instructions.any fun i => i.id = id := by
    split
    · exact hany b
    · rfl
  have hno (b : BasicBlock Fn Ty Const Op) :
      (if b.no = point.block then
          { b with instructions := insertBefore new point.before b.instructions }
        else b).no = b.no := by
    split <;> rfl
  simp only [getParent, insertAt, List.find?_map, Option.map_map, Function.comp_def, hblock, hno]

end Code

end Insertion

/-! ### The code without its annotations -/

section Plain

variable {Fn Ty Const Op : Type}

/-- No flags, alignments or metadata. -/
def Opcode.plain : Opcode Fn Const Op → Opcode Fn Const Op
  | .load l =>
      .load
        { l with
          alignmentData := 0, invariantLoad := false, dereferenceable := none, align := none }
  | .store s => .store { s with alignmentData := 0 }
  | .getElementPtr _ pointer indices => .getElementPtr false pointer indices
  | .overflowing op _ _ lhs rhs => .overflowing op false false lhs rhs
  | opcode => opcode

def Instruction.plain (i : Instruction Fn Ty Const Op) : Instruction Fn Ty Const Op :=
  { i with opcode := i.opcode.plain }

@[simp] theorem Instruction.plain_id (i : Instruction Fn Ty Const Op) : i.plain.id = i.id := rfl

@[simp] theorem Instruction.plain_type (i : Instruction Fn Ty Const Op) :
    i.plain.type = i.type := rfl

def BasicBlock.plain (b : BasicBlock Fn Ty Const Op) : BasicBlock Fn Ty Const Op :=
  { b with instructions := b.instructions.map Instruction.plain }

@[simp] theorem BasicBlock.plain_no (b : BasicBlock Fn Ty Const Op) : b.plain.no = b.no := rfl

@[simp] theorem BasicBlock.plain_terminator (b : BasicBlock Fn Ty Const Op) :
    b.plain.terminator = b.terminator := rfl

@[simp] theorem BasicBlock.plain_instructions (b : BasicBlock Fn Ty Const Op) :
    b.plain.instructions = b.instructions.map Instruction.plain := rfl

namespace Code

def plain (code : Code Fn Ty Const Op) : Code Fn Ty Const Op := code.map BasicBlock.plain

variable (code : Code Fn Ty Const Op)

@[simp] theorem instructions_plain :
    code.plain.instructions = code.instructions.map Instruction.plain := by
  simp only [instructions, plain, List.flatMap_map, List.map_flatMap]
  rfl

@[simp] theorem instruction?_plain (id : Nat) :
    code.plain.instruction? id = (code.instruction? id).map Instruction.plain := by
  rw [instruction?, instructions_plain, List.find?_map]
  rfl

theorem any_plain (id : Nat) (b : BasicBlock Fn Ty Const Op) :
    (b.plain.instructions.any fun i => i.id = id) = b.instructions.any fun i => i.id = id := by
  rw [BasicBlock.plain_instructions, List.any_map]
  rfl

@[simp] theorem getParent_plain (id : Nat) : code.plain.getParent id = code.getParent id := by
  simp only [getParent, plain, List.find?_map, Option.map_map, Function.comp_def, any_plain]
  rfl

theorem nextNode_plain (id : Nat) (is : List (Instruction Fn Ty Const Op)) :
    nextNode id (is.map Instruction.plain) = nextNode id is := by
  induction is with
  | nil => rfl
  | cons i is ih =>
      rw [List.map_cons, nextNode, nextNode, ih, List.head?_map, Option.map_map]
      rfl

@[simp] theorem behind_plain (id : Nat) : code.plain.behind id = code.behind id := by
  have hnext (b : BasicBlock Fn Ty Const Op) :
      nextNode id b.plain.instructions = nextNode id b.instructions := nextNode_plain id _
  simp only [behind, plain, List.find?_map, Option.map_map, Function.comp_def, any_plain, hnext]
  rfl

@[simp] theorem entryPoint_plain : code.plain.entryPoint = code.entryPoint := by
  simp only [entryPoint, plain, List.head?_map, Option.map_map, Function.comp_def,
    BasicBlock.plain_instructions]
  rfl

/-- Two codes with the same blocks, whose instructions are related in their blocks. -/
def Relates (R : Nat → Instruction Fn Ty Const Op → Instruction Fn Ty Const Op → Prop)
    (code code' : Code Fn Ty Const Op) : Prop :=
  List.Forall₂ (fun b b' => b'.no = b.no ∧ b'.terminator = b.terminator ∧
    List.Forall₂ (R b.no) b.instructions b'.instructions) code code'

variable {code} {code' : Code Fn Ty Const Op}
variable {R R' : Nat → Instruction Fn Ty Const Op → Instruction Fn Ty Const Op → Prop}

theorem Relates.mono (h : Relates R code code') (himp : ∀ b i i', R b i i' → R' b i i') :
    Relates R' code code' :=
  h.imp fun _ _ ⟨hno, hterminator, hinstructions⟩ =>
    ⟨hno, hterminator, hinstructions.imp (himp _)⟩

/-- What is read off an instruction in its block. -/
theorem Relates.flatMap_eq {α : Type*} {f g : Nat → Instruction Fn Ty Const Op → List α}
    (h : Relates R code code') (hR : ∀ b i i', R b i i' → g b i' = f b i) :
    (code'.flatMap fun b => b.instructions.flatMap (g b.no)) =
      code.flatMap fun b => b.instructions.flatMap (f b.no) := by
  have hblock : ∀ {no : Nat} {is is' : List (Instruction Fn Ty Const Op)},
      List.Forall₂ (R no) is is' → is'.flatMap (g no) = is.flatMap (f no) := by
    intro no is is' his
    induction his with
    | nil => rfl
    | cons hi _ ih => rw [List.flatMap_cons, List.flatMap_cons, hR _ _ _ hi, ih]
  induction h with
  | nil => rfl
  | cons hb _ ih =>
      obtain ⟨hno, -, his⟩ := hb
      rw [List.flatMap_cons, List.flatMap_cons, ih, hno, hblock his]

/-- A change of annotations keeps the rest of the code. -/
theorem Relates.plain_eq (h : Relates R code code') (hR : ∀ b i i', R b i i' → i'.plain = i.plain) :
    code'.plain = code.plain := by
  have hblock : ∀ {no : Nat} {is is' : List (Instruction Fn Ty Const Op)},
      List.Forall₂ (R no) is is' → is'.map Instruction.plain = is.map Instruction.plain := by
    intro no is is' his
    induction his with
    | nil => rfl
    | cons hi _ ih => rw [List.map_cons, List.map_cons, hR _ _ _ hi, ih]
  induction h with
  | nil => rfl
  | @cons b b' code code' hb _ ih =>
      obtain ⟨hno, hterminator, his⟩ := hb
      have hplain : b'.plain = b.plain := by
        rw [BasicBlock.plain, BasicBlock.plain, hblock his]
        obtain ⟨no, is, terminator⟩ := b
        obtain ⟨no', is', terminator'⟩ := b'
        obtain rfl : no' = no := hno
        obtain rfl : terminator' = terminator := hterminator
        rfl
      exact congrArg₂ List.cons hplain ih

end Code

end Plain

/-- What a pass may change about a function. -/
structure FunctionState (Fn Ty Const Op : Type) where
  function : IRFunction Ty
  code : Code Fn Ty Const Op
  /-- Larger than the numbers of all instructions. -/
  nextId : Nat
  loops : LoopState Nat Nat

/-! ### Numbers -/

section Operands

variable {Fn Ty Const Op : Type}

/-- What is numbered below a bound, and what has no number. -/
def ValueRef.IsBelow (n : Nat) : ValueRef Const → Prop
  | .local (.instruction id) => id < n
  | _ => True

def Callee.operands : Callee Fn Const → List (ValueRef Const)
  | .function _ => []
  | .indirect v => [v]

def Opcode.operands : Opcode Fn Const Op → List (ValueRef Const)
  | .load l => [l.pointer]
  | .store s => [s.pointer, s.value]
  | .getElementPtr _ pointer indices => pointer :: indices
  | .overflowing _ _ _ lhs rhs => [lhs, rhs]
  | .icmp _ lhs rhs => [lhs, rhs]
  | .call callee args => callee.operands ++ args
  | .other _ operands => operands

def Terminator.operands : Terminator Const Op → List (ValueRef Const)
  | .br _ => []
  | .condBr condition _ _ => [condition]
  | .ret value => value.toList
  | .other _ operands => operands

/-- The code refers to its own instructions only. -/
structure Code.OperandsBelow (n : Nat) (code : Code Fn Ty Const Op) : Prop where
  instruction : ∀ b ∈ code, ∀ i ∈ b.instructions, ∀ v ∈ i.opcode.operands, v.IsBelow n
  terminator : ∀ b ∈ code, ∀ v ∈ b.terminator.operands, v.IsBelow n

/-- The numbers in a function are below its next one. -/
structure FunctionState.Numbered (fn : FunctionState Fn Ty Const Op) : Prop where
  id_lt : ∀ i ∈ fn.code.instructions, i.id < fn.nextId
  operands : fn.code.OperandsBelow fn.nextId

end Operands

/-- A function whose code was changed instruction by instruction. -/
structure FunctionState.Changed {Fn Ty Const Op : Type}
    (R : Nat → Instruction Fn Ty Const Op → Instruction Fn Ty Const Op → Prop)
    (fn fn' : FunctionState Fn Ty Const Op) : Prop where
  function : fn'.function = fn.function
  code : fn.code.Relates R fn'.code
  nextId : fn'.nextId = fn.nextId
  loops : fn'.loops = fn.loops

end Petospa

import Petospa.Annotator.AttributePasses

/-!
# Passes over instructions

`annotateOverflowComputations` and `annotateMemoryOperations` go through the
instructions of a function in order and change them in place.
-/

namespace Petospa

open Text Interaction

/-- The conversions of constants that the annotator makes. -/
inductive CastOp where
  | integerCast | intToPtr | ptrToInt | bitCast | siToFP | fpToSI | fpToUI | fpExtend | fpTrunc
  deriving DecidableEq

/-- What the passes ask about types, constants and functions, and the analyses. -/
structure PassInfo (Fn Ty Const Op Loop : Type) where
  types : TypeInfo Ty
  isFloatTy : Ty → Bool
  getScalarSizeInBits : Ty → Nat
  int1Ty : Ty
  int64Ty : Ty
  voidTy : Ty
  constantType : Const → Ty
  constantName : Const → Str
  getCast : CastOp → Const → Ty → Const
  functionName : Fn → Str
  /-- `llvm.assume`. -/
  assumeIntrinsic : Fn
  loopInfo : Fn → LoopInfo Loop Nat Nat
  /-- The order of the loops in a pointer set. -/
  order : Fn → PointerOrder Loop
  stripPointerCasts : Fn → ValueRef Const → ValueRef Const
  getUnderlyingObject : Fn → Code Fn Ty Const Op → ValueRef Const → ValueRef Const

namespace FunctionState

variable {Fn Ty Const Op Loop : Type} (P : PassInfo Fn Ty Const Op Loop)

/-- The type of a value; an unknown one has none. -/
def typeOf (fn : FunctionState Fn Ty Const Op) : ValueRef Const → Ty
  | .constant c => P.constantType c
  | .local (.argument argNo) => (fn.function.args[argNo]?.map Argument.type).getD P.voidTy
  | .local (.instruction id) => ((fn.code.instruction? id).map Instruction.type).getD P.voidTy
  | .local (.block _) => P.voidTy

/-- The instruction that defines a value. -/
def definition (fn : FunctionState Fn Ty Const Op) :
    ValueRef Const → Option (Instruction Fn Ty Const Op)
  | .local (.instruction id) => fn.code.instruction? id
  | _ => none

/-- A change of every instruction, with the block that it is in. -/
def mapInstructions (fn : FunctionState Fn Ty Const Op)
    (change : Nat → Instruction Fn Ty Const Op → Pass Fn Const (Instruction Fn Ty Const Op)) :
    Pass Fn Const (FunctionState Fn Ty Const Op) := do
  let code ← fn.code.mapM fun b => do
    let instructions ← b.instructions.mapM (change b.no)
    return { b with instructions := instructions }
  return { fn with code := code }

end FunctionState

namespace Passes

variable {Fn Ty Const Op Loop : Type} (P : PassInfo Fn Ty Const Op Loop)
variable (kind : OptimisticChoiceKind) (f : Fn)

/-- A question about an instruction with two choices. -/
def askFlag (i : Instruction Fn Ty Const Op) : Pass Fn Const Bool := do
  let choice ← getOptimisticChoice 2 Nat.two_pos f (.local (.instruction i.id)) kind
  return choice ≠ 0

/-! ### Overflows -/

/-- The body of the loop of `annotateOverflowComputations`. -/
def annotateOverflow (i : Instruction Fn Ty Const Op) :
    Pass Fn Const (Instruction Fn Ty Const Op) :=
  match i.opcode with
  | .getElementPtr isInBounds pointer indices =>
      if kind = .inboundsGep && !isInBounds then do
        let chosen ← askFlag kind f i
        return { i with opcode := .getElementPtr chosen pointer indices }
      else return i
  | .overflowing op nsw nuw lhs rhs =>
      if kind = .overflowNsw && !nsw then do
        let chosen ← askFlag kind f i
        return { i with opcode := .overflowing op chosen nuw lhs rhs }
      else if kind = .overflowNuw && !nuw then do
        let chosen ← askFlag kind f i
        return { i with opcode := .overflowing op nsw chosen lhs rhs }
      else return i
  | _ => return i

def annotateOverflowComputations (fn : FunctionState Fn Ty Const Op) :
    Pass Fn Const (FunctionState Fn Ty Const Op) :=
  fn.mapInstructions fun _ => annotateOverflow kind f

/-! ### Memory operations -/

/-- Whether the pointer of a load changes in the loop around it. -/
def isInvariantPtr (fn : FunctionState Fn Ty Const Op) (L : Option Loop)
    (pointer : ValueRef Const) :
    Bool :=
  match L, pointer with
  | some L, .local (.instruction id) =>
      match fn.code.getParent id with
      | none => true
      | some b => b ∉ (P.loopInfo f).blocks L
  | _, _ => true

/-- The alignment behind a choice: it is only raised. -/
def raiseAlignment (alignmentData choice : Nat) : Nat :=
  if getAlignment alignmentData < newAlignment choice then alignmentDataOf (newAlignment choice)
  else alignmentData

/-- `AccessSize`, in an `unsigned`. -/
def accessSize (ty : Ty) : Nat :=
  if P.types.isSized ty then P.types.getTypeAllocSize ty % 2 ^ 32 else P.types.getPointerSize

/-- `OCK_MEMORY_ACCESS_ALIGN`. -/
def annotateAlignment (L : Option Loop) (subject : Subject Const) (alignmentData : Nat) :
    Pass Fn Const Nat :=
  if kind = .memoryAccessAlign && L.isSome && getAlignment alignmentData < 64 then do
    let choice ← getOptimisticChoice 3 three_pos f subject kind
    return raiseAlignment alignmentData choice
  else return alignmentData

/-- The metadata of a loaded pointer. -/
def annotateLoaded (i : Instruction Fn Ty Const Op) (pointerTy : Ty) (l : LoadInst Const) :
    Pass Fn Const (LoadInst Const) :=
  if kind = .memoryAccessDereferenceable && l.dereferenceable.isNone then do
    let choice ← getOptimisticChoice 3 three_pos f (.local (.instruction i.id)) kind
    match choice with
    | 2 => return { l with dereferenceable := some (accessSize P pointerTy * 64 % 2 ^ 32) }
    | 1 => return { l with dereferenceable := some (accessSize P pointerTy) }
    | _ => return l
  else if kind = .memoryAccessResAlign && l.align.isNone then do
    let choice ← getOptimisticChoice 3 three_pos f (.local (.instruction i.id)) kind
    return if newAlignment choice ≠ 0 then { l with align := some (newAlignment choice) } else l
  else return l

/-- `OCK_MEMORY_LOAD_INVARIANT`. -/
def annotateInvariant (fn : FunctionState Fn Ty Const Op) (L : Option Loop)
    (i : Instruction Fn Ty Const Op) (l : LoadInst Const) : Pass Fn Const Bool :=
  if kind = .memoryLoadInvariant && isInvariantPtr P f fn L l.pointer && !l.invariantLoad then
    askFlag kind f i
  else return l.invariantLoad

def annotateLoad (fn : FunctionState Fn Ty Const Op) (L : Option Loop)
    (i : Instruction Fn Ty Const Op) (l : LoadInst Const) : Pass Fn Const (LoadInst Const) :=
  if !l.isSimple then return l
  else do
    let invariantLoad ← annotateInvariant P kind f fn L i l
    let alignmentData ← annotateAlignment kind f L (.local (.instruction i.id)) l.alignmentData
    let l := { l with invariantLoad := invariantLoad, alignmentData := alignmentData }
    if !P.types.isPointerTy i.type then return l
    else annotateLoaded P kind f i (fn.typeOf P l.pointer) l

def annotateStore (L : Option Loop) (i : Instruction Fn Ty Const Op) (s : StoreInst Const) :
    Pass Fn Const (StoreInst Const) :=
  if !s.isSimple then return s
  else do
    let alignmentData ← annotateAlignment kind f L (.store i.id s.pointer) s.alignmentData
    return { s with alignmentData := alignmentData }

/-- The body of the loop of `annotateMemoryOperations`. -/
def annotateMemory (fn : FunctionState Fn Ty Const Op) (block : Nat)
    (i : Instruction Fn Ty Const Op) : Pass Fn Const (Instruction Fn Ty Const Op) :=
  let L := (P.loopInfo f).getLoopFor block
  match i.opcode with
  | .load l => do
      let l ← annotateLoad P kind f fn L i l
      return { i with opcode := .load l }
  | .store s => do
      let s ← annotateStore kind f L i s
      return { i with opcode := .store s }
  | _ => return i

def annotateMemoryOperations (fn : FunctionState Fn Ty Const Op) :
    Pass Fn Const (FunctionState Fn Ty Const Op) :=
  fn.mapInstructions (annotateMemory P kind f fn)

end Passes

end Petospa

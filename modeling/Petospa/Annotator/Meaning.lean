import Petospa.Annotator.InstructionPasses
import Petospa.Lib.Simulation

/-!
# The meaning of annotated code

An annotation is a promise. An operation with a flag whose promise is broken yields poison,
and so does an operation on poison. An access through poison or a branch on it has no
defined behaviour. Neither has an access whose alignment or metadata is wrong, or an
assumption that does not hold. Executions that store poison, or hand it to a call or to the
caller, are not followed, so that memory holds no poison. The language reference is
`docs/LangRef.rst`.
-/

namespace Petospa

open Simulation

/-- Values and memory, which stands for all that can be observed, and what is done to them.
The number of an instruction stands for its static data: widths, element types and so on. -/
structure Machine (Fn Const Op : Type) where
  Val : Type
  Mem : Type
  constant : Const → Val
  address : Val → Nat
  isTrue : Val → Prop
  compare : CmpPredicate → Val → Val → Val
  compute : Nat → OverflowingOp → Val → Val → Val
  signedWrap : Nat → OverflowingOp → Val → Val → Prop
  unsignedWrap : Nat → OverflowingOp → Val → Val → Prop
  offset : Nat → Val → List Val → Val
  isInBounds : Nat → Mem → Val → List Val → Prop
  /-- The alignment of an access that states none. -/
  abiAlignment : Nat → Nat
  /-- The location holds one value all over the program. -/
  isInvariant : Nat → Val → Prop
  isDereferenceable : Mem → Nat → Val → Prop
  load : Nat → Val → Mem → Val → Mem → Prop
  store : Nat → Val → Val → Mem → Mem → Prop
  call : Nat → Fn ⊕ Val → List Val → Mem → Val → Mem → Prop
  /-- Other instructions get the block that control came from. They pass poison on, as a phi
  or a cast does, or they do not depend on it. -/
  other : Nat → Op → Nat → List (Option Val) → Mem → Option Val → Mem → Prop
  transfer : Nat → Op → List Val → Mem → Nat → Mem → Prop
  /-- Operands in the place of poison make the result a value, or leave it as it is. -/
  other_mono : ∀ {id op block operands operands' mem v mem'},
    List.Forall₂ (fun x y => ∀ v, x = some v → y = some v) operands operands' →
    other id op block operands mem v mem' →
    ∃ v', other id op block operands' mem v' mem' ∧ ∀ x, v = some x → v' = some x

/-- A value whose promise may be broken. -/
inductive Yields {α : Type} (promise : Prop) (v : α) : Option α → Prop where
  | kept (h : promise) : Yields promise v (some v)
  | poison (h : ¬ promise) : Yields promise v none

/-- The operands of an operation that passes poison on. -/
def Opcode.pureOperands {Fn Const Op : Type} : Opcode Fn Const Op → Option (List (ValueRef Const))
  | .getElementPtr _ pointer indices => some (pointer :: indices)
  | .overflowing _ _ _ lhs rhs => some [lhs, rhs]
  | .icmp _ lhs rhs => some [lhs, rhs]
  | _ => none

namespace Machine

variable {Fn Ty Const Op : Type} (M : Machine Fn Const Op)

/-- The values that are known, poison excepted, and the memory. -/
structure State where
  regs : LocalRef → Option M.Val
  mem : M.Mem

variable {M}

def State.eval (s : M.State) : ValueRef Const → Option M.Val
  | .local r => s.regs r
  | .constant c => some (M.constant c)

/-- The operands have values. -/
def State.Reads (s : M.State) : List (ValueRef Const) → List M.Val → Prop :=
  List.Forall₂ fun v x => s.eval v = some x

def State.write (s : M.State) (id : Nat) (v : Option M.Val) : M.State :=
  { s with regs := Function.update s.regs (.instruction id) v }

def State.withMem (s : M.State) (mem : M.Mem) : M.State := { s with mem := mem }

/-- The target of a call. -/
def State.Calls (s : M.State) : Callee Fn Const → Fn ⊕ M.Val → Prop
  | .function f, target => target = .inl f
  | .indirect v, target => ∃ x, s.eval v = some x ∧ target = .inr x

variable (M)

def IsAligned (id alignmentData : Nat) (x : M.Val) : Prop :=
  (if alignmentData = 0 then M.abiAlignment id else getAlignment alignmentData) ∣ M.address x

/-- What the metadata of a load promises. -/
structure LoadPromises (id : Nat) (l : LoadInst Const) (x v : M.Val) (mem : M.Mem) : Prop where
  aligned : M.IsAligned id l.alignmentData x
  invariant : l.invariantLoad = true → M.isInvariant id x
  dereferenceable : ∀ bytes, l.dereferenceable = some bytes → M.isDereferenceable mem bytes v
  align : ∀ bytes, l.align = some bytes → bytes ∣ M.address v

/-- What the flags of an arithmetic operation promise. -/
def NoWrap (id : Nat) (op : OverflowingOp) (nsw nuw : Bool) (x y : M.Val) : Prop :=
  (nsw = true → ¬ M.signedWrap id op x y) ∧ (nuw = true → ¬ M.unsignedWrap id op x y)

/-- An instruction is executed; `prev` is the block that control came from. Behaviour that
is not defined has no rule. -/
inductive Executes (assumeIntrinsic : Fn) (prev : Nat) :
    Instruction Fn Ty Const Op → M.State → M.State → Prop where
  | load {id : Nat} {ty : Ty} {l : LoadInst Const} {s : M.State} {x v : M.Val} {mem : M.Mem}
      (pointer : s.eval l.pointer = some x) (loads : M.load id x s.mem v mem)
      (promises : M.LoadPromises id l x v mem) :
      Executes assumeIntrinsic prev ⟨id, ty, .load l⟩ s ((s.withMem mem).write id (some v))
  | store {id : Nat} {ty : Ty} {i : StoreInst Const} {s : M.State} {x v : M.Val} {mem : M.Mem}
      (pointer : s.eval i.pointer = some x) (value : s.eval i.value = some v)
      (aligned : M.IsAligned id i.alignmentData x) (stores : M.store id x v s.mem mem) :
      Executes assumeIntrinsic prev ⟨id, ty, .store i⟩ s (s.withMem mem)
  | getElementPtr {id : Nat} {ty : Ty} {isInBounds : Bool} {pointer : ValueRef Const}
      {indices : List (ValueRef Const)} {s : M.State} {x : M.Val} {xs : List M.Val}
      {v : Option M.Val} (base : s.eval pointer = some x) (offsets : s.Reads indices xs)
      (yields : Yields (isInBounds = true → M.isInBounds id s.mem x xs) (M.offset id x xs) v) :
      Executes assumeIntrinsic prev ⟨id, ty, .getElementPtr isInBounds pointer indices⟩ s
        (s.write id v)
  | overflowing {id : Nat} {ty : Ty} {op : OverflowingOp} {nsw nuw : Bool}
      {lhs rhs : ValueRef Const} {s : M.State} {x y : M.Val} {v : Option M.Val}
      (left : s.eval lhs = some x) (right : s.eval rhs = some y)
      (yields : Yields (M.NoWrap id op nsw nuw x y) (M.compute id op x y) v) :
      Executes assumeIntrinsic prev ⟨id, ty, .overflowing op nsw nuw lhs rhs⟩ s (s.write id v)
  | icmp {id : Nat} {ty : Ty} {predicate : CmpPredicate} {lhs rhs : ValueRef Const} {s : M.State}
      {x y : M.Val} (left : s.eval lhs = some x) (right : s.eval rhs = some y) :
      Executes assumeIntrinsic prev ⟨id, ty, .icmp predicate lhs rhs⟩ s
        (s.write id (some (M.compare predicate x y)))
  | poison {i : Instruction Fn Ty Const Op} {operands : List (ValueRef Const)} {s : M.State}
      (isPure : i.opcode.pureOperands = some operands) {v : ValueRef Const} (mem : v ∈ operands)
      (depends : s.eval v = none) : Executes assumeIntrinsic prev i s (s.write i.id none)
  | assume {id : Nat} {ty : Ty} {condition : ValueRef Const} {s : M.State} {x : M.Val}
      (value : s.eval condition = some x) (holds : M.isTrue x) :
      Executes assumeIntrinsic prev ⟨id, ty, .call (.function assumeIntrinsic) [condition]⟩ s s
  | call {id : Nat} {ty : Ty} {callee : Callee Fn Const} {args : List (ValueRef Const)}
      {s : M.State} {target : Fn ⊕ M.Val} {xs : List M.Val} {v : M.Val} {mem : M.Mem}
      (called : s.Calls callee target) (ne : target ≠ .inl assumeIntrinsic)
      (reads : s.Reads args xs) (calls : M.call id target xs s.mem v mem) :
      Executes assumeIntrinsic prev ⟨id, ty, .call callee args⟩ s
        ((s.withMem mem).write id (some v))
  | other {id : Nat} {ty : Ty} {op : Op} {operands : List (ValueRef Const)} {s : M.State}
      {v : Option M.Val} {mem : M.Mem}
      (executes : M.other id op prev (operands.map s.eval) s.mem v mem) :
      Executes assumeIntrinsic prev ⟨id, ty, .other op operands⟩ s ((s.withMem mem).write id v)

/-- Where control goes at the end of a block. -/
inductive Exit (Val : Type) where
  | goto (block : Nat)
  | returns (value : Option Val)

/-- The terminator of the block with number `no` is executed. -/
inductive Leaves (no : Nat) : Terminator Const Op → M.State → Exit M.Val → M.Mem → Prop where
  | br {target : Nat} {s : M.State} : Leaves no (.br target) s (.goto target) s.mem
  | ifTrue {condition : ValueRef Const} {ifTrue ifFalse : Nat} {s : M.State} {x : M.Val}
      (value : s.eval condition = some x) (holds : M.isTrue x) :
      Leaves no (.condBr condition ifTrue ifFalse) s (.goto ifTrue) s.mem
  | ifFalse {condition : ValueRef Const} {ifTrue ifFalse : Nat} {s : M.State} {x : M.Val}
      (value : s.eval condition = some x) (fails : ¬ M.isTrue x) :
      Leaves no (.condBr condition ifTrue ifFalse) s (.goto ifFalse) s.mem
  | ret {s : M.State} : Leaves no (.ret none) s (.returns none) s.mem
  | retValue {value : ValueRef Const} {s : M.State} {x : M.Val} (reads : s.eval value = some x) :
      Leaves no (.ret (some value)) s (.returns (some x)) s.mem
  | other {op : Op} {operands : List (ValueRef Const)} {s : M.State} {xs : List M.Val}
      {target : Nat} {mem : M.Mem} (reads : s.Reads operands xs)
      (transfers : M.transfer no op xs s.mem target mem) :
      Leaves no (.other op operands) s (.goto target) mem

/-- Control is at the beginning of a block. -/
structure Point where
  prev : Nat
  block : Nat
  state : M.State

variable {M}

/-- A block is executed. -/
def Runs (assumeIntrinsic : Fn) (code : Code Fn Ty Const Op) (p : M.Point) (exit : Exit M.Val)
    (s : M.State) (mem : M.Mem) : Prop :=
  ∃ b, code.find? (fun b => b.no = p.block) = some b ∧
    Sequence (M.Executes assumeIntrinsic p.prev) b.instructions p.state s ∧
    M.Leaves b.no b.terminator s exit mem

/-- Control goes from one block to the next one. -/
def Steps (assumeIntrinsic : Fn) (code : Code Fn Ty Const Op) (p q : M.Point) : Prop :=
  ∃ s mem, Runs assumeIntrinsic code p (.goto q.block) s mem ∧ q.prev = p.block ∧
    q.state = s.withMem mem

def Reaches (assumeIntrinsic : Fn) (code : Code Fn Ty Const Op) : M.Point → M.Point → Prop :=
  Relation.ReflTransGen (Steps assumeIntrinsic code)

/-- The function returns a value and leaves the memory behind. -/
def Returns (assumeIntrinsic : Fn) (code : Code Fn Ty Const Op) (p : M.Point)
    (value : Option M.Val) (mem : M.Mem) : Prop :=
  ∃ q s, Reaches assumeIntrinsic code p q ∧ Runs assumeIntrinsic code q (.returns value) s mem

end Machine

end Petospa

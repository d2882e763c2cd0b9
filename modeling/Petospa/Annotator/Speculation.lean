import Mathlib.Logic.Relation
import Petospa.Annotator.History
import Petospa.Annotator.InstructionPasses

/-!
# Speculation about branches

`annotateBranchConditions` collects the values that branches compare with constants,
grouped by a name. `createSpeculativeAssumptions` asks one question for a group: which
of its constants all its values are assumed to be.
-/

namespace Petospa

open Text Interaction

/-- A value with the place where something can be assumed about it. -/
structure Speculated (Fn : Type) where
  function : Fn
  value : LocalRef
  point : Option InsertionPoint

structure SpeculationInfo (Fn Const : Type) where
  constants : List Const
  insertionPoints : List (Speculated Fn)

/-- `SpeculationMap` in the order of `SpeculationMapOrder`. -/
abbrev SpeculationMap (Fn Const : Type) := Dict Str (SpeculationInfo Fn Const)

namespace Passes

variable {Fn Ty Const Op Loop : Type} (P : PassInfo Fn Ty Const Op Loop)
variable (kind : OptimisticChoiceKind) (f : Fn)

/-! ### Collecting -/

/-- The value and the constant that an equality compares. -/
def comparison (fn : FunctionState Fn Ty Const Op) (condition : ValueRef Const) :
    Option (LocalRef × Const) :=
  match (fn.definition condition).map Instruction.opcode with
  | some (.icmp predicate lhs rhs) =>
      if predicate.isEquality then
        match lhs, rhs with
        | .local r, .constant c => some (r, c)
        | .constant c, .local r => some (r, c)
        | _, _ => none
      else none
  | _ => none

/-- The block is a latch of the innermost loop around it or leaves that loop. -/
def decidesLoop (b : BasicBlock Fn Ty Const Op) : Bool :=
  let N := P.loopInfo f
  match N.getLoopFor b.no with
  | none => false
  | some L => b.no ∈ N.predecessors (N.getHeader L) || (N.successors b.no).any (· ∉ N.blocks L)

/-- Loads, calls and parameters. -/
def isSpeculated (fn : FunctionState Fn Ty Const Op) (r : LocalRef) : Bool :=
  match r with
  | .argument _ => true
  | .block _ => false
  | .instruction id =>
      match (fn.code.instruction? id).map Instruction.opcode with
      | some (.load _) => true
      | some (.call _ _) => true
      | _ => false

/-- The value that a branch is decided by, and the constant it is compared with. -/
def branchSite (fn : FunctionState Fn Ty Const Op) (b : BasicBlock Fn Ty Const Op) :
    Option (LocalRef × Const) :=
  if decidesLoop P f b then none
  else
    match b.terminator with
    | .condBr condition _ _ =>
        match comparison fn condition with
        | none => none
        | some (r, c) =>
            let ty := P.constantType c
            if !P.types.isIntegerTy ty && !P.types.isPointerTy ty && !P.isFloatTy ty then none
            else
              match P.stripPointerCasts f (.local r) with
              | .local r => if isSpeculated fn r then some (r, c) else none
              | .constant _ => none
    | _ => none

variable {P f} in
theorem isSpeculated_of_branchSite {fn : FunctionState Fn Ty Const Op}
    {b : BasicBlock Fn Ty Const Op} {r : LocalRef} {c : Const}
    (h : branchSite P f fn b = some (r, c)) : isSpeculated fn r = true := by
  unfold branchSite at h
  split at h
  · cases h
  · split at h
    · split at h
      · cases h
      · dsimp only at h
        split at h
        · cases h
        · split at h
          · split at h
            · rename_i hspeculated
              obtain ⟨rfl, -⟩ := Prod.mk.inj (Option.some.inj h)
              exact hspeculated
            · cases h
          · cases h
    · cases h

def getName : ValueRef Const → Pass Fn Const Str
  | .local r => Program.question (PassQuestion.getName f r)
  | .constant c => return P.constantName c

/-- The name that a value is grouped by. -/
def idString (fn : FunctionState Fn Ty Const Op) (r : LocalRef) : Pass Fn Const Str :=
  match (fn.definition (.local r)).map Instruction.opcode with
  | some (.call (.function callee) _) => return P.functionName callee
  | some (.load l) => getName P f (P.getUnderlyingObject f fn.code l.pointer)
  | _ => getName P f (.local r)

/-- Where something can be assumed about a value. -/
def insertionPoint (fn : FunctionState Fn Ty Const Op) : LocalRef → Option InsertionPoint
  | .instruction id => fn.code.behind id
  | _ => fn.code.entryPoint

variable [DecidableEq Const]

/-- The body of the loop of `annotateBranchConditions`. -/
def annotateBranch (fn : FunctionState Fn Ty Const Op) (map : SpeculationMap Fn Const)
    (b : BasicBlock Fn Ty Const Op) : Pass Fn Const (SpeculationMap Fn Const) :=
  match branchSite P f fn b with
  | none => return map
  | some (r, c) => do
      let name ← idString P f fn r
      return map.modify name ⟨[], []⟩ fun info =>
        ⟨number info.constants c, info.insertionPoints ++ [⟨f, r, insertionPoint fn r⟩]⟩

def annotateBranchConditions (fn : FunctionState Fn Ty Const Op) (map : SpeculationMap Fn Const) :
    Pass Fn Const (SpeculationMap Fn Const) :=
  if kind ≠ .controlFlowTrg then return map
  else fn.code.foldlM (annotateBranch P f fn) map

/-! ### Assuming -/

variable [DecidableEq Ty] [DecidableEq Fn]

/-- A constant as a constant of the type of a value. -/
def castTo (c : Const) (ty : Ty) : Const :=
  let T := P.types
  let constTy := P.constantType c
  if constTy = ty then c
  else if T.isIntegerTy constTy then
    if T.isIntegerTy ty then P.getCast .integerCast c ty
    else if T.isPointerTy ty then P.getCast .intToPtr c ty
    else if P.isFloatTy ty then P.getCast .siToFP c ty
    else c
  else if T.isPointerTy constTy then
    if T.isIntegerTy ty then P.getCast .ptrToInt c ty
    else if T.isPointerTy ty then P.getCast .bitCast c ty
    else if P.isFloatTy ty then P.getCast .siToFP (P.getCast .ptrToInt c P.int64Ty) ty
    else c
  else if P.isFloatTy constTy then
    if T.isIntegerTy ty then P.getCast .fpToSI c ty
    else if T.isPointerTy ty then P.getCast .intToPtr (P.getCast .fpToUI c P.int64Ty) ty
    else if P.isFloatTy ty then
      if P.getScalarSizeInBits constTy < P.getScalarSizeInBits ty then P.getCast .fpExtend c ty
      else P.getCast .fpTrunc c ty
    else c
  else c

/-- `llvm.assume` of the comparison of a value with a constant. -/
def assumption (fn : FunctionState Fn Ty Const Op) (r : LocalRef) (c : Const) :
    List (Instruction Fn Ty Const Op) :=
  [⟨fn.nextId, P.int1Ty, .icmp .eq (.local r) (.constant (castTo P c (fn.typeOf P (.local r))))⟩,
    ⟨fn.nextId + 1, P.voidTy,
      .call (.function P.assumeIntrinsic) [.local (.instruction fn.nextId)]⟩]

/-- A function with an assumption at a place. -/
def withAssumption (c : Const) (fn : FunctionState Fn Ty Const Op) (r : LocalRef)
    (point : InsertionPoint) : FunctionState Fn Ty Const Op :=
  { fn with
    code := fn.code.insertAt (assumption P fn r c) point
    nextId := fn.nextId + 2 }

/-- The body of the loop over the insertion points. -/
def assume (c : Const) (functions : Fn → FunctionState Fn Ty Const Op) (s : Speculated Fn) :
    Fn → FunctionState Fn Ty Const Op :=
  match s.point with
  | none => functions
  | some point =>
      Function.update functions s.function
        (withAssumption P c (functions s.function) s.value point)

/-- What a choice for a group assumes; 0 stands for nothing. -/
def assumeChosen (functions : Fn → FunctionState Fn Ty Const Op) (info : SpeculationInfo Fn Const)
    (choice : Nat) : Except Fault (Fn → FunctionState Fn Ty Const Op) :=
  if choice = 0 then .ok functions
  else
    match info.constants[choice - 1]? with
    | none => .error .assertion
    | some c => .ok (info.insertionPoints.foldl (assume P c) functions)

/-- The body of the loop of `createSpeculativeAssumptions`. -/
def assumeGroup (functions : Fn → FunctionState Fn Ty Const Op) (info : SpeculationInfo Fn Const) :
    Pass Fn Const (Fn → FunctionState Fn Ty Const Op) :=
  match info.insertionPoints with
  | [] => .fails .assertion
  | first :: _ => do
      let choice ← getOptimisticChoice (info.constants.length + 1) (Nat.succ_pos _) first.function
        (.local first.value) kind
      .ofExcept (assumeChosen P functions info choice)

def createSpeculativeAssumptions (functions : Fn → FunctionState Fn Ty Const Op)
    (map : SpeculationMap Fn Const) : Pass Fn Const (Fn → FunctionState Fn Ty Const Op) :=
  if kind ≠ .controlFlowTrg then return functions
  else map.entries.foldlM (fun functions entry => assumeGroup P kind functions entry.2) functions

/-! ### What is assumed -/

omit [DecidableEq Const] [DecidableEq Fn] in
/-- A function with further assumptions. -/
def Assumed (P : PassInfo Fn Ty Const Op Loop) :
    FunctionState Fn Ty Const Op → FunctionState Fn Ty Const Op → Prop :=
  Relation.ReflTransGen fun fn fn' => ∃ c r point, fn' = withAssumption P c fn r point

variable {P}

omit [DecidableEq Const] in
theorem assumed_assume (c : Const) (functions : Fn → FunctionState Fn Ty Const Op)
    (s : Speculated Fn) (f : Fn) : Assumed P (functions f) (assume P c functions s f) := by
  unfold assume
  cases s.point with
  | none => exact .refl
  | some point =>
      by_cases hf : f = s.function
      · subst hf
        dsimp only
        rw [Function.update_self]
        exact .single ⟨c, s.value, point, rfl⟩
      · dsimp only
        rw [Function.update_of_ne hf]
        exact .refl

omit [DecidableEq Const] in
theorem assumed_foldl (c : Const) (points : List (Speculated Fn))
    (functions : Fn → FunctionState Fn Ty Const Op) (f : Fn) :
    Assumed P (functions f) (points.foldl (assume P c) functions f) := by
  induction points generalizing functions with
  | nil => exact .refl
  | cons s points ih => exact (assumed_assume c functions s f).trans (ih _)

omit [DecidableEq Const] in
theorem assumed_assumeChosen {functions functions' : Fn → FunctionState Fn Ty Const Op}
    {info : SpeculationInfo Fn Const} {choice : Nat}
    (h : assumeChosen P functions info choice = .ok functions') (f : Fn) :
    Assumed P (functions f) (functions' f) := by
  unfold assumeChosen at h
  split at h
  · rw [← Except.ok.inj h]
    exact .refl
  · split at h
    · cases h
    · rw [← Except.ok.inj h]
      exact assumed_foldl _ _ _ f

omit [DecidableEq Const] in
theorem meets_createSpeculativeAssumptions {ok : (q : PassQuestion Fn Const) → PassAnswer q → Prop}
    (kind : OptimisticChoiceKind) (functions : Fn → FunctionState Fn Ty Const Op)
    (map : SpeculationMap Fn Const) :
    (createSpeculativeAssumptions P kind functions map).Meets ok (fun _ => True)
      fun functions' => ∀ f, Assumed P (functions f) (functions' f) := by
  unfold createSpeculativeAssumptions
  split
  · exact fun _ => .refl
  · refine Program.meets_foldlM
      (fun _ (functions' : Fn → FunctionState Fn Ty Const Op) =>
        ∀ f, Assumed P (functions f) (functions' f))
      (fun entry _ functions' hassumed => ?_) fun _ => .refl
    unfold assumeGroup
    split
    · trivial
    · refine (Program.meets_trivial _).bind fun choice _ => Program.meets_ofExcept fun r hr f => ?_
      exact (hassumed f).trans (assumed_assumeChosen hr f)

end Passes

end Petospa

import Petospa.Annotator.ControlString
import Petospa.Annotator.Metadata

/-!
# Annotating loops as parallel

A loop is annotated parallel if it has a loop ID and all memory accesses in its
blocks refer to it. `annotateLoops` gives the loops that are chosen an ID and
adds the IDs of a loop and of all loops around it to the accesses in the loop;
blocks of an inner loop that is chosen as well are left to that loop.
-/

namespace Petospa

variable {Loop Block Inst : Type}

/-- A loop and the loops around it, the given number of them at most. -/
def enclosingLoops (getParentLoop : Loop → Option Loop) : Nat → Loop → List Loop
  | 0, _ => []
  | n + 1, L =>
      L :: match getParentLoop L with
        | none => []
        | some P => enclosingLoops getParentLoop n P

/-- The loops of a function, and of its blocks what the annotation looks at. -/
structure LoopInfo (Loop Block Inst : Type) where
  /-- The outermost loops. -/
  topLevel : List Loop
  /-- `depth_first`: the loops of a nest in the order of their visits. -/
  depthFirst : Loop → List Loop
  subLoops : Loop → List Loop
  getParentLoop : Loop → Option Loop
  getLoopDepth : Loop → Nat
  getHeader : Loop → Block
  blocks : Loop → List Block
  /-- The innermost loop around a block. -/
  getLoopFor : Block → Option Loop
  successors : Block → List Block
  predecessors : Block → List Block
  /-- The instructions of a block that may read or write memory. -/
  accesses : Block → List Inst
  depth_topLevel : ∀ L, getParentLoop L = none → getLoopDepth L = 1
  depth_parent : ∀ L P, getParentLoop L = some P → getLoopDepth L = getLoopDepth P + 1
  mem_subLoops : ∀ L M, M ∈ subLoops L ↔ getParentLoop M = some L
  mem_depthFirst : ∀ O M,
    M ∈ depthFirst O ↔ O ∈ enclosingLoops getParentLoop (getLoopDepth M) M
  exists_topLevel : ∀ L, ∃ O ∈ topLevel, O ∈ enclosingLoops getParentLoop (getLoopDepth L) L
  mem_blocks : ∀ L b, b ∈ blocks L ↔
    ∃ M, getLoopFor b = some M ∧ L ∈ enclosingLoops getParentLoop (getLoopDepth M) M
  mem_predecessors : ∀ b b', b ∈ predecessors b' ↔ b' ∈ successors b
  exists_latch : ∀ L, ∃ b ∈ blocks L, getHeader L ∈ successors b
  block_unique : ∀ b b' i, i ∈ accesses b → i ∈ accesses b' → b = b'

/-- The metadata of a function: `MD_loop` of the terminator of each block, and
`MD_mem_parallel_loop_access` of each access. -/
structure LoopState (Block Inst : Type) where
  context : MDContext
  loopMD : Block → Option Nat
  accessMD : Inst → Option Nat

/-- The order in which the set of parallel loops of a nest is visited. -/
structure PointerOrder (Loop : Type) where
  visit : OptimisticChoiceKind → Loop → List Loop → List Loop
  perm : ∀ kind O ls, (visit kind O ls).Perm ls

namespace LoopState

variable (s : LoopState Block Inst)

def accessOperands (i : Inst) : List (Option Metadata) :=
  match s.accessMD i with
  | none => []
  | some n => s.context.operands n

/-- The loop over several latches in `getLoopID`. -/
def commonLoopMD : List Block → Option Nat → Option Nat
  | [], loopID => loopID
  | b :: latches, loopID =>
      match s.loopMD b with
      | none => none
      | some md =>
          match loopID with
          | none => commonLoopMD latches (some md)
          | some n => if md = n then commonLoopMD latches loopID else none

theorem commonLoopMD_some (latches : List Block) (n m : Nat) :
    s.commonLoopMD latches (some n) = some m ↔ n = m ∧ ∀ b ∈ latches, s.loopMD b = some n := by
  induction latches with
  | nil => simp [LoopState.commonLoopMD]
  | cons b latches ih =>
      rw [LoopState.commonLoopMD]
      cases hmd : s.loopMD b with
      | none => simp [hmd]
      | some md =>
          by_cases hsame : md = n
          · simp [hmd, hsame, ih]
          · simp [hmd, hsame]

/-- The loop IDs are added to those of an access. -/
def markAccess [DecidableEq Inst] (loopIDs : List (Option Metadata)) (s : LoopState Block Inst)
    (i : Inst) : LoopState Block Inst :=
  let (parMemMD, context) := s.context.get loopIDs
  let (parMemMD, context) :=
    match s.accessMD i with
    | none => (parMemMD, context)
    | some loopIdMD => context.concatenate parMemMD loopIdMD
  { s with
    context := context
    accessMD := fun j => if j = i then some parMemMD else s.accessMD j }

end LoopState

namespace LoopInfo

/-! ### The nest -/

section Nest

variable (N : LoopInfo Loop Block Inst)

/-- A loop, its parent, and so on up to the outermost loop. -/
def enclosing (L : Loop) : List Loop := enclosingLoops N.getParentLoop (N.getLoopDepth L) L

variable {N}

theorem enclosing_topLevel {L : Loop} (h : N.getParentLoop L = none) : N.enclosing L = [L] := by
  rw [enclosing, N.depth_topLevel L h, enclosingLoops, h]

theorem enclosing_parent {L P : Loop} (h : N.getParentLoop L = some P) :
    N.enclosing L = L :: N.enclosing P := by
  rw [enclosing, N.depth_parent L P h, enclosingLoops, h]
  rfl

theorem mem_enclosing_self (L : Loop) : L ∈ N.enclosing L := by
  cases hparent : N.getParentLoop L with
  | none => simp [enclosing_topLevel hparent]
  | some P => simp [enclosing_parent hparent]

/-- What lies around a loop lies around all loops in it. -/
theorem enclosing_trans {A L M : Loop} (hL : L ∈ N.enclosing M) (hA : A ∈ N.enclosing L) :
    A ∈ N.enclosing M := by
  induction hdepth : N.getLoopDepth M generalizing M with
  | zero =>
      rw [enclosing, hdepth] at hL
      cases hL
  | succ depth ih =>
      cases hparent : N.getParentLoop M with
      | none =>
          rw [enclosing_topLevel hparent] at hL
          obtain rfl := List.mem_singleton.mp hL
          exact hA
      | some P =>
          rw [enclosing_parent hparent] at hL ⊢
          rcases List.mem_cons.mp hL with rfl | hL
          · rwa [enclosing_parent hparent] at hA
          · have hparentDepth := N.depth_parent M P hparent
            exact List.mem_cons_of_mem M (ih hL (by omega))

theorem mem_blocks_iff {L : Loop} {b : Block} :
    b ∈ N.blocks L ↔ ∃ M, N.getLoopFor b = some M ∧ L ∈ N.enclosing M := N.mem_blocks L b

end Nest

/-! ### Loop IDs -/

section LoopIDs

variable [DecidableEq Block] (N : LoopInfo Loop Block Inst)

def getLoopLatches (L : Loop) : List Block :=
  (N.predecessors (N.getHeader L)).filter fun b => b ∈ N.blocks L

def getLoopLatch (L : Loop) : Option Block :=
  match N.getLoopLatches L with
  | [latch] => some latch
  | _ => none

def getLoopID (s : LoopState Block Inst) (L : Loop) : Option Nat :=
  let loopID :=
    match N.getLoopLatch L with
    | some latch => s.loopMD latch
    | none => s.commonLoopMD (N.getLoopLatches L) none
  match loopID with
  | none => none
  | some n => if s.context.IsLoopID n then some n else none

def setLoopID (s : LoopState Block Inst) (L : Loop) (loopID : Nat) : LoopState Block Inst :=
  match N.getLoopLatch L with
  | some latch => { s with loopMD := fun b => if b = latch then some loopID else s.loopMD b }
  | none =>
      { s with
        loopMD := fun b =>
          if b ∈ N.blocks L ∧ N.getHeader L ∈ N.successors b then some loopID else s.loopMD b }

/-- No latch block is shared by two loops. -/
def LatchesApart : Prop :=
  ∀ L M b, b ∈ N.getLoopLatches L → b ∈ N.getLoopLatches M → L = M

variable {N}

theorem mem_getLoopLatches {L : Loop} {b : Block} :
    b ∈ N.getLoopLatches L ↔ b ∈ N.blocks L ∧ N.getHeader L ∈ N.successors b := by
  rw [getLoopLatches, List.mem_filter, N.mem_predecessors, decide_eq_true_eq, and_comm]

theorem getLoopLatches_ne_nil (L : Loop) : N.getLoopLatches L ≠ [] := by
  obtain ⟨b, hb, hheader⟩ := N.exists_latch L
  exact List.ne_nil_of_mem (mem_getLoopLatches.mpr ⟨hb, hheader⟩)

/-- A loop ID is attached to all latches and refers to itself. -/
theorem getLoopID_eq_some {s : LoopState Block Inst} {L : Loop} {n : Nat} :
    N.getLoopID s L = some n ↔
      (∀ b ∈ N.getLoopLatches L, s.loopMD b = some n) ∧ s.context.IsLoopID n := by
  have hne := getLoopLatches_ne_nil (N := N) L
  have hcandidate : ∀ m, (match N.getLoopLatch L with
      | some latch => s.loopMD latch
      | none => s.commonLoopMD (N.getLoopLatches L) none) = some m ↔
      ∀ b ∈ N.getLoopLatches L, s.loopMD b = some m := by
    intro m
    rw [getLoopLatch]
    match hlatches : N.getLoopLatches L with
    | [] => exact absurd hlatches hne
    | [latch] => simp
    | b :: b' :: latches =>
        change s.commonLoopMD (b :: b' :: latches) none = some m ↔ _
        rw [LoopState.commonLoopMD]
        cases hmd : s.loopMD b with
        | none => simp [hmd]
        | some md =>
            change s.commonLoopMD (b' :: latches) (some md) = some m ↔ _
            rw [LoopState.commonLoopMD_some, List.forall_mem_cons (a := b), hmd, Option.some_inj]
            constructor
            · rintro ⟨rfl, hrest⟩
              exact ⟨rfl, hrest⟩
            · rintro ⟨rfl, hrest⟩
              exact ⟨rfl, hrest⟩
  rw [getLoopID, ← hcandidate]
  generalize (match N.getLoopLatch L with
    | some latch => s.loopMD latch
    | none => s.commonLoopMD (N.getLoopLatches L) none) = loopID
  cases loopID with
  | none => simp
  | some m =>
      by_cases hid : s.context.IsLoopID m
      · simp only [hid, if_true, Option.some_inj]
        constructor
        · rintro rfl
          exact ⟨rfl, hid⟩
        · exact And.left
      · simp only [hid, if_false, Option.some_inj, reduceCtorEq, false_iff]
        rintro ⟨rfl, hself⟩
        exact hid hself

theorem setLoopID_loopMD (s : LoopState Block Inst) (L : Loop) (n : Nat) (b : Block) :
    (N.setLoopID s L n).loopMD b = if b ∈ N.getLoopLatches L then some n else s.loopMD b := by
  rw [setLoopID]
  cases hlatch : N.getLoopLatch L with
  | some latch =>
      have hlatches : N.getLoopLatches L = [latch] := by
        rw [getLoopLatch] at hlatch
        split at hlatch
        · rename_i heq
          rw [heq, Option.some.inj hlatch]
        · cases hlatch
      simp [hlatches]
  | none => simp only [mem_getLoopLatches]

theorem setLoopID_context (s : LoopState Block Inst) (L : Loop) (n : Nat) :
    (N.setLoopID s L n).context = s.context := by
  rw [setLoopID]
  split <;> rfl

theorem setLoopID_accessMD (s : LoopState Block Inst) (L : Loop) (n : Nat) :
    (N.setLoopID s L n).accessMD = s.accessMD := by
  rw [setLoopID]
  split <;> rfl

end LoopIDs

/-! ### The annotation -/

variable [DecidableEq Loop] [DecidableEq Block] [DecidableEq Inst]
variable (N : LoopInfo Loop Block Inst)

def isAnnotatedParallel (s : LoopState Block Inst) (L : Loop) : Bool :=
  match N.getLoopID s L with
  | none => false
  | some n =>
      (N.blocks L).all fun b => (N.accesses b).all fun i =>
        some (.node n) ∈ s.accessOperands i

/-- The kind of choice that is asked for a loop. -/
def kindOf (L : Loop) : OptimisticChoiceKind :=
  if N.subLoops L = [] then .loopParallelInnermost else .loopParallelOuter

/-- A loop that has no loop ID gets a new one. -/
def ensureLoopID (s : LoopState Block Inst) (L : Loop) : LoopState Block Inst :=
  match N.getLoopID s L with
  | some _ => s
  | none =>
      let (loopID, context) := s.context.createLoopID
      N.setLoopID { s with context := context } L loopID

/-- The body of the loop over a nest, with the set `ParallelLoops`; `answer` is
what `getOptimisticChoice` answers for the header of a loop. -/
def requestLoop (inst : Nat) (kind : OptimisticChoiceKind) (answer : Loop → Nat)
    (r : LoopState Block Inst × List Loop) (L : Loop) : LoopState Block Inst × List Loop :=
  if inst = 7 then
    if kind ≠ N.kindOf L then r
    else if answer L = 0 then r
    else (N.ensureLoopID r.1 L, number r.2 L)
  else r

/-- The blocks of a loop that are left to another parallel loop. -/
def leaves (parallelLoops : List Loop) (L : Loop) (b : Block) : Bool :=
  match N.getLoopFor b with
  | none => false
  | some M => M ≠ L ∧ M ∈ parallelLoops

def markLoop (parallelLoops : List Loop) (s : LoopState Block Inst) (L : Loop) :
    LoopState Block Inst :=
  let loopIDs := (N.enclosing L).map fun P => (N.getLoopID s P).map Metadata.node
  (N.blocks L).foldl
    (fun s b =>
      if N.leaves parallelLoops L b then s
      else (N.accesses b).foldl (LoopState.markAccess loopIDs) s) s

def annotateNest (order : PointerOrder Loop) (inst : Nat) (kind : OptimisticChoiceKind)
    (answer : Loop → Nat) (s : LoopState Block Inst) (O : Loop) :
    Except Fault (LoopState Block Inst) :=
  let (s, requested) := (N.depthFirst O).foldl (N.requestLoop inst kind answer) (s, [])
  let parallelLoops := order.visit kind O requested
  let s := parallelLoops.foldl (N.markLoop parallelLoops) s
  -- assert(L->isAnnotatedParallel())
  if parallelLoops.all (N.isAnnotatedParallel s) then .ok s else .error .assertion

def annotateLoops (order : PointerOrder Loop) (inst : Nat) (kind : OptimisticChoiceKind)
    (answer : Loop → Nat) (s : LoopState Block Inst) : Except Fault (LoopState Block Inst) :=
  N.topLevel.foldlM (N.annotateNest order inst kind answer) s

/-- The annotation for both kinds of loops, in the order of the kinds. -/
def annotateAllLoops (order : PointerOrder Loop) (inst : Nat) (answer : Loop → Nat)
    (s : LoopState Block Inst) : Except Fault (LoopState Block Inst) := do
  let s ← N.annotateLoops order inst .loopParallelInnermost answer s
  N.annotateLoops order inst .loopParallelOuter answer s

end LoopInfo

end Petospa

import Petospa.Annotator.Independence
import Petospa.Annotator.Loading

/-!
# The passes of the first instance

The first instance of a compiler run loads the choices and runs all passes. The
queries that it makes do not depend on the choices, so one stage stands for the first
instance of all compiler runs of a module.
-/

namespace Petospa

open Text Interaction

/-! ### Answers and queries -/

section Runs

variable {Fn Const α : Type} [DecidableEq Fn] (functionName : Fn → Str)
variable (constantName : Const → Str) (opts : Options) (inst : Nat)

theorem queries_isPrefix {qs qs' : List (PassQuestion Fn Const)} (h : qs <+: qs')
    (symbols : Fn → SymbolTable) :
    queries functionName constantName qs symbols <+:
      queries functionName constantName qs' symbols := by
  induction qs generalizing qs' symbols with
  | nil => exact List.nil_prefix
  | cons q qs ih =>
      obtain ⟨rest, rfl⟩ := h
      cases q with
      | getName f r => exact ih (List.prefix_append qs rest) symbols
      | choice q =>
          rw [List.cons_append, queries, queries]
          split
          · exact List.prefix_refl _
          · exact List.cons_prefix_cons.mpr ⟨rfl, ih (List.prefix_append qs rest) _⟩

/-- The values that are chosen in a transcript. -/
def chosenValues : List (Sigma fun q : PassQuestion Fn Const => PassAnswer q) → List Nat
  | [] => []
  | ⟨.choice _, value⟩ :: rest => value :: chosenValues rest
  | ⟨.getName _ _, _⟩ :: rest => chosenValues rest

variable {functionName constantName opts inst}

/-- A run of passes makes its queries one after another. -/
theorem answerAll_of_run {p : Pass Fn Const α} {env env' : Environment Fn} {a : α}
    (h : p.run (answer functionName constantName opts inst) env = .ok (a, env')) :
    ∃ given, answerAll opts inst
        (queries functionName constantName
          (p.asked (answer functionName constantName opts inst) env) env.symbols) env.annotator =
          (env'.annotator, given) ∧
      given.map Answer.value =
        chosenValues (p.transcript (answer functionName constantName opts inst) env) := by
  induction p generalizing env with
  | done b =>
      obtain ⟨rfl, rfl⟩ := Prod.mk.inj (Except.ok.inj h)
      exact ⟨[], rfl, rfl⟩
  | fails e => cases h
  | ask q next ih =>
      rw [Program.run] at h
      rw [Program.asked, Program.transcript]
      cases hanswer : answer functionName constantName opts inst q env with
      | error e =>
          rw [hanswer] at h
          cases h
      | ok r =>
          obtain ⟨value, env₁⟩ := r
          rw [hanswer] at h
          obtain ⟨given, hgiven, hvalues⟩ := ih value h
          cases q with
          | getName f r =>
              obtain ⟨-, rfl⟩ := Prod.mk.inj (Except.ok.inj hanswer)
              exact ⟨given, hgiven, hvalues⟩
          | choice q =>
              rw [answer] at hanswer
              cases hname : q.subject.name (functionName q.function) constantName
                  (env.symbols q.function) with
              | error e =>
                  rw [hname] at hanswer
                  cases hanswer
              | ok r =>
                  obtain ⟨name, table⟩ := r
                  rw [hname] at hanswer
                  cases hchoice : env.annotator.getOptimisticChoice opts inst
                      (q.query functionName name) with
                  | mk annotator first =>
                      simp only [Except.bind_eq_ok_iff, Except.ok.injEq, exists_eq_left', hchoice]
                        at hanswer
                      obtain ⟨rfl, rfl⟩ := Prod.mk.inj (Except.ok.inj hanswer)
                      refine ⟨first :: given, ?_, congrArg (List.cons _) hvalues⟩
                      simp only [List.map_cons, queries, hname, answerAll, hchoice]
                      rw [← Program.asked, hgiven]

end Runs

/-! ### The functions that are looked at -/

namespace IRModule

variable {Fn : Type} [DecidableEq Fn] (M : IRModule Fn) (annotatable : Fn → Bool)

/-- `FunctionDeclOnly`. -/
def declOnly (f : Fn) : Bool :=
  !annotatable f && M.functions.any fun g => annotatable g && f ∈ M.calledFunctions g

theorem nodup_number {functions : List Fn} (h : functions.Nodup) (f : Fn) :
    (number functions f).Nodup :=
  @nodup_foldl_number _ _ [f] _ h

theorem nodup_numberFunctions : (M.numberFunctions annotatable).functions.Nodup := by
  have hstep (fs : List Fn) : ∀ st : LoadState Fn, st.functions.Nodup →
      (fs.foldl (M.numberFunction annotatable) st).functions.Nodup := by
    induction fs with
    | nil => exact fun _ h => h
    | cons f fs ih =>
        intro st h
        apply ih
        rw [numberFunction]
        split
        · exact nodup_foldl_number (nodup_number h f)
        · exact h
  exact hstep M.functions _ List.nodup_nil

/-- The control string is no matter for the functions that are looked at. -/
theorem exists_loop_of_load {controlStr : List CChar} {loaded : LoadState Fn}
    (h : M.load annotatable controlStr = .ok loaded) :
    ∃ r, BreakLoop.loop (M.loadFunction 0) (M.numberFunctions annotatable) M.functions = .ok r ∧
      loaded.functions = r.value.functions := by
  rw [load, initializeChoiceMaps] at h
  split at h
  · cases h
  · rename_i st hloop
    obtain rfl := Except.ok.inj h
    exact ⟨_, hloop, rfl⟩
  · rename_i st hloop
    rw [if_neg (Nat.lt_irrefl 0)] at h
    split at h
    · cases h
    · obtain rfl := Except.ok.inj h
      exact ⟨_, hloop, rfl⟩

theorem functions_of_load {controlStr controlStr' : List CChar} {loaded loaded' : LoadState Fn}
    (h : M.load annotatable controlStr = .ok loaded)
    (h' : M.load annotatable controlStr' = .ok loaded') : loaded'.functions = loaded.functions := by
  obtain ⟨r, hloop, hr⟩ := M.exists_loop_of_load annotatable h
  obtain ⟨r', hloop', hr'⟩ := M.exists_loop_of_load annotatable h'
  obtain rfl := Except.ok.inj (hloop.symm.trans hloop')
  rw [hr, hr']

theorem nodup_loadFunction {f : Fn} {st : LoadState Fn} {r : ForInStep (LoadState Fn)}
    (hnodup : st.functions.Nodup) (h : M.loadFunction 0 st f = .ok r) :
    r.value.functions.Nodup := by
  unfold loadFunction at h
  split at h
  · obtain rfl := Except.ok.inj h
    exact hnodup
  · split at h
    · obtain rfl := Except.ok.inj h
      exact hnodup
    · obtain rfl := Except.ok.inj h
      exact hnodup
    · cases h
    · dsimp only at h
      rw [if_neg (Nat.lt_irrefl 0)] at h
      split at h
      · obtain rfl := Except.ok.inj h
        exact nodup_number hnodup f
      · split at h
        · cases h
        · obtain rfl := Except.ok.inj h
          exact nodup_number hnodup f

theorem nodup_load {controlStr : List CChar} {loaded : LoadState Fn}
    (h : M.load annotatable controlStr = .ok loaded) : loaded.functions.Nodup := by
  obtain ⟨r, hloop, hr⟩ := M.exists_loop_of_load annotatable h
  rw [hr]
  exact BreakLoop.loop_invariant (fun st => st.functions.Nodup)
    (fun f _ st r hnodup => M.nodup_loadFunction hnodup) (M.nodup_numberFunctions annotatable) hloop

end IRModule

/-! ### The first instance -/

section FirstInstance

variable {Fn Ty Const Op Loop : Type} [DecidableEq Fn] [DecidableEq Ty] [DecidableEq Const]
variable [DecidableEq Loop]

/-- A module as the first instance finds it. -/
structure Input (Fn Ty Const Op Loop : Type) where
  irModule : IRModule Fn
  passInfo : PassInfo Fn Ty Const Op Loop
  /-- `shouldAnnotateFunction`. -/
  annotatable : Fn → Bool
  symbols : Fn → SymbolTable
  states : Fn → FunctionState Fn Ty Const Op
  numbered : ∀ f, (states f).Numbered
  /-- `verifyModule`: the module is broken. -/
  verifyModule : (Fn → FunctionState Fn Ty Const Op) → Bool

namespace Input

variable (I : Input Fn Ty Const Op Loop) (opts : Options) (controlStr : List CChar)

/-- All passes over the functions that are looked at. -/
def passes (functions : List Fn) : Pass Fn Const (ModuleState Fn Ty Const Op) :=
  Passes.runPasses I.passInfo 0 (I.irModule.declOnly I.annotatable) functions I.states

/-- The names and the tables that the passes begin with. -/
def environment (loaded : LoadState Fn) : Environment Fn := ⟨I.symbols, loaded.annotator⟩

/-- `getOptimisticChoice` in the first instance. -/
def answer : (q : PassQuestion Fn Const) → Environment Fn →
    Except Fault (PassAnswer q × Environment Fn) :=
  Petospa.answer I.passInfo.functionName I.passInfo.constantName opts 0

/-- `runOnModule` of an instance that annotates, up to the verification at its end. -/
def annotateModule : Except Fault (ModuleState Fn Ty Const Op × Environment Fn) := do
  let loaded ← I.irModule.load I.annotatable controlStr
  (I.passes loaded.functions).run (I.answer opts) (I.environment loaded)

def runOnModule : Except Fault (ModuleState Fn Ty Const Op × Environment Fn) := do
  let r ← I.annotateModule opts controlStr
  if I.verifyModule r.1.functions then throw .unreachable
  return r

/-- The queries that are made. -/
def queries : List (Query Fn) :=
  match I.irModule.load I.annotatable controlStr with
  | .error _ => []
  | .ok loaded =>
      Petospa.queries I.passInfo.functionName I.passInfo.constantName
        ((I.passes loaded.functions).asked (I.answer opts) (I.environment loaded)) I.symbols

variable {I opts controlStr}

theorem runOnModule_eq_ok {r : ModuleState Fn Ty Const Op × Environment Fn} :
    I.runOnModule opts controlStr = .ok r ↔
      I.annotateModule opts controlStr = .ok r ∧ I.verifyModule r.1.functions = false := by
  rw [runOnModule, Except.bind_eq_ok_iff]
  constructor
  · rintro ⟨r', hr', hverified⟩
    split at hverified
    · cases hverified
    · rename_i hbroken
      obtain rfl := Except.ok.inj hverified
      exact ⟨hr', Bool.eq_false_of_not_eq_true hbroken⟩
  · rintro ⟨hr, hverified⟩
    exact ⟨r, hr, by rw [if_neg (Bool.eq_false_iff.mp hverified)]; rfl⟩

variable (I) in
/-- Branches are looked at in the same way whatever the annotations are. -/
def LooksThroughAnnotations : Prop :=
  ∀ f, Passes.LooksThroughAnnotations I.passInfo f (I.states f).code

variable (I) in
omit [DecidableEq Ty] [DecidableEq Const] [DecidableEq Loop] in
/-- Annotators that are asked the same questions give values the same names. -/
theorem answer_agrees (opts opts' : Options) (q : PassQuestion Fn Const) (env env' : Environment Fn)
    (hsymbols : env.symbols = env'.symbols) (a : PassAnswer q) (t : Environment Fn)
    (a' : PassAnswer q) (t' : Environment Fn) (h : I.answer opts q env = .ok (a, t))
    (h' : I.answer opts' q env' = .ok (a', t')) :
    NamesAgree q a a' ∧ t.symbols = t'.symbols := by
  cases q with
  | getName f r =>
      obtain ⟨rfl, rfl⟩ := Prod.mk.inj (Except.ok.inj h)
      obtain ⟨rfl, rfl⟩ := Prod.mk.inj (Except.ok.inj h')
      have hname : (env.symbols f).getName r = (env'.symbols f).getName r := by rw [hsymbols]
      exact ⟨hname, hsymbols⟩
  | choice q =>
      refine ⟨trivial, ?_⟩
      simp only [answer, Petospa.answer, Except.bind_eq_ok_iff] at h h'
      obtain ⟨⟨name, table⟩, hname, h⟩ := h
      obtain ⟨⟨name', table'⟩, hname', h'⟩ := h'
      rw [← hsymbols] at hname'
      obtain ⟨rfl, rfl⟩ := Prod.mk.inj (Except.ok.inj (hname.symm.trans hname'))
      obtain ⟨-, rfl⟩ := Prod.mk.inj (Except.ok.inj h)
      obtain ⟨-, rfl⟩ := Prod.mk.inj (Except.ok.inj h')
      dsimp only
      rw [hsymbols]

/-- Two runs of the first instance that load. -/
theorem runs_of_load (hlooks : I.LooksThroughAnnotations) (opts opts' : Options)
    {controlStr controlStr' : List CChar} {loaded loaded' : LoadState Fn}
    (h : I.irModule.load I.annotatable controlStr = .ok loaded)
    (h' : I.irModule.load I.annotatable controlStr' = .ok loaded') :
    let asked (opts : Options) (loaded : LoadState Fn) :=
      (I.passes loaded.functions).asked (I.answer opts) (I.environment loaded)
    (asked opts loaded <+: asked opts' loaded' ∨ asked opts' loaded' <+: asked opts loaded) ∧
      ∀ r r', I.annotateModule opts controlStr = .ok r →
        I.annotateModule opts' controlStr' = .ok r' →
        asked opts loaded = asked opts' loaded' ∧ r.2.symbols = r'.2.symbols := by
  have hfunctions := I.irModule.functions_of_load I.annotatable h h'
  have hlockstep : Program.Lockstep NamesAgree (fun _ _ => True) (I.passes loaded.functions)
      (I.passes loaded.functions) :=
    (Passes.lockstep_runPasses (I.irModule.declOnly I.annotatable)
      (I.irModule.nodup_load I.annotatable h) hlooks I.numbered).mono fun _ _ _ => trivial
  have hsymbols : (I.environment loaded).symbols = (I.environment loaded').symbols := rfl
  have hruns := hlockstep.runs (S := fun env env' => env.symbols = env'.symbols)
    (fun q env env' hsymbols a t a' t' => I.answer_agrees opts opts' q env env' hsymbols a t a' t')
    hsymbols
  dsimp only
  rw [hfunctions]
  refine ⟨hruns.1, fun r r' hr hr' => ?_⟩
  rw [annotateModule, h] at hr
  rw [annotateModule, h', Except.bind_eq_ok_iff] at hr'
  obtain ⟨_, hloaded, hr'⟩ := hr'
  obtain rfl := Except.ok.inj hloaded
  rw [hfunctions] at hr'
  obtain ⟨-, hsymbols, hasked⟩ := hruns.2 _ _ _ _ hr hr'
  exact ⟨hasked, hsymbols⟩

/-- What the first instance asks does not depend on the options, the control string or
the answers: one compiler run makes a prefix of the queries of the other one, and both
make the same ones if they come to their end. -/
theorem queries_independent (hlooks : I.LooksThroughAnnotations)
    (opts opts' : Options)
    (controlStr controlStr' : List CChar) :
    (I.queries opts controlStr <+: I.queries opts' controlStr' ∨
        I.queries opts' controlStr' <+: I.queries opts controlStr) ∧
      ∀ r r', I.annotateModule opts controlStr = .ok r →
        I.annotateModule opts' controlStr' = .ok r' →
        I.queries opts controlStr = I.queries opts' controlStr' ∧ r.2.symbols = r'.2.symbols := by
  unfold queries
  cases h : I.irModule.load I.annotatable controlStr with
  | error e =>
      refine ⟨.inl List.nil_prefix, fun r r' hr _ => ?_⟩
      rw [annotateModule, h] at hr
      cases hr
  | ok loaded =>
      cases h' : I.irModule.load I.annotatable controlStr' with
      | error e =>
          refine ⟨.inr List.nil_prefix, fun r r' _ hr' => ?_⟩
          rw [annotateModule, h'] at hr'
          cases hr'
      | ok loaded' =>
          obtain ⟨hbegins, hends⟩ := runs_of_load hlooks opts opts' h h'
          refine ⟨hbegins.imp (queries_isPrefix _ _ · _) (queries_isPrefix _ _ · _), ?_⟩
          intro r r' hr hr'
          obtain ⟨hasked, hsymbols⟩ := hends r r' hr hr'
          exact ⟨by simp only [hasked], hsymbols⟩

end Input

end FirstInstance

theorem canBitCast_self (ty : Bool) : decide (ty = ty) = true := decide_eq_true rfl

/-- Pointers and integers. -/
def sampleTypes : TypeInfo Bool where
  isPointerTy := id
  isIntegerTy := not
  getPointerElementType := fun _ => false
  isSized := fun _ => true
  getTypeAllocSize := fun _ => 8
  getPointerSize := 8
  canLosslesslyBitCastTo := fun a b => a = b
  bitCast_self := canBitCast_self

/-- A function without loops. -/
def noLoops : LoopInfo Empty Nat Nat where
  topLevel := []
  depthFirst := nofun
  subLoops := nofun
  getParentLoop := nofun
  getLoopDepth := nofun
  getHeader := nofun
  blocks := nofun
  getLoopFor _ := none
  successors _ := []
  predecessors _ := []
  accesses _ := []
  depth_topLevel := nofun
  depth_parent := nofun
  mem_subLoops := nofun
  mem_depthFirst := nofun
  exists_topLevel := nofun
  mem_blocks := nofun
  mem_predecessors := by simp
  exists_latch := nofun
  block_unique := by simp

/-- `GetUnderlyingObject` of code without casts and selects. -/
def stripAddresses {Fn Ty Const Op : Type} (code : Code Fn Ty Const Op) :
    Nat → ValueRef Const → ValueRef Const
  | maxLookup + 1, .local (.instruction id) =>
      match (code.instruction? id).map Instruction.opcode with
      | some (.getElementPtr _ pointer _) => stripAddresses code maxLookup pointer
      | _ => .local (.instruction id)
  | _, v => v

theorem stripAddresses_plain {Fn Ty Const Op : Type} (code : Code Fn Ty Const Op)
    (maxLookup : Nat) (v : ValueRef Const) :
    stripAddresses code.plain maxLookup v = stripAddresses code maxLookup v := by
  fun_induction stripAddresses code maxLookup v with
  | case1 maxLookup id isInBounds pointer indices hopcode ih =>
      obtain ⟨⟨id', ty, opcode⟩, hfind, rfl⟩ := Option.map_eq_some_iff.mp hopcode
      rw [stripAddresses, Code.instruction?_plain, hfind]
      exact ih
  | case2 maxLookup id hopcode =>
      rw [stripAddresses, Code.instruction?_plain]
      cases hfind : code.instruction? id with
      | none => rfl
      | some i =>
          obtain ⟨id', ty, opcode⟩ := i
          rw [hfind] at hopcode
          cases opcode with
          | getElementPtr isInBounds pointer indices => exact absurd rfl (hopcode _ _ _)
          | _ => rfl
  | case3 maxLookup v hv =>
      unfold stripAddresses
      split
      · exact absurd rfl (hv _ _ rfl)
      · rfl

/-- Constants are numbers, and nothing is cast. -/
def sampleInfo : PassInfo Nat Bool Nat Empty Empty where
  types := sampleTypes
  isFloatTy _ := false
  getScalarSizeInBits _ := 0
  int1Ty := false
  int64Ty := false
  voidTy := false
  constantType _ := false
  constantName _ := []
  getCast _ c _ := c
  functionName _ := lit "f"
  assumeIntrinsic := 1
  loopInfo _ := noLoops
  order _ := ⟨fun _ _ ls => ls, fun _ _ _ => .refl _⟩
  stripPointerCasts _ v := v
  getUnderlyingObject _ code := stripAddresses code 6

/-- A load through an address computation, and a branch on what is loaded. -/
def sampleCode : Code Nat Bool Nat Empty :=
  [⟨0, [⟨0, true, .getElementPtr false (.local (.argument 0)) []⟩,
    ⟨1, false, .load ⟨.local (.instruction 0), true, 3, false, none, none⟩⟩,
    ⟨2, false, .icmp .eq (.local (.instruction 1)) (.constant 5)⟩],
    .condBr (.local (.instruction 2)) 1 1⟩, ⟨1, [], .ret none⟩]

/-- A pointer is handed over. -/
def sampleFunction : FunctionState Nat Bool Nat Empty where
  function := ⟨⟨lit "f", [⟨true, 1⟩], false, 0, false, false, false⟩, false, fun _ => []⟩
  code := sampleCode
  nextId := 3
  loops := ⟨⟨[]⟩, fun _ => none, fun _ => none⟩

theorem numbered_sample : sampleFunction.Numbered where
  id_lt := by simp [sampleFunction, sampleCode, Code.instructions]
  operands := by
    constructor <;>
      simp [sampleFunction, sampleCode, Opcode.operands, ValueRef.IsBelow, Terminator.operands]

/-- One function without a name for anything in it. -/
def sample : Input Nat Bool Nat Empty Empty where
  irModule :=
    { functions := [0]
      getName _ := lit "f"
      isIntrinsic _ := false
      hasInternalLinkage _ := false
      isDeclaration _ := false
      getNumUses _ := 0
      calledFunctions _ := []
      getGlobalVariable _ := none
      nodup := by decide }
  passInfo := sampleInfo
  annotatable _ := true
  symbols _ := ⟨.empty, 0, by decide⟩
  states _ := sampleFunction
  numbered _ := numbered_sample
  verifyModule states := !verifyFunctionAttrs sampleTypes (states 0).function

namespace Input

theorem looksThroughAnnotations_sample : sample.LooksThroughAnnotations := by
  intro f code hplain i hi l hl
  refine Eq.trans ?_ (stripAddresses_plain code 6 l.pointer)
  rw [hplain]
  rfl

/-- All choices are taken by default, or two of them are made by a control string. -/
theorem queries_independent_sample :
    sample.queries ⟨true, -1, false⟩ [] =
      sample.queries ⟨false, -1, false⟩ ((fsencode (lit "#f0f#c11#c60")).getD []) := by
  obtain ⟨r, hr⟩ : ∃ r, sample.annotateModule ⟨true, -1, false⟩ [] = .ok r := ⟨_, rfl⟩
  obtain ⟨r', hr'⟩ : ∃ r, sample.annotateModule ⟨false, -1, false⟩
      ((fsencode (lit "#f0f#c11#c60")).getD []) = .ok r := ⟨_, rfl⟩
  exact ((queries_independent looksThroughAnnotations_sample _ _ _ _).2
    r r' hr hr').1

section

variable {Fn Ty Const Op Loop : Type} [DecidableEq Fn] [DecidableEq Ty] [DecidableEq Const]
variable [DecidableEq Loop] {I : Input Fn Ty Const Op Loop} {opts : Options}

variable (I opts) in
/-- The values that are answered. -/
def values (controlStr : List CChar) : List Nat :=
  match I.irModule.load I.annotatable controlStr with
  | .error _ => []
  | .ok loaded =>
      chosenValues ((I.passes loaded.functions).transcript (I.answer opts) (I.environment loaded))

variable (I opts) in
/-- What the first instance finds and asks. -/
def stage (controlStr : List CChar) : Stage Fn :=
  ⟨I.irModule.functions, I.annotatable, I.irModule.unused, I.queries opts controlStr⟩

/-- A run of the passes is a run of its stage. -/
theorem annotateModule_stage {annotations : Str → Option Str}
    (hshows : I.irModule.Shows annotations)
    (hannotates : opts.annotates 0 = true) {controlString : Str} {controlStr : List CChar}
    (hcontrol : fsencode controlString = some controlStr)
    {r : ModuleState Fn Ty Const Op × Environment Fn}
    (hr : I.annotateModule opts controlStr = .ok r) :
    ∃ given, Petospa.runOnModule I.irModule.getName annotations opts controlString 0
        (I.stage opts controlStr) (.initial .empty) = .ok (r.2.annotator, given) ∧
      given.map Answer.value = I.values opts controlStr := by
  rw [annotateModule, Except.bind_eq_ok_iff] at hr
  obtain ⟨loaded, hloaded, hr⟩ := hr
  obtain ⟨given, hgiven, hvalues⟩ := answerAll_of_run hr
  refine ⟨given, ?_, by rwa [values, hloaded]⟩
  have hnumbers : (I.irModule.numberFunctions I.annotatable).annotator =
      (I.irModule.functions.filter I.annotatable).foldl Annotator.see (.initial .empty) :=
    (IRModule.foldl_numberFunction I.irModule I.annotatable I.irModule.functions _).1
  have hload := IRModule.initializeChoiceMaps_eq hshows hcontrol 0 I.annotatable
    (I.queries opts controlStr) (I.irModule.numberFunctions I.annotatable)
  rw [IRModule.load] at hloaded
  rw [hloaded, hnumbers] at hload
  rw [Petospa.runOnModule, if_pos hannotates]
  dsimp only [stage]
  rw [← hload]
  have hqueries : I.queries opts controlStr = Petospa.queries I.passInfo.functionName
      I.passInfo.constantName
      ((I.passes loaded.functions).asked (I.answer opts) (I.environment loaded)) I.symbols := by
    rw [queries, IRModule.load, hloaded]
  rw [hqueries]
  exact congrArg Except.ok hgiven

/-- One stage stands for the first instance of all compiler runs of a module. -/
theorem exists_stage (hlooks : I.LooksThroughAnnotations)
    {annotations : Str → Option Str}
    (hshows : I.irModule.Shows annotations) :
    ∃ queries, ∀ opts controlString controlStr r, opts.annotates 0 = true →
      fsencode controlString = some controlStr → I.annotateModule opts controlStr = .ok r →
      ∃ given, Petospa.runOnModule I.irModule.getName annotations opts controlString 0
          ⟨I.irModule.functions, I.annotatable, I.irModule.unused, queries⟩ (.initial .empty) =
          .ok (r.2.annotator, given) ∧
        given.map Answer.value = I.values opts controlStr := by
  by_cases hend : ∃ opts controlStr r, I.annotateModule opts controlStr = .ok r
  · obtain ⟨opts₀, controlStr₀, r₀, hr₀⟩ := hend
    refine ⟨I.queries opts₀ controlStr₀,
      fun opts controlString controlStr r hannotates hcontrol hr => ?_⟩
    obtain ⟨hqueries, -⟩ :=
      (queries_independent hlooks opts₀ opts controlStr₀ controlStr).2 r₀ r hr₀ hr
    rw [hqueries]
    exact annotateModule_stage hshows hannotates hcontrol hr
  · refine ⟨[], fun opts _ controlStr r _ _ hr => ?_⟩
    exact absurd ⟨opts, controlStr, r, hr⟩ hend

end

theorem exists_stage_sample : ∃ queries r given,
    sample.annotateModule ⟨false, -1, false⟩ [] = .ok r ∧
      Petospa.runOnModule sample.irModule.getName (fun _ => none) ⟨false, -1, false⟩ [] 0
        ⟨sample.irModule.functions, sample.annotatable, sample.irModule.unused, queries⟩
        (.initial .empty) = .ok (r.2.annotator, given) ∧
      given.map Answer.value = [0, 0, 0, 0, 0, 0, 0, 0] := by
  have hshows : sample.irModule.Shows fun _ => none := fun _ => rfl
  obtain ⟨queries, hstage⟩ :=
    exists_stage looksThroughAnnotations_sample hshows
  obtain ⟨r, hr⟩ : ∃ r, sample.annotateModule ⟨false, -1, false⟩ [] = .ok r := ⟨_, rfl⟩
  obtain ⟨given, hgiven, hvalues⟩ := hstage ⟨false, -1, false⟩ [] [] r (by decide) rfl hr
  exact ⟨queries, r, given, hr, hgiven, hvalues.trans rfl⟩

end Input

end Petospa

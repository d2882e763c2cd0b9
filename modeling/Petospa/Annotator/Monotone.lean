import Petospa.Annotator.ComparedRuns
import Petospa.Annotator.NonOptimistic
import Petospa.Annotator.RunAttributes

/-!
# Higher choices allow less

With higher choices the passes make code that promises and assumes at least as much. Every
execution of that code is an execution of the code with lower choices.
-/

namespace Petospa

open Text Interaction Simulation

namespace Machine

variable {Fn Ty Const Op Loop : Type} {M : Machine Fn Const Op}
variable {P : PassInfo Fn Ty Const Op Loop} {base fn fn' : FunctionState Fn Ty Const Op}

/-- What is dereferenceable for some bytes is so for fewer. -/
def DereferenceableMono (M : Machine Fn Const Op) : Prop :=
  ∀ mem bytes bytes' v, bytes ≤ bytes' → M.isDereferenceable mem bytes' v →
    M.isDereferenceable mem bytes v

theorem operands_of_strengthens {opcode opcode' : Opcode Fn Const Op}
    (h : opcode.Strengthens opcode') : opcode'.operands = opcode.operands := by
  cases h with
  | same => rfl
  | load hl => simp only [Opcode.operands, hl.pointer]
  | store hs => simp only [Opcode.operands, hs.pointer, hs.value]
  | getElementPtr => rfl
  | overflowing => rfl

/-- Accesses without a stated alignment have had none. -/
theorem alignmentData_of_strengthens {opcode opcode' : Opcode Fn Const Op}
    (h : opcode.Strengthens opcode') (hzero : opcode'.alignmentData? = some 0) :
    opcode.alignmentData? = some 0 := by
  have hdata {data data' : Nat} (hmore : AlignsMore data data') (hzero : some data' = some 0) :
      some data = some 0 := by
    obtain rfl := Option.some.inj hzero
    obtain hsame | ⟨-, hlt⟩ := hmore
    · rw [hsame]
    · exact absurd hlt (Nat.not_lt_zero _)
  cases h with
  | same => exact hzero
  | load hl => exact hdata hl.alignmentData hzero
  | store hs => exact hdata hs.alignmentData hzero
  | getElementPtr => cases hzero
  | overflowing => cases hzero

/-- Higher choices allow less. -/
theorem allows_of_atMost (hmono : M.DereferenceableMono) {id : Nat}
    {opcode opcode' : Opcode Fn Const Op} (h : opcode.AtMost opcode')
    (habi : opcode.alignmentData? = some 0 → M.abiAlignment id ∣ 8) :
    M.Allows id opcode opcode' := by
  cases h with
  | same => exact .same _
  | load hl =>
      refine .load hl.pointer fun x v mem hpromises => ⟨?_, ?_, fun bytes hbytes => ?_,
        fun bytes hbytes => ?_⟩
      · exact .of_alignsMore (fun hdata => habi (congrArg some hdata)) hl.alignmentData
          hpromises.aligned
      · exact fun h => hpromises.invariant (hl.invariantLoad h)
      · obtain ⟨bytes', hbytes', hle⟩ := hl.dereferenceable bytes hbytes
        exact hmono mem bytes bytes' v hle (hpromises.dereferenceable bytes' hbytes')
      · obtain ⟨bytes', hbytes', hdvd⟩ := hl.align bytes hbytes
        exact hdvd.trans (hpromises.align bytes' hbytes')
  | store hs =>
      refine .store hs.value hs.pointer fun x haligned => haligned.of_alignsMore ?_ hs.alignmentData
      exact fun hdata => habi (congrArg some hdata)
  | getElementPtr h pointer indices => exact .getElementPtr h pointer indices
  | overflowing hnsw hnuw op lhs rhs => exact .overflowing hnsw hnuw op lhs rhs

/-! ### Assumptions -/

variable {prev n : Nat}

theorem isAssumption_of_mem_assuming {id : Nat} {r : LocalRef} {c : Const}
    {i : Instruction Fn Ty Const Op} (h : i ∈ assuming P id r c) : IsAssumption P i := by
  simp only [assuming, List.mem_cons, List.not_mem_nil, or_false] at h
  obtain rfl | rfl := h
  · exact .comparison id r c
  · exact .assume id

/-- Assumptions of the second code change nothing that the first one knows. -/
theorem lessDefined_of_assumptions {is : List (Instruction Fn Ty Const Op)}
    (his : ∀ i ∈ is, IsAssumption P i ∧ n ≤ i.id) {s s' t' : M.State} (hs : s'.LessDefined n s)
    (hexec : Sequence (M.Executes P.assumeIntrinsic prev) is s' t') : t'.LessDefined n s := by
  induction hexec with
  | nil => exact hs
  | cons head _ ih =>
      obtain ⟨⟨hi, hid⟩, his⟩ := List.forall_mem_cons.mp his
      exact ih his (lessDefined_of_isAssumption hi hid hs head)

/-- What holds in the second code where both assume it, holds in the first one. -/
theorem exists_executes_assuming {id id' : Nat} (hid : n ≤ id) (hid' : n ≤ id') {r : LocalRef}
    (hr : (ValueRef.local r : ValueRef Const).IsBelow n) (c : Const) {s s' t' : M.State}
    (hs : s'.LessDefined n s)
    (hexec : Sequence (M.Executes P.assumeIntrinsic prev) (assuming P id' r c) s' t') :
    ∃ t, Sequence (M.Executes P.assumeIntrinsic prev) (assuming P id r c) s t ∧
      t'.LessDefined n t := by
  have hwrite (s : M.State) (id : Nat) (v : Option M.Val) :
      (s.write id v).eval (.local (.instruction id)) = v := Function.update_self ..
  cases hexec with
  | cons hcompare htail =>
      cases htail with
      | cons hassume hnil =>
          cases hnil
          -- the comparison is no poison, as the assumption holds
          obtain ⟨x, y, hleft, hright, hholds, rfl⟩ : ∃ x y, s'.eval (.local r) = some x ∧
              s'.eval (.constant c) = some y ∧ M.isTrue (M.compare .eq x y) ∧
              t' = s'.write id' (some (M.compare .eq x y)) := by
            cases hassume with
            | assume hvalue hholds =>
                cases hcompare with
                | icmp hleft hright =>
                    rw [hwrite] at hvalue
                    obtain rfl := Option.some.inj hvalue
                    exact ⟨_, _, hleft, hright, hholds, rfl⟩
                | poison hpure hv hdepends =>
                    rw [hwrite] at hvalue
                    cases hvalue
            | call hcalled hne hreads hcalls => exact absurd hcalled hne
            | poison hpure hv hdepends => cases hpure
          refine ⟨s.write id (some (M.compare .eq x y)), ?_, ?_⟩
          · refine .cons (.icmp (hs.eval _ hr x hleft) (hs.eval (.constant c) trivial y hright)) ?_
            exact .cons (.assume (hwrite _ _ _) hholds) (.nil _)
          · refine ⟨hs.mem, fun v hv z hz => ?_⟩
            have hz' := (hs.write_left hid' _).eval v hv z hz
            cases v with
            | constant c => exact hz'
            | «local» r' =>
                have hne : r' ≠ .instruction id := by
                  rintro rfl
                  exact absurd hv (Nat.not_lt.mpr hid)
                simp only [State.eval, State.write, Function.update_of_ne hne]
                exact hz'

/-! ### Blocks and functions -/

open Passes

/-- A part of the second code simulates its counterpart. -/
theorem exists_executes_of_part {todo : OptimisticChoiceKind → Prop}
    (hoperands : base.code.OperandsBelow base.nextId) (habi : M.AbiAligned base.code)
    (hmono : M.DereferenceableMono) {is is' : List (Instruction Fn Ty Const Op)}
    {s s' t' : M.State} (hpart : Part P base.nextId (Instruction.Compared base.code todo) is is')
    (hs : s'.LessDefined base.nextId s)
    (hexec : Sequence (M.Executes P.assumeIntrinsic prev) is' s' t') :
    ∃ t, Sequence (M.Executes P.assumeIntrinsic prev) is s t ∧ t'.LessDefined base.nextId t := by
  cases hpart with
  | @old i i' hid hi =>
      obtain ⟨i₀, hi₀, hstrengthens⟩ := hi.origin
      obtain ⟨b₀, hb₀, hi₀'⟩ := List.mem_flatMap.mp hi₀
      cases hexec with
      | cons head tail =>
          cases tail
          have hbelow := hoperands.instruction b₀ hb₀ i₀ hi₀'
          rw [← operands_of_strengthens hstrengthens.opcode] at hbelow
          have habi' (hzero : i.opcode.alignmentData? = some 0) : M.abiAlignment i.id ∣ 8 := by
            rw [hstrengthens.id]
            exact habi i₀ hi₀ (alignmentData_of_strengthens hstrengthens.opcode hzero)
          obtain ⟨t, hexec, ht⟩ := exists_executes_of_allows hi.atMost.id hi.atMost.type
            (allows_of_atMost hmono hi.atMost.opcode habi') hbelow hs head
          exact ⟨t, .cons hexec (.nil t), ht⟩
  | further id' r c hid' =>
      refine ⟨s, .nil s, lessDefined_of_assumptions (fun i hi => ?_) hs hexec⟩
      exact ⟨isAssumption_of_mem_assuming hi, hid'.trans (le_id_of_mem_assuming hi)⟩
  | kept id id' r c hid hid' hr => exact exists_executes_assuming hid hid' hr c hs hexec

theorem exists_runs_of_compared {todo : OptimisticChoiceKind → Prop}
    (h : Compared P todo base fn fn')
    (hoperands : base.code.OperandsBelow base.nextId) (habi : M.AbiAligned base.code)
    (hmono : M.DereferenceableMono) {p p' : M.Point} (hp : p'.LessDefined base.nextId p)
    {exit : Exit M.Val} {s' : M.State} {mem : M.Mem}
    (hruns : Runs P.assumeIntrinsic fn'.code p' exit s' mem) :
    ∃ s, Runs P.assumeIntrinsic fn.code p exit s mem ∧ s'.LessDefined base.nextId s := by
  obtain ⟨b', hfind, hexec, hleaves⟩ := hruns
  rw [hp.block] at hfind
  obtain ⟨b, hb, hno, hterminator, his⟩ :=
    h.code.exists_of_find?_eq_some (p := fun b => b.no = p.block)
      (fun b b' hb => by rw [hb.1]) hfind
  have hmem := List.mem_of_find?_eq_some hb
  rw [hp.prev] at hexec
  obtain ⟨s, hexec', hs⟩ := Sequence.segments his
    (fun _ _ _ _ _ => exists_executes_of_part hoperands habi hmono) hp.state hexec
  refine ⟨s, ⟨b, hb, hexec', ?_⟩, hs⟩
  rw [hno, hterminator] at hleaves
  -- the terminators have not changed
  obtain ⟨b₀, hb₀, hblock⟩ := h.annotated.old.exists_of_mem_right (List.mem_map_of_mem hmem)
  have hterminator₀ : b.terminator = b₀.terminator := hblock.2.1
  refine hleaves.of_lessDefined ?_ hs
  rw [hterminator₀]
  exact hoperands.terminator b₀ hb₀

/-- Every step with higher choices is a step with lower ones. -/
theorem simulates_steps_of_compared {todo : OptimisticChoiceKind → Prop}
    (h : Compared P todo base fn fn') (hoperands : base.code.OperandsBelow base.nextId)
    (habi : M.AbiAligned base.code) (hmono : M.DereferenceableMono) :
    Simulates (Point.LessDefined base.nextId) (Steps (M := M) P.assumeIntrinsic fn'.code)
      (Steps P.assumeIntrinsic fn.code) := by
  rintro p' p ⟨prev, block, state⟩ hp ⟨s', mem, hruns, hprev, hstate⟩
  obtain ⟨s, hruns', hs⟩ := exists_runs_of_compared h hoperands habi hmono hp hruns
  refine ⟨⟨p.block, block, s.withMem mem⟩, ⟨s, mem, hruns', rfl, rfl⟩, ?_, rfl, ?_⟩
  · exact hprev.trans hp.block
  · dsimp only at hstate ⊢
    rw [hstate]
    exact hs.withMem mem

end Machine

namespace Input

open Machine Passes PassQuestion

variable {Fn Ty Const Op Loop : Type} [DecidableEq Fn] [DecidableEq Ty] [DecidableEq Const]
variable [DecidableEq Loop] {I : Input Fn Ty Const Op Loop} {opts opts' : Options}
variable {controlStr controlStr' : List CChar}

/-- Two runs of the first instance, the second one with choices that are at least as high. -/
theorem compared_annotateModule (hlooks : I.LooksThroughAnnotations)
    (hfits : ∀ f, (I.states f).LoadsFit I.passInfo)
    {r r' : ModuleState Fn Ty Const Op × Environment Fn}
    (hr : I.annotateModule opts controlStr = .ok r)
    (hr' : I.annotateModule opts' controlStr' = .ok r')
    (hatMost : ∀ q (choice choice' : Nat), (⟨.choice q, choice⟩, ⟨.choice q, choice'⟩) ∈
      (I.transcript opts controlStr).zip (I.transcript opts' controlStr') →
      q.kind.isAboutAttributes = false → q.AtMost choice choice')
    (f : Fn) : Compared I.passInfo (fun _ => False) (I.states f) (r.1.functions f)
      (r'.1.functions f) := by
  obtain ⟨loaded, hload, -⟩ := Except.bind_eq_ok_iff.mp hr
  obtain ⟨loaded', hload', -⟩ := Except.bind_eq_ok_iff.mp hr'
  have hfunctions := I.irModule.functions_of_load I.annotatable hload hload'
  have hnodup := I.irModule.nodup_load I.annotatable hload
  have hends := ends_of_annotateModule hload hr
  have hends' := ends_of_annotateModule hload' hr'
  rw [hfunctions] at hends'
  have hlockstep : Program.Lockstep AnswersAtMost
      (ComparedStates I.passInfo (fun _ _ => False) I.states) (I.passes loaded.functions)
      (I.passes loaded.functions) :=
    lockstep_runPasses_compared hlooks (fun f => ⟨I.numbered f, hfits f⟩)
      (I.irModule.declOnly I.annotatable) hnodup
  refine ((hlockstep.ends hends hends' fun q x x' hmem => ?_).functions f).1
  cases q with
  | choice q => exact hatMost q x x' hmem
  | getName g v =>
      -- names do not depend on the answers
      have hnames : Program.Lockstep NamesAgree (fun _ _ => True) (I.passes loaded.functions)
          (I.passes loaded.functions) :=
        lockstep_runPasses (I.irModule.declOnly I.annotatable) hnodup hlooks I.numbered
      have hsymbols : (I.environment loaded).symbols = (I.environment loaded').symbols := rfl
      simp only [transcript, hload, hload', hfunctions] at hmem
      exact hnames.agree_of_mem_zip (S := fun env env' => env.symbols = env'.symbols)
        (fun q env env' hsymbols a t a' t' =>
          I.answer_agrees opts opts' q env env' hsymbols a t a' t') hsymbols hmem

/-- Higher choices make code that promises and assumes at least as much. -/
theorem monotone (hlooks : I.LooksThroughAnnotations)
    (hfits : ∀ f, (I.states f).LoadsFit I.passInfo)
    {r r' : ModuleState Fn Ty Const Op × Environment Fn}
    (hr : I.annotateModule opts controlStr = .ok r)
    (hr' : I.annotateModule opts' controlStr' = .ok r')
    (hatMost : ∀ q (choice choice' : Nat), (⟨.choice q, choice⟩, ⟨.choice q, choice'⟩) ∈
      (I.transcript opts controlStr).zip (I.transcript opts' controlStr') →
      q.kind.isAboutAttributes = false → q.AtMost choice choice')
    (f : Fn) :
    (r.1.functions f).code.AtMost I.passInfo (I.states f).nextId (r'.1.functions f).code := by
  have hcompared := compared_annotateModule hlooks hfits hr hr' hatMost f
  exact hcompared.code.imp fun is is' hpart => hpart.imp fun i i' hi => hi.atMost

theorem loadsFit_sample (f : Nat) : (sample.states f).LoadsFit sampleInfo := by
  intro i _ l _
  have hsize : accessSize sampleInfo ((sample.states f).typeOf sampleInfo l.pointer) = 8 := rfl
  rw [hsize]
  decide

/-- One run takes no choice, and the other one all of them. -/
theorem atMost_sample (q : ChoiceQuestion Nat Nat) (choice choice' : Nat)
    (h : (⟨.choice q, choice⟩, ⟨.choice q, choice'⟩) ∈
      (sample.transcript ⟨false, -1, false⟩ []).zip (sample.transcript ⟨true, -1, false⟩ [])) :
    q.AtMost choice choice' := by
  have hzero : ∀ e ∈ sample.transcript ⟨false, -1, false⟩ [], Declined e.1 e.2 := by decide
  have hrange : ∀ e ∈ sample.transcript ⟨true, -1, false⟩ [], InRange e.1 e.2 := by decide
  obtain ⟨hmem, hmem'⟩ := List.of_mem_zip h
  obtain rfl : choice = 0 := hzero _ hmem
  have hlt : choice' < q.numChoices := hrange _ hmem'
  unfold ChoiceQuestion.AtMost
  split
  · exact .inl rfl
  · exact ⟨Nat.zero_le choice', hlt⟩

theorem monotone_sample : ∃ r r', sample.annotateModule ⟨false, -1, false⟩ [] = .ok r ∧
    sample.annotateModule ⟨true, -1, false⟩ [] = .ok r' ∧
    (r.1.functions 0).code.AtMost sampleInfo 3 (r'.1.functions 0).code := by
  obtain ⟨r, hr⟩ : ∃ r, sample.annotateModule ⟨false, -1, false⟩ [] = .ok r := ⟨_, rfl⟩
  obtain ⟨r', hr'⟩ : ∃ r, sample.annotateModule ⟨true, -1, false⟩ [] = .ok r := ⟨_, rfl⟩
  exact ⟨r, r', hr, hr', monotone looksThroughAnnotations_sample loadsFit_sample hr hr'
    (fun q choice choice' h _ => atMost_sample q choice choice' h) 0⟩

/-- What code with higher choices reaches and returns, the code with lower ones does. -/
theorem monotone_meaning (hlooks : I.LooksThroughAnnotations)
    (hfits : ∀ f, (I.states f).LoadsFit I.passInfo)
    {r r' : ModuleState Fn Ty Const Op × Environment Fn}
    (hr : I.annotateModule opts controlStr = .ok r)
    (hr' : I.annotateModule opts' controlStr' = .ok r')
    (hatMost : ∀ q (choice choice' : Nat), (⟨.choice q, choice⟩, ⟨.choice q, choice'⟩) ∈
      (I.transcript opts controlStr).zip (I.transcript opts' controlStr') →
      q.kind.isAboutAttributes = false → q.AtMost choice choice')
    (f : Fn) (M : Machine Fn Const Op) (habi : M.AbiAligned (I.states f).code)
    (hmono : M.DereferenceableMono) (p : M.Point) :
    (∀ q', Reaches I.passInfo.assumeIntrinsic (r'.1.functions f).code p q' →
      ∃ q, Reaches I.passInfo.assumeIntrinsic (r.1.functions f).code p q ∧
        q'.LessDefined (I.states f).nextId q) ∧
    ∀ value mem, Returns I.passInfo.assumeIntrinsic (r'.1.functions f).code p value mem →
      Returns I.passInfo.assumeIntrinsic (r.1.functions f).code p value mem := by
  have hcompared := compared_annotateModule hlooks hfits hr hr' hatMost f
  have hoperands := (I.numbered f).operands
  have hsimulates := simulates_steps_of_compared (M := M) hcompared hoperands habi hmono
  have hp : p.LessDefined (I.states f).nextId p := ⟨rfl, rfl, .refl p.state⟩
  refine ⟨fun q' hq' => hsimulates.run hp hq', fun value mem hreturns => ?_⟩
  obtain ⟨q', s', hreaches, hruns⟩ := hreturns
  obtain ⟨q, hreaches', hq⟩ := hsimulates.run hp hreaches
  obtain ⟨s, hruns', -⟩ := exists_runs_of_compared hcompared hoperands habi hmono hq hruns
  exact ⟨q, s, hreaches', hruns'⟩

theorem monotone_meaning_sample : ∃ r r', sample.annotateModule ⟨false, -1, false⟩ [] = .ok r ∧
    sample.annotateModule ⟨true, -1, false⟩ [] = .ok r' ∧
    ∃ (p : sampleMachine.Point) (mem : Nat → Nat),
      Returns 1 (r'.1.functions 0).code p none mem ∧
        Returns 1 (r.1.functions 0).code p none mem := by
  obtain ⟨r, hr⟩ : ∃ r, sample.annotateModule ⟨false, -1, false⟩ [] = .ok r := ⟨_, rfl⟩
  obtain ⟨r', hr'⟩ : ∃ r, sample.annotateModule ⟨true, -1, false⟩ [] = .ok r := ⟨_, rfl⟩
  have hcode := congrArg (fun r : Except Fault _ => r.map fun r => (r.1.functions 0).code) hr'
  obtain ⟨p, mem, hreturns⟩ := exists_returns_sample (Except.ok.inj hcode).symm
  have habi : sampleMachine.AbiAligned sampleCode := fun _ _ _ => (by decide : 4 ∣ 8)
  have hmono : sampleMachine.DereferenceableMono := fun _ _ _ _ _ => id
  exact ⟨r, r', hr, hr', p, mem, hreturns,
    (monotone_meaning looksThroughAnnotations_sample loadsFit_sample hr hr'
      (fun q choice choice' h _ => atMost_sample q choice choice' h) 0
      sampleMachine habi hmono p).2 none mem hreturns⟩

end Input

end Petospa

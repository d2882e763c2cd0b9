import Petospa.Annotator.PassRuns
import Petospa.Transport.Recompile

/-!
# The module of the annotated source

What the passes make of a module is a function of the values that they are answered. So
the first instance makes the same of the annotated source, without a control string, as
of the plain one under the control string that the choices were taken from.
-/

namespace Petospa

open Text Interaction

/-! ### Runs with the same values -/

section Values

variable {Fn Const α : Type} [DecidableEq Fn] {functionName : Fn → Str}
variable {constantName : Const → Str} {opts opts' : Options} {inst inst' : Nat}

theorem answer_choice_eq_ok {q : ChoiceQuestion Fn Const} {env t : Environment Fn} {value : Nat}
    (h : answer functionName constantName opts inst (.choice q) env = .ok (value, t)) :
    ∃ name table,
      q.subject.name (functionName q.function) constantName (env.symbols q.function) =
        .ok (name, table) ∧
      value = (env.annotator.getOptimisticChoice opts inst (q.query functionName name)).2.value ∧
      t = ⟨Function.update env.symbols q.function table,
        (env.annotator.getOptimisticChoice opts inst (q.query functionName name)).1⟩ := by
  obtain ⟨⟨name, table⟩, hname, h⟩ := Except.bind_eq_ok_iff.mp h
  obtain ⟨rfl, rfl⟩ := Prod.mk.inj (Except.ok.inj h)
  exact ⟨name, table, hname, rfl, rfl⟩

/-- A run whose queries would be answered with the same values by other tables is the same
run with these. -/
theorem run_of_values {p : Pass Fn Const α} {env t : Environment Fn} {a : α}
    (env' : Environment Fn) (hsymbols : env'.symbols = env.symbols)
    (h : p.run (answer functionName constantName opts inst) env = .ok (a, t))
    {st : Annotator Fn} {given : List Answer}
    (hanswers : answerAll opts' inst'
      (queries functionName constantName
        (p.asked (answer functionName constantName opts inst) env) env.symbols) env'.annotator =
      (st, given))
    (hvalues : given.map Answer.value =
      chosenValues (p.transcript (answer functionName constantName opts inst) env)) :
    p.run (answer functionName constantName opts' inst') env' = .ok (a, ⟨t.symbols, st⟩) := by
  induction p generalizing env env' given with
  | done b =>
      obtain ⟨rfl, rfl⟩ := Prod.mk.inj (Except.ok.inj h)
      obtain ⟨rfl, rfl⟩ := Prod.mk.inj hanswers
      rw [← hsymbols]
      rfl
  | fails e => cases h
  | ask q next ih =>
      rw [Program.run] at h
      rw [Program.asked, Program.transcript] at hanswers
      rw [Program.transcript] at hvalues
      rw [Program.run]
      cases hanswer : answer functionName constantName opts inst q env with
      | error e =>
          rw [hanswer] at h
          cases h
      | ok r =>
          obtain ⟨value, env₁⟩ := r
          simp only [hanswer] at h hanswers hvalues
          cases q with
          | getName f v =>
              obtain ⟨rfl, rfl⟩ := Prod.mk.inj (Except.ok.inj hanswer)
              have hname : (env'.symbols f).getName v = (env.symbols f).getName v := by
                rw [hsymbols]
              simp only [answer, hname]
              exact ih _ env' hsymbols h hanswers hvalues
          | choice q =>
              obtain ⟨name, table, hname, -, rfl⟩ := answer_choice_eq_ok hanswer
              simp only [List.map_cons, queries, hname, answerAll] at hanswers
              obtain ⟨rfl, rfl⟩ := Prod.mk.inj hanswers
              obtain ⟨hvalue, hrest⟩ := List.cons.inj hvalues
              simp only [answer, hsymbols, hname, bind, Except.bind, pure, Except.pure]
              rw [hvalue]
              refine ih value _ ?_ h ?_ hrest
              · rfl
              · rfl

/-- A compiler run of one instance. -/
theorem exists_of_compiledValues {name : Fn → Str} {annotations : Str → Option Str}
    {controlString : Str} {stage : Stage Fn} {values : List Nat}
    (h : compiledValues name annotations opts controlString [stage] = .ok [values]) :
    ∃ st given,
      runOnModule name annotations opts controlString 0 stage (.initial .empty) = .ok (st, given) ∧
      given.map Answer.value = values := by
  rw [compiledValues, compile, runInstances] at h
  cases hrun : runOnModule name annotations opts controlString 0 stage (.initial .empty) with
  | error e =>
      rw [hrun] at h
      cases h
  | ok r =>
      obtain ⟨st, given⟩ := r
      rw [hrun] at h
      obtain ⟨hvalues, -⟩ := List.cons.inj (Except.ok.inj h)
      exact ⟨st, given, rfl, hvalues⟩

end Values

/-! ### The first instance -/

/-- No further function is looked at for its annotation. -/
theorem IRModule.functions_load {Fn : Type} [DecidableEq Fn] {M : IRModule Fn}
    {annotatable : Fn → Bool}
    (hlooked : ∀ f ∈ M.functions, M.unused f = false → M.found f ≠ .nothing →
      f ∈ (M.numberFunctions annotatable).functions)
    {controlStr : List CChar} {loaded : LoadState Fn}
    (h : M.load annotatable controlStr = .ok loaded) :
    loaded.functions = (M.numberFunctions annotatable).functions := by
  have hstep : ∀ f ∈ M.functions, ∀ (st : LoadState Fn) (r : ForInStep (LoadState Fn)),
      st.functions = (M.numberFunctions annotatable).functions → M.loadFunction 0 st f = .ok r →
      r.value.functions = (M.numberFunctions annotatable).functions := by
    intro f hf st r hst hbody
    unfold loadFunction at hbody
    split at hbody
    · obtain rfl := Except.ok.inj hbody
      exact hst
    · rename_i hunused
      split at hbody
      · obtain rfl := Except.ok.inj hbody
        exact hst
      · obtain rfl := Except.ok.inj hbody
        exact hst
      · cases hbody
      · rename_i data hfound
        have hmem := hlooked f hf (Bool.eq_false_of_not_eq_true hunused) (by simp [hfound])
        rw [← hst] at hmem
        have hsame : number st.functions f = (M.numberFunctions annotatable).functions := by
          rw [number, if_pos hmem, hst]
        dsimp only at hbody
        rw [if_neg (Nat.lt_irrefl 0)] at hbody
        split at hbody
        · obtain rfl := Except.ok.inj hbody
          exact hsame
        · split at hbody
          · cases hbody
          · obtain rfl := Except.ok.inj hbody
            exact hsame
  obtain ⟨r, hloop, hr⟩ := M.exists_loop_of_load annotatable h
  rw [hr]
  exact BreakLoop.loop_invariant
    (fun st => st.functions = (M.numberFunctions annotatable).functions) hstep rfl hloop

namespace Input

variable {Fn Ty Const Op Loop : Type} [DecidableEq Fn] [DecidableEq Ty] [DecidableEq Const]
variable [DecidableEq Loop] {I : Input Fn Ty Const Op Loop} {opts : Options}

/-- The module of a source with other annotations. -/
def withVariables (I : Input Fn Ty Const Op Loop)
    (getGlobalVariable : Str → Option GlobalVariable) : Input Fn Ty Const Op Loop :=
  { I with irModule := { I.irModule with getGlobalVariable := getGlobalVariable } }

/-- The first instance makes the same module of the annotated source as of the plain one
under the control string, if the choices that a function is given by number and by name
are the same and no further function is looked at for its annotation. -/
theorem recompiled_module {src : Sourcefile} (hstep : src.InStep)
    (hembeddable : ∀ oc ∈ src.optimisticChoices, oc.Embeddable) {f2c2cs : FunctionStrings}
    (hcollect : collect src.optimisticChoices .empty = .ok f2c2cs)
    (hplain : I.irModule.Shows fun _ => none) {getGlobalVariable : Str → Option GlobalVariable}
    (hshows : (I.withVariables getGlobalVariable).irModule.Shows (annotationOf f2c2cs))
    (hlooked : ∀ f ∈ I.irModule.functions,
      isRead I.irModule.getName (annotationOf f2c2cs) I.irModule.unused f = true →
      f ∈ (I.irModule.numberFunctions I.annotatable).functions)
    (hannotates : opts.annotates 0 = true) {controlStr : List CChar}
    (hcontrol : fsencode src.currentControlString = some controlStr)
    {r : ModuleState Fn Ty Const Op × Environment Fn}
    (hr : I.annotateModule opts controlStr = .ok r)
    (hnames : NumbersFollowNames I.irModule.getName opts [I.stage opts controlStr]
      src.optimisticChoices) :
    ∃ annotator, (I.withVariables getGlobalVariable).annotateModule opts [] =
      .ok (r.1, ⟨r.2.symbols, annotator⟩) := by
  obtain ⟨given, hgiven, hvalues⟩ := annotateModule_stage hplain hannotates hcontrol hr
  -- the answers by function name
  have hplainValues : compiledValues I.irModule.getName (fun _ => none) opts
      src.currentControlString [I.stage opts controlStr] = .ok [I.values opts controlStr] := by
    rw [compiledValues, compile, runInstances, hgiven, ← hvalues]
    rfl
  have hnodup : ∀ stage ∈ [I.stage opts controlStr], stage.functions.Nodup := by
    intro stage hstage
    obtain rfl := List.mem_singleton.mp hstage
    exact I.irModule.nodup
  obtain ⟨values, hvalues', hrecompiled⟩ :=
    recompile_eq hstep hembeddable hcollect hnodup hnames
  obtain rfl := Except.ok.inj (hplainValues.symm.trans hvalues')
  obtain ⟨annotator, given', hgiven', hsame⟩ := exists_of_compiledValues hrecompiled
  rw [Petospa.runOnModule, if_pos hannotates] at hgiven'
  obtain ⟨loadedAnnotator, hinitialize, hanswers⟩ := Except.bind_eq_ok_iff.mp hgiven'
  -- the same functions are looked at
  have hnumbers : (I.irModule.numberFunctions I.annotatable).annotator =
      (I.irModule.functions.filter I.annotatable).foldl Annotator.see (.initial .empty) :=
    (IRModule.foldl_numberFunction I.irModule I.annotatable I.irModule.functions _).1
  have hnil : fsencode [] = some [] := rfl
  have hload' := IRModule.initializeChoiceMaps_eq hshows hnil 0 I.annotatable
    (I.queries opts controlStr) (I.irModule.numberFunctions I.annotatable)
  have hinitialize' := hload'.trans ((congrArg _ hnumbers).trans hinitialize)
  obtain ⟨loaded', hloaded', rfl⟩ := Except.map_eq_ok_iff.mp hinitialize'
  obtain ⟨loaded, hload, hr⟩ := Except.bind_eq_ok_iff.mp hr
  have hfunctions : loaded.functions = (I.irModule.numberFunctions I.annotatable).functions := by
    refine IRModule.functions_load (fun f _ _ hfound => absurd ?_ hfound) hload
    exact hplain f
  have hfunctions' : loaded'.functions = (I.irModule.numberFunctions I.annotatable).functions := by
    refine IRModule.functions_load (M := (I.withVariables getGlobalVariable).irModule)
      (fun f hf hunused hfound => hlooked f hf (isRead_iff.mpr ⟨hunused, ?_⟩)) hloaded'
    apply Option.ne_none_iff_exists'.mp
    intro hnone
    have hnothing := hshows f
    rw [show (I.withVariables getGlobalVariable).irModule.getName f = I.irModule.getName f from rfl,
      hnone] at hnothing
    exact hfound hnothing
  have hqueries : (I.stage opts controlStr).queries = Petospa.queries I.passInfo.functionName
      I.passInfo.constantName
      ((I.passes loaded.functions).asked (I.answer opts) (I.environment loaded)) I.symbols := by
    dsimp only [stage]
    rw [Input.queries, hload]
  rw [hqueries] at hanswers
  rw [values, hload] at hsame
  obtain ⟨result, env⟩ := r
  have hrun : (I.passes loaded.functions).run (I.answer opts) ⟨I.symbols, loaded'.annotator⟩ =
      .ok (result, ⟨env.symbols, annotator⟩) := by
    refine run_of_values ⟨I.symbols, loaded'.annotator⟩ ?_ hr (Except.ok.inj hanswers) hsame
    rfl
  refine ⟨annotator, Except.bind_eq_ok_iff.mpr ⟨loaded', hloaded', ?_⟩⟩
  rw [hfunctions, ← hfunctions'] at hrun
  exact hrun

/-- The address computation of the sample is in bounds. -/
def settledInbounds : OptimisticChoice :=
  { settledNsw 0 (lit "f") with opportunityNo := 6, name := lit "v" }

theorem embeddable_settledInbounds : settledInbounds.Embeddable where
  fixed := rfl
  codable := ⟨le_rfl, show (0 : Int) < 2 ^ 31 by decide, show (1 : Int) ≤ 6 by decide,
    show (6 : Int) ≤ 22 by decide⟩
  value_lt := show 1 < 80 by decide
  value_ne := show 1 ≠ 44 by decide

def inboundsData : List CChar := ((fsencode (lit "#c61")).getD []) ++ [0]

theorem inboundsData_nonzero : ∃ c ∈ inboundsData, c ≠ 0 := by decide

/-- The variable that is generated for the choice. -/
def inboundsVariable (name : Str) : Option GlobalVariable :=
  if name = lit "f_OptimisticChoices" then
    some ⟨some (.constant (.i8Array inboundsData inboundsData_nonzero))⟩
  else none

theorem recompiled_module_sample : ∃ r annotator,
    sample.annotateModule ⟨false, 1, true⟩ ((fsencode (lit "#f0f#c61")).getD []) = .ok r ∧
      (sample.withVariables inboundsVariable).annotateModule ⟨false, 1, true⟩ [] =
        .ok (r.1, ⟨r.2.symbols, annotator⟩) ∧
      (r.1.functions 0).code.head?.bind (fun b => b.instructions.head?.map Instruction.opcode) =
        some (.getElementPtr true (.local (.argument 0)) []) := by
  have hembeddable : ∀ oc ∈ [settledInbounds], oc.Embeddable := by
    intro oc hoc
    obtain rfl := List.mem_singleton.mp hoc
    exact embeddable_settledInbounds
  obtain ⟨f2c2cs, hcollect⟩ : ∃ f2c2cs, collect [settledInbounds] .empty = .ok f2c2cs := ⟨_, rfl⟩
  have hannotation : annotationOf f2c2cs (lit "f") = some (lit "#c61") := by
    obtain rfl := Except.ok.inj hcollect
    rfl
  obtain ⟨r, hr⟩ : ∃ r, sample.annotateModule ⟨false, 1, true⟩
      ((fsencode (lit "#f0f#c61")).getD []) = .ok r := ⟨_, rfl⟩
  have hshows : (sample.withVariables inboundsVariable).irModule.Shows (annotationOf f2c2cs) := by
    intro f
    have hname : searchAndReplace ((sample.withVariables inboundsVariable).irModule.getName f) =
      lit "f" := rfl
    rw [hname, hannotation]
    exact ⟨_, rfl, rfl⟩
  have hlooked : ∀ f ∈ sample.irModule.functions,
      isRead sample.irModule.getName (annotationOf f2c2cs) sample.irModule.unused f = true →
      f ∈ (sample.irModule.numberFunctions sample.annotatable).functions :=
    fun f hf _ => hf
  have hnames : NumbersFollowNames sample.irModule.getName ⟨false, 1, true⟩
      [sample.stage ⟨false, 1, true⟩ ((fsencode (lit "#f0f#c61")).getD [])]
      [settledInbounds] := by
    intro f hf oc hoc
    obtain rfl := List.mem_singleton.mp hoc
    obtain ⟨q, hq, rfl⟩ := hf
    have hfunctions : ∀ q ∈ sample.queries ⟨false, 1, true⟩
        ((fsencode (lit "#f0f#c61")).getD []), q.function = 0 := by decide
    simp only [askedIn, stage, List.append_nil, List.mem_ite_nil_right] at hq
    rw [hfunctions q hq.2]
    decide
  obtain ⟨annotator, hannotator⟩ := recompiled_module (settledOnce_inStep hembeddable) hembeddable
    hcollect (fun _ => rfl) hshows hlooked (by decide) rfl hr hnames
  refine ⟨r, annotator, hr, hannotator, ?_⟩
  obtain rfl := Except.ok.inj hr
  rfl

end Input

end Petospa

import Petospa.Tuner.Benchmark

/-!
# The unchanged-object fast path

A compiled object that equals the current version of its source file is accepted
without verification. While one source file is tuned no other object file
changes, so a version that was stored in this tuning was verified together with
the files on disk. Version 0 was verified together with the initial objects of
the other files; the theorem says when that is enough.
-/

namespace Petospa

open Text Coroutine

variable {Source Object Executable : Type} [DecidableEq Source] [DecidableEq Object]

/-- The executable linked from the object files passes verification. -/
def Verifies (t : Toolchain Source Object Executable) (objects : Source → Option Object) : Prop :=
  ∃ executable, t.make objects = some executable ∧ t.verify executable = true

omit [DecidableEq Source] [DecidableEq Object] in
/-- Without an executable the object files are linked; nothing else changes. -/
theorem Toolchain.makeAndVerify_eq (t : Toolchain Source Object Executable)
    {w : World Source Object Executable} (h : w.executable = none) :
    (t.makeAndVerify w).2 = { w with executable := t.make w.objects } ∧
      ((t.makeAndVerify w).1 = true ↔ Verifies t w.objects) := by
  simp only [makeAndVerify, h, Verifies]
  cases hmake : t.make w.objects with
  | none => simp
  | some executable => simp

namespace Call

variable (t : Toolchain Source Object Executable) (c : Call Source Object Executable)

/-- The compile succeeds with the current version of the source file, and
validation is not forced. -/
def MatchesVersion : Prop :=
  c.forceValidation = false ∧
    ∃ object, t.compile c.sourceFile c.controlString (c.before.objects c.sourceFile) =
        (true, some object) ∧
      c.before.versions c.sourceFile c.before.numOutVersions = some object

/-- The object of the initial build comes out, before any other version of the
source file was stored. -/
def MatchesInitial : Prop := c.before.numOutVersions = 0 ∧ c.MatchesVersion t

/-- What a call does to the files, and when it returns true. -/
inductive Effect : Prop where
  | rejected (no : ¬ c.ReturnsTrue t) (differs : ¬ c.MatchesVersion t)
      (versions : (c.after t).versions = c.before.versions)
      (number : (c.after t).numOutVersions = c.before.numOutVersions)
  | matched (yes : c.ReturnsTrue t) (same : c.MatchesVersion t)
      (object : (c.after t).objects c.sourceFile =
        c.before.versions c.sourceFile c.before.numOutVersions)
      (versions : (c.after t).versions = c.before.versions)
      (number : (c.after t).numOutVersions = c.before.numOutVersions)
  | verified (yes : c.ReturnsTrue t) (differs : ¬ c.MatchesVersion t)
      (verifies : Verifies t (c.after t).objects)
      (stored : (c.after t).versions = Function.update c.before.versions c.sourceFile
        (Function.update (c.before.versions c.sourceFile) (c.before.numOutVersions + 1)
          ((c.after t).objects c.sourceFile)))
      (number : (c.after t).numOutVersions = c.before.numOutVersions + 1)

/-- The files behind the compile of a call. -/
def compiled : World Source Object Executable :=
  (t.compileOnly c.before c.sourceFile c.controlString).2

omit [DecidableEq Object] in
theorem compiled_object :
    (c.compiled t).objects c.sourceFile =
      (t.compile c.sourceFile c.controlString (c.before.objects c.sourceFile)).2 :=
  Function.update_self ..

/-- The call in terms of its compile: what the comparison sees is the object
file and the current version. -/
theorem outcome_eq :
    c.outcome t =
      if (t.compile c.sourceFile c.controlString (c.before.objects c.sourceFile)).1 then
        match c.before.versions c.sourceFile c.before.numOutVersions,
          (t.compile c.sourceFile c.controlString (c.before.objects c.sourceFile)).2 with
        | some version, some object =>
            if version = object ∧ c.forceValidation = false then (some true, c.compiled t)
            else
              let verified := t.makeAndVerify (c.compiled t)
              if verified.1 then
                (some true, { verified.2 with
                  numOutVersions := verified.2.numOutVersions + 1 }.storeVersion c.sourceFile)
              else (some false, verified.2)
        | _, _ => (none, c.compiled t)
      else (some false, c.compiled t) := by
  rw [← c.compiled_object t]
  rfl

/-- A call that was not accepted and left the versions alone. -/
theorem effect_rejected {result : Option Bool} {w : World Source Object Executable}
    (hrun : c.outcome t = (result, w)) (hno : result ≠ some true)
    (hdiffers : ¬ c.MatchesVersion t) (hobjects : w.objects = (c.compiled t).objects)
    (hversions : w.versions = c.before.versions)
    (hnumber : w.numOutVersions = c.before.numOutVersions) :
    (c.after t).objects = (c.compiled t).objects ∧ c.Effect t := by
  have hafter : c.after t = w := congrArg Prod.snd hrun
  rw [hafter]
  refine ⟨hobjects, .rejected ?_ hdiffers (hafter ▸ hversions) (hafter ▸ hnumber)⟩
  intro hyes
  exact hno ((congrArg Prod.fst hrun).symm.trans hyes)

/-- A call that goes on to build and verify. -/
theorem effect_verify
    (hrun : c.outcome t =
      if (t.makeAndVerify (c.compiled t)).1 then
        (some true, { (t.makeAndVerify (c.compiled t)).2 with
          numOutVersions := (t.makeAndVerify (c.compiled t)).2.numOutVersions + 1 }.storeVersion
            c.sourceFile)
      else (some false, (t.makeAndVerify (c.compiled t)).2))
    (hdiffers : ¬ c.MatchesVersion t) :
    (c.after t).objects = (c.compiled t).objects ∧ c.Effect t := by
  obtain ⟨hlinked, hverifies⟩ := t.makeAndVerify_eq (w := c.compiled t) rfl
  rw [hlinked] at hrun
  cases hverdict : (t.makeAndVerify (c.compiled t)).1 with
  | false =>
      rw [if_neg (by simp [hverdict])] at hrun
      exact c.effect_rejected t hrun (by simp) hdiffers rfl rfl rfl
  | true =>
      rw [if_pos hverdict] at hrun
      have hafter : c.after t = _ := congrArg Prod.snd hrun
      have hobjects : (c.after t).objects = (c.compiled t).objects := by
        rw [hafter]
        rfl
      refine ⟨hobjects, .verified (congrArg Prod.fst hrun) hdiffers ?_ ?_ ?_⟩
      · rw [hobjects]
        exact hverifies.mp hverdict
      · rw [hafter]
        rfl
      · rw [hafter]
        rfl

/-- The spec lemma of `compileSourceOptimistically`: only the object file of its
own source file changes, and the effect is one of three. -/
theorem effect : (c.after t).objects = (c.compiled t).objects ∧ c.Effect t := by
  have hobject := c.compiled_object t
  have houtcome := c.outcome_eq t
  rcases hcompile : t.compile c.sourceFile c.controlString (c.before.objects c.sourceFile) with
    ⟨success, object⟩
  rw [hcompile] at hobject houtcome
  have hmatches : c.MatchesVersion t ↔ c.forceValidation = false ∧
      ∃ o, success = true ∧ object = some o ∧
        c.before.versions c.sourceFile c.before.numOutVersions = some o := by
    simp only [MatchesVersion, hcompile, Prod.mk.injEq, and_assoc]
  cases success with
  | false => exact c.effect_rejected t houtcome (by simp) (by simp [hmatches]) rfl rfl rfl
  | true =>
      cases hversion : c.before.versions c.sourceFile c.before.numOutVersions with
      | none =>
          rw [hversion] at houtcome
          exact c.effect_rejected t houtcome (by simp) (by simp [hmatches, hversion]) rfl rfl rfl
      | some version =>
          cases object with
          | none =>
              rw [hversion] at houtcome
              exact c.effect_rejected t houtcome (by simp) (by simp [hmatches]) rfl rfl rfl
          | some object =>
              simp only [hversion, if_true] at houtcome
              by_cases hsame : version = object ∧ c.forceValidation = false
              · rw [if_pos hsame] at houtcome
                have hafter : c.after t = c.compiled t := congrArg Prod.snd houtcome
                rw [hafter]
                refine ⟨rfl, .matched (congrArg Prod.fst houtcome) ?_ ?_ ?_ ?_⟩
                · rw [hmatches, hversion, hsame.1]
                  exact ⟨hsame.2, object, rfl, rfl, rfl⟩
                · rw [hafter, hobject, hversion, hsame.1]
                · rw [hafter]
                  rfl
                · rw [hafter]
                  rfl
              · rw [if_neg hsame] at houtcome
                have hdiffers : ¬ c.MatchesVersion t := by
                  rw [hmatches, hversion]
                  rintro ⟨hforce, o, -, ho, hv⟩
                  exact hsame ⟨by simp_all, hforce⟩
                exact c.effect_verify t houtcome hdiffers

end Call

/-- What holds all through the tuning of a source file: the other object files
and every version 0 are those of the start, and the last version that was stored
has been verified together with the former. -/
structure Tunes (t : Toolchain Source Object Executable) (s : Source)
    (start w : World Source Object Executable) : Prop where
  others : ∀ s', s' ≠ s → w.objects s' = start.objects s'
  initial : ∀ s', w.versions s' 0 = start.versions s' 0
  stored : 0 < w.numOutVersions →
    Verifies t (Function.update start.objects s (w.versions s w.numOutVersions))

namespace Tunes

variable {t : Toolchain Source Object Executable} {s : Source}
  {start w : World Source Object Executable}

omit [DecidableEq Object] in
theorem refl (h : start.numOutVersions = 0) : Tunes t s start start where
  others _ _ := rfl
  initial _ := rfl
  stored hpos := absurd h (by omega)

omit [DecidableEq Object] in
theorem writeObject (h : Tunes t s start w) (object : Option Object) :
    Tunes t s start (w.writeObject s object) where
  others s' hs := by
    rw [← h.others s' hs]
    exact Function.update_of_ne hs ..
  initial := h.initial
  stored := h.stored

/-- The step lemma: a call keeps the invariant. It breaks the property exactly
by accepting the object of the initial build where that does not verify. -/
theorem call {c : Call Source Object Executable} (h : Tunes t c.sourceFile start c.before) :
    Tunes t c.sourceFile start (c.after t) ∧
      ((c.ReturnsTrue t → Verifies t (c.after t).objects) ↔
        (c.MatchesInitial t → Verifies t
          (Function.update start.objects c.sourceFile (start.versions c.sourceFile 0)))) := by
  obtain ⟨hobjects, heffect⟩ := c.effect t
  have hothers : ∀ s', s' ≠ c.sourceFile → (c.after t).objects s' = start.objects s' := by
    intro s' hs
    rw [hobjects, ← h.others s' hs]
    exact Function.update_of_ne hs ..
  have hself : (c.after t).objects =
      Function.update start.objects c.sourceFile ((c.after t).objects c.sourceFile) := by
    funext s'
    by_cases hs : s' = c.sourceFile
    · rw [hs, Function.update_self]
    · rw [Function.update_of_ne hs, hothers s' hs]
  cases heffect with
  | rejected no differs versions number =>
      refine ⟨⟨hothers, by rw [versions]; exact h.initial, ?_⟩, ?_⟩
      · rw [versions, number]
        exact h.stored
      · exact ⟨fun _ hmatch => absurd hmatch.2 differs, fun _ hyes => absurd hyes no⟩
  | matched yes same object versions number =>
      refine ⟨⟨hothers, by rw [versions]; exact h.initial, ?_⟩, ?_⟩
      · rw [versions, number]
        exact h.stored
      · rw [hself, object]
        rcases Nat.eq_zero_or_pos c.before.numOutVersions with hzero | hpos
        · rw [hzero, h.initial]
          exact ⟨fun hverifies _ => hverifies yes, fun hverifies _ => hverifies ⟨hzero, same⟩⟩
        · exact ⟨fun _ hmatch => absurd hmatch.1 (by omega), fun _ _ => h.stored hpos⟩
  | verified yes differs verifies stored number =>
      refine ⟨⟨hothers, ?_, fun _ => ?_⟩, ?_⟩
      · intro s'
        rw [stored, ← h.initial s']
        by_cases hs : s' = c.sourceFile
        · rw [hs, Function.update_self, Function.update_of_ne (by omega)]
        · rw [Function.update_of_ne hs]
      · rw [stored, number, Function.update_self, Function.update_self, ← hself]
        exact verifies
      · exact ⟨fun _ hmatch => absurd hmatch.2 differs, fun _ _ => verifies⟩

end Tunes

/-- The calls of a part of a tuning, each made while the invariant holds, and
the files behind them. -/
def RunsWithin (t : Toolchain Source Object Executable) (s : Source)
    (start : World Source Object Executable) (calls : List (Call Source Object Executable))
    (w : World Source Object Executable) : Prop :=
  (∀ c ∈ calls, c.sourceFile = s ∧ Tunes t s start c.before) ∧ Tunes t s start w

namespace Toolchain

variable (t : Toolchain Source Object Executable) {s : Source}
  {start w : World Source Object Executable}

omit [DecidableEq Object] in
theorem runsWithin_nil (h : Tunes t s start w) : RunsWithin t s start [] w := ⟨by simp, h⟩

theorem runsWithin_call (h : Tunes t s start w) (controlString : Str) (forceValidation : Bool) :
    RunsWithin t s start [⟨w, s, controlString, forceValidation⟩]
      (Call.after t ⟨w, s, controlString, forceValidation⟩) :=
  ⟨by simpa using h, (Tunes.call (c := ⟨w, s, controlString, forceValidation⟩) h).1⟩

theorem trials_runsWithin (limits : Limits) (o : GeneratorOutcome) (readings : List Nat)
    (h : Tunes t s start w) :
    RunsWithin t s start (t.trials limits s o w readings).calls
      (t.trials limits s o w readings).world := by
  induction readings generalizing o w with
  | nil => cases o <;> exact t.runsWithin_nil h
  | cons now readings ih =>
      cases o with
      | returned r => exact t.runsWithin_nil h
      | raised fault => exact t.runsWithin_nil h
      | yielded p =>
          have hcall := t.runsWithin_call h p.yielded false
          simp only [trials]
          split
          · exact hcall
          · obtain ⟨hcalls, hworld⟩ := ih (p.resume limits (_, now)) hcall.2
            exact ⟨List.forall_mem_cons.mpr ⟨⟨rfl, h⟩, hcalls⟩, hworld⟩

theorem iteration_runsWithin (limits : Limits) (annotationRun : Nat) (src : Sourcefile)
    (clock : Clock) (h : Tunes t s start w) :
    RunsWithin t s start (t.iteration limits s annotationRun src w clock).calls
      (t.iteration limits s annotationRun src w clock).world := by
  have hlisted := h.writeObject
    (t.listOpportunities s annotationRun src.currentControlString (w.objects s)).2
  simp only [iteration]
  split
  · exact t.runsWithin_nil hlisted
  · exact t.runsWithin_nil hlisted
  · obtain ⟨hcalls, hworld⟩ := t.trials_runsWithin limits _ clock.readings hlisted
    split
    · obtain ⟨hcall, hafter⟩ := t.runsWithin_call hworld _ true
      exact ⟨List.forall_mem_append.mpr ⟨hcalls, hcall⟩, hafter⟩
    · exact ⟨hcalls, hworld⟩
    · exact ⟨hcalls, hworld⟩

theorem iterations_runsWithin (limits : Limits) (n annotationRun : Nat) (src : Sourcefile)
    (clocks : List Clock) (h : Tunes t s start w) :
    RunsWithin t s start (t.iterations limits s n annotationRun src w clocks).calls
      (t.iterations limits s n annotationRun src w clocks).world := by
  induction n generalizing annotationRun src w clocks with
  | zero => exact t.runsWithin_nil h
  | succ n ih =>
      cases clocks with
      | nil => exact t.runsWithin_nil h
      | cons clock clocks =>
          obtain ⟨hcalls, hworld⟩ :=
            t.iteration_runsWithin limits (annotationRun + 1) src clock h
          simp only [iterations]
          split
          · obtain ⟨hrest, hend⟩ := ih (annotationRun + 1) _ clocks hworld
            exact ⟨List.forall_mem_append.mpr ⟨hcalls, hrest⟩, hend⟩
          · exact ⟨hcalls, hworld⟩

end Toolchain

namespace Tuning

variable (t : Toolchain Source Object Executable) (tn : Tuning Source Object Executable)

/-- Every call that returned true left object files behind that verify. -/
def Sound : Prop := ∀ c ∈ tn.calls, c.ReturnsTrue t → Verifies t (c.after t).objects

/-- The object files at the start of the tuning verify with the initial object
of the source file in its place. -/
def InitialVerifies : Prop :=
  Verifies t (Function.update tn.start.objects tn.sourceFile (tn.start.versions tn.sourceFile 0))

/-- The condition on a tuning: if some call takes the initial object up again,
that object verifies with the other object files at the start. -/
def Safe : Prop := (∃ c ∈ tn.calls, c.MatchesInitial t) → tn.InitialVerifies t

end Tuning

namespace Toolchain

variable (t : Toolchain Source Object Executable) (limits : Limits)

theorem tuneAll_sound_iff (ss : List Source) (w : World Source Object Executable)
    (clocks : List (List Clock)) :
    ∀ tn ∈ t.tuneAll limits ss w clocks, tn.Sound t ↔ tn.Safe t := by
  induction ss generalizing w clocks with
  | nil => simp [tuneAll]
  | cons s ss ih =>
      cases clocks with
      | nil => simp [tuneAll]
      | cons clock clocks =>
          rw [tuneAll, List.forall_mem_cons]
          constructor
          · have hstart : Tunes t s { w with numOutVersions := 0 } { w with numOutVersions := 0 } :=
              .refl rfl
            have hcalls := (t.iterations_runsWithin limits 14 0 .initial clock hstart).1
            have hiff : ∀ c ∈
                (t.optimizeAndRun limits s { w with numOutVersions := 0 } clock).calls,
                (c.ReturnsTrue t → Verifies t (c.after t).objects) ↔ (c.MatchesInitial t →
                  Verifies t (Function.update w.objects s (w.versions s 0))) := by
              intro c hc
              obtain ⟨rfl, htunes⟩ := hcalls c hc
              exact htunes.call.2
            constructor
            · rintro hsound ⟨c, hc, hmatch⟩
              exact (hiff c hc).mp (hsound c hc) hmatch
            · intro hsafe c hc
              exact (hiff c hc).mpr fun hmatch => hsafe ⟨c, hc, hmatch⟩
          · split
            · exact ih _ _
            · simp

/-- No tuning touches a version 0. -/
theorem tuneAll_initial (ss : List Source) (w : World Source Object Executable)
    (clocks : List (List Clock)) : ∀ tn ∈ t.tuneAll limits ss w clocks,
      tn.sourceFile ∈ ss ∧ ∀ s, tn.start.versions s 0 = w.versions s 0 := by
  induction ss generalizing w clocks with
  | nil => simp [tuneAll]
  | cons s ss ih =>
      cases clocks with
      | nil => simp [tuneAll]
      | cons clock clocks =>
          rw [tuneAll, List.forall_mem_cons]
          refine ⟨⟨List.mem_cons_self, fun _ => rfl⟩, ?_⟩
          have hstart : Tunes t s { w with numOutVersions := 0 } { w with numOutVersions := 0 } :=
            .refl rfl
          have hend := (t.iterations_runsWithin limits 14 0 .initial clock hstart).2
          split
          · intro tn htn
            obtain ⟨hmem, hinitial⟩ := ih _ _ tn htn
            exact ⟨List.mem_cons_of_mem s hmem, fun s' => (hinitial s').trans (hend.initial s')⟩
          · simp

omit [DecidableEq Object] in
theorem compileAll_numOutVersions (ss : List Source) (w : World Source Object Executable) :
    (t.compileAll ss w).2.numOutVersions = w.numOutVersions := by
  induction ss generalizing w with
  | nil => rfl
  | cons s ss ih =>
      rw [compileAll]
      split
      · exact ih _
      · rfl

omit [DecidableEq Object] in
/-- The copy loop changes no object file, and stores those of the list. -/
theorem storeAll_eq (ss : List Source) (w : World Source Object Executable) :
    (storeAll ss w).2.objects = w.objects ∧
      ((storeAll ss w).1 = true → ∀ s, s ∈ ss ∨ w.versions s w.numOutVersions = w.objects s →
        (storeAll ss w).2.versions s w.numOutVersions = w.objects s) := by
  induction ss generalizing w with
  | nil => simp [storeAll]
  | cons s ss ih =>
      rw [storeAll]
      split
      · obtain ⟨hobjects, hstored⟩ := ih (w.storeVersion s)
        refine ⟨hobjects, fun hall s' hs' => hstored hall s' ?_⟩
        by_cases hs : s' = s
        · right
          rw [hs]
          simp [World.storeVersion]
        · rcases hs' with hmem | hversion
          · left
            exact (List.mem_cons.mp hmem).resolve_left hs
          · right
            simpa [World.storeVersion, Function.update_of_ne hs] using hversion
      · exact ⟨rfl, fun hfalse => by simp at hfalse⟩

omit [DecidableEq Object] in
/-- The initial build verifies its object files and stores them as versions 0. -/
theorem initialMakeAndVerify_spec (ss : List Source) {w : World Source Object Executable}
    (hw : w.numOutVersions = 0) (h : (t.initialMakeAndVerify ss w).1 = true) :
    Verifies t (t.initialMakeAndVerify ss w).2.objects ∧
      ∀ s ∈ ss, (t.initialMakeAndVerify ss w).2.versions s 0 =
        (t.initialMakeAndVerify ss w).2.objects s := by
  have hnumber := (t.compileAll_numOutVersions ss w).trans hw
  cases hcompiled : (t.compileAll ss w).1 with
  | false => simp [initialMakeAndVerify, hcompiled] at h
  | true =>
      cases hmake : t.make (t.compileAll ss w).2.objects with
      | none => simp [initialMakeAndVerify, hcompiled, hmake] at h
      | some executable =>
          obtain ⟨linked, hlinked⟩ : ∃ linked : World Source Object Executable,
            linked = { (t.compileAll ss w).2 with executable := some executable } := ⟨_, rfl⟩
          have hrun : t.initialMakeAndVerify ss w =
              if (storeAll ss linked).1 then (t.verify executable, (storeAll ss linked).2)
              else (false, (storeAll ss linked).2) := by
            simp [initialMakeAndVerify, hcompiled, hmake, hlinked]
          have hzero : linked.numOutVersions = 0 := by rw [hlinked]; exact hnumber
          have hlink : t.make linked.objects = some executable := by rw [hlinked]; exact hmake
          obtain ⟨hobjects, hversions⟩ := storeAll_eq ss linked
          rw [hzero] at hversions
          rw [hrun] at h ⊢
          split at h
          · rename_i hall
            rw [if_pos hall]
            refine ⟨⟨executable, hobjects ▸ hlink, h⟩, fun s hs => ?_⟩
            exact (hversions hall s (.inl hs)).trans (congrFun hobjects s).symm
          · cases h

/-- The source file that is tuned first is tuned safely: the other object files
are still those of the initial build. -/
theorem tuneAll_head_safe (ss : List Source) {w : World Source Object Executable}
    (clocks : List (List Clock)) (hverifies : Verifies t w.objects)
    (hversions : ∀ s ∈ ss, w.versions s 0 = w.objects s) :
    ∀ tn ∈ (t.tuneAll limits ss w clocks).head?, tn.Safe t := by
  cases ss with
  | nil => simp [tuneAll]
  | cons s ss =>
      cases clocks with
      | nil => simp [tuneAll]
      | cons clock clocks =>
          intro tn htn
          obtain rfl := Option.some.inj htn
          intro _
          rw [Tuning.InitialVerifies]
          dsimp only
          rw [hversions s List.mem_cons_self, Function.update_eq_self]
          exact hverifies

/-- Every call of a benchmark run that returns true leaves object files behind
that verify, exactly when every source file after the first is tuned safely. -/
theorem runBenchmark_sound_iff (ss : List Source) (w : World Source Object Executable)
    (clocks : List (List Clock)) :
    (∀ tn ∈ t.runBenchmark limits ss w clocks, tn.Sound t) ↔
      ∀ tn ∈ (t.runBenchmark limits ss w clocks).tail, tn.Safe t := by
  rw [runBenchmark]
  split
  · rename_i hbuilt
    obtain ⟨hverifies, hversions⟩ := t.initialMakeAndVerify_spec ss rfl hbuilt
    have hsafe := t.tuneAll_head_safe limits ss clocks hverifies hversions
    have hiff := t.tuneAll_sound_iff limits ss
      (t.initialMakeAndVerify ss { w with numOutVersions := 0 }).2 clocks
    cases hrun : t.tuneAll limits ss
        (t.initialMakeAndVerify ss { w with numOutVersions := 0 }).2 clocks with
    | nil => simp
    | cons tn tns =>
        rw [hrun] at hsafe hiff
        constructor
        · intro hsound tn' htn'
          have hmem := List.mem_cons_of_mem tn htn'
          exact (hiff tn' hmem).mp (hsound tn' hmem)
        · intro htail tn' htn'
          refine (hiff tn' htn').mpr ?_
          rcases List.mem_cons.mp htn' with rfl | hmem
          · exact hsafe tn' rfl
          · exact htail tn' hmem
  · simp

/-- What the condition calls the initial object is that of the initial build. -/
theorem runBenchmark_initial (ss : List Source) (w : World Source Object Executable)
    (clocks : List (List Clock)) : ∀ tn ∈ t.runBenchmark limits ss w clocks,
      tn.start.versions tn.sourceFile 0 =
        (t.initialMakeAndVerify ss { w with numOutVersions := 0 }).2.objects tn.sourceFile := by
  rw [runBenchmark]
  split
  · rename_i hbuilt
    intro tn htn
    obtain ⟨hmem, hinitial⟩ := t.tuneAll_initial limits ss _ clocks tn htn
    rw [hinitial, (t.initialMakeAndVerify_spec ss rfl hbuilt).2 tn.sourceFile hmem]
  · simp

end Toolchain

inductive TwoFiles where
  | first
  | second
  deriving DecidableEq

/-- The compile that lists the opportunities fails for the first file and leaves
no object file; the opportunity in the second file makes no difference. -/
def crashing : Toolchain TwoFiles Nat Unit where
  compile _ _ _ := (true, some 0)
  listOpportunities
    | .first, _, _, _ => (some [], none)
    | .second, _, _, _ => (some [nswOfAdd], some 0)
  make objects := if (objects .first).isSome && (objects .second).isSome then some () else none
  verify _ := true

/-- All fourteen annotator runs on the first file, and one test on the second. -/
def crashingClocks : List (List Clock) := [List.replicate 14 ⟨0, []⟩, [⟨0, [0]⟩]]

/-- The second file is accepted although there is nothing to link it with. -/
theorem not_runBenchmark_sound :
    ¬ ∀ {Source Object Executable : Type} [DecidableEq Source] [DecidableEq Object]
      (t : Toolchain Source Object Executable) (limits : Limits) (ss : List Source)
      (w : World Source Object Executable) (clocks : List (List Clock)),
      ∀ tn ∈ t.runBenchmark limits ss w clocks, tn.Sound t := by
  intro h
  have haccepted : ∃ tn ∈ crashing.runBenchmark .unlimited [.first, .second]
      ⟨fun _ => none, fun _ _ => none, 0, none⟩ crashingClocks,
      ∃ c ∈ tn.calls, c.ReturnsTrue crashing ∧ (c.after crashing).objects .first = none := by
    decide
  obtain ⟨tn, htn, c, hc, hyes, hmissing⟩ := haccepted
  obtain ⟨executable, hmake, -⟩ := h crashing .unlimited _ _ crashingClocks tn htn c hc hyes
  have hnone : crashing.make (c.after crashing).objects = none := by
    show (if ((c.after crashing).objects .first).isSome && _ then some () else none) = none
    rw [hmissing]
    rfl
  rw [hnone] at hmake
  cases hmake

end Petospa

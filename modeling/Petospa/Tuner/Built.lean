import Petospa.Tuner.RoundTrip

/-!
# Which objects come back

The objects that the constructors build and that tuning changes keep the attributes
of their class. Of them a pair comes back if its fields do, a benchmark if it also
has no source files, and nothing else.
-/

namespace Petospa.Serializable

open Text

variable {F : Type}

/-! ### Objects that the tuner builds and uses -/

/-- Give an attribute a new value. -/
def setAttribute (attributes : List (Str × Value F)) (name : Str) (v : Value F) :
    List (Str × Value F) :=
  Dict.modifyEntries name v (fun _ => v) attributes

/-- A source file gets the settled choices of a round and its control string. -/
def tuneSourceFile (choices : List (Value F)) (controlString : Str) : Value F → Value F
  | .object .sourceFile attributes =>
      let settled := match lookup (lit "optimistic_choices") attributes with
        | some (.list before) => before ++ choices
        | _ => choices
      .object .sourceFile (setAttribute
        (setAttribute attributes (lit "optimistic_choices") (.list settled))
        (lit "current_control_string") (.str controlString))
  | v => v

/-- One of the source files of a benchmark is tuned. -/
def tuneBenchmark (n : Nat) (choices : List (Value F)) (controlString : Str) (versions : Int) :
    Value F → Value F
  | .object .benchmark attributes =>
      let files := match lookup (lit "source_files") attributes with
        | some (.list files) => files.modify n (tuneSourceFile choices controlString)
        | _ => []
      .object .benchmark (setAttribute (setAttribute attributes (lit "source_files") (.list files))
        (lit "_num_out_versions") (.int versions))
  | v => v

/-- An experiment counts its annotation runs. -/
def tuneExperiment (run : Int) : Value F → Value F
  | .object .experiment attributes =>
      .object .experiment (setAttribute attributes (lit "annotation_run") (.int run))
  | v => v

/-- A string of code points. -/
def IsStr (s : Str) : Prop := ∀ c ∈ s, c < 0x110000

/-- The values that arguments can have and the objects that are built from them
and tuned. -/
inductive Built [FloatFormat F] : Value F → Prop where
  | none : Built .none
  | bool (b : Bool) : Built (.bool b)
  | int (i : Int) : Built (.int i)
  | float (x : PyFloat F) : Built (.float x)
  | str {s : Str} (h : IsStr s) : Built (.str s)
  | list {items : List (Value F)} (h : ∀ v ∈ items, Built v) : Built (.list items)
  | tuple {items : List (Value F)} (h : ∀ v ∈ items, Built v) : Built (.tuple items)
  | dict {entries : List (Str × Value F)} (nodup : (entries.map Prod.fst).Nodup)
      (keys : ∀ e ∈ entries, IsStr e.1) (h : ∀ e ∈ entries, Built e.2) : Built (.dict entries)
  | optimisticChoice (attributes : List (Str × Value F)) :
      Built (.object .optimisticChoice attributes)
  | init {now : Clock F} {c : ClassName} {arguments : List (Value F)} {v : Value F}
      (h : ∀ a ∈ arguments, Built a) (hinit : c.init now arguments = .ok v) : Built v
  | tuneSourceFile {v : Value F} (h : Built v) {choices : List (List (Str × Value F))}
      {controlString : Str} (hstring : IsStr controlString) :
      Built (tuneSourceFile (choices.map (.object .optimisticChoice)) controlString v)
  | tuneBenchmark {v : Value F} (h : Built v) (n : Nat) {choices : List (List (Str × Value F))}
      {controlString : Str} (hstring : IsStr controlString) (versions : Int) :
      Built (tuneBenchmark n (choices.map (.object .optimisticChoice)) controlString versions v)
  | tuneExperiment {v : Value F} (h : Built v) (run : Int) : Built (tuneExperiment run v)

/-! ### The shape of what is built -/

/-- Every object has the attributes that its constructor gives it. -/
inductive Shaped : Value F → Prop where
  | none : Shaped .none
  | bool (b : Bool) : Shaped (.bool b)
  | int (i : Int) : Shaped (.int i)
  | float (x : PyFloat F) : Shaped (.float x)
  | str {s : Str} (h : IsStr s) : Shaped (.str s)
  | list {items : List (Value F)} (h : ∀ v ∈ items, Shaped v) : Shaped (.list items)
  | tuple {items : List (Value F)} (h : ∀ v ∈ items, Shaped v) : Shaped (.tuple items)
  | dict {entries : List (Str × Value F)} (nodup : (entries.map Prod.fst).Nodup)
      (keys : ∀ e ∈ entries, IsStr e.1) (h : ∀ e ∈ entries, Shaped e.2) : Shaped (.dict entries)
  | optimisticChoice (attributes : List (Str × Value F)) :
      Shaped (.object .optimisticChoice attributes)
  | sourceFile {a b c d f : Value F} {choices : List (Value F)}
      (h : ∀ v ∈ [a, b, c, d, .list choices, f], Shaped v) :
      Shaped (Sourcefile.object a b c d (.list choices) f)
  | inputOutputPair {a b c d e f : Value F} (h : ∀ v ∈ [a, b, c, d, e, f], Shaped v) :
      Shaped (InputOutputPair.init a b c d e f)
  | benchmark {a d e f g i : Value F} {files pairs : List (Value F)} {versions : Int}
      (hfiles : ∀ v ∈ files, ∃ a b c d e f, v = Sourcefile.object a b c d e f)
      (hpairs : ∀ v ∈ pairs, IsPair v) (hoptions : strIterable d = true)
      (h : ∀ v ∈ [a, .list files, .list pairs, d, e, f, g, i], Shaped v) :
      Shaped (Benchmark.object a (.list files) (.list pairs) d e f g i (.int versions))
  | experiment {a b c d e f g : Value F} (h : ∀ v ∈ [a, b, c, d, e, f, g], Shaped v) :
      Shaped (Experiment.object a b c d e f g)

theorem getFileName_subset (path : Str) : getFileName path ⊆ path := by
  intro c hc
  have hbase : ∀ c ∈ (path.reverse.takeWhile (· ≠ ord '/')).reverse, c ∈ path := by
    intro c hc
    exact List.mem_reverse.mp (List.takeWhile_subset _ (List.mem_reverse.mp hc))
  simp only [getFileName] at hc
  split at hc
  · refine hbase c ?_
    have hdrop := List.mem_of_mem_drop (List.mem_reverse.mp hc)
    exact List.mem_reverse.mp (List.dropWhile_subset _ hdrop)
  · exact hbase c hc

theorem Shaped.elements {v : Value F} {items : List (Value F)} (h : Shaped v)
    (hitems : v.elements? = some items) : ∀ item ∈ items, Shaped item := by
  cases h with
  | @str s hs =>
      obtain rfl := Option.some.inj hitems
      intro item hitem
      obtain ⟨c, hc, rfl⟩ := List.mem_map.mp hitem
      refine .str fun d hd => ?_
      rw [List.mem_singleton.mp hd]
      exact hs c hc
  | list hall =>
      obtain rfl := Option.some.inj hitems
      exact hall
  | tuple hall =>
      obtain rfl := Option.some.inj hitems
      exact hall
  | dict nodup keys hall =>
      obtain rfl := Option.some.inj hitems
      intro item hitem
      obtain ⟨e, he, rfl⟩ := List.mem_map.mp hitem
      exact .str (keys e he)
  | _ => cases hitems

theorem Shaped.sourcefile_init [FloatFormat F] {path options onlyFunctions outputFile v : Value F}
    (h : ∀ a ∈ [path, options, onlyFunctions, outputFile], Shaped a)
    (hinit : Sourcefile.init path options onlyFunctions outputFile = .ok v) :
    Shaped v ∧ ∃ a b c d e f, v = Sourcefile.object a b c d e f := by
  simp only [List.forall_mem_cons] at h
  obtain ⟨hpath, hoptions, honly, houtput, -⟩ := h
  unfold Sourcefile.init at hinit
  split at hinit
  · rename_i path
    split at hinit
    · obtain rfl := Except.ok.inj hinit
      refine ⟨.sourceFile ?_, _, _, _, _, _, _, rfl⟩
      have hdefault : Shaped (F := F) (.str (getFileName path ++ lit ".o")) := by
        cases hpath with
        | str hs =>
            refine .str fun c hc => ?_
            cases List.mem_append.mp hc with
            | inl hname => exact hs c (getFileName_subset path hname)
            | inr hext =>
                have hall : ∀ c ∈ lit ".o", c < 0x110000 := by decide
                exact hall c hext
      have hname : Shaped (if outputFile.truthy then outputFile
          else .str (getFileName path ++ lit ".o")) := by
        split
        · exact houtput
        · exact hdefault
      have hempty : Shaped (F := F) (.list []) := .list (by simp)
      have hnone : Shaped (F := F) (.str []) := .str (by simp [IsStr])
      simp only [List.forall_mem_cons]
      exact ⟨hpath, hoptions, honly, hname, hempty, hnone, by simp⟩
    · cases hinit
  · cases hinit

theorem Shaped.benchmark_sourceFile [FloatFormat F] {v w : Value F} (h : Shaped v)
    (hv : Benchmark.sourceFile v = .ok w) :
    Shaped w ∧ ∃ a b c d e f, w = Sourcefile.object a b c d e f := by
  unfold Benchmark.sourceFile at hv
  split at hv
  · obtain rfl := Except.ok.inj hv
    refine ⟨h, ?_⟩
    cases h with
    | sourceFile _ => exact ⟨_, _, _, _, _, _, rfl⟩
  · refine Shaped.sourcefile_init ?_ hv
    have hempty : Shaped (F := F) (.list []) := .list (by simp)
    have hnone : Shaped (F := F) (.str []) := .str (by simp [IsStr])
    simp only [List.forall_mem_cons]
    exact ⟨h, hempty, hempty, hnone, by simp⟩
  · cases hv

theorem Shaped.appendAll_sourceFile [FloatFormat F] {files v : Value F} (h : Shaped files)
    (hv : Benchmark.appendAll files Benchmark.sourceFile = .ok v) :
    ∃ items, v = .list items ∧
      ∀ w ∈ items, Shaped w ∧ ∃ a b c d e f, w = Sourcefile.object a b c d e f := by
  unfold Benchmark.appendAll at hv
  split at hv
  · rename_i items hitems
    simp only [Except.bind_eq_ok_iff, Except.pure_eq_ok_iff] at hv
    obtain ⟨items', hmap, rfl⟩ := hv
    refine ⟨items', rfl, fun w hw => ?_⟩
    obtain ⟨x, hx, hxw⟩ := Except.exists_of_mem_of_mapM_eq_ok hmap hw
    exact (h.elements hitems x hx).benchmark_sourceFile hxw
  · cases hv

theorem Shaped.benchmark_init [FloatFormat F] {a b c d e f g i v : Value F}
    (h : ∀ x ∈ [a, b, c, d, e, f, g, i], Shaped x)
    (hinit : Benchmark.init a b c d e f g i = .ok v) : Shaped v := by
  simp only [List.forall_mem_cons] at h
  obtain ⟨ha, hb, hc, hd, he, hf, hg, hi, -⟩ := h
  unfold Benchmark.init at hinit
  split at hinit
  · rename_i hoptions
    simp only [Except.bind_eq_ok_iff, Except.pure_eq_ok_iff] at hinit
    obtain ⟨files, hfiles, pairs, hpairs, rfl⟩ := hinit
    obtain ⟨fileItems, rfl, hfileItems⟩ := hb.appendAll_sourceFile hfiles
    obtain ⟨pairItems, helements, rfl, hpairItems⟩ := appendAll_ioPair hpairs
    refine .benchmark (fun w hw => (hfileItems w hw).2) hpairItems hoptions ?_
    simp only [List.forall_mem_cons]
    exact ⟨ha, .list fun w hw => (hfileItems w hw).1, .list (he.elements helements), hc, hd, hi,
      hf, hg, by simp⟩
  · cases hinit

theorem shaped_of_map {time : Except PyError (PyFloat F)} {v : Value F}
    (h : (do return .float (← time)) = Except.ok v) : Shaped v := by
  simp only [Except.bind_eq_ok_iff, Except.pure_eq_ok_iff] at h
  obtain ⟨x, -, rfl⟩ := h
  exact .float x

theorem Shaped.experiment_init [FloatFormat F] {now : Clock F} {a b c d e v : Value F}
    (h : ∀ x ∈ [a, b, c, d, e], Shaped x) (hinit : Experiment.init now a b c d e = .ok v) :
    Shaped v := by
  simp only [List.forall_mem_cons] at h
  obtain ⟨ha, hb, hc, hd, he, -⟩ := h
  simp only [Experiment.init, Except.bind_eq_ok_iff, Except.pure_eq_ok_iff] at hinit
  obtain ⟨timeEnd, htime, rfl⟩ := hinit
  have htimeEnd : Shaped timeEnd := by
    unfold Experiment.timeEnd at htime
    split at htime
    · split at htime
      · exact shaped_of_map htime
      · exact shaped_of_map htime
      · exact shaped_of_map htime
      · cases htime
    · exact Except.ok.inj htime ▸ .none
  refine .experiment ?_
  simp only [List.forall_mem_cons]
  refine ⟨ha, hb, hc, htimeEnd, ?_, ?_, .int 0, by simp⟩
  · split
    · exact hd
    · exact .list (by simpa using hd)
  · split
    · exact .none
    · exact he

theorem Shaped.init [FloatFormat F] {now : Clock F} {c : ClassName} {arguments : List (Value F)}
    {v : Value F} (h : ∀ a ∈ arguments, Shaped a) (hinit : c.init now arguments = .ok v) :
    Shaped v := by
  unfold ClassName.init at hinit
  split at hinit
  · exact (Shaped.sourcefile_init h hinit).1
  · obtain rfl := Except.ok.inj hinit
    exact .inputOutputPair h
  · exact Shaped.benchmark_init h hinit
  · exact Shaped.experiment_init h hinit
  · cases hinit

/-! ### Tuning -/

section Tuning

variable (choices : List (List (Str × Value F))) {controlString : Str}

/-- The choices as values. -/
abbrev asValues : List (Value F) := choices.map (.object .optimisticChoice)

theorem Shaped.tuneSourceFile {v : Value F} (h : Shaped v) (hstring : IsStr controlString) :
    Shaped (tuneSourceFile (asValues choices) controlString v) := by
  have hsame := h
  cases h with
  | @sourceFile a b c d f before h =>
      change Shaped (Sourcefile.object a b c d (.list (before ++ asValues choices))
        (.str controlString))
      simp only [List.forall_mem_cons] at h
      obtain ⟨ha, hb, hc, hd, hbefore, -, -⟩ := h
      refine .sourceFile ?_
      simp only [List.forall_mem_cons]
      refine ⟨ha, hb, hc, hd, .list fun v hv => ?_, .str hstring, by simp⟩
      cases hbefore with
      | list hall =>
          cases List.mem_append.mp hv with
          | inl hmem => exact hall v hmem
          | inr hmem =>
              obtain ⟨attributes, -, rfl⟩ := List.mem_map.mp hmem
              exact .optimisticChoice attributes
  | _ => exact hsame

theorem isSourceFile_tuneSourceFile (cs : List (Value F)) (s : Str) {v : Value F}
    (h : ∃ a b c d e f, v = Sourcefile.object a b c d e f) :
    ∃ a b c d e f, tuneSourceFile cs s v = Sourcefile.object a b c d e f := by
  obtain ⟨a, b, c, d, e, f, rfl⟩ := h
  exact ⟨a, b, c, d, _, _, rfl⟩

theorem forall_mem_modify {α : Type*} {P : α → Prop} {f : α → α} {l : List α}
    (h : ∀ x ∈ l, P x) (hf : ∀ x ∈ l, P (f x)) (n : Nat) : ∀ x ∈ l.modify n f, P x := by
  intro x hx
  obtain ⟨i, hi, rfl⟩ := List.mem_iff_getElem.mp hx
  rw [List.length_modify] at hi
  rw [List.getElem_modify]
  split
  · exact hf _ (List.getElem_mem hi)
  · exact h _ (List.getElem_mem hi)

theorem Shaped.tuneBenchmark {v : Value F} (h : Shaped v) (hstring : IsStr controlString) (n : Nat)
    (versions : Int) :
    Shaped (tuneBenchmark n (asValues choices) controlString versions v) := by
  have hsame := h
  cases h with
  | @benchmark a d e f g i files pairs before hfiles hpairs hoptions h =>
      change Shaped (Benchmark.object a
        (.list (files.modify n (Serializable.tuneSourceFile (asValues choices) controlString)))
        (.list pairs) d e f g i (.int versions))
      simp only [List.forall_mem_cons] at h
      obtain ⟨ha, hshaped, hrest⟩ := h
      have hfiles' : ∀ v ∈ files, Shaped v := by
        cases hshaped with
        | list hall => exact hall
      have hmodified := forall_mem_modify hfiles (fun v hv =>
        isSourceFile_tuneSourceFile (asValues choices) controlString (hfiles v hv)) n
      refine .benchmark hmodified hpairs hoptions ?_
      simp only [List.forall_mem_cons]
      exact ⟨ha, .list (forall_mem_modify hfiles' (fun v hv =>
        (hfiles' v hv).tuneSourceFile choices hstring) n), hrest⟩
  | _ => exact hsame

theorem Shaped.tuneExperiment {v : Value F} (h : Shaped v) (run : Int) :
    Shaped (tuneExperiment run v) := by
  have hsame := h
  cases h with
  | @experiment a b c d e f g h =>
      change Shaped (Experiment.object a b c d e f (.int run))
      simp only [List.forall_mem_cons] at h
      obtain ⟨ha, hb, hc, hd, he, hf, -, -⟩ := h
      refine .experiment ?_
      simp only [List.forall_mem_cons]
      exact ⟨ha, hb, hc, hd, he, hf, .int run, by simp⟩
  | _ => exact hsame

end Tuning

/-- What is built and used has the shape of its class. -/
theorem Built.shaped [FloatFormat F] {v : Value F} (h : Built v) : Shaped v := by
  induction h with
  | none => exact .none
  | bool b => exact .bool b
  | int i => exact .int i
  | float x => exact .float x
  | str hs => exact .str hs
  | list _ ih => exact .list ih
  | tuple _ ih => exact .tuple ih
  | dict nodup keys _ ih => exact .dict nodup keys ih
  | optimisticChoice attributes => exact .optimisticChoice attributes
  | init _ hinit ih => exact Shaped.init ih hinit
  | tuneSourceFile _ hstring ih => exact ih.tuneSourceFile _ hstring
  | tuneBenchmark _ n hstring versions ih => exact ih.tuneBenchmark _ hstring n versions
  | tuneExperiment _ run ih => exact ih.tuneExperiment run

/-! ### What is written is text -/

theorem isTextItems {items : List (Value F)} {documents : List (Json F)}
    (h : ∀ v ∈ items, ∀ d, encode v = .ok d → d.IsText)
    (hwritten : encodeItems items = .ok documents) : Json.IsTextItems documents := by
  induction items generalizing documents with
  | nil =>
      obtain rfl := Except.ok.inj hwritten
      exact trivial
  | cons v items ih =>
      simp only [encodeItems, Except.bind_eq_ok_iff, Except.pure_eq_ok_iff] at hwritten
      obtain ⟨d, hd, ds, hds, rfl⟩ := hwritten
      rw [List.forall_mem_cons] at h
      exact ⟨h.1 d hd, ih h.2 hds⟩

theorem isTextMembers {entries : List (Str × Value F)} {members : List (Str × Json F)}
    (h : ∀ e ∈ entries, IsStr e.1 ∧ ∀ d, encode e.2 = .ok d → d.IsText)
    (hwritten : encodeEntries entries = .ok members) : Json.IsTextMembers members := by
  induction entries generalizing members with
  | nil =>
      obtain rfl := Except.ok.inj hwritten
      exact trivial
  | cons e entries ih =>
      obtain ⟨k, v⟩ := e
      simp only [encodeEntries, Except.bind_eq_ok_iff, Except.pure_eq_ok_iff] at hwritten
      obtain ⟨d, hd, ds, hds, rfl⟩ := hwritten
      rw [List.forall_mem_cons] at h
      exact ⟨h.1.1, h.1.2 d hd, ih h.2 hds⟩

/-- The document of an object is text if its public fields are. -/
theorem isText_object {c : ClassName} {type : Str} {attributes : List (Str × Value F)} {d : Json F}
    (keys : List Str) {vs : List (Value F)} (htype : c.type = some type)
    (hencode : encodeAttributes attributes = encodeEntries (keys.zip vs))
    (hkeys : ∀ k ∈ typeKey :: type :: keys, IsStr k)
    (h : ∀ v ∈ vs, ∀ d, encode v = .ok d → d.IsText)
    (hwritten : encode (.object c attributes) = .ok d) : d.IsText := by
  simp only [List.forall_mem_cons] at hkeys
  simp only [encode, htype, hencode, Except.bind_eq_ok_iff, Except.pure_eq_ok_iff] at hwritten
  obtain ⟨members, hmembers, rfl⟩ := hwritten
  refine ⟨hkeys.1, hkeys.2.1, isTextMembers (fun e he => ?_) hmembers⟩
  have hmem := List.of_mem_zip he
  exact ⟨hkeys.2.2 e.1 hmem.1, h e.2 hmem.2⟩

theorem Shaped.isText {v : Value F} (h : Shaped v) : ∀ d, encode v = .ok d → d.IsText := by
  induction h with
  | none =>
      intro d hd
      obtain rfl := Except.ok.inj hd
      exact trivial
  | bool b =>
      intro d hd
      obtain rfl := Except.ok.inj hd
      exact trivial
  | int i =>
      intro d hd
      obtain rfl := Except.ok.inj hd
      exact trivial
  | float x =>
      intro d hd
      obtain rfl := Except.ok.inj hd
      exact trivial
  | str hs =>
      intro d hd
      obtain rfl := Except.ok.inj hd
      exact hs
  | list _ ih =>
      intro d hd
      simp only [encode, Except.bind_eq_ok_iff, Except.pure_eq_ok_iff] at hd
      obtain ⟨documents, hdocuments, rfl⟩ := hd
      exact isTextItems ih hdocuments
  | tuple _ ih =>
      intro d hd
      simp only [encode, Except.bind_eq_ok_iff, Except.pure_eq_ok_iff] at hd
      obtain ⟨documents, hdocuments, rfl⟩ := hd
      exact isTextItems ih hdocuments
  | dict nodup keys _ ih =>
      intro d hd
      simp only [encode, Except.bind_eq_ok_iff, Except.pure_eq_ok_iff] at hd
      obtain ⟨members, hmembers, rfl⟩ := hd
      exact isTextMembers (fun e he => ⟨keys e he, ih e he⟩) hmembers
  | optimisticChoice attributes =>
      intro d hd
      cases hd
  | @sourceFile a b c d f choices _ ih =>
      intro document
      exact isText_object [lit "path", lit "options", lit "only_functions", lit "output_file",
        lit "optimistic_choices", lit "current_control_string"] rfl rfl (by unfold IsStr; decide) ih
  | inputOutputPair _ ih =>
      intro d
      exact isText_object pairKeys rfl rfl (by unfold IsStr; decide) ih
  | benchmark _ _ _ _ ih =>
      intro d
      exact isText_object benchmarkKeys rfl rfl (by unfold IsStr; decide) ih
  | experiment _ ih =>
      intro d
      exact isText_object [lit "benchmark_files", lit "max_tries", lit "max_time", lit "time_end",
        lit "oc_blacklist", lit "oc_whitelist", lit "annotation_run"] rfl rfl
        (by unfold IsStr; decide) ih

/-! ### What comes back -/

theorem forall_and_not_exists {α : Type*} {P Q : α → Prop} {l : List α} :
    ((∀ x ∈ l, P x) ∧ ¬ ∃ x ∈ l, Q x) ↔ ∀ x ∈ l, P x ∧ ¬ Q x := by
  simp only [not_exists, not_and, ← forall_and]

theorem hasNaN_inputOutputPair (a b c d e f : Value F) :
    HasNaN (InputOutputPair.init a b c d e f) ↔ ∃ v ∈ [a, b, c, d, e, f], HasNaN v := by
  change HasNaN (.object _ (pairKeys.zip [a, b, c, d, e, f] ++ [])) ↔ _
  exact hasNaN_object rfl (by decide) (by simp)

theorem hasNaN_benchmark (a b c d e f g h i : Value F) :
    HasNaN (Benchmark.object a b c d e f g h i) ↔ ∃ v ∈ [a, b, c, d, e, f, g, h], HasNaN v := by
  change HasNaN (.object _ (benchmarkKeys.zip [a, b, c, d, e, f, g, h] ++
    [(lit "_num_out_versions", i)])) ↔ _
  refine hasNaN_object rfl (by decide) fun e he => ?_
  rw [List.mem_singleton.mp he]
  rfl

/-- A string in which no two characters make a surrogate pair. -/
def Unpaired (s : Str) : Prop := s.IsChain fun high low => ¬ (Json.IsHigh high ∧ Json.IsLow low)

/-- Values without tuples and NaN, objects without attributes of their own. -/
inductive Faithful : Value F → Prop where
  | none : Faithful .none
  | bool (b : Bool) : Faithful (.bool b)
  | int (i : Int) : Faithful (.int i)
  | float {x : PyFloat F} (h : x ≠ .nan) : Faithful (.float x)
  | str {s : Str} (h : Unpaired s) : Faithful (.str s)
  | list {items : List (Value F)} (h : ∀ v ∈ items, Faithful v) : Faithful (.list items)
  | dict {entries : List (Str × Value F)} (untyped : typeKey ∉ entries.map Prod.fst)
      (keys : ∀ e ∈ entries, Unpaired e.1) (h : ∀ e ∈ entries, Faithful e.2) :
      Faithful (.dict entries)
  | inputOutputPair {a b c d e f : Value F} (h : ∀ v ∈ [a, b, c, d, e, f], Faithful v) :
      Faithful (InputOutputPair.init a b c d e f)
  | benchmark {a c d e f g i versions : Value F}
      (h : ∀ v ∈ [a, .list [], c, d, e, f, g, i], Faithful v) :
      Faithful (Benchmark.object a (.list []) c d e f g i versions)

/-- The public fields are equal, recursively. A NaN is not equal to itself. -/
def SameFields (v' v : Value F) : Prop := publicPart v' = publicPart v ∧ ¬ HasNaN v

section RoundTrip

variable [FloatFormat F]

/-- `from_json` of the text of `to_json` succeeds and has the same public fields. -/
def RoundTrips (now : Clock F) (v : Value F) : Prop :=
  ∃ text v', toJson v = .ok text ∧ fromJson now text = .ok v' ∧ SameFields v' v

variable {now : Clock F} {v : Value F}

theorem roundTrips_iff_returns (h : Shaped v) :
    RoundTrips now v ↔ Returns now v ∧ ¬ HasNaN v := by
  constructor
  · rintro ⟨text, v', hwritten, hread, hsame, hnan⟩
    simp only [toJson, Except.bind_eq_ok_iff, Except.pure_eq_ok_iff] at hwritten
    obtain ⟨document, hdocument, rfl⟩ := hwritten
    rw [fromJson, Json.loads_dumps (h.isText document hdocument)] at hread
    exact ⟨⟨v', ⟨document, hdocument, hread⟩, hsame⟩, hnan⟩
  · rintro ⟨⟨v', ⟨document, hdocument, hread⟩, hsame⟩, hnan⟩
    refine ⟨Json.dumps document, v', by simp [toJson, hdocument], ?_, hsame, hnan⟩
    rw [fromJson, Json.loads_dumps (h.isText document hdocument)]
    exact hread

theorem returns_str {s : Str} : Returns now (.str s) ↔ Unpaired s := by
  rw [Unpaired, ← Json.joined_eq_self_iff]
  constructor
  · rintro ⟨v', ⟨document, hdocument, hread⟩, hsame⟩
    obtain rfl := Except.ok.inj hdocument
    obtain rfl := Except.ok.inj hread
    exact Value.str.inj hsame
  · intro h
    exact ⟨.str s, ⟨.str s, rfl, congrArg (fun t => Except.ok (Value.str t)) h⟩, rfl⟩

/-- A value comes back with nothing that differs from itself. -/
theorem returns_and_iff_faithful (h : Shaped v) : Returns now v ∧ ¬ HasNaN v ↔ Faithful v := by
  induction h with
  | none => exact iff_of_true ⟨⟨.none, ⟨.null, rfl, rfl⟩, rfl⟩, nofun⟩ .none
  | bool b => exact iff_of_true ⟨⟨.bool b, ⟨.bool b, rfl, rfl⟩, rfl⟩, nofun⟩ (.bool b)
  | int i => exact iff_of_true ⟨⟨.int i, ⟨.int i, rfl, rfl⟩, rfl⟩, nofun⟩ (.int i)
  | float x =>
      have hreturns : Returns now (.float x) := ⟨.float x, ⟨.float x, rfl, rfl⟩, rfl⟩
      constructor
      · rintro ⟨-, hnan⟩
        exact .float fun hx => hnan (hx ▸ .nan)
      · intro h
        cases h with
        | float hx =>
            refine ⟨hreturns, fun hnan => ?_⟩
            cases hnan
            exact hx rfl
  | str hs =>
      rw [returns_str]
      constructor
      · exact fun h => .str h.1
      · intro h
        cases h with
        | str h => exact ⟨h, nofun⟩
  | list _ ih =>
      rw [returns_list, hasNaN_list, forall_and_not_exists, forall₂_congr ih]
      constructor
      · exact .list
      · intro h
        cases h with
        | list h => exact h
  | tuple _ _ =>
      refine iff_of_false (fun h => not_returns_tuple _ h.1) ?_
      intro h
      cases h
  | dict nodup _ _ ih =>
      rw [returns_dict nodup, hasNaN_dict]
      constructor
      · rintro ⟨⟨untyped, hentries⟩, hnan⟩
        exact .dict untyped (fun e he => Json.joined_eq_self_iff.mp (hentries e he).1)
          fun e he => (ih e he).mp ⟨(hentries e he).2, fun h => hnan ⟨e, he, h⟩⟩
      · intro h
        cases h with
        | dict untyped keys h =>
            have hentry := fun e he => (ih e he).mpr (h e he)
            exact ⟨⟨untyped, fun e he => ⟨Json.joined_eq_self_iff.mpr (keys e he),
              (hentry e he).1⟩⟩, fun ⟨e, he, hnan⟩ => (hentry e he).2 hnan⟩
  | optimisticChoice attributes =>
      refine iff_of_false ?_ ?_
      · rintro ⟨⟨_, ⟨_, hdocument, -⟩, -⟩, -⟩
        cases hdocument
      · intro h
        cases h
  | sourceFile _ _ =>
      refine iff_of_false ?_ ?_
      · rintro ⟨⟨v', hread, -⟩, -⟩
        exact not_readAs_sourceFile _ _ _ _ _ _ v' hread
      · intro h
        cases h
  | inputOutputPair _ ih =>
      rw [returns_inputOutputPair, hasNaN_inputOutputPair, forall_and_not_exists, forall₂_congr ih]
      constructor
      · exact .inputOutputPair
      · intro h
        cases h with
        | inputOutputPair h => exact h
  | benchmark hfiles hpairs hoptions _ ih =>
      rw [returns_benchmark _ _ _ _ _ _ _ hfiles hpairs hoptions, hasNaN_benchmark, and_assoc,
        forall_and_not_exists, forall₂_congr ih]
      constructor
      · rintro ⟨rfl, h⟩
        exact .benchmark h
      · intro h
        cases h with
        | benchmark h => exact ⟨rfl, h⟩
  | experiment _ _ =>
      refine iff_of_false ?_ ?_
      · rintro ⟨⟨v', hread, -⟩, -⟩
        exact not_readAs_experiment _ _ _ _ _ _ _ v' hread
      · intro h
        cases h

/-- The objects that come back, at whatever time they are read. -/
theorem to_json_from_json_iff {c : ClassName} {attributes : List (Str × Value F)}
    (h : Built (.object c attributes)) (now : Clock F) :
    RoundTrips now (.object c attributes) ↔ Faithful (.object c attributes) :=
  (roundTrips_iff_returns h.shaped).trans (returns_and_iff_faithful h.shaped)

end RoundTrip

/-! ### Numbers with a half -/

/-- The number in the middle between two integers, as far as floating-point numbers
have it and write it without an exponent. -/
structure Half where
  floor : Fin (2 ^ 52)

namespace Half

def text (x : Half) : Json.FloatText where
  negative := false
  whole := Json.digits x.floor
  fraction := lit ".5"
  exponent := []
  isWhole := Json.isWhole_digits x.floor
  isFraction := .inr ⟨[ord '5'], rfl, by decide, by decide⟩
  isExponent := .inl rfl
  isFloat := by decide

/-- A text that is no such number counts as none. -/
def read (text : Str) : PyFloat Half :=
  let whole := Json.wholePart text
  if h : Json.number whole < 2 ^ 52 ∧ text.drop whole.length = lit ".5" then
    .finite ⟨⟨Json.number whole, h.1⟩⟩
  else .nan

theorem read_text (x : Half) : read x.text.text = .finite x := by
  have htext : x.text.text = Json.digits x.floor ++ lit ".5" := by
    simp [text, Json.FloatText.text, Json.signText]
  have hpoint : Json.NoDigit (lit ".5") := by
    intro c hc
    obtain rfl := Option.some.inj hc
    decide
  rw [htext, read]
  simp [Json.wholePart_append (Json.isWhole_digits x.floor) hpoint, Json.number_digits]

instance : FloatFormat Half where
  isZero _ := false
  repr := text
  float := read
  float_repr := read_text

/-- A clock that does not move. -/
def clock : Clock Half := fun _ => .ok (.finite ⟨0⟩)

end Half

/-- A pair with an argument, an expected output and a timeout of one and a half seconds. -/
theorem to_json_from_json_pair : RoundTrips Half.clock (InputOutputPair.init
    (.list [.str (lit "-s")]) (.str (lit "out.txt")) (.float (.finite ⟨1⟩)) (.int 0) (.bool true)
    (.bool true)) := by
  have hbuilt : ∀ v ∈ [Value.list [.str (lit "-s")], .str (lit "out.txt"),
      .float (.finite (Half.mk 1)), .int 0, .bool true, .bool true], Built v := by
    simp only [List.forall_mem_cons]
    exact ⟨.list (by simpa using .str (by unfold IsStr; decide)), .str (by unfold IsStr; decide),
      .float _, .int 0, .bool true, .bool true, by simp⟩
  refine (to_json_from_json_iff
    (@Built.init Half _ Half.clock .inputOutputPair _ _ hbuilt rfl) Half.clock).mpr ?_
  have hinput : Unpaired (lit "-s") := by
    unfold Unpaired
    decide
  have houtput : Unpaired (lit "out.txt") := by
    unfold Unpaired
    decide
  refine .inputOutputPair ?_
  simp only [List.forall_mem_cons]
  exact ⟨.list (by simpa using .str hinput), .str houtput, .float nofun, .int 0, .bool true,
    .bool true, by simp⟩

/-- A source file is written with its choices, which its constructor does not take. -/
theorem not_all_round_trip : ¬ ∀ (now : Clock Half) (c : ClassName)
    (attributes : List (Str × Value Half)), c ≠ .optimisticChoice →
    Built (.object c attributes) → RoundTrips now (.object c attributes) := by
  intro hall
  have harguments : ∀ v ∈ [Value.str (lit "main.c"), .list [], .list [], .str []],
      Built (F := Half) v := by
    simp only [List.forall_mem_cons]
    exact ⟨.str (by unfold IsStr; decide), .list (by simp), .list (by simp),
      .str (by simp [IsStr]), by simp⟩
  have hbuilt : Built (F := Half) (Sourcefile.object (.str (lit "main.c")) (.list []) (.list [])
      (.str (lit "main.o")) (.list []) (.str [])) :=
    @Built.init Half _ Half.clock .sourceFile _ _ harguments (by rfl)
  have hreturns := (roundTrips_iff_returns hbuilt.shaped).mp
    (hall Half.clock _ _ (by decide) hbuilt)
  obtain ⟨⟨v', hread, -⟩, -⟩ := hreturns
  exact not_readAs_sourceFile _ _ _ _ _ _ v' hread

end Petospa.Serializable

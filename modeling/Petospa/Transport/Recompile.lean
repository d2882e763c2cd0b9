import Petospa.Annotator.Reading
import Petospa.Transport.Rewriting
import Petospa.Transport.Replay

/-!
# Recompiling the annotated source

A compiler run under the control string reads the settled choices in by function
number, whenever the function is created; a run of the annotated source reads
them in by function name, for the functions of the first instance. The answers
are the same if names and numbers select the same choices for every function
that is asked about.
-/

namespace Petospa

open Text Transducer

variable {Fn : Type} [DecidableEq Fn] {name : Fn → Str} {opts : Options}

/-! ### The first instance -/

/-- The strings that are found, as groups. -/
structure Found (annotations : Str → Option Str) (groups : Str → Option (List (Int × Str))) :
    Prop where
  literal : ∀ n, annotations n = (groups n).map encodeGroups
  valid : ∀ n gs, groups n = some gs → ∀ g ∈ gs, ValidGroup g

/-- The entries that a name finds for a kind. -/
def foundEntries (groups : Str → Option (List (Int × Str))) (n : Str)
    (kind : OptimisticChoiceKind) : List Nat := groupEntries kind ((groups n).getD [])

theorem functionsSeen_seenEvents (inst : Nat) (fs : List Fn) :
    functionsSeen (seenEvents inst fs) = fs.foldl number [] := by
  have hinitial : Tracks .empty [] (Annotator.initial .empty : Annotator Fn) :=
    Annotator.initial_tracks .empty
  have h := (hinitial.foldl_see inst fs).functions
  rw [List.append_nil, foldl_see_eq] at h
  exact h.symm

/-- What the functions that are read in add to the map of a kind and number. -/
def readEntries (name : Fn → Str) (groups : Str → Option (List (Int × Str))) (functions : List Fn)
    (loaded : List Fn) (kind : OptimisticChoiceKind) (fnNo : Nat) : List Nat :=
  loaded.flatMap fun f =>
    if fnNo = functions.idxOf f then foundEntries groups (searchAndReplace (name f)) kind else []

/-- The first instance reads the embedded choices in. -/
theorem readEmbedded_first {annotations : Str → Option Str}
    {groups : Str → Option (List (Int × Str))} (hfound : Found annotations groups)
    (unused : Fn → Bool) (fs : List Fn) (st : Annotator Fn) :
    readEmbedded name annotations 0 unused fs st =
      .ok { (fs.filter (isRead name annotations unused)).foldl Annotator.see st with
        choiceMaps := fun kind n => st.choiceMaps kind n ++ readEntries name groups
          ((fs.filter (isRead name annotations unused)).foldl number st.allFunctions)
          (fs.filter (isRead name annotations unused)) kind n } := by
  induction fs generalizing st with
  | nil =>
      rw [readEmbedded]
      simp [readEntries]
  | cons f fs ih =>
      have hliteral := hfound.literal (searchAndReplace (name f))
      cases hread : isRead name annotations unused f with
      | false =>
          rw [readEmbedded_of_not_isRead hread, List.filter_cons_of_neg (by simp [hread]), ih]
      | true =>
          obtain ⟨hunused, cs, hcs⟩ := isRead_iff.mp hread
          obtain ⟨gs, hgroups, rfl⟩ := Option.map_eq_some_iff.mp (hliteral.symm.trans hcs)
          have hvalid := hfound.valid _ gs hgroups
          have hascii : ∀ c ∈ encodeGroups gs, c < 128 := fun c hc =>
            lt_of_mem_encodeGroups hvalid hc
          have hno : ((fs.filter (isRead name annotations unused)).foldl number
              (number st.allFunctions f)).idxOf f = (number st.allFunctions f).idxOf f := by
            obtain ⟨later, hlater⟩ := foldl_number_isPrefix
              (fs.filter (isRead name annotations unused)) (number st.allFunctions f)
            rw [← hlater, List.idxOf_append_of_mem (mem_number.mpr (.inr rfl))]
          rw [List.filter_cons_of_pos hread, readEmbedded]
          simp only [hunused, hcs, Bool.false_eq_true, if_false, Nat.lt_irrefl,
            fsencode_ascii hascii, scanEmbedded_encodeGroups hvalid, bind, Except.bind]
          rw [ih, foldl_see_eq, foldl_see_eq, Annotator.see_eq]
          simp only [List.foldl_cons, Annotator.functionNo]
          congr 2
          funext kind n
          rw [readEntries, readEntries, List.flatMap_cons, hno, foundEntries, hgroups,
            Option.getD_some, List.append_assoc]
          rfl

theorem flatMap_ite_eq {α β : Type*} [DecidableEq α] {l : List α} (hl : l.Nodup) (a : α)
    (g : α → List β) :
    l.flatMap (fun x => if a = x then g x else []) = if a ∈ l then g a else [] := by
  induction l with
  | nil => rfl
  | cons x l ih =>
      obtain ⟨hfresh, htail⟩ := List.nodup_cons.mp hl
      rw [List.flatMap_cons, ih htail]
      by_cases ha : a = x
      · subst ha
        simp [hfresh]
      · simp [ha]

/-- A function finds the entries of its name if it was read in, and else nothing. -/
theorem readEntries_idxOf {groups : Str → Option (List (Int × Str))} {functions loaded : List Fn}
    (hloaded : loaded.Nodup) {f : Fn} (hf : f ∈ functions) (kind : OptimisticChoiceKind) :
    readEntries name groups functions loaded kind (functions.idxOf f) =
      if f ∈ loaded then foundEntries groups (searchAndReplace (name f)) kind else [] := by
  have hsame : ∀ g, functions.idxOf f = functions.idxOf g ↔ f = g := by
    intro g
    constructor
    · exact idxOf_injective hf
    · rintro rfl
      rfl
  rw [readEntries]
  simp only [hsame]
  exact flatMap_ite_eq hloaded f _

/-! ### A compiler run -/

/-- The entry of a function under its number in a whole run. -/
def byNumber (maps : ChoiceMaps) (functions : List Fn) (kind : OptimisticChoiceKind) (f : Fn)
    (pos : Nat) : Nat := (maps kind (functions.idxOf f)).getD pos 0

theorem looks_byNumber (maps : ChoiceMaps) (functions : List Fn) :
    Looks (byNumber maps functions) maps functions := fun _ _ _ _ => rfl

/-- The run whose first instance reads the given maps in. -/
theorem compile_eq {annotations : Str → Option Str} {groups : Str → Option (List (Int × Str))}
    (hfound : Found annotations groups) (hannotates : opts.annotates 0 = true)
    {controlString : Str} {stage : Stage Fn} {maps : ChoiceMaps}
    (hmaps : decode (readEntries name groups
      ((stage.seen name annotations).foldl number [])
      (stage.functions.filter (isRead name annotations stage.unused))) controlString = .ok maps)
    (stages : List (Stage Fn)) :
    compiledValues name annotations opts controlString (stage :: stages) =
      .ok (answeredFrom (byNumber maps
        (functionsSeen (runEvents name annotations opts 0 (stage :: stages)))) opts 0 []
          (stage :: stages)) := by
  have hevents : runEvents name annotations opts 0 (stage :: stages) =
      runEvents name annotations opts 1 stages ++ stage.events name annotations 0 := by
    rw [runEvents, if_pos hannotates]
  rw [hevents]
  have hlook := looks_byNumber maps (functionsSeen
    (runEvents name annotations opts 1 stages ++ stage.events name annotations 0))
  -- The functions are seen and the maps are loaded before the first query.
  have hinitial : Tracks .empty [] (Annotator.initial .empty : Annotator Fn) :=
    Annotator.initial_tracks .empty
  have hseen := hinitial.foldl_see 0 (stage.seen name annotations)
  rw [List.append_nil] at hseen
  have hloaded := hseen.load maps
  have hnone : Reads (byNumber maps (functionsSeen (runEvents name annotations opts 1 stages ++
      stage.events name annotations 0))) maps ([] : List (Timed Fn)) [] :=
    ⟨fun _ _ => rfl, fun _ _ => rfl⟩
  have hreads := hnone.seen 0 (stage.seen name annotations)
  rw [List.append_nil] at hreads
  obtain ⟨st', answers, hall, htracks', hreads', hvalues⟩ :=
    answerAll_eq opts hlook stage.queries hloaded hreads
      (functionsSeen_isPrefix _ _)
  have hrun : runOnModule name annotations opts controlString 0 stage (.initial .empty) =
      .ok (st', answers) := by
    rw [runOnModule, if_pos hannotates]
    simp only [initializeChoiceMaps, readEmbedded_first hfound, bind, Except.bind, pure,
      Except.pure, Nat.lt_irrefl, if_false]
    rw [Stage.seen, List.foldl_append] at hmaps hall
    simp only [foldl_see_eq, Annotator.initial, ChoiceMaps.empty, List.nil_append] at hmaps hall ⊢
    simp only [hmaps]
    exact congrArg Except.ok hall
  obtain ⟨rest, hrest, hrestValues⟩ := runInstances_later Nat.zero_lt_one controlString hlook
    htracks' hreads' (List.prefix_refl _)
  rw [compiledValues, compile, runInstances, hrun]
  show Except.map _ (do
    let rest ← runInstances _ _ _ _ _ _ st'
    Except.ok (answers :: rest) : Except Fault _) = _
  rw [hrest, answeredFrom, if_pos hannotates, ← hvalues, ← hrestValues]
  rfl

/-! ### Names and numbers -/

/-- The string that `writeControl` writes for a function, given what it collected. -/
def annotationOf (f2c2cs : FunctionStrings) (n : Str) : Option Str :=
  (f2c2cs.get? n).bind fun c2cs => (glue c2cs.entries [] []).toOption

theorem found_none : Found (fun _ => none) fun _ => none where
  literal := fun _ => rfl
  valid := by
    intro n gs h
    cases h

theorem Collected.found {f2c2cs : FunctionStrings} {ocs : List OptimisticChoice}
    (h : Collected f2c2cs ocs) (hocs : ∀ oc ∈ ocs, oc.Embeddable) :
    Found (annotationOf f2c2cs) fun n => (f2c2cs.get? n).map Dict.entries := by
  have hvalid : ∀ n c2cs, f2c2cs.get? n = some c2cs → ∀ g ∈ c2cs.entries, ValidGroup g :=
    fun n c2cs hget g hg => h.validGroup hocs (Dict.mem_of_get? hget) hg
  constructor
  · intro n
    rw [annotationOf]
    cases hget : f2c2cs.get? n with
    | none => rfl
    | some c2cs =>
        have hkinds : ∀ g ∈ c2cs.entries, 0 ≤ g.1 := by
          intro g hg
          have := (hvalid n c2cs hget g hg).one_le_kind
          omega
        rw [Option.bind_some, glue_new hkinds]
        rfl
  · intro n gs hgs
    obtain ⟨c2cs, hget, rfl⟩ := Option.map_eq_some_iff.mp hgs
    exact hvalid n c2cs hget

theorem Collected.foundEntries_eq {f2c2cs : FunctionStrings} {ocs : List OptimisticChoice}
    (h : Collected f2c2cs ocs) (n : Str) (kind : OptimisticChoiceKind) :
    foundEntries (fun n => (f2c2cs.get? n).map Dict.entries) n kind = chosenEntries ocs n kind := by
  rw [← h.entries n kind, foundEntries]
  cases f2c2cs.get? n <;> rfl

/-- A function without a string was not chosen for. -/
theorem Collected.chosenEntries_eq_nil {f2c2cs : FunctionStrings} {ocs : List OptimisticChoice}
    (h : Collected f2c2cs ocs) (hocs : ∀ oc ∈ ocs, oc.Embeddable) {n : Str}
    (kind : OptimisticChoiceKind) (hnone : annotationOf f2c2cs n = none) :
    chosenEntries ocs n kind = [] := by
  rw [(h.found hocs).literal, Option.map_eq_none_iff, Option.map_eq_none_iff] at hnone
  rw [← h.entries n kind, hnone]
  rfl

/-- The functions of a run of the plain source, by number. -/
def numbered (name : Fn → Str) (opts : Options) (stages : List (Stage Fn)) : List Fn :=
  functionsSeen (runEvents name (fun _ => none) opts 0 stages)

/-- The first instance finds the function in the module and does not skip it. -/
def PresentFirst : List (Stage Fn) → Fn → Prop
  | [], _ => False
  | stage :: _, f => f ∈ stage.functions ∧ stage.unused f = false

instance (stages : List (Stage Fn)) (f : Fn) : Decidable (PresentFirst stages f) :=
  match stages with
  | [] => inferInstanceAs (Decidable False)
  | _ :: _ => inferInstanceAs (Decidable (_ ∧ _))

/-- For every function that is asked about, the choices with its number are those
with its name, and there are none unless the first instance finds it. -/
def NumbersFollowNames (name : Fn → Str) (opts : Options) (stages : List (Stage Fn))
    (ocs : List OptimisticChoice) : Prop :=
  ∀ f, AskedAbout (askedIn opts 0 stages) f → ∀ oc ∈ ocs,
    oc.functionNo = ((numbered name opts stages).idxOf f : Nat) ↔
      PresentFirst stages f ∧ oc.cName = searchAndReplace (name f)

/-- What number and name select. -/
theorem settled_eq {src : Sourcefile} {stages : List (Stage Fn)}
    (h : NumbersFollowNames name opts stages src.optimisticChoices) {f : Fn}
    (hf : AskedAbout (askedIn opts 0 stages) f) (kind : OptimisticChoiceKind) :
    src.settled kind ((numbered name opts stages).idxOf f) =
      if PresentFirst stages f then
        chosenEntries src.optimisticChoices (searchAndReplace (name f)) kind
      else [] := by
  rw [Sourcefile.settled, chosenEntries]
  split
  · rename_i hpresent
    congr 1
    apply List.filter_congr
    intro oc hoc
    rw [OptimisticChoice.belongsTo, decide_eq_decide, h f hf oc hoc]
    constructor
    · rintro ⟨hkind, -, hname⟩
      exact ⟨hname, hkind⟩
    · rintro ⟨hname, hkind⟩
      exact ⟨hkind, hpresent, hname⟩
  · rename_i habsent
    rw [List.map_eq_nil_iff, List.filter_eq_nil_iff]
    intro oc hoc hbelongs
    rw [OptimisticChoice.belongsTo, decide_eq_true_eq, h f hf oc hoc] at hbelongs
    exact habsent hbelongs.2.1

/-- Whether a function that the first instance finds has a string makes no
difference, as there are no choices without one. -/
theorem Collected.read_eq {f2c2cs : FunctionStrings} {ocs : List OptimisticChoice}
    (h : Collected f2c2cs ocs) (hocs : ∀ oc ∈ ocs, oc.Embeddable) {stage : Stage Fn}
    (stages : List (Stage Fn)) (f : Fn) (kind : OptimisticChoiceKind) :
    (if f ∈ stage.functions.filter (isRead name (annotationOf f2c2cs) stage.unused) then
      chosenEntries ocs (searchAndReplace (name f)) kind else []) =
    if PresentFirst (stage :: stages) f then
      chosenEntries ocs (searchAndReplace (name f)) kind else [] := by
  have hmem : f ∈ stage.functions.filter (isRead name (annotationOf f2c2cs) stage.unused) ↔
      PresentFirst (stage :: stages) f ∧
        (annotationOf f2c2cs (searchAndReplace (name f))).isSome = true := by
    rw [List.mem_filter, isRead]
    simp [PresentFirst, and_assoc]
  by_cases hpresent : PresentFirst (stage :: stages) f
  · by_cases hsome : (annotationOf f2c2cs (searchAndReplace (name f))).isSome = true
    · rw [if_pos (hmem.mpr ⟨hpresent, hsome⟩), if_pos hpresent]
    · rw [if_neg (fun hread => hsome (hmem.mp hread).2), if_pos hpresent,
        h.chosenEntries_eq_nil hocs kind (by simpa using hsome)]
  · rw [if_neg (fun hread => hpresent (hmem.mp hread).1), if_neg hpresent]

/-- The numbers that the first instance gives are never changed. -/
theorem readEntries_later {annotations : Str → Option Str}
    {groups : Str → Option (List (Int × Str))} (hannotates : opts.annotates 0 = true)
    (stage : Stage Fn) (stages : List (Stage Fn)) :
    readEntries name groups ((stage.seen name annotations).foldl number [])
        (stage.functions.filter (isRead name annotations stage.unused)) =
      readEntries name groups (functionsSeen (runEvents name annotations opts 0 (stage :: stages)))
        (stage.functions.filter (isRead name annotations stage.unused)) := by
  have hprefix : (stage.seen name annotations).foldl number [] <+:
      functionsSeen (runEvents name annotations opts 0 (stage :: stages)) := by
    rw [runEvents, if_pos hannotates, Stage.events, ← functionsSeen_seenEvents 0,
      ← List.append_assoc]
    exact functionsSeen_isPrefix _ _
  obtain ⟨later, hlater⟩ := hprefix
  funext kind fnNo
  apply List.flatMap_congr
  intro f hf
  have hmem : f ∈ (stage.seen name annotations).foldl number [] := by
    rw [mem_foldl_number, Stage.seen]
    exact .inr (List.mem_append_right _ hf)
  rw [← hlater, List.idxOf_append_of_mem hmem]

/-- Recompiling the annotated source gives the answers of the control string, if
the choices that a function is given by number and by name are the same. -/
theorem recompile_eq {src : Sourcefile} (hstep : src.InStep)
    (hembeddable : ∀ oc ∈ src.optimisticChoices, oc.Embeddable) {f2c2cs : FunctionStrings}
    (hcollect : collect src.optimisticChoices .empty = .ok f2c2cs) {stages : List (Stage Fn)}
    (hnodup : ∀ stage ∈ stages, stage.functions.Nodup)
    (hnames : NumbersFollowNames name opts stages src.optimisticChoices) :
    ∃ values,
      compiledValues name (fun _ => none) opts src.currentControlString stages = .ok values ∧
      compiledValues name (annotationOf f2c2cs) opts [] stages = .ok values := by
  obtain ⟨f2c2cs', hcollect', hcollected⟩ := collect_eq collected_empty hembeddable
  obtain rfl := Except.ok.inj (hcollect'.symm.trans hcollect)
  rw [List.nil_append] at hcollected
  cases hannotates : opts.annotates 0 with
  | false =>
      refine ⟨stages.map fun _ => [], ?_, ?_⟩
      · rw [compiledValues, compile, runInstances_skipped hannotates]
        simp [Except.map]
      · rw [compiledValues, compile, runInstances_skipped hannotates]
        simp [Except.map]
  | true =>
      cases stages with
      | nil => exact ⟨[], rfl, rfl⟩
      | cons stage stages =>
          have hplain : stage.functions.filter (isRead name (fun _ => none) stage.unused) = [] := by
            rw [List.filter_eq_nil_iff]
            simp [isRead]
          -- Both runs look entries up by their own final numbers.
          have hcontrolMaps : decode (readEntries name (fun _ => none)
              ((stage.seen name fun _ => none).foldl number [])
              (stage.functions.filter (isRead name (fun _ => none) stage.unused)))
              src.currentControlString = .ok src.settled := by
            rw [hplain]
            exact hstep
          have hembeddedMaps : decode (readEntries name (fun n => (f2c2cs'.get? n).map Dict.entries)
              ((stage.seen name (annotationOf f2c2cs')).foldl number [])
              (stage.functions.filter (isRead name (annotationOf f2c2cs') stage.unused))) [] = _ :=
            congrArg Except.ok (readEntries_later hannotates stage stages)
          have hcontrol := compile_eq found_none hannotates hcontrolMaps stages
          have hembedded :=
            compile_eq (hcollected.found hembeddable) hannotates hembeddedMaps stages
          refine ⟨_, hcontrol, hembedded.trans (congrArg Except.ok ?_)⟩
          apply answeredFrom_congr
          intro kind f pos hf
          rw [List.append_nil] at hf
          rw [byNumber, byNumber, ← numbered, settled_eq hnames hf,
            readEntries_idxOf ((hnodup stage List.mem_cons_self).filter _)
              (mem_functionsSeen_runEvents hf), hcollected.foundEntries_eq]
          exact congrArg (·.getD pos 0) (hcollected.read_eq hembeddable stages f kind)

/-! ### A function that is created between the instances -/

def twoNames (f : Nat) : Str := if f = 0 then lit "f" else lit "g"

/-- The first instance asks about an addition of `f`, the second one about an
addition of `g`, which a pass between them has created. -/
def createdBetween : List (Stage Nat) :=
  [{ functions := [0]
     annotatable := fun _ => true
     unused := fun _ => false
     queries := [⟨2, lit "a", 0, lit "f", .overflowNsw, Nat.two_pos⟩] },
   { functions := [0, 1]
     annotatable := fun _ => true
     unused := fun _ => false
     queries := [⟨2, lit "b", 1, lit "g", .overflowNsw, Nat.two_pos⟩] }]

/-- Choices that are settled in one round. -/
def settledOnce (ocs : List OptimisticChoice) : Sourcefile := ⟨ocs, layout [] ocs⟩

theorem settledOnce_inStep {ocs : List OptimisticChoice} (h : ∀ oc ∈ ocs, oc.Embeddable) :
    (settledOnce ocs).InStep := by
  refine (Sourcefile.inStep_append_iff Sourcefile.initial_inStep
    fun oc hoc => (h oc hoc).codable).mpr ?_
  exact fun oc hoc => (h oc hoc).value_lt

def choiceOfF : OptimisticChoice := settledNsw 0 (lit "f")

def choiceOfG : OptimisticChoice := settledNsw 1 (lit "g")

theorem numbered_createdBetween : numbered twoNames compiling createdBetween = [0, 1] := by decide

theorem askedIn_createdBetween {f : Nat} (h : AskedAbout (askedIn compiling 0 createdBetween) f) :
    f = 0 ∨ f = 1 := by
  obtain ⟨q, hq, rfl⟩ := h
  have hasked : askedIn compiling 0 createdBetween =
      [⟨2, lit "a", 0, lit "f", .overflowNsw, Nat.two_pos⟩,
        ⟨2, lit "b", 1, lit "g", .overflowNsw, Nat.two_pos⟩] := rfl
  rw [hasked] at hq
  simp only [List.mem_cons, List.not_mem_nil, or_false] at hq
  rcases hq with rfl | rfl
  · exact .inl rfl
  · exact .inr rfl

/-- As long as nothing is settled for `g`, it may be created later. -/
theorem recompile_eq_createdBetween : ∃ f2c2cs,
    collect [choiceOfF] .empty = .ok f2c2cs ∧ ∃ values,
      compiledValues twoNames (fun _ => none) compiling
        (settledOnce [choiceOfF]).currentControlString createdBetween = .ok values ∧
      compiledValues twoNames (annotationOf f2c2cs) compiling [] createdBetween = .ok values := by
  have hembeddable : ∀ oc ∈ [choiceOfF], oc.Embeddable := by
    intro oc hoc
    obtain rfl := List.mem_singleton.mp hoc
    exact (writable_settledNsw _ (by decide) (by decide)).embeddable
  obtain ⟨f2c2cs, hcollect, -⟩ := collect_eq collected_empty hembeddable
  refine ⟨f2c2cs, hcollect, recompile_eq
    (settledOnce_inStep hembeddable) hembeddable hcollect ?_ ?_⟩
  · simp [createdBetween]
  · intro f hf oc hoc
    obtain rfl := List.mem_singleton.mp hoc
    rw [numbered_createdBetween]
    rcases askedIn_createdBetween hf with rfl | rfl
    · decide
    · decide

/-- The choice of `g` is not read in, as the first instance does not find `g`. -/
theorem not_recompile_eq :
    ¬ ∀ (name : Nat → Str) (stages : List (Stage Nat)) (src : Sourcefile)
      (f2c2cs : FunctionStrings),
      (∀ stage ∈ stages, stage.functions.Nodup) → src.InStep →
      (∀ oc ∈ src.optimisticChoices, oc.Embeddable) →
      (∀ oc ∈ src.optimisticChoices, ∃ f, AskedAbout (askedIn compiling 0 stages) f ∧
        oc.functionNo = ((numbered name compiling stages).idxOf f : Nat) ∧ oc.function = name f) →
      collect src.optimisticChoices .empty = .ok f2c2cs →
      compiledValues name (annotationOf f2c2cs) compiling [] stages =
        compiledValues name (fun _ => none) compiling src.currentControlString stages := by
  intro h
  have hembeddable : ∀ oc ∈ [choiceOfF, choiceOfG], oc.Embeddable := by
    intro oc hoc
    simp only [List.mem_cons, List.not_mem_nil, or_false] at hoc
    rcases hoc with rfl | rfl
    · exact (writable_settledNsw _ (by decide) (by decide)).embeddable
    · exact (writable_settledNsw _ (by decide) (by decide)).embeddable
  obtain ⟨f2c2cs, hcollect, hembedded⟩ : ∃ f2c2cs,
      collect [choiceOfF, choiceOfG] .empty = .ok f2c2cs ∧
        compiledValues twoNames (annotationOf f2c2cs) compiling [] createdBetween =
          .ok [[1], [0]] := ⟨_, rfl, rfl⟩
  have hcontrol : compiledValues twoNames (fun _ => none) compiling
      (settledOnce [choiceOfF, choiceOfG]).currentControlString createdBetween =
        .ok [[1], [1]] := rfl
  have hsame := h twoNames createdBetween (settledOnce [choiceOfF, choiceOfG]) f2c2cs
    (by simp [createdBetween]) (settledOnce_inStep hembeddable) hembeddable ?_ hcollect
  · rw [hembedded, hcontrol] at hsame
    cases hsame
  · intro oc hoc
    simp only [settledOnce, List.mem_cons, List.not_mem_nil, or_false] at hoc
    rw [numbered_createdBetween]
    rcases hoc with rfl | rfl
    · exact ⟨0, ⟨_, List.mem_cons_self, rfl⟩, rfl, rfl⟩
    · exact ⟨1, ⟨_, List.mem_cons_of_mem _ List.mem_cons_self, rfl⟩, rfl, rfl⟩

end Petospa

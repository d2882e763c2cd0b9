import Petospa.Annotator.Instances

/-!
# Answers without numbers

The abstract compiler run knows, for each function object, the entries that were
read in for it; numbers do not occur. A run of the annotator is one of these,
whatever order its functions are numbered in.
-/

namespace Petospa

open Text Transducer

variable {Fn : Type} [DecidableEq Fn]

/-! ### The abstract run -/

/-- How often a pair was asked about. -/
def positionOf (kind : OptimisticChoiceKind) (f : Fn) (asked : List (Query Fn)) : Nat :=
  asked.countP fun q => q.kind = kind ∧ q.function = f

section Abstract

/- The entry of a function and kind at a position. -/
variable (look : OptimisticChoiceKind → Fn → Nat → Nat)

def ownEntry (asked : List (Query Fn)) (q : Query Fn) : Nat :=
  look q.kind q.function (positionOf q.kind q.function asked)

def namesakeEntry (kind : OptimisticChoiceKind) (name : Str) : List (Query Fn) → Nat
  | [] => 0
  | q :: asked =>
      if q.kind = kind ∧ q.name = name ∧ 0 < ownEntry look asked q then ownEntry look asked q
      else namesakeEntry kind name asked

def answeringEntry (opts : Options) (asked : List (Query Fn)) (q : Query Fn) : Nat :=
  if 0 < ownEntry look asked q then ownEntry look asked q
  else if 0 < namesakeEntry look q.kind q.name asked then namesakeEntry look q.kind q.name asked
  else if opts.annotationsDefault then q.numChoices else 1

def answered (opts : Options) : List (Query Fn) → List (Query Fn) → List Nat
  | _, [] => []
  | asked, q :: queries =>
      (answeringEntry look opts asked q - 1) :: answered opts (q :: asked) queries

def answeredFrom (opts : Options) : Nat → List (Query Fn) → List (Stage Fn) → List (List Nat)
  | _, _, [] => []
  | inst, asked, stage :: stages =>
      if opts.annotates inst then
        answered look opts asked stage.queries ::
          answeredFrom opts (inst + 1) (stage.queries.reverse ++ asked) stages
      else [] :: answeredFrom opts (inst + 1) asked stages

end Abstract

/-- Functions that are asked about. -/
def AskedAbout (queries : List (Query Fn)) (f : Fn) : Prop := ∃ q ∈ queries, q.function = f

/-- The queries of the instances that annotate. -/
def askedIn (opts : Options) : Nat → List (Stage Fn) → List (Query Fn)
  | _, [] => []
  | inst, stage :: stages =>
      (if opts.annotates inst then stage.queries else []) ++ askedIn opts (inst + 1) stages

section Congr

variable {look look' : OptimisticChoiceKind → Fn → Nat → Nat}

theorem namesakeEntry_congr {asked : List (Query Fn)}
    (h : ∀ kind f pos, AskedAbout asked f → look kind f pos = look' kind f pos)
    (kind : OptimisticChoiceKind) (name : Str) :
    namesakeEntry look kind name asked = namesakeEntry look' kind name asked := by
  induction asked with
  | nil => rfl
  | cons q asked ih =>
      have htail := ih fun kind f pos ⟨q', hq', hf⟩ =>
        h kind f pos ⟨q', List.mem_cons_of_mem _ hq', hf⟩
      have hown : ownEntry look asked q = ownEntry look' asked q :=
        h q.kind q.function _ ⟨q, List.mem_cons_self, rfl⟩
      rw [namesakeEntry, namesakeEntry, hown, htail]

/-- Only the functions that are asked about matter. -/
theorem answered_congr {opts : Options} {asked queries : List (Query Fn)}
    (h : ∀ kind f pos, AskedAbout (queries ++ asked) f → look kind f pos = look' kind f pos) :
    answered look opts asked queries = answered look' opts asked queries := by
  induction queries generalizing asked with
  | nil => rfl
  | cons q queries ih =>
      have hown : ownEntry look asked q = ownEntry look' asked q :=
        h q.kind q.function _ ⟨q, by simp, rfl⟩
      have hnamesake : namesakeEntry look q.kind q.name asked =
          namesakeEntry look' q.kind q.name asked := by
        apply namesakeEntry_congr
        rintro kind f pos ⟨q', hq', hf⟩
        exact h kind f pos ⟨q', List.mem_append_right _ hq', hf⟩
      have htail : answered look opts (q :: asked) queries =
          answered look' opts (q :: asked) queries := by
        apply ih
        rintro kind f pos ⟨q', hq', hf⟩
        refine h kind f pos ⟨q', ?_, hf⟩
        simp only [List.mem_append, List.mem_cons] at hq' ⊢
        tauto
      rw [answered, answered, answeringEntry, answeringEntry, hown, hnamesake, htail]

theorem answeredFrom_congr {opts : Options} {inst : Nat} {asked : List (Query Fn)}
    {stages : List (Stage Fn)}
    (h : ∀ kind f pos, AskedAbout (askedIn opts inst stages ++ asked) f →
      look kind f pos = look' kind f pos) :
    answeredFrom look opts inst asked stages = answeredFrom look' opts inst asked stages := by
  induction stages generalizing inst asked with
  | nil => rfl
  | cons stage stages ih =>
      rw [answeredFrom, answeredFrom]
      rw [askedIn] at h
      split
      · rename_i hannotates
        rw [if_pos hannotates] at h
        have hhere : answered look opts asked stage.queries =
            answered look' opts asked stage.queries := by
          apply answered_congr
          rintro kind f pos ⟨q, hq, hf⟩
          refine h kind f pos ⟨q, ?_, hf⟩
          simp only [List.mem_append] at hq ⊢
          tauto
        rw [hhere]
        congr 1
        apply ih
        rintro kind f pos ⟨q, hq, hf⟩
        refine h kind f pos ⟨q, ?_, hf⟩
        simp only [List.mem_append, List.mem_reverse] at hq ⊢
        tauto
      · rename_i hannotates
        rw [if_neg hannotates, List.nil_append] at h
        congr 1
        exact ih h

end Congr

/-! ### Following a history -/

/-- The history agrees with the queries in it, given what is looked up. -/
structure Reads (look : OptimisticChoiceKind → Fn → Nat → Nat) (maps : ChoiceMaps)
    (hist : List (Timed Fn)) (asked : List (Query Fn)) : Prop where
  position : ∀ kind f, position kind f hist = positionOf kind f asked
  cached : ∀ kind name, cached maps kind name hist = namesakeEntry look kind name asked

section Follow

variable {look : OptimisticChoiceKind → Fn → Nat → Nat} {maps : ChoiceMaps} {hist : List (Timed Fn)}
  {asked : List (Query Fn)} {st : Annotator Fn} {opts : Options} {inst : Nat} {functions : List Fn}

theorem Reads.sees (h : Reads look maps hist asked) (inst : Nat) (f : Fn) :
    Reads look maps (⟨inst, .sees f⟩ :: hist) asked := ⟨h.position, h.cached⟩

theorem Reads.asks (h : Reads look maps hist asked) (inst : Nat) {q : Query Fn}
    (hown : explicit maps hist q = ownEntry look asked q) :
    Reads look maps (⟨inst, .asks q⟩ :: hist) (q :: asked) where
  position := by
    intro kind f
    rw [Petospa.position, h.position, positionOf, positionOf, List.countP_cons]
    simp
  cached := by
    intro kind name
    rw [Petospa.cached, namesakeEntry]
    simp only [hown, h.cached]

/-- The final numbers say what the tables hold for a function. -/
def Looks (look : OptimisticChoiceKind → Fn → Nat → Nat) (maps : ChoiceMaps) (functions : List Fn) :
    Prop :=
  ∀ kind f pos, f ∈ functions → look kind f pos = (maps kind (functions.idxOf f)).getD pos 0

theorem Reads.own (h : Reads look maps hist asked) (hlook : Looks look maps functions)
    {q : Query Fn} (hfunctions : number (functionsSeen hist) q.function <+: functions) :
    explicit maps hist q = ownEntry look asked q := by
  have hmem : q.function ∈ number (functionsSeen hist) q.function := mem_number.mpr (.inr rfl)
  rw [explicit, ownEntry, hlook _ _ _ (hfunctions.subset hmem), h.position, functionNoAt]
  obtain ⟨later, hlater⟩ := hfunctions
  rw [← hlater, List.idxOf_append_of_mem hmem]

/-- The queries of an instance as events, newest first. -/
def askedEvents (inst : Nat) (queries : List (Query Fn)) : List (Timed Fn) :=
  queries.reverse.map fun q => ⟨inst, .asks q⟩

/-- The answers of an instance. -/
theorem answerAll_eq (opts : Options) (hlook : Looks look maps functions)
    (queries : List (Query Fn)) (htracks : Tracks maps hist st)
    (hreads : Reads look maps hist asked)
    (hfunctions : functionsSeen (askedEvents inst queries ++ hist) <+: functions) :
    ∃ st' answers, answerAll opts inst queries st = (st', answers) ∧
      Tracks maps (askedEvents inst queries ++ hist) st' ∧
      Reads look maps (askedEvents inst queries ++ hist) (queries.reverse ++ asked) ∧
      answers.map Answer.value = answered look opts asked queries := by
  induction queries generalizing st hist asked with
  | nil => exact ⟨st, [], rfl, htracks, hreads, rfl⟩
  | cons q queries ih =>
      have hevents : askedEvents inst (q :: queries) ++ hist =
          askedEvents inst queries ++ ⟨inst, .asks q⟩ :: hist := by
        simp [askedEvents]
      rw [hevents] at hfunctions ⊢
      have hown := hreads.own hlook (q := q)
        ((functionsSeen_isPrefix (askedEvents inst queries) (⟨inst, .asks q⟩ :: hist)).trans
          hfunctions)
      obtain ⟨htracks', hanswer⟩ :=
        htracks.getOptimisticChoice (e := ⟨inst, .asks q⟩) opts rfl
      obtain ⟨st', answers, hall, htracks'', hreads', hvalues⟩ :=
        ih htracks' (hreads.asks inst hown) hfunctions
      refine ⟨st', (st.getOptimisticChoice opts inst q).2 :: answers, ?_, htracks'', ?_, ?_⟩
      · have hrest : answerAll opts inst queries (st.getOptimisticChoice opts inst q).1 =
            (st', answers) := hall
        simp only [answerAll, hrest]
      · simpa using hreads'
      · rw [List.map_cons, hvalues, answered, hanswer]
        congr 1
        show answering opts maps hist q - 1 = _
        rw [answering, answeringEntry, hown, hreads.cached]

/-! ### The functions that an instance sees -/

/-- Functions that are seen, as events, newest first. -/
def seenEvents (inst : Nat) (fs : List Fn) : List (Timed Fn) :=
  fs.reverse.map fun f => ⟨inst, .sees f⟩

theorem Tracks.foldl_see (htracks : Tracks maps hist st) (inst : Nat) (fs : List Fn) :
    Tracks maps (seenEvents inst fs ++ hist) (fs.foldl Annotator.see st) := by
  induction fs generalizing st hist with
  | nil => exact htracks
  | cons f fs ih =>
      have hnext := ih (htracks.see (e := ⟨inst, .sees f⟩) rfl)
      simpa [seenEvents] using hnext

theorem Reads.seen (hreads : Reads look maps hist asked) (inst : Nat) (fs : List Fn) :
    Reads look maps (seenEvents inst fs ++ hist) asked := by
  induction fs generalizing hist with
  | nil => exact hreads
  | cons f fs ih =>
      have hnext := ih (hreads.sees inst f)
      simpa [seenEvents] using hnext

/-- Before the first query any maps can be read in. -/
theorem Tracks.load {fs : List Fn} (htracks : Tracks maps (seenEvents inst fs) st)
    (maps' : ChoiceMaps) : Tracks maps' (seenEvents inst fs) { st with choiceMaps := maps' } where
  functions := htracks.functions
  indices := htracks.indices
  cache := by
    intro kind name
    have hnone : ∀ m : ChoiceMaps, cached m kind name (seenEvents inst fs) = 0 := by
      intro m
      have hreads : Reads (fun _ _ _ => 0) m ([] : List (Timed Fn)) [] :=
        ⟨fun _ _ => rfl, fun _ _ => rfl⟩
      have hseen := (hreads.seen inst fs).cached kind name
      rwa [List.append_nil] at hseen
    show st.nameCache kind name = _
    rw [htracks.cache, hnone, hnone]
  ahead := fun _ _ _ _ => rfl

section Instances

variable {name : Fn → Str} {annotations : Str → Option Str}

/-- The function is not skipped, and its annotation is found. -/
def isRead (name : Fn → Str) (annotations : Str → Option Str) (unused : Fn → Bool) (f : Fn) :
    Bool :=
  !unused f && (annotations (searchAndReplace (name f))).isSome

/-- The functions that an instance sees before its queries. -/
def Stage.seen (name : Fn → Str) (annotations : Str → Option Str) (stage : Stage Fn) : List Fn :=
  stage.functions.filter stage.annotatable ++
    stage.functions.filter (isRead name annotations stage.unused)

/-- The events of an instance, newest first. -/
def Stage.events (name : Fn → Str) (annotations : Str → Option Str) (inst : Nat)
    (stage : Stage Fn) : List (Timed Fn) :=
  askedEvents inst stage.queries ++ seenEvents inst (stage.seen name annotations)

/-- The events of a run, newest first. -/
def runEvents (name : Fn → Str) (annotations : Str → Option Str) (opts : Options) :
    Nat → List (Stage Fn) → List (Timed Fn)
  | _, [] => []
  | inst, stage :: stages =>
      runEvents name annotations opts (inst + 1) stages ++
        if opts.annotates inst then stage.events name annotations inst else []

omit [DecidableEq Fn] in
theorem isRead_iff {unused : Fn → Bool} {f : Fn} : isRead name annotations unused f = true ↔
    unused f = false ∧ ∃ cs, annotations (searchAndReplace (name f)) = some cs := by
  rw [isRead, Bool.and_eq_true, Bool.not_eq_true', Option.isSome_iff_exists]

/-- A function that is skipped or has no annotation is passed over. -/
theorem readEmbedded_of_not_isRead {unused : Fn → Bool} {f : Fn}
    (hread : isRead name annotations unused f = false) (inst : Nat) (fs : List Fn)
    (st : Annotator Fn) :
    readEmbedded name annotations inst unused (f :: fs) st =
      readEmbedded name annotations inst unused fs st := by
  rw [readEmbedded]
  cases hunused : unused f with
  | true => rfl
  | false =>
      have hnone : annotations (searchAndReplace (name f)) = none := by
        simpa [isRead, hunused] using hread
      rw [hnone]
      rfl

/-- A later instance only numbers the functions that it finds annotated. -/
theorem readEmbedded_later (hinst : 0 < inst) (unused : Fn → Bool) (fs : List Fn)
    (st : Annotator Fn) : readEmbedded name annotations inst unused fs st =
      .ok ((fs.filter (isRead name annotations unused)).foldl Annotator.see st) := by
  induction fs generalizing st with
  | nil => rfl
  | cons f fs ih =>
      cases hread : isRead name annotations unused f with
      | false =>
          rw [readEmbedded_of_not_isRead hread, List.filter_cons_of_neg (by simp [hread]), ih]
      | true =>
          obtain ⟨hunused, cs, hfound⟩ := isRead_iff.mp hread
          rw [List.filter_cons_of_pos hread, readEmbedded]
          simp only [hunused, Bool.false_eq_true, if_false, hfound, if_pos hinst]
          exact ih (st.see f)

theorem runOnModule_later (hinst : 0 < inst) (hannotates : opts.annotates inst = true)
    (controlString : Str) {stage : Stage Fn} (hlook : Looks look maps functions)
    (htracks : Tracks maps hist st) (hreads : Reads look maps hist asked)
    (hfunctions : functionsSeen (stage.events name annotations inst ++ hist) <+: functions) :
    ∃ st' answers, runOnModule name annotations opts controlString inst stage st =
        .ok (st', answers) ∧
      Tracks maps (stage.events name annotations inst ++ hist) st' ∧
      Reads look maps (stage.events name annotations inst ++ hist)
        (stage.queries.reverse ++ asked) ∧
      answers.map Answer.value = answered look opts asked stage.queries := by
  rw [Stage.events, List.append_assoc] at hfunctions ⊢
  have htracks' := htracks.foldl_see inst (stage.seen name annotations)
  rw [Stage.seen, List.foldl_append, ← Stage.seen] at htracks'
  obtain ⟨st', answers, hall, hrest⟩ :=
    answerAll_eq opts hlook stage.queries htracks' (hreads.seen inst _) hfunctions
  refine ⟨st', answers, ?_, hrest⟩
  rw [runOnModule, if_pos hannotates]
  simp only [initializeChoiceMaps, readEmbedded_later hinst, bind, Except.bind, pure, Except.pure,
    if_pos hinst, hall]

/-- The instances behind the first one. -/
theorem runInstances_later (hinst : 0 < inst) (controlString : Str) {stages : List (Stage Fn)}
    (hlook : Looks look maps functions) (htracks : Tracks maps hist st)
    (hreads : Reads look maps hist asked)
    (hfunctions :
      functionsSeen (runEvents name annotations opts inst stages ++ hist) <+: functions) :
    ∃ answers, runInstances name annotations opts controlString inst stages st = .ok answers ∧
      answers.map (List.map Answer.value) = answeredFrom look opts inst asked stages := by
  induction stages generalizing inst hist asked st with
  | nil => exact ⟨[], rfl, rfl⟩
  | cons stage stages ih =>
      rw [runInstances, answeredFrom]
      rw [runEvents, List.append_assoc] at hfunctions
      by_cases hannotates : opts.annotates inst = true
      · rw [if_pos hannotates] at hfunctions ⊢
        obtain ⟨st', answers, hrun, htracks', hreads', hvalues⟩ :=
          runOnModule_later hinst hannotates controlString hlook htracks hreads
            ((functionsSeen_isPrefix _ _).trans hfunctions)
        obtain ⟨rest, hrest, hrestValues⟩ := ih (Nat.succ_pos inst) htracks' hreads' hfunctions
        refine ⟨answers :: rest, ?_, ?_⟩
        · rw [hrun]
          show (do
            let rest ← runInstances _ _ _ _ _ _ st'
            Except.ok (answers :: rest) : Except Fault _) = _
          rw [hrest]
          rfl
        · rw [List.map_cons, hvalues, hrestValues]
      · rw [if_neg hannotates] at hfunctions ⊢
        obtain ⟨rest, hrest, hrestValues⟩ := ih (Nat.succ_pos inst) htracks hreads hfunctions
        refine ⟨[] :: rest, ?_, ?_⟩
        · rw [runOnModule, if_neg hannotates]
          show (do
            let rest ← runInstances _ _ _ _ _ _ st
            Except.ok ([] :: rest) : Except Fault _) = _
          rw [hrest]
          rfl
        · rw [List.map_cons, hrestValues]
          rfl

theorem mem_functionsSeen {e : Timed Fn} (h : e ∈ hist) : e.function ∈ functionsSeen hist := by
  induction hist with
  | nil => cases h
  | cons d hist ih =>
      rw [functionsSeen, mem_number]
      rcases List.mem_cons.mp h with rfl | h
      · exact .inr rfl
      · exact .inl (ih h)

/-- What is asked about is numbered. -/
theorem mem_functionsSeen_runEvents {stages : List (Stage Fn)} {f : Fn}
    (h : AskedAbout (askedIn opts inst stages) f) :
    f ∈ functionsSeen (runEvents name annotations opts inst stages) := by
  obtain ⟨q, hq, rfl⟩ := h
  have hevent : ∃ i, (⟨i, .asks q⟩ : Timed Fn) ∈ runEvents name annotations opts inst stages := by
    induction stages generalizing inst with
    | nil => cases hq
    | cons stage stages ih =>
        rw [askedIn, List.mem_append] at hq
        rw [runEvents]
        rcases hq with hq | hq
        · split at hq
          · rename_i hannotates
            rw [if_pos hannotates]
            refine ⟨inst, List.mem_append_right _ (List.mem_append_left _ ?_)⟩
            exact List.mem_map.mpr ⟨q, List.mem_reverse.mpr hq, rfl⟩
          · cases hq
        · obtain ⟨i, hi⟩ := ih hq
          exact ⟨i, List.mem_append_left _ hi⟩
  obtain ⟨i, hi⟩ := hevent
  exact mem_functionsSeen hi

/-- Without annotation runs nothing is answered. -/
theorem runInstances_skipped (hskips : opts.annotates 0 = false) (controlString : Str)
    (stages : List (Stage Fn)) : runInstances name annotations opts controlString inst stages st =
      .ok (stages.map fun _ => []) := by
  have hnone : opts.annotates inst = false := by
    rw [Options.annotates, decide_eq_false_iff_not, not_not] at hskips ⊢
    exact hskips.trans (Nat.zero_le inst)
  induction stages generalizing inst st with
  | nil => rfl
  | cons stage stages ih =>
      have hnext : opts.annotates (inst + 1) = false := by
        rw [Options.annotates, decide_eq_false_iff_not, not_not] at hskips ⊢
        exact hskips.trans (Nat.zero_le _)
      rw [runInstances, runOnModule, if_neg (by simp [hnone])]
      show (do
        let rest ← runInstances _ _ _ _ _ _ st
        Except.ok ([] :: rest) : Except Fault _) = _
      rw [ih hnext]
      rfl

end Instances

end Follow

end Petospa

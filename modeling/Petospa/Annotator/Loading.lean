import Mathlib.Data.List.TakeWhile
import Petospa.Annotator.Module

/-!
# Loading function by function

What a module and a control string should load: every function the values of
its own annotation, and every number the values of the control string behind
them. The loop keeps this up to the first function that hinders it. A variable
that cannot be read ends the whole of `initializeChoiceMaps`, so the functions
behind it and the control string are lost; the condition says when nothing of
them is missed.
-/

namespace Petospa

open Text BreakLoop

/-! ### Reading on top of earlier choices -/

namespace ChoiceMaps

variable (maps own : ChoiceMaps)

/-- Choices behind those that were read before. -/
def onTopOf : ChoiceMaps := fun kind n => maps kind n ++ own kind n

/-- Choices of function 0, as choices of a function behind its earlier ones. -/
def graft (fnNo : Nat) : ChoiceMaps :=
  fun kind n => maps kind n ++ if n = fnNo then own kind 0 else []

@[simp] theorem onTopOf_empty : maps.onTopOf .empty = maps := by
  funext kind n
  exact List.append_nil _

@[simp] theorem graft_empty (fnNo : Nat) : maps.graft .empty fnNo = maps := by
  funext kind n
  simp [graft, empty]

theorem append_onTopOf (kind : OptimisticChoiceKind) (fnNo : Nat) (choices : List Nat) :
    (maps.onTopOf own).append kind fnNo choices = maps.onTopOf (own.append kind fnNo choices) := by
  funext k n
  simp only [append, onTopOf]
  split
  · exact List.append_assoc _ _ _
  · rfl

theorem append_graft (kind : OptimisticChoiceKind) (fnNo : Nat) (choices : List Nat) :
    (maps.graft own fnNo).append kind fnNo choices =
      maps.graft (own.append kind 0 choices) fnNo := by
  funext k n
  by_cases hn : n = fnNo
  · by_cases hk : k = kind
    · simp [append, graft, hn, hk]
    · simp [append, graft, hk]
  · simp [append, graft, hn]

end ChoiceMaps

/-- The control string adds the same choices to all maps. -/
theorem scan_onTopOf (maps : ChoiceMaps) (mode : ScanMode) (cs : List CChar) (st : ScanState) :
    scan mode cs { st with choiceMaps := maps.onTopOf st.choiceMaps } =
      (scan mode cs st).map fun final =>
        { final with choiceMaps := maps.onTopOf final.choiceMaps } := by
  induction cs generalizing mode st with
  | nil =>
      cases mode with
      | fnDigits buffer =>
          simp only [scan]
          split <;> rfl
      | main => rfl
      | hash => rfl
      | fnFirst => rfl
      | kind => rfl
  | cons c cs ih =>
      cases mode with
      | main =>
          simp only [scan]
          split
          · split
            · rfl
            · exact ih .hash st
          · split
            · rfl
            · split
              · rfl
              · rw [← ih .main (st.push c)]
                simp only [ScanState.push, ChoiceMaps.append_onTopOf]
      | hash =>
          simp only [scan]
          split
          · exact ih .fnFirst st
          · split
            · exact ih .kind st
            · rfl
      | fnFirst =>
          simp only [scan]
          split
          · exact ih (.fnDigits [c]) st
          · rfl
      | fnDigits buffer =>
          simp only [scan]
          split
          · split
            · rfl
            · generalize atoi buffer = fnNo
              split
              · rfl
              · exact ih .main { st with fnNo := fnNo }
          · split
            · rfl
            · exact ih (.fnDigits (buffer ++ [c])) st
      | kind =>
          simp only [scan]
          split
          · exact ih .main { st with curOCKind := getOptimisticChoiceKindForControlChar c }
          · rfl

/-- A literal adds the same choices to the maps of every function. -/
theorem scanEmbedded_graft (fnNo : Nat) (maps : ChoiceMaps) (mode : EmbeddedMode)
    (cs : List CChar) (kind : OptimisticChoiceKind) (own : ChoiceMaps) :
    scanEmbedded fnNo mode cs kind (maps.graft own fnNo) =
      (scanEmbedded 0 mode cs kind own).map fun own => maps.graft own fnNo := by
  induction cs generalizing mode kind own with
  | nil => cases mode <;> rfl
  | cons c cs ih =>
      cases mode with
      | main =>
          simp only [scanEmbedded]
          split
          · rfl
          · split
            · split
              · rfl
              · exact ih .hash kind own
            · rw [ChoiceMaps.append_graft]
              exact ih .main kind _
      | hash =>
          simp only [scanEmbedded]
          split
          · exact ih .kind kind own
          · rfl
      | kind =>
          simp only [scanEmbedded]
          split
          · exact ih .main _ own
          · rfl

/-- The values of each kind in a literal. -/
def literalValues (data : List CChar) (kind : OptimisticChoiceKind) : List Nat :=
  match scanEmbedded 0 .main data .first .empty with
  | .error _ => []
  | .ok maps => maps kind 0

/-- The values in a control string. -/
def controlValues (controlStr : List CChar) : ChoiceMaps :=
  match scan .main controlStr (.initial .empty) with
  | .error _ => .empty
  | .ok final => final.choiceMaps

namespace IRModule

variable {Fn : Type} (M : IRModule Fn)

/-! ### What is to be loaded -/

/-- The usable annotation of a function. -/
def usable (f : Fn) : Option (List CChar) :=
  match M.found f with
  | .string data => some data
  | _ => none

/-- The values of a kind that are embedded for a function. -/
def embedded (f : Fn) (kind : OptimisticChoiceKind) : List Nat :=
  match M.usable f with
  | none => []
  | some data => literalValues data kind

/-- The function has a usable annotation and is not skipped. -/
def reads (f : Fn) : Bool := !M.unused f && (M.usable f).isSome

/-- The loop does not come past the function. -/
def hinders (f : Fn) : Bool :=
  !M.unused f &&
    match M.found f with
    | .nothing => false
    | .unreadable => true
    | .aborts => true
    | .string data =>
        match scanEmbedded 0 .main data .first .empty with
        | .error _ => true
        | .ok _ => false

/-- Functions that are skipped have no values. The loop gets past all functions
and the control string is read, or it is left at a variable that cannot be read
and nothing behind it has values or needs a number. -/
def NothingMissed (annotatable : Fn → Bool) (controlStr : List CChar) : Prop :=
  (∀ f ∈ M.functions, annotatable f = true → M.unused f = true →
    ∀ kind, M.embedded f kind = []) ∧
  match M.functions.dropWhile fun f => !M.hinders f with
  | [] => ∃ final, scan .main controlStr (.initial .empty) = .ok final
  | f :: behind =>
      M.found f = .unreadable ∧
      (∀ g ∈ behind, M.reads g = true →
        annotatable g = true ∧ ∀ kind, M.embedded g kind = []) ∧
      controlValues controlStr = .empty

section Reading

variable {M} {f : Fn} {data : List CChar}

theorem reads_iff : M.reads f = true ↔ M.unused f = false ∧ ∃ data, M.found f = .string data := by
  rw [reads, usable]
  cases M.found f <;> simp

theorem embedded_of_found (h : M.found f = .string data) : M.embedded f = literalValues data := by
  funext kind
  rw [embedded, usable, h]

/-- A function that is not skipped and not read has no values. -/
theorem embedded_eq_nil (hunused : M.unused f = false) (hreads : M.reads f = false)
    (kind : OptimisticChoiceKind) : M.embedded f kind = [] := by
  have husable : M.usable f = none := by simpa [reads, hunused] using hreads
  rw [embedded, husable]

/-- If no function that is skipped has values, no function that is not read has. -/
theorem embedded_eq_nil_of_skipped {annotatable : Fn → Bool}
    (hskipped : ∀ f ∈ M.functions, annotatable f = true → M.unused f = true →
      ∀ kind, M.embedded f kind = [])
    (hmem : f ∈ M.functions) (hannotatable : annotatable f = true) (hreads : ¬ M.reads f = true)
    (kind : OptimisticChoiceKind) : M.embedded f kind = [] := by
  by_cases hunused : M.unused f = true
  · exact hskipped f hmem hannotatable hunused kind
  · rw [Bool.not_eq_true] at hunused hreads
    exact embedded_eq_nil hunused hreads kind

/-- A literal that does not hinder the loop is read in whole. -/
theorem scanEmbedded_of_not_hinders (hhinders : M.hinders f = false) (hunused : M.unused f = false)
    (hfound : M.found f = .string data) :
    ∃ own, scanEmbedded 0 .main data .first .empty = .ok own ∧
      ∀ kind, own kind 0 = M.embedded f kind := by
  simp only [hinders, hunused, hfound, Bool.not_false, Bool.true_and] at hhinders
  cases hscan : scanEmbedded 0 .main data .first .empty with
  | error e => simp [hscan] at hhinders
  | ok own =>
      refine ⟨own, rfl, fun kind => ?_⟩
      rw [embedded_of_found hfound, literalValues, hscan]

end Reading

variable [DecidableEq Fn]

/-- Numbers depend on the functions with usable annotations only, and the maps
hold the own values of each function and behind them those of the control string. -/
structure FunctionWise (annotatable : Fn → Bool) (controlStr : List CChar) (st : LoadState Fn) :
    Prop where
  numbering : st.annotator.allFunctions =
    (M.functions.filter M.reads).foldl number (M.functions.filter annotatable)
  functions : st.functions =
    (M.functions.filter M.reads).foldl number (M.numberFunctions annotatable).functions
  values : ∀ kind n, st.annotator.choiceMaps kind n =
    (match st.annotator.allFunctions[n]? with
      | none => []
      | some f => M.embedded f kind) ++ controlValues controlStr kind n

/-- The module is loaded function by function. -/
def LoadsFunctionWise (annotatable : Fn → Bool) (controlStr : List CChar) : Prop :=
  ∃ st, M.load annotatable controlStr = .ok st ∧ M.FunctionWise annotatable controlStr st

variable {M} {annotatable : Fn → Bool} {controlStr : List CChar}

/-! ### The loop -/

/-- The state after some functions: those that were read are numbered, and the
maps hold their values under their numbers. -/
structure Loaded (M : IRModule Fn) (start : LoadState Fn) (before : List Fn) (st : LoadState Fn) :
    Prop where
  numbering : st.annotator.allFunctions =
    (before.filter M.reads).foldl number start.annotator.allFunctions
  functions : st.functions = (before.filter M.reads).foldl number start.functions
  values : ∀ f ∈ st.annotator.allFunctions, ∀ kind,
    st.annotator.choiceMaps kind (st.annotator.functionNo f) =
      if f ∈ before ∧ M.reads f = true then M.embedded f kind else []
  unnumbered : ∀ kind n, st.annotator.allFunctions.length ≤ n →
    st.annotator.choiceMaps kind n = []

section Steps

variable {start st : LoadState Fn} {before : List Fn} {f : Fn}

/-- A function that is not read changes nothing. -/
theorem Loaded.skip (h : Loaded M start before st) (hreads : M.reads f = false) :
    Loaded M start (before ++ [f]) st where
  numbering := by simpa [List.filter_append, hreads] using h.numbering
  functions := by simpa [List.filter_append, hreads] using h.functions
  values := by
    intro g hg kind
    have hsame : (g ∈ before ++ [f] ∧ M.reads g = true) ↔ (g ∈ before ∧ M.reads g = true) := by
      rw [List.mem_append, List.mem_singleton]
      constructor
      · rintro ⟨hmem | rfl, hread⟩
        · exact ⟨hmem, hread⟩
        · rw [hreads] at hread
          cases hread
      · rintro ⟨hmem, hread⟩
        exact ⟨.inl hmem, hread⟩
    simpa only [hsame] using h.values g hg kind
  unnumbered := h.unnumbered

/-- There is nothing under the number that a new function gets. -/
theorem Loaded.nothing_before (h : Loaded M start before st) (hnew : f ∉ before)
    (kind : OptimisticChoiceKind) :
    st.annotator.choiceMaps kind ((number st.annotator.allFunctions f).idxOf f) = [] := by
  by_cases hf : f ∈ st.annotator.allFunctions
  · rw [idxOf_number hf]
    have hvalue := h.values f hf kind
    rwa [if_neg fun hread => hnew hread.1] at hvalue
  · apply h.unnumbered
    rw [number, if_neg hf, List.idxOf_append_of_notMem hf]
    exact Nat.le_add_right _ _

/-- A function that is read is numbered, and its values go under its number. -/
theorem Loaded.read (h : Loaded M start before st) (hnew : f ∉ before) (hreads : M.reads f = true)
    {own : ChoiceMaps} (hown : ∀ kind, own kind 0 = M.embedded f kind) :
    Loaded M start (before ++ [f])
      ⟨{ st.annotator.see f with choiceMaps :=
          st.annotator.choiceMaps.graft own ((st.annotator.see f).functionNo f) },
        number st.functions f⟩ := by
  have hfilter : (before ++ [f]).filter M.reads = before.filter M.reads ++ [f] := by
    simp [List.filter_append, hreads]
  rw [Annotator.see_eq]
  constructor
  · rw [hfilter, List.foldl_append, ← h.numbering]
    rfl
  · rw [hfilter, List.foldl_append, ← h.functions]
    rfl
  · intro g hg kind
    change st.annotator.choiceMaps kind ((number st.annotator.allFunctions f).idxOf g) ++
      (if (number st.annotator.allFunctions f).idxOf g =
        (number st.annotator.allFunctions f).idxOf f then own kind 0 else []) = _
    by_cases hgf : g = f
    · subst hgf
      rw [h.nothing_before hnew, if_pos rfl, if_pos ⟨by simp, hreads⟩, List.nil_append, hown]
    · have hg' : g ∈ st.annotator.allFunctions := (mem_number.mp hg).resolve_right hgf
      have hno : (number st.annotator.allFunctions f).idxOf g ≠
          (number st.annotator.allFunctions f).idxOf f := fun hno => hgf (idxOf_injective hg hno)
      rw [if_neg hno, List.append_nil, idxOf_number hg']
      have hvalue := h.values g hg' kind
      rw [Annotator.functionNo] at hvalue
      simpa [hgf] using hvalue
  · intro kind n hn
    change st.annotator.choiceMaps kind n ++ (if n =
      (number st.annotator.allFunctions f).idxOf f then own kind 0 else []) = []
    have hlt := List.idxOf_lt_length_of_mem
      (mem_number.mpr (.inr rfl) : f ∈ number st.annotator.allFunctions f)
    have hle := (foldl_number_isPrefix [f] st.annotator.allFunctions).length_le
    change (number st.annotator.allFunctions f).length ≤ n at hn
    change st.annotator.allFunctions.length ≤ (number st.annotator.allFunctions f).length at hle
    rw [if_neg (by omega), List.append_nil]
    exact h.unnumbered kind n (by omega)

/-- The loop comes past a function that does not hinder it. -/
theorem Loaded.step (h : Loaded M start before st) (hnew : f ∉ before)
    (hhinders : M.hinders f = false) :
    ∃ st', M.loadFunction 0 st f = .ok (.yield st') ∧ Loaded M start (before ++ [f]) st' := by
  rw [loadFunction]
  by_cases hunused : M.unused f = true
  · rw [if_pos hunused]
    exact ⟨st, rfl, h.skip (by simp [reads, hunused])⟩
  · rw [if_neg hunused]
    rw [Bool.not_eq_true] at hunused
    cases hfound : M.found f with
    | nothing => exact ⟨st, rfl, h.skip (by simp [reads, usable, hfound])⟩
    | unreadable => simp [hinders, hunused, hfound] at hhinders
    | aborts => simp [hinders, hunused, hfound] at hhinders
    | string data =>
        obtain ⟨own, hscan, hown⟩ := scanEmbedded_of_not_hinders hhinders hunused hfound
        have hread := h.read hnew (reads_iff.mpr ⟨hunused, data, hfound⟩) hown
        have hmaps : (st.annotator.see f).choiceMaps = st.annotator.choiceMaps := by
          rw [Annotator.see_eq]
        have hgraft := scanEmbedded_graft ((st.annotator.see f).functionNo f)
          st.annotator.choiceMaps .main data .first .empty
        rw [ChoiceMaps.graft_empty, hscan] at hgraft
        simp only [Nat.lt_irrefl, if_false, hmaps, hgraft, Except.map]
        refine ⟨_, ?_, hread⟩
        split
        · rename_i hempty
          subst hempty
          obtain rfl := Except.ok.inj hscan
          rw [ChoiceMaps.graft_empty, ← hmaps]
        · rfl

/-- At a function that hinders it the loop is left or fails. -/
theorem loadFunction_of_hinders (st : LoadState Fn) (hhinders : M.hinders f = true) :
    (M.found f = .unreadable ∧ M.loadFunction 0 st f = .ok (.done st)) ∨
      M.found f ≠ .unreadable ∧ ∃ e, M.loadFunction 0 st f = .error e := by
  rw [hinders, Bool.and_eq_true, Bool.not_eq_true'] at hhinders
  obtain ⟨hunused, hhinders⟩ := hhinders
  rw [loadFunction, hunused]
  cases hfound : M.found f with
  | nothing => simp [hfound] at hhinders
  | unreadable => exact .inl ⟨rfl, rfl⟩
  | aborts => exact .inr ⟨FoundVariable.noConfusion, .assertion, rfl⟩
  | string data =>
      have hmaps : (st.annotator.see f).choiceMaps = st.annotator.choiceMaps := by
        rw [Annotator.see_eq]
      have hgraft := scanEmbedded_graft ((st.annotator.see f).functionNo f)
        st.annotator.choiceMaps .main data .first .empty
      rw [ChoiceMaps.graft_empty] at hgraft
      cases hscan : scanEmbedded 0 .main data .first .empty with
      | ok own => simp [hfound, hscan] at hhinders
      | error e =>
          have hdata : data ≠ [] := by
            rintro rfl
            cases hscan
          rw [hscan] at hgraft
          refine .inr ⟨FoundVariable.noConfusion, e, ?_⟩
          simp only [Bool.false_eq_true, if_false, hdata, Nat.lt_irrefl, hmaps, hgraft, Except.map]

/-- The loop up to the first function that hinders it. -/
theorem loop_loaded {fs : List Fn} (hnodup : fs.Nodup) (hhinders : ∀ f ∈ fs, M.hinders f = false)
    (hstart : start.annotator.choiceMaps = .empty) :
    ∃ st, loop (M.loadFunction 0) start fs = .ok (.yield st) ∧ Loaded M start fs st := by
  have hinitial : Loaded M start [] start := by
    refine ⟨rfl, rfl, ?_, ?_⟩
    · intro f _ kind
      simp [hstart, ChoiceMaps.empty]
    · intro kind n _
      rw [hstart]
      rfl
  exact loop_yield (fun before f st hf hnew h => h.step hnew (hhinders f hf)) [] hnodup hinitial

end Steps

/-! ### The state before the loop -/

theorem foldl_numberFunction (M : IRModule Fn) (annotatable : Fn → Bool) (fs : List Fn)
    (st : LoadState Fn) :
    (fs.foldl (M.numberFunction annotatable) st).annotator =
        (fs.filter annotatable).foldl Annotator.see st.annotator ∧
      ∀ f, f ∈ st.functions ∨ f ∈ fs.filter annotatable →
        f ∈ (fs.foldl (M.numberFunction annotatable) st).functions := by
  induction fs generalizing st with
  | nil => exact ⟨rfl, fun f hf => by simpa using hf⟩
  | cons g fs ih =>
      rw [List.foldl_cons, List.filter_cons, numberFunction]
      by_cases hg : annotatable g = true
      · rw [if_pos hg, if_pos hg]
        obtain ⟨hannotator, hfunctions⟩ := ih ⟨st.annotator.see g,
          ((M.calledFunctions g).filter fun g => !annotatable g).foldl number
            (number st.functions g)⟩
        refine ⟨hannotator, fun f hf => hfunctions f ?_⟩
        rw [mem_foldl_number, mem_number]
        rw [List.mem_cons] at hf
        tauto
      · rw [if_neg hg, if_neg hg]
        exact ih st

theorem foldl_number_append {functions fs : List Fn} (hnodup : (functions ++ fs).Nodup) :
    fs.foldl number functions = functions ++ fs := by
  induction fs generalizing functions with
  | nil => simp
  | cons f fs ih =>
      have hnew : f ∉ functions := by
        intro hf
        exact (List.nodup_append.mp hnodup).2.2 f hf f List.mem_cons_self rfl
      rw [List.foldl_cons, number, if_neg hnew, ih (by simpa using hnodup), List.append_assoc]
      rfl

/-- All functions that are annotated are numbered and looked at, and nothing is
loaded yet. -/
theorem numberFunctions_eq (M : IRModule Fn) (annotatable : Fn → Bool) :
    (M.numberFunctions annotatable).annotator =
        { (Annotator.initial .empty : Annotator Fn) with
          allFunctions := M.functions.filter annotatable } ∧
      ∀ f ∈ M.functions.filter annotatable, f ∈ (M.numberFunctions annotatable).functions := by
  obtain ⟨hannotator, hfunctions⟩ :=
    foldl_numberFunction M annotatable M.functions ⟨.initial .empty, []⟩
  refine ⟨?_, fun f hf => hfunctions f (.inr hf)⟩
  rw [numberFunctions, hannotator, foldl_see_eq]
  simp only [Annotator.initial]
  have hnodup : ([] ++ M.functions.filter annotatable).Nodup := M.nodup.filter _
  rw [foldl_number_append hnodup, List.nil_append]

/-! ### The whole of `initializeChoiceMaps` -/

theorem foldl_number_of_mem {fs functions : List Fn} (h : ∀ f ∈ fs, f ∈ functions) :
    fs.foldl number functions = functions := by
  induction fs with
  | nil => rfl
  | cons f fs ih =>
      rw [List.foldl_cons, number, if_pos (h f List.mem_cons_self)]
      exact ih fun g hg => h g (List.mem_cons_of_mem f hg)

theorem nodup_foldl_number {fs functions : List Fn} (hnodup : functions.Nodup) :
    (fs.foldl number functions).Nodup := by
  induction fs generalizing functions with
  | nil => exact hnodup
  | cons f fs ih =>
      apply ih
      rw [number]
      split
      · exact hnodup
      · rename_i hnew
        exact List.nodup_append.mpr ⟨hnodup, by simp, by
          intro g hg h hh
          obtain rfl := List.mem_singleton.mp hh
          rintro rfl
          exact hnew hg⟩

/-- The maps by number are the maps by function. -/
theorem values_iff {functions : List Fn} (hnodup : functions.Nodup) {maps control : ChoiceMaps}
    {own : Fn → OptimisticChoiceKind → List Nat} :
    (∀ kind n, maps kind n =
      (match functions[n]? with
        | none => []
        | some f => own f kind) ++ control kind n) ↔
      (∀ f ∈ functions, ∀ kind, maps kind (functions.idxOf f) =
        own f kind ++ control kind (functions.idxOf f)) ∧
      ∀ kind n, functions.length ≤ n → maps kind n = control kind n := by
  constructor
  · intro h
    constructor
    · intro f hf kind
      simpa [List.getElem?_idxOf hf] using h kind (functions.idxOf f)
    · intro kind n hn
      simpa [List.getElem?_eq_none hn] using h kind n
  · rintro ⟨hnumbered, hrest⟩ kind n
    by_cases hn : n < functions.length
    · have hvalue := hnumbered functions[n] (List.getElem_mem hn) kind
      rw [hnodup.idxOf_getElem] at hvalue
      simpa [List.getElem?_eq_getElem hn] using hvalue
    · simpa [List.getElem?_eq_none (Nat.le_of_not_lt hn)] using
        hrest kind n (Nat.le_of_not_lt hn)

section Ends

variable {st : LoadState Fn} {before behind : List Fn} {f : Fn}

theorem Loaded.numbering_eq (h : Loaded M (M.numberFunctions annotatable) before st) :
    st.annotator.allFunctions =
      (before.filter M.reads).foldl number (M.functions.filter annotatable) := by
  rw [h.numbering, (numberFunctions_eq M annotatable).1]

theorem Loaded.mem_allFunctions (h : Loaded M (M.numberFunctions annotatable) before st) :
    f ∈ st.annotator.allFunctions ↔
      (f ∈ M.functions ∧ annotatable f = true) ∨ f ∈ before ∧ M.reads f = true := by
  rw [h.numbering_eq, mem_foldl_number, List.mem_filter, List.mem_filter]

theorem Loaded.nodup (h : Loaded M (M.numberFunctions annotatable) before st) :
    st.annotator.allFunctions.Nodup := by
  rw [h.numbering_eq]
  exact nodup_foldl_number (M.nodup.filter _)

/-- If no function that is skipped has values, all functions have their own. -/
theorem Loaded.values_of_end
    (hloaded : Loaded M (M.numberFunctions annotatable) M.functions st)
    (hskipped : ∀ f ∈ M.functions, annotatable f = true → M.unused f = true →
      ∀ kind, M.embedded f kind = []) :
    ∀ g ∈ st.annotator.allFunctions, ∀ kind,
      st.annotator.choiceMaps kind (st.annotator.functionNo g) = M.embedded g kind := by
  intro g hg kind
  rw [hloaded.values g hg kind]
  by_cases hreads : M.reads g = true
  · rcases hloaded.mem_allFunctions.mp hg with ⟨hmem, -⟩ | ⟨hmem, -⟩
    · rw [if_pos ⟨hmem, hreads⟩]
    · rw [if_pos ⟨hmem, hreads⟩]
  · rw [if_neg fun h => hreads h.2]
    obtain ⟨hmem, hannotatable⟩ :=
      (hloaded.mem_allFunctions.mp hg).resolve_right fun h => hreads h.2
    exact (embedded_eq_nil_of_skipped hskipped hmem hannotatable hreads kind).symm

/-- The loop ran to its end. -/
theorem loadsFunctionWise_of_end
    (hloop : loop (M.loadFunction 0) (M.numberFunctions annotatable) M.functions = .ok (.yield st))
    (hloaded : Loaded M (M.numberFunctions annotatable) M.functions st) :
    M.LoadsFunctionWise annotatable controlStr ↔
      (∀ f ∈ M.functions, annotatable f = true → M.unused f = true →
        ∀ kind, M.embedded f kind = []) ∧
      ∃ final, scan .main controlStr (.initial .empty) = .ok final := by
  have hover := scan_onTopOf st.annotator.choiceMaps .main controlStr (.initial .empty)
  have hinitial : { ScanState.initial .empty with
      choiceMaps := st.annotator.choiceMaps.onTopOf (ScanState.initial .empty).choiceMaps } =
      ScanState.initial st.annotator.choiceMaps := by
    simp [ScanState.initial]
  rw [hinitial] at hover
  simp only [LoadsFunctionWise, load, initializeChoiceMaps, hloop, Nat.lt_irrefl, if_false, hover]
  cases hscan : scan .main controlStr (.initial .empty) with
  | error e => simp [Except.map]
  | ok final =>
      have hcontrol : controlValues controlStr = final.choiceMaps := by rw [controlValues, hscan]
      simp only [Except.map, Except.ok.injEq, exists_eq_left', exists_eq', and_true]
      constructor
      · rintro ⟨-, -, hvalues⟩ g hg hannotatable hunused kind
        have hmem := hloaded.mem_allFunctions.mpr (.inl ⟨hg, hannotatable⟩)
        have hvalue := ((values_iff hloaded.nodup).mp hvalues).1 g hmem kind
        have hreads : M.reads g = false := by simp [reads, hunused]
        have hloadedValue := hloaded.values g hmem kind
        rw [if_neg (by simp [hreads])] at hloadedValue
        rw [hcontrol] at hvalue
        exact (List.append_cancel_right hvalue).symm.trans hloadedValue
      · intro hskipped
        refine ⟨hloaded.numbering_eq, hloaded.functions, (values_iff hloaded.nodup).mpr ⟨?_, ?_⟩⟩
        · intro g hg kind
          rw [hcontrol]
          exact congrArg (· ++ _) (hloaded.values_of_end hskipped g hg kind)
        · intro kind n hn
          rw [hcontrol]
          exact congrArg (· ++ _) (hloaded.unnumbered kind n hn)

/-- If the maps are right although the control string was not scanned, it has no
values, and no function has any that was numbered but not read. -/
theorem Loaded.missed_nothing (hloaded : Loaded M (M.numberFunctions annotatable) before st)
    (h : M.FunctionWise annotatable controlStr st) :
    controlValues controlStr = .empty ∧
      ∀ g ∈ st.annotator.allFunctions, ¬ (g ∈ before ∧ M.reads g = true) →
        ∀ kind, M.embedded g kind = [] := by
  obtain ⟨hnumbered, hrest⟩ := (values_iff hloaded.nodup).mp h.values
  constructor
  · funext kind n
    by_cases hn : n < st.annotator.allFunctions.length
    · have hvalue := hnumbered _ (List.getElem_mem hn) kind
      have hown := hloaded.values _ (List.getElem_mem hn) kind
      rw [Annotator.functionNo, hvalue, hloaded.nodup.idxOf_getElem] at hown
      split at hown
      · exact List.append_right_eq_self.mp hown
      · exact (List.append_eq_nil_iff.mp hown).2
    · have hn := Nat.le_of_not_lt hn
      exact (hrest kind n hn).symm.trans (hloaded.unnumbered kind n hn)
  · intro g hg hnot kind
    have hown := hloaded.values g hg kind
    rw [if_neg hnot, Annotator.functionNo, hnumbered g hg kind] at hown
    exact (List.append_eq_nil_iff.mp hown).1

section Left

variable (hsplit : M.functions = before ++ f :: behind) (hreads : M.reads f = false)
include hsplit hreads

omit [DecidableEq Fn] in
theorem filter_reads_of_left :
    M.functions.filter M.reads = before.filter M.reads ++ behind.filter M.reads := by
  rw [hsplit]
  simp [List.filter_append, hreads]

omit [DecidableEq Fn] hreads in
theorem mem_functions_of_behind {g : Fn} (hg : g ∈ behind) : g ∈ M.functions := by
  rw [hsplit]
  exact List.mem_append_right _ (List.mem_cons_of_mem f hg)

/-- A state in front of a variable that cannot be read is right if nothing is
missed. -/
theorem Loaded.functionWise_of_left (hloaded : Loaded M (M.numberFunctions annotatable) before st)
    (hskipped : ∀ f ∈ M.functions, annotatable f = true → M.unused f = true →
      ∀ kind, M.embedded f kind = [])
    (hbehind : ∀ g ∈ behind, M.reads g = true →
      annotatable g = true ∧ ∀ kind, M.embedded g kind = [])
    (hcontrol : controlValues controlStr = .empty) : M.FunctionWise annotatable controlStr st := by
  have hfilter := filter_reads_of_left hsplit hreads
  have hlater : ∀ g ∈ behind.filter M.reads, g ∈ M.functions.filter annotatable := by
    intro g hg
    obtain ⟨hg, hread⟩ := List.mem_filter.mp hg
    exact List.mem_filter.mpr ⟨mem_functions_of_behind hsplit hg, (hbehind g hg hread).1⟩
  refine ⟨?_, ?_, (values_iff hloaded.nodup).mpr ⟨?_, ?_⟩⟩
  · rw [hfilter, List.foldl_append, ← hloaded.numbering_eq]
    refine (foldl_number_of_mem fun g hg => ?_).symm
    exact hloaded.mem_allFunctions.mpr (.inl (List.mem_filter.mp (hlater g hg)))
  · rw [hfilter, List.foldl_append, ← hloaded.functions]
    refine (foldl_number_of_mem fun g hg => ?_).symm
    rw [hloaded.functions, mem_foldl_number]
    exact .inl ((numberFunctions_eq M annotatable).2 g (hlater g hg))
  · intro g hg kind
    rw [hcontrol]
    refine (hloaded.values g hg kind).trans (.trans ?_ (List.append_nil _).symm)
    split
    · rfl
    · rename_i hnot
      obtain ⟨hmem, hannotatable⟩ := (hloaded.mem_allFunctions.mp hg).resolve_right hnot
      by_cases hread : M.reads g = true
      · have hg' : g ∈ behind := by
          rw [hsplit, List.mem_append, List.mem_cons] at hmem
          rcases hmem with hmem | rfl | hmem
          · exact absurd ⟨hmem, hread⟩ hnot
          · rw [hreads] at hread
            cases hread
          · exact hmem
        exact ((hbehind g hg' hread).2 kind).symm
      · exact (embedded_eq_nil_of_skipped hskipped hmem hannotatable hread kind).symm
  · intro kind n hn
    rw [hcontrol]
    exact hloaded.unnumbered kind n hn

/-- The loop was left at a variable that cannot be read. -/
theorem loadsFunctionWise_of_left
    (hloop : loop (M.loadFunction 0) (M.numberFunctions annotatable) M.functions = .ok (.done st))
    (hloaded : Loaded M (M.numberFunctions annotatable) before st) :
    M.LoadsFunctionWise annotatable controlStr ↔
      (∀ f ∈ M.functions, annotatable f = true → M.unused f = true →
        ∀ kind, M.embedded f kind = []) ∧
      (∀ g ∈ behind, M.reads g = true →
        annotatable g = true ∧ ∀ kind, M.embedded g kind = []) ∧
      controlValues controlStr = .empty := by
  have hdisjoint : ∀ g ∈ behind, g ∉ before := by
    intro g hg hbefore
    have hnodup := M.nodup
    rw [hsplit] at hnodup
    exact (List.nodup_append.mp hnodup).2.2 g hbefore g (List.mem_cons_of_mem f hg) rfl
  simp only [LoadsFunctionWise, load, initializeChoiceMaps, hloop, Except.ok.injEq,
    exists_eq_left']
  constructor
  · intro hwise
    obtain ⟨hcontrol, hmissed⟩ := hloaded.missed_nothing hwise
    refine ⟨?_, ?_, hcontrol⟩
    · intro g hg hannotatable hunused
      apply hmissed g (hloaded.mem_allFunctions.mpr (.inl ⟨hg, hannotatable⟩))
      simp [reads, hunused]
    · intro g hg hread
      have hmem : g ∈ st.annotator.allFunctions := by
        rw [hwise.numbering, mem_foldl_number]
        exact .inr (List.mem_filter.mpr ⟨mem_functions_of_behind hsplit hg, hread⟩)
      have hnot : ¬ (g ∈ before ∧ M.reads g = true) := fun h => hdisjoint g hg h.1
      exact ⟨((hloaded.mem_allFunctions.mp hmem).resolve_right hnot).2, hmissed g hmem hnot⟩
  · rintro ⟨hskipped, hbehind, hcontrol⟩
    exact hloaded.functionWise_of_left hsplit hreads hskipped hbehind hcontrol

end Left

end Ends

/-- The module is loaded function by function just when nothing is missed. -/
theorem loadsFunctionWise_iff (M : IRModule Fn) (annotatable : Fn → Bool)
    (controlStr : List CChar) :
    M.LoadsFunctionWise annotatable controlStr ↔ M.NothingMissed annotatable controlStr := by
  have hsplit := List.takeWhile_append_dropWhile (p := fun f => !M.hinders f) (l := M.functions)
  have hpast : ∀ f ∈ M.functions.takeWhile fun f => !M.hinders f, M.hinders f = false := by
    intro f hf
    simpa using List.mem_takeWhile_imp hf
  have hstart : (M.numberFunctions annotatable).annotator.choiceMaps = .empty := by
    rw [(numberFunctions_eq M annotatable).1]
    rfl
  have hnodup := M.nodup
  rw [← hsplit] at hnodup
  obtain ⟨st, hloop, hloaded⟩ := loop_loaded (List.nodup_append.mp hnodup).1 hpast hstart
  rw [NothingMissed]
  cases hrest : M.functions.dropWhile fun f => !M.hinders f with
  | nil =>
      rw [hrest, List.append_nil] at hsplit
      rw [hsplit] at hloop hloaded
      exact loadsFunctionWise_of_end hloop hloaded
  | cons f behind =>
      rw [hrest] at hsplit
      have hhinders : M.hinders f = true := by
        have hhead := List.head?_dropWhile_not (fun f => !M.hinders f) M.functions
        rw [hrest] at hhead
        simpa using hhead
      rcases loadFunction_of_hinders st hhinders with ⟨hfound, hleft⟩ | ⟨hfound, e, herror⟩
      · have hleft := loop_done behind hloop hleft
        rw [hsplit] at hleft
        have hreads : M.reads f = false := by simp [reads, usable, hfound]
        rw [loadsFunctionWise_of_left hsplit.symm hreads hleft hloaded]
        simp [hfound]
      · have herror := loop_error behind hloop herror
        rw [hsplit] at herror
        simp [LoadsFunctionWise, load, initializeChoiceMaps, herror, hfound]

end IRModule

/-! ### A null pointer before a literal -/

/-- `char *f_OptimisticChoices = 0;` and `char g_OptimisticChoices[] = "#c10";`. -/
def nullBeforeLiteral : IRModule Nat where
  functions := [0, 1]
  getName f := if f = 0 then lit "f" else lit "g"
  isIntrinsic _ := false
  hasInternalLinkage _ := false
  isDeclaration _ := false
  getNumUses _ := 0
  calledFunctions _ := []
  getGlobalVariable name :=
    if name = lit "f_OptimisticChoices" then some ⟨some (.constant .other)⟩
    else if name = lit "g_OptimisticChoices" then
      some ⟨some (.constant (.i8Array [35, 99, 49, 48, 0] ⟨35, by simp, by decide⟩))⟩
    else none
  nodup := by decide

def oneForF : List CChar := (lit "#f0f#c11").map Int8.ofNat

/-- Neither the value in the control string nor that of the literal arrives. -/
theorem not_loadsFunctionWise_nullBeforeLiteral :
    ¬ nullBeforeLiteral.LoadsFunctionWise (fun _ => true) oneForF := by
  rintro ⟨st, hload, hst⟩
  have hleft : (nullBeforeLiteral.load (fun _ => true) oneForF).map
      (fun st => st.annotator.choiceMaps .parameterNoAlias 1) = .ok [] := by decide
  rw [hload] at hleft
  have hempty : st.annotator.choiceMaps .parameterNoAlias 1 = [] := Except.ok.inj hleft
  have hnumbering : st.annotator.allFunctions = [0, 1] := hst.numbering.trans (by decide)
  have hembedded : nullBeforeLiteral.embedded 1 .parameterNoAlias = [1] := by decide
  have hvalue := hst.values .parameterNoAlias 1
  rw [hempty, hnumbering] at hvalue
  simp [hembedded] at hvalue

end Petospa

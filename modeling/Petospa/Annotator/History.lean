import Petospa.Annotator.Query

/-!
# Answers as a function of the history

The abstract annotator has no state: numbers, positions and the cache are read
off the queries so far (newest first) and the maps that were read in. `Tracks`
connects the tables of the code to it; with it the answers of a whole run are
those of its histories.
-/

namespace Petospa

open Text Transducer

variable {Fn : Type*} [DecidableEq Fn]

/-! ### What a history determines -/

/-- The function that an event is about. -/
def Timed.function (e : Timed Fn) : Fn :=
  match e.event with
  | .sees f => f
  | .asks q => q.function

/-- Functions in the order of first sight. -/
def number (functions : List Fn) (f : Fn) : List Fn :=
  if f ∈ functions then functions else functions ++ [f]

def functionsSeen : List (Timed Fn) → List Fn
  | [] => []
  | e :: hist => number (functionsSeen hist) e.function

/-- How often a pair of kind and function was asked about. -/
def position (kind : OptimisticChoiceKind) (f : Fn) : List (Timed Fn) → Nat
  | [] => 0
  | e :: hist =>
      match e.event with
      | .sees _ => position kind f hist
      | .asks q => position kind f hist + if q.kind = kind ∧ q.function = f then 1 else 0

/-- The number that a function has once it is asked about. -/
def functionNoAt (hist : List (Timed Fn)) (f : Fn) : Nat :=
  (number (functionsSeen hist) f).idxOf f

/-- The entry that the maps hold for a query, 0 if there is none. -/
def explicit (maps : ChoiceMaps) (hist : List (Timed Fn)) (q : Query Fn) : Nat :=
  (maps q.kind (functionNoAt hist q.function)).getD (position q.kind q.function hist) 0

/-- The entry of the latest query of a kind and name that had one, in any
function and instance; 0 if there is none. -/
def cached (maps : ChoiceMaps) (kind : OptimisticChoiceKind) (name : Str) : List (Timed Fn) → Nat
  | [] => 0
  | e :: hist =>
      match e.event with
      | .sees _ => cached maps kind name hist
      | .asks q =>
          if q.kind = kind ∧ q.name = name ∧ 0 < explicit maps hist q then explicit maps hist q
          else cached maps kind name hist

/-- The entry that answers a query: its own, that of its namesake, or the default. -/
def answering (opts : Options) (maps : ChoiceMaps) (hist : List (Timed Fn)) (q : Query Fn) : Nat :=
  if 0 < explicit maps hist q then explicit maps hist q
  else if 0 < cached maps q.kind q.name hist then cached maps q.kind q.name hist
  else if opts.annotationsDefault then q.numChoices else 1

/-- The opportunities that are printed: in the last instance, without an entry. -/
def printedAt (opts : Options) (maps : ChoiceMaps) (hist : List (Timed Fn)) (inst : Nat)
    (q : Query Fn) : Option Opportunity :=
  if explicit maps hist q = 0 ∧ cached maps q.kind q.name hist = 0 ∧
      (opts.annotationRuns < 0 ∨ (inst : Int) = opts.annotationRuns - 1) ∧
      opts.printOptimisticOpportunities then
    some ⟨q.numChoices, answering opts maps hist q - 1, q.kind, functionNoAt hist q.function,
      q.name, q.functionName, q.numChoices_pos⟩
  else none

/-- The abstract annotator. -/
def answerAt (opts : Options) (maps : ChoiceMaps) (hist : List (Timed Fn)) (e : Timed Fn) :
    Option Answer :=
  match e.event with
  | .sees _ => none
  | .asks q => some ⟨answering opts maps hist q - 1, printedAt opts maps hist e.inst q⟩

/-! ### Numbers -/

section Numbers

variable {functions : List Fn} {f g : Fn}

theorem mem_number : g ∈ number functions f ↔ g ∈ functions ∨ g = f := by
  rw [number]
  split
  · rename_i hmem
    refine ⟨.inl, ?_⟩
    rintro (hg | rfl)
    · exact hg
    · exact hmem
  · simp

/-- A number is never changed. -/
theorem idxOf_number (hg : g ∈ functions) : (number functions f).idxOf g = functions.idxOf g := by
  rw [number]
  split
  · rfl
  · exact List.idxOf_append_of_mem hg

theorem idxOf_injective (hf : f ∈ functions) (h : functions.idxOf f = functions.idxOf g) :
    f = g := by
  by_cases hg : g ∈ functions
  · exact (List.idxOf_inj hf).mp h
  · have hlt := List.idxOf_lt_length_of_mem hf
    rw [h, List.idxOf_of_notMem hg] at hlt
    omega

theorem functionsSeen_isPrefix (newer hist : List (Timed Fn)) :
    functionsSeen hist <+: functionsSeen (newer ++ hist) := by
  induction newer with
  | nil => exact List.prefix_refl _
  | cons e newer ih =>
      apply ih.trans
      rw [List.cons_append, functionsSeen, number]
      split
      · exact List.prefix_refl _
      · exact List.prefix_append _ _

theorem foldl_number_isPrefix (fs functions : List Fn) :
    functions <+: fs.foldl number functions := by
  induction fs generalizing functions with
  | nil => exact List.prefix_refl _
  | cons f fs ih =>
      refine List.IsPrefix.trans ?_ (ih (number functions f))
      rw [number]
      split
      · exact List.prefix_refl _
      · exact List.prefix_append _ _

theorem mem_foldl_number {fs functions : List Fn} {f : Fn} :
    f ∈ fs.foldl number functions ↔ f ∈ functions ∨ f ∈ fs := by
  induction fs generalizing functions with
  | nil => simp
  | cons g fs ih => rw [List.foldl_cons, ih, mem_number, List.mem_cons, or_assoc]

end Numbers

/-! ### Following the tables -/

/-- The tables of the annotator after a history. The maps have changed only at
positions that were asked about. -/
structure Tracks (maps : ChoiceMaps) (hist : List (Timed Fn)) (st : Annotator Fn) : Prop where
  functions : st.allFunctions = functionsSeen hist
  indices : ∀ kind f, st.choiceIndices kind f = position kind f hist
  cache : ∀ kind name, st.nameCache kind name = cached maps kind name hist
  ahead : ∀ (kind : OptimisticChoiceKind) (fnNo pos : Nat),
    (∀ f ∈ functionsSeen hist, (functionsSeen hist).idxOf f = fnNo →
      position kind f hist ≤ pos) →
    (st.choiceMaps kind fnNo).getD pos 0 = (maps kind fnNo).getD pos 0

theorem getD_resize (map : List Nat) (size pos : Nat) :
    (resize map size).getD pos 0 = map.getD pos 0 := by
  rw [resize]
  split
  · simp only [List.getD_eq_getElem?_getD]
    rcases Nat.lt_or_ge pos map.length with hlt | hge
    · rw [List.getElem?_append_left hlt]
    · rw [List.getElem?_append_right hge, List.getElem?_eq_none hge, List.getElem?_replicate]
      split <;> rfl
  · rfl

variable {maps : ChoiceMaps} {hist : List (Timed Fn)} {st : Annotator Fn} {opts : Options}

namespace Annotator

theorem initial_tracks (maps : ChoiceMaps) : Tracks maps [] (initial maps : Annotator Fn) :=
  ⟨rfl, fun _ _ => rfl, fun _ _ => rfl, fun _ _ _ _ => rfl⟩

/-- Seeing a function numbers it and changes nothing else. -/
theorem see_eq (st : Annotator Fn) (f : Fn) :
    st.see f = { st with allFunctions := number st.allFunctions f } := by
  rw [see, number]
  split <;> rfl

end Annotator

theorem foldl_see_eq (fs : List Fn) (st : Annotator Fn) :
    fs.foldl Annotator.see st = { st with allFunctions := fs.foldl number st.allFunctions } := by
  induction fs generalizing st with
  | nil => rfl
  | cons f fs ih => rw [List.foldl_cons, List.foldl_cons, Annotator.see_eq, ih]

namespace Tracks

/-- The entry at a position that was not asked about, with one more function numbered. -/
theorem getD_choiceMaps (h : Tracks maps hist st) {f : Fn} {kind : OptimisticChoiceKind}
    {fnNo pos : Nat} (hpos : ∀ g ∈ number (functionsSeen hist) f,
      (number (functionsSeen hist) f).idxOf g = fnNo → position kind g hist ≤ pos) :
    (st.choiceMaps kind fnNo).getD pos 0 = (maps kind fnNo).getD pos 0 := by
  apply h.ahead
  intro g hg hno
  exact hpos g (mem_number.mpr (.inl hg)) (by rw [idxOf_number hg, hno])

theorem see (h : Tracks maps hist st) {e : Timed Fn} {f : Fn} (he : e.event = .sees f) :
    Tracks maps (e :: hist) (st.see f) := by
  have hfunction : e.function = f := by rw [Timed.function, he]
  have hposition : ∀ kind g, position kind g (e :: hist) = position kind g hist := by
    intro kind g
    simp [position, he]
  rw [Annotator.see_eq]
  constructor
  · rw [functionsSeen, hfunction, ← h.functions]
  · intro kind g
    rw [hposition, ← h.indices]
  · intro kind name
    rw [cached, he]
    exact h.cache kind name
  · intro kind fnNo pos hpos
    apply h.getD_choiceMaps
    intro g hg hno
    rw [← hposition]
    rw [functionsSeen, hfunction] at hpos
    exact hpos g hg hno

/-- The entry that the code finds is the one the maps hold. -/
theorem choice_eq (h : Tracks maps hist st) (q : Query Fn) :
    (resize (st.choiceMaps q.kind (functionNoAt hist q.function))
      (st.choiceIndices q.kind q.function + 1)).getD (st.choiceIndices q.kind q.function) 0 =
      explicit maps hist q := by
  rw [getD_resize, h.indices, explicit]
  apply h.getD_choiceMaps
  intro g hg hno
  obtain rfl := idxOf_injective hg hno
  exact Nat.le_refl _

/-- A query keeps the tables and is answered as the history says. -/
theorem getOptimisticChoice (h : Tracks maps hist st) (opts : Options) {e : Timed Fn}
    {q : Query Fn} (he : e.event = .asks q) :
    Tracks maps (e :: hist) (st.getOptimisticChoice opts e.inst q).1 ∧
      (st.getOptimisticChoice opts e.inst q).2 =
        ⟨answering opts maps hist q - 1, printedAt opts maps hist e.inst q⟩ := by
  have hfunction : e.function = q.function := by rw [Timed.function, he]
  have hnumber : ({ st with allFunctions := number st.allFunctions q.function } :
      Annotator Fn).functionNo q.function = functionNoAt hist q.function := by
    rw [Annotator.functionNo, h.functions, functionNoAt]
  have hposition : ∀ kind g, position kind g (e :: hist) =
      position kind g hist + if q.kind = kind ∧ q.function = g then 1 else 0 := by
    intro kind g
    rw [position, he]
  simp only [Annotator.getOptimisticChoice, Annotator.see_eq, hnumber, h.choice_eq, h.cache]
  constructor
  · constructor
    · rw [functionsSeen, hfunction, ← h.functions]
    · intro kind g
      rw [hposition]
      by_cases hpair : kind = q.kind ∧ g = q.function
      · obtain ⟨rfl, rfl⟩ := hpair
        simp [h.indices]
      · have hother : ¬ (q.kind = kind ∧ q.function = g) := by
          rintro ⟨rfl, rfl⟩
          exact hpair ⟨rfl, rfl⟩
        simp [hpair, hother, h.indices]
    · intro kind name
      rw [cached, he]
      by_cases hpair : kind = q.kind ∧ name = q.name
      · obtain ⟨rfl, rfl⟩ := hpair
        simp
      · have hother : ¬ (q.kind = kind ∧ q.name = name ∧ 0 < explicit maps hist q) := by
          rintro ⟨rfl, rfl, -⟩
          exact hpair ⟨rfl, rfl⟩
        simp [hpair, hother]
    · intro kind fnNo pos hpos
      rw [functionsSeen, hfunction] at hpos
      have hbefore : (st.choiceMaps kind fnNo).getD pos 0 = (maps kind fnNo).getD pos 0 := by
        apply h.getD_choiceMaps
        intro g hg hno
        have hle := hpos g hg hno
        rw [hposition] at hle
        omega
      by_cases hpair : kind = q.kind ∧ fnNo = functionNoAt hist q.function
      · obtain ⟨rfl, rfl⟩ := hpair
        have hlt := hpos q.function (mem_number.mpr (.inr rfl)) rfl
        rw [hposition, if_pos ⟨rfl, rfl⟩, ← h.indices] at hlt
        show (if q.kind = q.kind ∧ functionNoAt hist q.function = functionNoAt hist q.function
          then _ else _ : List Nat).getD pos 0 = _
        rw [if_pos ⟨rfl, rfl⟩, List.getD_eq_getElem?_getD, List.getElem?_set_ne (by omega),
          ← List.getD_eq_getElem?_getD, getD_resize]
        exact hbefore
      · show (if kind = q.kind ∧ fnNo = functionNoAt hist q.function then _ else _ :
          List Nat).getD pos 0 = _
        rw [if_neg hpair]
        exact hbefore
  · have hsilent : ¬ (0 < explicit maps hist q ∨ 0 < cached maps q.kind q.name hist) ↔
        explicit maps hist q = 0 ∧ cached maps q.kind q.name hist = 0 := by omega
    simp only [answering, printedAt, hsilent, and_assoc]

end Tracks

end Petospa

import Petospa.Annotator.History

/-!
# A run with the choice maps that an earlier run left behind

Every query writes the entry it is answered with into the choice maps, at a
position that no later query has. So the maps at the end of a run hold all its
answers, and a run that starts with them looks none up elsewhere: the cache by
name may hold anything.
-/

namespace Petospa

open Text Transducer

variable {Fn : Type*} [DecidableEq Fn]

namespace Annotator

variable {opts : Options} {inst : Nat} {st : Annotator Fn} {q : Query Fn} {f : Fn}

/-- The map that is consulted, long enough for the position. -/
def consulted (st : Annotator Fn) (q : Query Fn) : List Nat :=
  resize (st.choiceMaps q.kind ((st.see q.function).functionNo q.function))
    (st.choiceIndices q.kind q.function + 1)

/-- The entry that a query is answered with and that is left behind. -/
def entryFor (opts : Options) (st : Annotator Fn) (q : Query Fn) : Nat :=
  let choice := (st.consulted q).getD (st.choiceIndices q.kind q.function) 0
  if 0 < choice then choice
  else if 0 < st.nameCache q.kind q.name then st.nameCache q.kind q.name
  else if opts.annotationsDefault then q.numChoices else 1

theorem entryFor_pos (opts : Options) (st : Annotator Fn) (q : Query Fn) :
    0 < entryFor opts st q := by
  have hpos := q.numChoices_pos
  simp only [entryFor]
  split
  · assumption
  · split
    · assumption
    · split <;> omega

theorem lt_length_consulted (st : Annotator Fn) (q : Query Fn) :
    st.choiceIndices q.kind q.function < (st.consulted q).length := by
  rw [consulted, resize]
  split
  · rw [List.length_append, List.length_replicate]
    omega
  · omega

@[simp] theorem see_choiceMaps (st : Annotator Fn) (f : Fn) :
    (st.see f).choiceMaps = st.choiceMaps := by
  simp only [see_eq]

@[simp] theorem see_choiceIndices (st : Annotator Fn) (f : Fn) :
    (st.see f).choiceIndices = st.choiceIndices := by
  simp only [see_eq]

theorem getOptimisticChoice_value :
    (st.getOptimisticChoice opts inst q).2.value = entryFor opts st q - 1 := by
  simp only [getOptimisticChoice, entryFor, consulted, see_eq]

theorem getOptimisticChoice_allFunctions :
    (st.getOptimisticChoice opts inst q).1.allFunctions = (st.see q.function).allFunctions :=
  rfl

theorem getOptimisticChoice_choiceIndices (kind : OptimisticChoiceKind) (f : Fn) :
    (st.getOptimisticChoice opts inst q).1.choiceIndices kind f =
      if kind = q.kind ∧ f = q.function then st.choiceIndices q.kind q.function + 1
      else st.choiceIndices kind f := by
  simp only [getOptimisticChoice, see_choiceIndices]

theorem getOptimisticChoice_choiceMaps (kind : OptimisticChoiceKind) (fnNo : Nat) :
    (st.getOptimisticChoice opts inst q).1.choiceMaps kind fnNo =
      if kind = q.kind ∧ fnNo = (st.see q.function).functionNo q.function then
        (st.consulted q).set (st.choiceIndices q.kind q.function) (entryFor opts st q)
      else st.choiceMaps kind fnNo := by
  simp only [getOptimisticChoice, see_choiceMaps, see_choiceIndices]
  rfl

/-- Nothing is printed for a query whose entry is in the map. -/
theorem getOptimisticChoice_printed
    (h : 0 < (st.consulted q).getD (st.choiceIndices q.kind q.function) 0) :
    (st.getOptimisticChoice opts inst q).2.printed = none := by
  have hchoice : 0 < (resize ((st.see q.function).choiceMaps q.kind
      ((st.see q.function).functionNo q.function))
      ((st.see q.function).choiceIndices q.kind q.function + 1)).getD
      ((st.see q.function).choiceIndices q.kind q.function) 0 := by
    rw [see_choiceMaps, see_choiceIndices]
    exact h
  exact if_neg fun hloud => hloud.1 (.inl hchoice)

end Annotator

/-! ### What a query leaves behind -/

/-- The map of a function and kind holds an entry at a position that was asked about. -/
structure Annotator.Holds (st : Annotator Fn) (kind : OptimisticChoiceKind) (f : Fn)
    (fnNo pos entry : Nat) : Prop where
  seen : f ∈ st.allFunctions
  number : st.functionNo f = fnNo
  asked : pos < st.choiceIndices kind f
  entry : (st.choiceMaps kind fnNo)[pos]? = some entry

theorem getElem?_resize {map : List Nat} {pos entry : Nat} (h : map[pos]? = some entry)
    (size : Nat) : (resize map size)[pos]? = some entry := by
  have hlen := (List.getElem?_eq_some_iff.mp h).1
  rw [resize]
  split
  · rw [List.getElem?_append_left hlen, h]
  · exact h

theorem set_of_getElem? {α : Type*} {xs : List α} {i : Nat} {x : α} (h : xs[i]? = some x) :
    xs.set i x = xs := by
  obtain ⟨hi, rfl⟩ := List.getElem?_eq_some_iff.mp h
  exact List.set_getElem_self hi

theorem resize_eq_self {map : List Nat} {size : Nat} (h : size ≤ map.length) :
    resize map size = map := by
  rw [resize, if_neg (by omega)]

namespace Annotator.Holds

variable {st : Annotator Fn} {kind : OptimisticChoiceKind} {f : Fn} {fnNo pos entry : Nat}

theorem see (h : st.Holds kind f fnNo pos entry) (g : Fn) :
    (st.see g).Holds kind f fnNo pos entry := by
  have hseen : f ∈ Petospa.number st.allFunctions g := mem_number.mpr (.inl h.seen)
  have hno : (Petospa.number st.allFunctions g).idxOf f = st.allFunctions.idxOf f :=
    idxOf_number h.seen
  rw [see_eq]
  exact ⟨hseen, hno.trans h.number, h.asked, h.entry⟩

/-- Later queries are about later positions or other maps. -/
theorem getOptimisticChoice (h : st.Holds kind f fnNo pos entry) (opts : Options) (inst : Nat)
    (q : Query Fn) : (st.getOptimisticChoice opts inst q).1.Holds kind f fnNo pos entry := by
  have hsee := h.see q.function
  refine ⟨hsee.seen, hsee.number, ?_, ?_⟩
  · rw [getOptimisticChoice_choiceIndices]
    split
    · rename_i hsame
      obtain ⟨rfl, rfl⟩ := hsame
      exact Nat.lt_succ_of_lt h.asked
    · exact h.asked
  · rw [getOptimisticChoice_choiceMaps]
    split
    · rename_i hsame
      obtain ⟨rfl, hfn⟩ := hsame
      obtain rfl := idxOf_injective hsee.seen (hsee.number.trans hfn)
      have hasked := h.asked
      rw [List.getElem?_set_ne (by omega), consulted, ← hfn]
      exact getElem?_resize h.entry _
    · exact h.entry

theorem step (h : st.Holds kind f fnNo pos entry) (opts : Options) (e : Timed Fn) :
    (st.step opts e).1.Holds kind f fnNo pos entry := by
  rw [Annotator.step]
  cases e.event with
  | sees g => exact h.see g
  | asks q => exact h.getOptimisticChoice opts e.inst q

/-- An entry stays to the end of the run. -/
theorem final (h : st.Holds kind f fnNo pos entry) (opts : Options) (trace : List (Timed Fn)) :
    (Transducer.final (Annotator.step opts) st trace).Holds kind f fnNo pos entry := by
  induction trace generalizing st with
  | nil => exact h
  | cons e trace ih => exact ih (h.step opts e)

end Annotator.Holds

/-- A query leaves its entry behind. -/
theorem Annotator.getOptimisticChoice_holds (st : Annotator Fn) (opts : Options) (inst : Nat)
    (q : Query Fn) :
    (st.getOptimisticChoice opts inst q).1.Holds q.kind q.function
      ((st.see q.function).functionNo q.function) (st.choiceIndices q.kind q.function)
      (entryFor opts st q) where
  seen := by
    rw [getOptimisticChoice_allFunctions, see_eq]
    exact mem_number.mpr (.inr rfl)
  number := rfl
  asked := by
    rw [getOptimisticChoice_choiceIndices, if_pos ⟨rfl, rfl⟩]
    exact Nat.lt_succ_self _
  entry := by
    rw [getOptimisticChoice_choiceMaps, if_pos ⟨rfl, rfl⟩]
    exact List.getElem?_set_self (lt_length_consulted st q)

/-! ### The second run -/

/-- The second run stands where the first one does, with the final maps. -/
structure Pinned (final : ChoiceMaps) (first second : Annotator Fn) : Prop where
  functions : second.allFunctions = first.allFunctions
  indices : second.choiceIndices = first.choiceIndices
  maps : second.choiceMaps = final

/-- A step in front of which something else rewrites the cache by name. -/
def Annotator.disturbedStep (opts : Options)
    (disturb : Annotator Fn → OptimisticChoiceKind → Str → Nat) (st : Annotator Fn)
    (e : Timed Fn) : Annotator Fn × Option Answer :=
  Annotator.step opts { st with nameCache := disturb st } e

/-- An answer without the opportunity that was printed for it. -/
def Answer.silent (answer : Answer) : Answer := { answer with printed := none }

namespace Pinned

variable {final : ChoiceMaps} {first second : Annotator Fn}

omit [DecidableEq Fn] in
theorem disturb (h : Pinned final first second) (cache : OptimisticChoiceKind → Str → Nat) :
    Pinned final first { second with nameCache := cache } :=
  ⟨h.functions, h.indices, h.maps⟩

theorem see (h : Pinned final first second) (f : Fn) :
    Pinned final (first.see f) (second.see f) := by
  rw [Annotator.see_eq, Annotator.see_eq]
  exact ⟨congrArg (number · f) h.functions, h.indices, h.maps⟩

/-- A query whose entry is in the final maps is answered with it and changes nothing. -/
theorem getOptimisticChoice (h : Pinned final first second) (opts opts' : Options)
    (inst inst' : Nat) (q : Query Fn)
    (hentry : (final q.kind ((first.see q.function).functionNo q.function))[first.choiceIndices
      q.kind q.function]? = some (Annotator.entryFor opts first q)) :
    Pinned final (first.getOptimisticChoice opts inst q).1
        (second.getOptimisticChoice opts' inst' q).1 ∧
      (second.getOptimisticChoice opts' inst' q).2 =
        (first.getOptimisticChoice opts inst q).2.silent := by
  have hpos := Annotator.entryFor_pos opts first q
  have hsee := h.see q.function
  have hno : (second.see q.function).functionNo q.function =
      (first.see q.function).functionNo q.function := by
    rw [Annotator.functionNo, hsee.functions, Annotator.functionNo]
  have hlen := (List.getElem?_eq_some_iff.mp hentry).1
  have hconsulted : second.consulted q =
      final q.kind ((first.see q.function).functionNo q.function) := by
    rw [Annotator.consulted, hno, h.maps, h.indices]
    exact resize_eq_self hlen
  have hchoice : (second.consulted q).getD (second.choiceIndices q.kind q.function) 0 =
      Annotator.entryFor opts first q := by
    rw [hconsulted, h.indices, List.getD_eq_getElem?_getD, hentry, Option.getD_some]
  have hsame : Annotator.entryFor opts' second q = Annotator.entryFor opts first q := by
    rw [Annotator.entryFor, hchoice]
    exact if_pos hpos
  constructor
  · refine ⟨hsee.functions, ?_, ?_⟩
    · funext kind f
      rw [Annotator.getOptimisticChoice_choiceIndices, Annotator.getOptimisticChoice_choiceIndices,
        h.indices]
    · funext kind fnNo
      rw [Annotator.getOptimisticChoice_choiceMaps]
      split
      · rename_i hmap
        obtain ⟨rfl, rfl⟩ := hmap
        rw [hconsulted, hsame, h.indices, hno]
        exact set_of_getElem? hentry
      · rw [h.maps]
  · have hvalue : (second.getOptimisticChoice opts' inst' q).2.value =
        (first.getOptimisticChoice opts inst q).2.value := by
      rw [Annotator.getOptimisticChoice_value, Annotator.getOptimisticChoice_value, hsame]
    have hprinted : (second.getOptimisticChoice opts' inst' q).2.printed = none :=
      Annotator.getOptimisticChoice_printed (by rw [hchoice]; exact hpos)
    rw [Answer.silent, ← hvalue, ← hprinted]

end Pinned

/-- Both runs of a trace, from states that stand at the same place: the second
one gives the same answers, prints nothing and keeps the maps. -/
theorem pinned_outputs (opts opts' : Options)
    (disturb : Annotator Fn → OptimisticChoiceKind → Str → Nat) (trace : List (Timed Fn))
    {first second : Annotator Fn}
    (h : Pinned (Transducer.final (Annotator.step opts) first trace).choiceMaps first second) :
    outputs (Annotator.disturbedStep opts' disturb) second trace =
        (outputs (Annotator.step opts) first trace).map (Option.map Answer.silent) ∧
      (Transducer.final (Annotator.disturbedStep opts' disturb) second trace).choiceMaps =
        (Transducer.final (Annotator.step opts) first trace).choiceMaps := by
  induction trace generalizing first second with
  | nil => exact ⟨rfl, h.maps⟩
  | cons e trace ih =>
      have hdisturbed := h.disturb (disturb second)
      cases he : e.event with
      | sees f =>
          have hfirst : first.step opts e = (first.see f, none) := by rw [Annotator.step, he]
          have hsecond : second.disturbedStep opts' disturb e =
              (({ second with nameCache := disturb second } : Annotator Fn).see f, none) := by
            rw [Annotator.disturbedStep, Annotator.step, he]
          simp only [Transducer.final, outputs, hfirst, hsecond, List.map_cons, Option.map_none]
            at hdisturbed ⊢
          obtain ⟨hout, hmaps⟩ := ih (hdisturbed.see f)
          exact ⟨congrArg (none :: ·) hout, hmaps⟩
      | asks q =>
          have hfirst : first.step opts e = ((first.getOptimisticChoice opts e.inst q).1,
              some (first.getOptimisticChoice opts e.inst q).2) := by rw [Annotator.step, he]
          have hsecond : second.disturbedStep opts' disturb e =
              ((({ second with nameCache := disturb second } : Annotator Fn).getOptimisticChoice
                opts' e.inst q).1,
              some (({ second with nameCache := disturb second } : Annotator Fn).getOptimisticChoice
                opts' e.inst q).2) := by
            rw [Annotator.disturbedStep, Annotator.step, he]
          simp only [Transducer.final, outputs, hfirst, hsecond, List.map_cons, Option.map_some]
            at hdisturbed ⊢
          have hleft := (first.getOptimisticChoice_holds opts e.inst q).final opts trace
          obtain ⟨hnext, hanswer⟩ :=
            hdisturbed.getOptimisticChoice opts opts' e.inst e.inst q hleft.entry
          obtain ⟨hout, hmaps⟩ := ih hnext
          exact ⟨by rw [hanswer, hout], hmaps⟩

/-- A run that starts with the maps of an earlier run of the same trace gives
the same answers, prints no opportunity and leaves the maps as they are, under
any options and whatever happens to the cache by name in between. -/
theorem rerun_pinned (opts opts' : Options) (maps : ChoiceMaps) (trace : List (Timed Fn))
    (disturb : Annotator Fn → OptimisticChoiceKind → Str → Nat) :
    let left := (final (Annotator.step opts) (.initial maps) trace).choiceMaps
    let silent := (outputs (Annotator.step opts) (.initial maps) trace).map
      (Option.map Answer.silent)
    (outputs (Annotator.step opts') (.initial left) trace = silent ∧
      (final (Annotator.step opts') (.initial left) trace).choiceMaps = left) ∧
    (outputs (Annotator.disturbedStep opts' disturb) (.initial left) trace = silent ∧
      (final (Annotator.disturbedStep opts' disturb) (.initial left) trace).choiceMaps = left) := by
  intro left silent
  have hstart : Pinned left (Annotator.initial maps : Annotator Fn) (.initial left) :=
    ⟨rfl, rfl, rfl⟩
  -- a run whose cache is put back before every event is the undisturbed one
  exact ⟨pinned_outputs opts opts' (fun st => st.nameCache) trace hstart,
    pinned_outputs opts opts' disturb trace hstart⟩

end Petospa

import Mathlib.Data.List.Sort
import Petospa.Transport.Produced

/-!
# Rounds of tuning a source file

One iteration of `optimizeAndRun` tunes the opportunities of one annotator run.
A round leaves the source file's settled choices and control string behind; the
theorem says when the two stay in step and no round undoes an earlier one.
-/

namespace Petospa

open Text Coroutine ChoiceExplorer

/-- What `optimizeAndRun` keeps in a source file. -/
structure Sourcefile where
  optimisticChoices : List OptimisticChoice
  currentControlString : Str

/-- The order of `ocs.sort`. -/
def sortKeyLe (a b : OptimisticChoice) : Prop :=
  a.opportunityNo < b.opportunityNo ∨
    (a.opportunityNo = b.opportunityNo ∧ a.functionNo ≤ b.functionNo)

instance (a b : OptimisticChoice) : Decidable (sortKeyLe a b) :=
  inferInstanceAs (Decidable (_ ∨ _))

/-- `ocs.sort(key=lambda oc: (oc.opportunity_no, oc.function_no))`, a stable sort. -/
def sortChoices (ocs : List OptimisticChoice) : List OptimisticChoice := ocs.insertionSort sortKeyLe

/-- What a round of tuning gets from outside: the choices that
`determineOptimisticChoices` finds, the clock when the search starts, the
verdicts of the tests with the clock behind each, and the final validation,
which may raise. -/
structure Round where
  opportunities : List OptimisticChoice
  now : Nat
  answers : List (Bool × Nat)
  validated : Option Bool

namespace Sourcefile

def initial : Sourcefile := ⟨[], []⟩

/-- The search of a round, after its answers. -/
def search (limits : Limits) (src : Sourcefile) (rd : Round) : GeneratorOutcome :=
  (new (sortChoices rd.opportunities) src.currentControlString).afterAnswers limits rd.now
    rd.answers

/-- The updates of the source file behind the final validation. -/
def settle (src : Sourcefile) (r : Returned) : Sourcefile where
  optimisticChoices :=
    src.optimisticChoices ++ r.explorer.optimisticChoices.take r.explorer.firstPos
  currentControlString := r.explorer.controlString

/-- One iteration of `optimizeAndRun`, and whether the loop goes on. A search
that did not return was ended by an exception; a failed validation ends the loop
behind the updates. -/
def round (limits : Limits) (src : Sourcefile) (rd : Round) : Sourcefile × Bool :=
  if rd.opportunities = [] then (src, true)
  else
    match src.search limits rd, rd.validated with
    | .returned r, some success => (src.settle r, !r.stop && success)
    | _, _ => (src, false)

/-- A round with the source file before and after it. -/
structure Step where
  before : Sourcefile
  rd : Round
  after : Sourcefile

/-- The rounds that are run, of at most the given number. -/
def rounds (limits : Limits) : Nat → Sourcefile → List Round → List Step
  | n + 1, src, rd :: rds =>
      let next := src.round limits rd
      ⟨src, rd, next.1⟩ :: (if next.2 then rounds limits n next.1 rds else [])
  | _, _, _ => []

def optimizeAndRun (limits : Limits) (rds : List Round) : List Step := rounds limits 14 initial rds

/-- The settled values of every pair of kind and function. -/
def settled (src : Sourcefile) : ChoiceMaps := fun kind fnNo =>
  (src.optimisticChoices.filter (·.belongsTo kind fnNo)).map fun oc => oc.value + 1

/-- The control string says what is settled. -/
def InStep (src : Sourcefile) : Prop := decode .empty src.currentControlString = .ok src.settled

namespace Step

/-- The round kept what was settled before it, and string and choices in step. -/
def Keeps (st : Step) : Prop :=
  st.before.currentControlString <+: st.after.currentControlString ∧ st.after.InStep

/-- A limit does not stop the search before its first choice is settled, unless
there is nothing to lose; and what is settled has a seven-bit character. -/
def Settles (limits : Limits) (st : Step) : Prop :=
  st.rd.opportunities ≠ [] → st.rd.validated ≠ none →
    ∀ r, st.before.search limits st.rd = .returned r →
    (r.stop = true → r.explorer.firstPos = 0 → st.before.currentControlString = []) ∧
    ∀ oc ∈ r.explorer.optimisticChoices.take r.explorer.firstPos, oc.value < 80

end Step

end Sourcefile

/-! ### Decoding tells seven-bit values from others -/

theorem isSome_fsencodeChar {t : Str} {bytes : List CChar} (h : fsencode t = some bytes) {c : Nat}
    (hc : c ∈ t) : (fsencodeChar c).isSome := by
  induction t generalizing bytes with
  | nil => simp at hc
  | cons d t ih =>
      simp only [fsencode, Option.bind_eq_bind, Option.bind_eq_some_iff] at h
      obtain ⟨front, hfront, back, hback, -⟩ := h
      rcases List.mem_cons.mp hc with rfl | hmem
      · simp [hfront]
      · exact ih hback hmem

theorem optionChar_mem_encode {f k : Int} {ocs : List OptimisticChoice} {oc : OptimisticChoice}
    (hoc : oc ∈ ocs) : optionChar oc.value ∈ encode f k ocs := by
  induction ocs generalizing f k with
  | nil => simp at hoc
  | cons o ocs ih =>
      rw [encode, List.mem_append, List.mem_cons]
      rcases List.mem_cons.mp hoc with rfl | hmem
      · exact .inr (.inl rfl)
      · exact .inr (.inr (ih hmem))

/-- A string that decodes was encoded with values that a process argument carries. -/
theorem encodable_of_decode {maps maps' : ChoiceMaps} {s : Str} {ocs : List OptimisticChoice}
    (h : decode maps (layout s ocs) = .ok maps') : ∀ oc ∈ ocs, oc.Encodable := by
  intro oc hoc
  rw [decode] at h
  cases hbytes : fsencode (layout s ocs) with
  | none => simp [hbytes] at h
  | some bytes =>
      refine isSome_fsencodeChar hbytes ?_
      rw [layout, List.mem_append]
      exact .inr (optionChar_mem_encode hoc)

/-- An encodable value is the number of a code point. -/
theorem lt_of_encodable {oc : OptimisticChoice} (h : oc.Encodable) : oc.value < 0x110000 := by
  by_contra hge
  have hnone : fsencodeChar (48 + oc.value) = none := by
    simp only [fsencodeChar]
    repeat rw [if_neg (by omega)]
  change (fsencodeChar (48 + oc.value)).isSome = true at h
  rw [hnone] at h
  cases h

/-- The character of a larger value is read byte by byte, as negative `char`s. -/
theorem entries_of_le {oc : OptimisticChoice} (hv : 80 ≤ oc.value) (h : oc.Encodable) :
    ∃ entry ∈ entries oc.value, 0x110000 < entry := by
  obtain ⟨bytes, hbytes⟩ := Option.isSome_iff_exists.mp h
  have hchar : fsencodeChar (48 + oc.value) = some bytes := hbytes
  have hbyte : ∃ byte ∈ bytes, 128 ≤ byte ∧ byte < 256 := by
    obtain ⟨hlt, -⟩ | ⟨-, hne, hall⟩ := fsencodeChar_cases hchar
    · omega
    · obtain ⟨byte, hmem⟩ := List.exists_mem_of_ne_nil bytes hne
      exact ⟨byte, hmem, hall byte hmem⟩
  obtain ⟨byte, hmem, hlow, hhigh⟩ := hbyte
  refine ⟨getControlCharChoice (Int8.ofNat byte), ?_, ?_⟩
  · rw [entries, hbytes]
    exact List.mem_map_of_mem hmem
  · have hsize : Int8.size = 256 := rfl
    have hint : (Int8.ofNat byte).toInt = byte - 256 := by
      rw [Int8.toInt_ofNat', Int.bmod_def, hsize]
      split <;> omega
    rw [getControlCharChoice, hint]
    omega

/-- A string that decodes as if every value were one seven-bit character has
only such values. -/
theorem value_lt_of_decode {maps maps' : ChoiceMaps} {s : Str} (hs : decode maps s = .ok maps')
    {ocs : List OptimisticChoice} (hocs : ∀ oc ∈ ocs, oc.Codable)
    (h : decode maps (layout s ocs) = .ok fun kind fnNo => maps' kind fnNo ++
      (ocs.filter (·.belongsTo kind fnNo)).map fun oc => oc.value + 1) :
    ∀ oc ∈ ocs, oc.value < 80 := by
  have hencodable := encodable_of_decode h
  rw [decode_layout hs hocs hencodable] at h
  intro oc hoc
  by_contra hge
  obtain ⟨entry, hentry, hlarge⟩ := entries_of_le (by omega) (hencodable oc hoc)
  have hcodable := hocs oc hoc
  have hbelongs : oc.belongsTo (.ofNumber oc.opportunityNo.toNat) oc.functionNo.toNat = true := by
    have hlow := hcodable.one_le_kind
    have hhigh := hcodable.kind_le
    have hfn := hcodable.functionNo_nonneg
    simp only [OptimisticChoice.belongsTo, decide_eq_true_eq]
    rw [OptimisticChoiceKind.number_ofNumber (by omega)]
    omega
  have hpair := congrFun (congrFun (Except.ok.inj h) (.ofNumber oc.opportunityNo.toNat))
    oc.functionNo.toNat
  have hmem := List.append_cancel_left hpair ▸
    List.mem_flatMap.mpr ⟨oc, List.mem_filter.mpr ⟨hoc, hbelongs⟩, hentry⟩
  obtain ⟨o, ho, rfl⟩ := List.mem_map.mp hmem
  have := lt_of_encodable (hencodable o (List.mem_of_mem_filter ho))
  omega

namespace Sourcefile

variable {limits : Limits} {src : Sourcefile} {rd : Round}

/-- A string and choices in step, extended by the same choices. -/
theorem inStep_append_iff (h : src.InStep) {ocs : List OptimisticChoice}
    (hocs : ∀ oc ∈ ocs, oc.Codable) :
    InStep ⟨src.optimisticChoices ++ ocs, layout src.currentControlString ocs⟩ ↔
      ∀ oc ∈ ocs, oc.value < 80 := by
  have hsettled : settled ⟨src.optimisticChoices ++ ocs, layout src.currentControlString ocs⟩ =
      fun kind fnNo => src.settled kind fnNo ++
        (ocs.filter (·.belongsTo kind fnNo)).map fun oc => oc.value + 1 := by
    funext kind fnNo
    simp [settled]
  rw [InStep, hsettled]
  constructor
  · exact value_lt_of_decode h hocs
  · intro hvalue
    rw [decode_layout h hocs fun oc hoc => OptimisticChoice.encodable_of_lt (hvalue oc hoc),
      ChoiceMaps.extend_of_lt hvalue]

theorem mem_sortChoices {ocs : List OptimisticChoice} {oc : OptimisticChoice} :
    oc ∈ sortChoices ocs ↔ oc ∈ ocs := List.mem_insertionSort _

/-- What is settled is kept unless a limit struck first or a value has no character. -/
theorem settle_keeps_iff (h : src.InStep) {r : Returned} {ex : ChoiceExplorer}
    {ocs : List OptimisticChoice} (hr : Returns src.currentControlString ocs r ex)
    (hcodable : ∀ oc ∈ ex.choices.take ex.firstPos, oc.Codable) :
    Step.Keeps ⟨src, rd, src.settle r⟩ ↔
      (r.stop = true → r.explorer.firstPos = 0 → src.currentControlString = []) ∧
        ∀ oc ∈ r.explorer.optimisticChoices.take r.explorer.firstPos, oc.value < 80 := by
  dsimp only [settle]
  rw [hr.settled, hr.firstPos, Step.Keeps, hr.control]
  by_cases hcut : r.stop = true ∧ ex.firstPos = 0
  · rw [if_pos hcut, hcut.2, List.take_zero, List.append_nil]
    constructor
    · rintro ⟨hlost, -⟩
      exact ⟨fun _ _ => List.prefix_nil.mp hlost, by simp⟩
    · rintro ⟨hempty, -⟩
      have hsrc := hempty hcut.1 rfl
      refine ⟨by simp [hsrc], ?_⟩
      rw [InStep, hsrc] at h
      exact h
  · rw [if_neg hcut, inStep_append_iff h hcodable]
    constructor
    · rintro ⟨-, hvalue⟩
      exact ⟨fun hstop hfirst => absurd ⟨hstop, hfirst⟩ hcut, hvalue⟩
    · rintro ⟨-, hvalue⟩
      exact ⟨List.prefix_append _ _, hvalue⟩

/-- The step lemma: a round keeps everything exactly when it settles safely. -/
theorem round_keeps_iff (limits : Limits) (h : src.InStep)
    (hocs : ∀ oc ∈ rd.opportunities, oc.Fresh ∧ oc.Codable) :
    Step.Keeps ⟨src, rd, (src.round limits rd).1⟩ ↔
      Step.Settles limits ⟨src, rd, (src.round limits rd).1⟩ := by
  have hsame : Step.Keeps ⟨src, rd, src⟩ := ⟨List.prefix_refl _, h⟩
  by_cases hnone : rd.opportunities = []
  · rw [round, if_pos hnone]
    exact ⟨fun _ hne => absurd hnone hne, fun _ => hsame⟩
  · rw [round, if_neg hnone]
    cases hvalidated : rd.validated with
    | none =>
        cases src.search limits rd with
        | _ => exact ⟨fun _ _ hne => absurd hvalidated hne, fun _ => hsame⟩
    | some success =>
        cases hsearch : src.search limits rd with
        | yielded p =>
            refine ⟨fun _ _ _ r hr => ?_, fun _ => hsame⟩
            rw [hsearch] at hr
            cases hr
        | raised fault =>
            refine ⟨fun _ _ _ r hr => ?_, fun _ => hsame⟩
            rw [hsearch] at hr
            cases hr
        | returned r =>
            have hopen : ∀ oc ∈ sortChoices rd.opportunities, oc.fixed = false :=
              fun oc hoc => (hocs oc (mem_sortChoices.mp hoc)).1.1
            obtain ⟨ex, hr⟩ := (afterAnswers_cases hopen limits rd.now rd.answers).2 r hsearch
            have hcodable : ∀ oc ∈ ex.choices.take ex.firstPos, oc.Codable := fun oc hoc =>
              hr.lowered.codable (fun o ho => (hocs o (mem_sortChoices.mp ho)).2)
                (List.mem_of_mem_take hoc)
            refine (settle_keeps_iff h hr hcodable).trans ⟨?_, ?_⟩
            · intro hsafe _ _ r' hr'
              rw [hsearch] at hr'
              obtain rfl := Outcome.returned.inj hr'
              exact hsafe
            · intro hsafe
              exact hsafe hnone (by simp [hvalidated]) r hsearch

/-- The run lemma: as long as every round settles safely, every round starts
from a source file in step. -/
theorem rounds_keep_iff {n : Nat} {rds : List Round} (h : src.InStep)
    (hocs : ∀ rd ∈ rds, ∀ oc ∈ rd.opportunities, oc.Fresh ∧ oc.Codable) :
    (∀ st ∈ rounds limits n src rds, st.Keeps) ↔
      ∀ st ∈ rounds limits n src rds, st.Settles limits := by
  induction n generalizing src rds with
  | zero => simp [rounds]
  | succ n ih =>
      cases rds with
      | nil => simp [rounds]
      | cons rd rds =>
          have hstep := round_keeps_iff limits h (hocs rd (by simp))
          simp only [rounds, List.forall_mem_cons]
          rw [hstep]
          refine and_congr_right fun hsettles => ?_
          by_cases hgo : (src.round limits rd).2 = true
          · rw [if_pos hgo]
            exact ih (hstep.mpr hsettles).2 fun rd' hrd' => hocs rd' (by simp [hrd'])
          · rw [if_neg hgo]
            simp

theorem initial_inStep : initial.InStep := rfl

/-- No round of tuning loses or changes what earlier rounds settled exactly when
every round settles safely. -/
theorem optimizeAndRun_keeps_iff (limits : Limits) {rds : List Round}
    (hocs : ∀ rd ∈ rds, ∀ oc ∈ rd.opportunities, oc.Fresh ∧ oc.Codable) :
    (∀ st ∈ optimizeAndRun limits rds, st.Keeps) ↔
      ∀ st ∈ optimizeAndRun limits rds, st.Settles limits :=
  rounds_keep_iff initial_inStep hocs

/-- The first round accepts its only choice at once; the second one, with four
choices, reaches the limit of two tries before anything is settled. -/
def cutOff : List Round :=
  [⟨[nswOfAdd], 0, [(true, 0)], some true⟩,
    ⟨List.replicate 4 nswOfAdd, 0, [(false, 0), (false, 0)], some true⟩]

theorem cutOff_choices :
    ∀ rd ∈ cutOff, ∀ oc ∈ rd.opportunities, oc.Fresh ∧ oc.Codable := by
  have hnsw : nswOfAdd.Fresh ∧ nswOfAdd.Codable :=
    ⟨⟨rfl, rfl⟩, by decide, by decide, by decide, by decide⟩
  intro rd hrd oc hoc
  rcases List.mem_cons.mp hrd with rfl | hrd
  · obtain rfl := List.mem_singleton.mp hoc
    exact hnsw
  · obtain rfl := List.mem_singleton.mp hrd
    obtain rfl := List.eq_of_mem_replicate hoc
    exact hnsw

theorem optimizeAndRun_keeps_iff_cutOff :
    (∀ st ∈ optimizeAndRun ⟨some 2, none⟩ cutOff, st.Keeps) ↔
      ∀ st ∈ optimizeAndRun ⟨some 2, none⟩ cutOff, st.Settles ⟨some 2, none⟩ :=
  optimizeAndRun_keeps_iff ⟨some 2, none⟩ cutOff_choices

/-- The limit in the second round drops the string of the first one. -/
theorem not_optimizeAndRun_keeps :
    ¬ ∀ limits rds, (∀ rd ∈ rds, ∀ oc ∈ rd.opportunities, oc.Fresh ∧ oc.Codable) →
      ∀ st ∈ optimizeAndRun limits rds, st.Keeps := by
  intro h
  have hkeeps := h ⟨some 2, none⟩ cutOff cutOff_choices
  have hlost : ∃ st ∈ optimizeAndRun ⟨some 2, none⟩ cutOff,
      st.before.currentControlString = lit "#f0f#c41" ∧ st.after.currentControlString = [] :=
    ⟨_, List.mem_cons_of_mem _ List.mem_cons_self, by decide, by decide⟩
  obtain ⟨st, hmem, hbefore, hafter⟩ := hlost
  have hfound := (hkeeps st hmem).1
  rw [hbefore, hafter] at hfound
  exact absurd (List.prefix_nil.mp hfound) (by decide)

end Sourcefile

end Petospa

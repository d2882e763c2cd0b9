import Petospa.Transport.Codec
import Petospa.Tuner.Histories

/-!
# Strings that the tuner produces

A produced string is empty, or an explorer on a produced string yielded it or
left it behind. All of them decode, and a yielded one decodes to the maps of the
string it extends and the current values of the choices it reaches.
-/

namespace Petospa

open Text Coroutine ChoiceExplorer

/-- Choices as the tuner hands them to an explorer, with seven-bit values. -/
def Tunable (ocs : List OptimisticChoice) : Prop :=
  ∀ oc ∈ ocs, oc.fixed = false ∧ oc.Codable ∧ oc.value < 80

inductive Produced : Str → Prop where
  | empty : Produced []
  | yielded {s : Str} {ocs : List OptimisticChoice} {limits : Limits} {now : Nat}
      {answers : List (Bool × Nat)} {p : Paused} (hs : Produced s) (hocs : Tunable ocs)
      (hrun : (new ocs s).afterAnswers limits now answers = .yielded p) : Produced p.yielded
  | returned {s : Str} {ocs : List OptimisticChoice} {limits : Limits} {now : Nat}
      {answers : List (Bool × Nat)} {r : Returned} (hs : Produced s) (hocs : Tunable ocs)
      (hrun : (new ocs s).afterAnswers limits now answers = .returned r) :
      Produced r.explorer.controlString

/-- With seven-bit values every choice adds one entry. -/
theorem ChoiceMaps.extend_of_lt {ocs : List OptimisticChoice} (h : ∀ oc ∈ ocs, oc.value < 80)
    (maps : ChoiceMaps) : maps.extend ocs = fun kind fnNo => maps kind fnNo ++
      (ocs.filter (·.belongsTo kind fnNo)).map fun oc => oc.value + 1 := by
  funext kind fnNo
  rw [ChoiceMaps.extend, ← List.flatMap_singleton' ((ocs.filter _).map _), List.flatMap_map]
  congr 1
  apply List.flatMap_congr
  intro oc hoc
  exact entries_of_lt (h oc (List.mem_of_mem_filter hoc))

namespace ChoiceExplorer.Lowered

variable {s : Str} {ocs : List OptimisticChoice} {ex : ChoiceExplorer}

/-- The choices of an explorer stay codable. -/
theorem codable (h : Lowered s ocs ex) (hocs : ∀ oc ∈ ocs, oc.Codable) {oc : OptimisticChoice}
    (hoc : oc ∈ ex.choices) : oc.Codable := by
  obtain ⟨o, ho, hshape, -⟩ := h.mem_choices hoc
  have hcodable := hocs o ho
  simp only [OptimisticChoice.shape, Prod.mk.injEq] at hshape
  constructor
  · rw [hshape.1]
    exact hcodable.functionNo_nonneg
  · rw [hshape.1]
    exact hcodable.functionNo_lt
  · rw [hshape.2]
    exact hcodable.one_le_kind
  · rw [hshape.2]
    exact hcodable.kind_le

theorem value_lt (h : Lowered s ocs ex) (hocs : Tunable ocs) {oc : OptimisticChoice}
    (hoc : oc ∈ ex.choices) : oc.value < 80 := by
  obtain ⟨o, ho, -, hvalue⟩ := h.mem_choices hoc
  have hlt := (hocs o ho).2.2
  omega

/-- Every cut of an explorer's layout decodes. -/
theorem decode_take (h : Lowered s ocs ex) (hocs : Tunable ocs) {maps maps' : ChoiceMaps}
    (hs : decode maps s = .ok maps') (k : Nat) :
    decode maps (layout s (ex.choices.take k)) = .ok (fun kind fnNo => maps' kind fnNo ++
      ((ex.choices.take k).filter (·.belongsTo kind fnNo)).map fun oc => oc.value + 1) := by
  have hcodable : ∀ oc ∈ ex.choices.take k, oc.Codable := fun oc hoc =>
    h.codable (fun o ho => (hocs o ho).2.1) (List.mem_of_mem_take hoc)
  have hvalue : ∀ oc ∈ ex.choices.take k, oc.value < 80 := fun oc hoc =>
    h.value_lt hocs (List.mem_of_mem_take hoc)
  rw [decode_layout hs hcodable fun oc hoc => OptimisticChoice.encodable_of_lt (hvalue oc hoc),
    ChoiceMaps.extend_of_lt hvalue]

end ChoiceExplorer.Lowered

/-- What the tuner produces, the annotator reads. -/
theorem Produced.decodes {s : Str} (h : Produced s) (maps : ChoiceMaps) :
    ∃ maps', decode maps s = .ok maps' := by
  induction h with
  | empty => exact ⟨maps, rfl⟩
  | yielded hs hocs hrun ih =>
      obtain ⟨maps', hmaps⟩ := ih
      have hp := (afterAnswers_cases (fun oc hoc => (hocs oc hoc).1) _ _ _).1 _ hrun
      rw [hp.yielded]
      exact ⟨_, hp.lowered.decode_take hocs hmaps _⟩
  | returned hs hocs hrun ih =>
      obtain ⟨maps', hmaps⟩ := ih
      obtain ⟨ex, hr⟩ := (afterAnswers_cases (fun oc hoc => (hocs oc hoc).1) _ _ _).2 _ hrun
      rw [hr.control]
      split
      · exact ⟨maps, rfl⟩
      · exact ⟨_, hr.lowered.decode_take hocs hmaps _⟩

/-- Every yielded string is accepted by the annotator, and adds to the maps of
the initial string the current values of the choices up to the cut. -/
theorem yielded_decodes {s : Str} (hs : Produced s) {ocs : List OptimisticChoice}
    (hocs : Tunable ocs) {limits : Limits} {now : Nat} {answers : List (Bool × Nat)} {p : Paused}
    (hrun : (new ocs s).afterAnswers limits now answers = .yielded p) (maps : ChoiceMaps) :
    p.explorer.choices.map OptimisticChoice.shape = ocs.map OptimisticChoice.shape ∧
    ∃ maps', decode maps s = .ok maps' ∧
      decode maps p.yielded = .ok (fun kind fnNo => maps' kind fnNo ++
        ((p.explorer.choices.take (min (p.currentLastPos + 1) ocs.length)).filter
          (·.belongsTo kind fnNo)).map fun oc => oc.value + 1) := by
  obtain ⟨maps', hmaps⟩ := hs.decodes maps
  have hp := (afterAnswers_cases (fun oc hoc => (hocs oc hoc).1) limits now answers).1 p hrun
  have hlen := hp.lowered.valid.choices_length
  refine ⟨hp.lowered.valid.map_shape.trans (map_shape_place s (-1) (-1) ocs), maps', hmaps,
    ?_⟩
  have hcut : p.explorer.choices.take (p.currentLastPos + 1) =
      p.explorer.choices.take (min (p.currentLastPos + 1) ocs.length) := by
    rw [← hlen]
    exact List.take_eq_take_min
  rw [hp.yielded, hcut]
  exact hp.lowered.decode_take hocs hmaps _

theorem tunable_replicate_nswOfAdd (n : Nat) : Tunable (List.replicate n nswOfAdd) := by
  intro oc hoc
  obtain rfl := List.eq_of_mem_replicate hoc
  exact ⟨rfl, ⟨by decide, by decide, by decide, by decide⟩, by decide⟩

/-- Two choices after one rejection: both are still in the tested string. -/
theorem yielded_decodes_nswOfAdd :
    ∃ p, (new (List.replicate 2 nswOfAdd) []).afterAnswers .unlimited 0 [(false, 0)] = .yielded p ∧
      p.explorer.choices.map OptimisticChoice.shape =
        (List.replicate 2 nswOfAdd).map OptimisticChoice.shape ∧
      ∃ maps', decode .empty [] = .ok maps' ∧
        decode .empty p.yielded = .ok (fun kind fnNo => maps' kind fnNo ++
          ((p.explorer.choices.take (min (p.currentLastPos + 1)
            (List.replicate 2 nswOfAdd).length)).filter (·.belongsTo kind fnNo)).map
              fun oc => oc.value + 1) := by
  obtain ⟨p, hp⟩ : ∃ p, (new (List.replicate 2 nswOfAdd) []).afterAnswers .unlimited 0
      [(false, 0)] = .yielded p := ⟨_, rfl⟩
  exact ⟨p, hp, yielded_decodes .empty (tunable_replicate_nswOfAdd 2) hp .empty⟩

end Petospa

import Mathlib.Data.List.Induction

/-!
# Machines that answer events

A machine reads events and gives one output for each. `Follows` states that a
relation between the events read so far (newest first) and the state is kept and
determines the outputs; the outputs of every run are then those of the histories.
-/

namespace Transducer

variable {σ ε ω : Type*}

def final (step : σ → ε → σ × ω) : σ → List ε → σ
  | s, [] => s
  | s, e :: events => final step (step s e).1 events

def outputs (step : σ → ε → σ × ω) : σ → List ε → List ω
  | _, [] => []
  | s, e :: events => (step s e).2 :: outputs step (step s e).1 events

/-- Each event with the events before it, newest first. -/
def histories : List ε → List ε → List (List ε × ε)
  | _, [] => []
  | hist, e :: events => (hist, e) :: histories (e :: hist) events

/-- The state follows the history, and so do the outputs. -/
def Follows (step : σ → ε → σ × ω) (tracks : List ε → σ → Prop) (spec : List ε → ε → ω) : Prop :=
  ∀ hist s e, tracks hist s → tracks (e :: hist) (step s e).1 ∧ (step s e).2 = spec hist e

section Histories

variable {hist : List ε} {events : List ε}

theorem histories_append (hist front back : List ε) :
    histories hist (front ++ back) =
      histories hist front ++ histories (front.reverse ++ hist) back := by
  induction front generalizing hist with
  | nil => rfl
  | cons e front ih => simp [histories, ih]

/-- A history is a split of the events. -/
theorem mem_histories {h : List ε} {e : ε} :
    (h, e) ∈ histories hist events ↔
      ∃ front back, events = front ++ e :: back ∧ h = front.reverse ++ hist := by
  induction events generalizing hist with
  | nil => simp [histories]
  | cons d events ih =>
      rw [histories, List.mem_cons, ih, Prod.mk.injEq]
      constructor
      · rintro (⟨rfl, rfl⟩ | ⟨front, back, rfl, rfl⟩)
        · exact ⟨[], events, rfl, rfl⟩
        · exact ⟨d :: front, back, rfl, by simp⟩
      · rintro ⟨front, back, hsplit, rfl⟩
        cases front with
        | nil =>
            obtain ⟨rfl, rfl⟩ := List.cons.inj hsplit
            exact .inl ⟨rfl, rfl⟩
        | cons d' front =>
            obtain ⟨rfl, rfl⟩ := List.cons.inj hsplit
            exact .inr ⟨front, back, rfl, by simp⟩

/-- A history of a whole run. -/
theorem mem_histories_nil {h : List ε} {e : ε} :
    (h, e) ∈ histories [] events ↔
      ∃ front back, events = front ++ e :: back ∧ h = front.reverse := by
  rw [mem_histories]
  simp

/-- A history that is cut at an event, read forwards. -/
theorem eq_of_reverse_eq {front newer older : List ε} {e : ε}
    (h : front.reverse = newer ++ e :: older) : front = older.reverse ++ e :: newer.reverse := by
  rw [← List.reverse_reverse front, h]
  simp

theorem getElem?_histories (hist events : List ε) (i : Nat) :
    (histories hist events)[i]? = events[i]?.map fun e => ((events.take i).reverse ++ hist, e) := by
  induction events generalizing hist i with
  | nil => rfl
  | cons e events ih =>
      cases i with
      | zero => rfl
      | succ i =>
          show (histories (e :: hist) events)[i]? = _
          rw [ih]
          simp

theorem map_snd_histories (hist events : List ε) :
    (histories hist events).map Prod.snd = events := by
  induction events generalizing hist with
  | nil => rfl
  | cons e events ih => simp [histories, ih]

/-- Counting events is counting histories. -/
theorem countP_histories (hist events : List ε) (p : ε → Bool) :
    (histories hist events).countP (fun he => p he.2) = events.countP p := by
  have h := congrArg (List.countP p) (map_snd_histories hist events)
  rwa [List.countP_map] at h

theorem zipIdx_histories (hist events : List ε) :
    (histories hist events).zipIdx hist.length =
      (histories hist events).map fun he => (he, he.1.length) := by
  induction events generalizing hist with
  | nil => rfl
  | cons e events ih =>
      have htail := ih (e :: hist)
      rw [List.length_cons] at htail
      simp [histories, List.zipIdx_cons, htail]

/-- Dropping the end of a run drops its histories. -/
theorem histories_filter {p : ε → Bool} (hist : List ε)
    (h : events.Pairwise fun a b => p b = true → p a = true) :
    histories hist (events.filter p) = (histories hist events).filter fun he => p he.2 := by
  induction events generalizing hist with
  | nil => rfl
  | cons e events ih =>
      obtain ⟨hhead, htail⟩ := List.pairwise_cons.mp h
      cases hp : p e with
      | true => simp [histories, hp, ih (e :: hist) htail]
      | false =>
          have hnone : ∀ d ∈ events, p d = false := by
            intro d hd
            cases hd' : p d with
            | false => rfl
            | true => rw [hhead d hd hd'] at hp; cases hp
          have hempty : events.filter p = [] := by
            rw [List.filter_eq_nil_iff]
            intro d hd
            simp [hnone d hd]
          have hhist : (histories (e :: hist) events).filter (fun he => p he.2) = [] := by
            rw [List.filter_eq_nil_iff]
            intro he hmem
            have hsnd : he.2 ∈ events := by
              rw [← map_snd_histories (e :: hist) events]
              exact List.mem_map_of_mem hmem
            simp [hnone he.2 hsnd]
          simp [histories, hp, hempty, hhist]

/-- The first event of a run for which something fails. -/
theorem exists_first {p : List ε → ε → Prop} (h : ¬ ∀ he ∈ histories [] events, p he.1 he.2) :
    ∃ front e back, events = front ++ e :: back ∧ ¬ p front.reverse e ∧
      ∀ he ∈ histories [] front, p he.1 he.2 := by
  induction events using List.reverseRecOn with
  | nil => simp [histories] at h
  | append_singleton events e ih =>
      by_cases hall : ∀ he ∈ histories [] events, p he.1 he.2
      · refine ⟨events, e, [], rfl, ?_, hall⟩
        intro he
        apply h
        rw [histories_append]
        intro he' hmem
        rcases List.mem_append.mp hmem with hfront | hlast
        · exact hall he' hfront
        · obtain rfl : he' = (events.reverse ++ [], e) := by simpa [histories] using hlast
          simpa using he
      · obtain ⟨front, d, back, rfl, hd, hbefore⟩ := ih hall
        exact ⟨front, d, back ++ [e], by simp, hd, hbefore⟩

end Histories

section Runs

variable {step : σ → ε → σ × ω} {s : σ}

variable {tracks : List ε → σ → Prop} {spec : List ε → ε → ω} {hist : List ε}

/-- The run lemma: the outputs are what the histories determine. -/
theorem Follows.outputs (h : Follows step tracks spec) (start : tracks hist s) (events : List ε) :
    outputs step s events = (histories hist events).map fun he => spec he.1 he.2 := by
  induction events generalizing s hist with
  | nil => rfl
  | cons e events ih =>
      obtain ⟨htracks, hout⟩ := h hist s e start
      rw [Transducer.outputs, histories, List.map_cons, hout, ih htracks]

/-- The output of a run at an index. -/
theorem Follows.getElem?_outputs (h : Follows step tracks spec) (start : tracks [] s)
    (events : List ε) (i : Nat) :
    (Transducer.outputs step s events)[i]? = events[i]?.map (spec (events.take i).reverse) := by
  rw [h.outputs start, List.getElem?_map, getElem?_histories]
  cases events[i]? <;> simp

end Runs

end Transducer

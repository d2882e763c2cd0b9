import Mathlib.Data.List.Forall2
import Mathlib.Logic.Relation
import Petospa.Lib.Segments

/-!
# Simulation

A relation between the states of two systems along which each step of the first system
is a step of the second one. Runs of the first system are then runs of the second one.
-/

namespace Simulation

variable {σ τ : Type*} {step : σ → σ → Prop} {step' : τ → τ → Prop} {R : σ → τ → Prop}

/-- Related states have related successors. -/
def Simulates (R : σ → τ → Prop) (step : σ → σ → Prop) (step' : τ → τ → Prop) : Prop :=
  ∀ ⦃s t s'⦄, R s t → step s s' → ∃ t', step' t t' ∧ R s' t'

theorem Simulates.run (h : Simulates R step step') {s s' : σ} {t : τ} (hst : R s t)
    (hrun : Relation.ReflTransGen step s s') :
    ∃ t', Relation.ReflTransGen step' t t' ∧ R s' t' := by
  induction hrun with
  | refl => exact ⟨t, .refl, hst⟩
  | tail _ hstep ih =>
      obtain ⟨t', hrun, hst'⟩ := ih
      obtain ⟨t'', hstep', hst''⟩ := h hst' hstep
      exact ⟨t'', hrun.tail hstep', hst''⟩

variable {ι α β : Type*} {exec : α → σ → σ → Prop} {exec' : β → τ → τ → Prop}

/-- Some commands one after another. -/
inductive Sequence (exec : α → σ → σ → Prop) : List α → σ → σ → Prop where
  | nil (s : σ) : Sequence exec [] s s
  | cons {a : α} {as : List α} {s s' s'' : σ}
      (head : exec a s s') (tail : Sequence exec as s' s'') :
      Sequence exec (a :: as) s s''

/-- A sequence of commands simulates what is left of it without the silent ones. -/
theorem Sequence.simulates {silent : α → Bool} {C : β → α → Prop}
    (hexec : ∀ a b s s' t, C b a → R s t → exec a s s' → ∃ t', exec' b t t' ∧ R s' t')
    {as : List α} {s s' : σ} (h : Sequence exec as s s')
    (hsilent : ∀ a ∈ as, silent a = true → ∀ s s' t, R s t → exec a s s' → R s' t)
    {bs : List β} {t : τ} (hbs : List.Forall₂ C bs (as.filter fun a => !silent a)) (hst : R s t) :
    ∃ t', Sequence exec' bs t t' ∧ R s' t' := by
  induction h generalizing bs t with
  | nil s =>
      cases hbs
      exact ⟨t, .nil t, hst⟩
  | @cons a as s s' s'' hhead htail ih =>
      obtain ⟨hsilentHead, hsilent⟩ := List.forall_mem_cons.mp hsilent
      cases ha : silent a with
      | true =>
          rw [List.filter_cons, ha] at hbs
          exact ih hsilent hbs (hsilentHead ha s s' t hst hhead)
      | false =>
          rw [List.filter_cons, ha] at hbs
          cases hbs with
          | cons hb hbs =>
              obtain ⟨t', hhead', hst'⟩ := hexec a _ s s' t hb hst hhead
              obtain ⟨t'', htail', hst''⟩ := ih hsilent hbs hst'
              exact ⟨t'', .cons hhead' htail', hst''⟩

theorem sequence_append {as bs : List α} {s s' : σ} :
    Sequence exec (as ++ bs) s s' ↔ ∃ t, Sequence exec as s t ∧ Sequence exec bs t s' := by
  constructor
  · intro h
    induction as generalizing s with
    | nil => exact ⟨s, .nil s, h⟩
    | cons a as ih =>
        cases h with
        | cons head tail =>
            obtain ⟨t, has, hbs⟩ := ih tail
            exact ⟨t, .cons head has, hbs⟩
  · rintro ⟨t, has, hbs⟩
    induction has with
    | nil s => exact hbs
    | cons head _ ih => exact .cons head (ih hbs)

/-- A sequence simulates another one part by part. -/
theorem Sequence.segments {S : List β → List α → Prop} {bs : List β} {as : List α}
    (h : List.Segmented S bs as)
    (hexec : ∀ bs as s s' t, S bs as → R s t → Sequence exec as s s' →
      ∃ t', Sequence exec' bs t t' ∧ R s' t')
    {s s' : σ} {t : τ} (hst : R s t) (hrun : Sequence exec as s s') :
    ∃ t', Sequence exec' bs t t' ∧ R s' t' := by
  induction h generalizing s t with
  | nil =>
      cases hrun
      exact ⟨t, .nil t, hst⟩
  | append head tail ih =>
      obtain ⟨s₁, hhead, htail⟩ := sequence_append.mp hrun
      obtain ⟨t₁, hhead', hst₁⟩ := hexec _ _ s s₁ t head hst hhead
      obtain ⟨t', htail', hst'⟩ := ih hst₁ htail
      exact ⟨t', sequence_append.mpr ⟨t₁, hhead', htail'⟩, hst'⟩

end Simulation

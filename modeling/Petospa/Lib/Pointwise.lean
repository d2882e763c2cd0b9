import Mathlib.Data.List.Forall2

/-!
# Lists that are related element by element

`List.Forall₂` along transitivity, membership, filters and searches.
-/

namespace List.Forall₂

variable {α β : Type*} {R : α → β → Prop} {xs : List α} {ys : List β}

theorem trans_of {S : α → α → Prop} (hS : ∀ a b c, S a b → S b c → S a c) {xs ys zs : List α}
    (h : Forall₂ S xs ys) (h' : Forall₂ S ys zs) : Forall₂ S xs zs := by
  induction h generalizing zs with
  | nil =>
      cases h'
      exact .nil
  | cons hx _ ih =>
      cases h' with
      | cons hy hys => exact .cons (hS _ _ _ hx hy) (ih hys)

theorem exists_of_mem_right (h : Forall₂ R xs ys) {y : β} (hy : y ∈ ys) : ∃ x ∈ xs, R x y := by
  induction h with
  | nil => cases hy
  | cons hx _ ih =>
      obtain rfl | hy := mem_cons.mp hy
      · exact ⟨_, mem_cons_self, hx⟩
      · obtain ⟨x, hmem, hxy⟩ := ih hy
        exact ⟨x, mem_cons_of_mem _ hmem, hxy⟩

theorem filter {p : α → Bool} {q : β → Bool} (h : Forall₂ R xs ys)
    (hpq : ∀ x y, R x y → q y = p x) : Forall₂ R (xs.filter p) (ys.filter q) := by
  induction h with
  | nil => exact .nil
  | cons hx _ ih =>
      rw [filter_cons, filter_cons, hpq _ _ hx]
      split
      · exact .cons hx ih
      · exact ih

/-- What is found in one list is found in the other one. -/
theorem exists_of_find?_eq_some {p : α → Bool} {q : β → Bool} (h : Forall₂ R xs ys)
    (hpq : ∀ x y, R x y → q y = p x) {y : β} (hy : ys.find? q = some y) :
    ∃ x, xs.find? p = some x ∧ R x y := by
  induction h with
  | nil => cases hy
  | @cons x y' xs ys hx _ ih =>
      rw [find?_cons, hpq _ _ hx] at hy
      rw [find?_cons]
      cases hp : p x with
      | true =>
          rw [hp] at hy
          obtain rfl := Option.some.inj hy
          exact ⟨x, rfl, hx⟩
      | false =>
          rw [hp] at hy
          exact ih hy

end List.Forall₂

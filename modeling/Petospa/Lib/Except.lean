import Mathlib.Data.List.Forall2
import Mathlib.Tactic.Common

/-!
# Runs that end with a result

A sequence of fallible steps ends with a result if each of its steps does.
-/

namespace Except

universe u

variable {ε : Type*} {α β : Type u}

@[simp] theorem bind_eq_ok_iff {x : Except ε α} {f : α → Except ε β} {b : β} :
    x >>= f = .ok b ↔ ∃ a, x = .ok a ∧ f a = .ok b := by
  cases x with
  | error e => simp [bind, Except.bind]
  | ok a => simp [bind, Except.bind]

@[simp] theorem pure_eq_ok_iff {a b : α} : (pure a : Except ε α) = .ok b ↔ a = b := by
  simp [pure, Except.pure]

theorem map_eq_ok_iff {f : α → β} {x : Except ε α} {b : β} :
    x.map f = .ok b ↔ ∃ a, x = .ok a ∧ f a = b := by
  cases x with
  | error e => simp [Except.map]
  | ok a => simp [Except.map]

/-- A fallible step for every element. -/
theorem forall₂_of_mapM_eq_ok {f : α → Except ε β} {xs : List α} {ys : List β}
    (h : xs.mapM f = .ok ys) : List.Forall₂ (fun x y => f x = .ok y) xs ys := by
  induction xs generalizing ys with
  | nil =>
      obtain rfl := Except.ok.inj h
      exact .nil
  | cons x xs ih =>
      simp only [List.mapM_cons, bind_eq_ok_iff, pure_eq_ok_iff] at h
      obtain ⟨y, hy, ys, hys, rfl⟩ := h
      exact .cons hy (ih hys)

theorem exists_of_mem_of_mapM_eq_ok {f : α → Except ε β} {xs : List α} {ys : List β} {y : β}
    (h : xs.mapM f = .ok ys) (hy : y ∈ ys) : ∃ x ∈ xs, f x = .ok y := by
  have hforall := forall₂_of_mapM_eq_ok h
  clear h
  induction hforall with
  | nil => cases hy
  | cons hx _ ih =>
      cases hy with
      | head => exact ⟨_, List.mem_cons_self, hx⟩
      | tail _ hy =>
          obtain ⟨x, hmem, hxy⟩ := ih hy
          exact ⟨x, List.mem_cons_of_mem _ hmem, hxy⟩

end Except

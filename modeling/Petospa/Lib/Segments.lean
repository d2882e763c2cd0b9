import Mathlib.Data.List.Basic

/-!
# Lists that are related part by part

Two lists are cut into as many parts, and each part is related to its counterpart. The
parts of one list need not be as long as those of the other one.
-/

namespace List

variable {α β : Type*} {S S' : List α → List β → Prop} {xs : List α} {ys : List β}

inductive Segmented (S : List α → List β → Prop) : List α → List β → Prop where
  | nil : Segmented S [] []
  | append {xs as : List α} {ys bs : List β} (head : S xs ys) (tail : Segmented S as bs) :
      Segmented S (xs ++ as) (ys ++ bs)

namespace Segmented

theorem single (h : S xs ys) : Segmented S xs ys := by
  have hsingle : Segmented S (xs ++ []) (ys ++ []) := .append h .nil
  rwa [append_nil, append_nil] at hsingle

/-- Only the parts matter. -/
theorem imp (h : Segmented S xs ys) (himp : ∀ as bs, as ⊆ xs → bs ⊆ ys → S as bs → S' as bs) :
    Segmented S' xs ys := by
  induction h with
  | nil => exact .nil
  | append head tail ih =>
      refine .append (himp _ _ (subset_append_left _ _) (subset_append_left _ _) head) (ih ?_)
      intro as bs has hbs
      exact himp as bs (subset_append_of_subset_right _ has) (subset_append_of_subset_right _ hbs)

/-- Lists of related elements. -/
theorem of_forall₂ {R : α → β → Prop} (h : Forall₂ R xs ys) (hS : ∀ x y, R x y → S [x] [y]) :
    Segmented S xs ys := by
  induction h with
  | nil => exact .nil
  | cons hx _ ih => exact .append (hS _ _ hx) ih

end Segmented

end List

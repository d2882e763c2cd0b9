import Mathlib.Data.List.Infix

/-!
# Substrings and separators

A text without a separator that occurs in a longer text lies on one side of each
of its separators.
-/

namespace List

variable {α : Type*} {x a b u w : List α} {s : α}

/-- The first occurrence of a separator splits a text in one way. -/
theorem append_cons_cases (h : u ++ s :: w = a ++ s :: b) (hs : s ∉ a) :
    u = a ∧ w = b ∨ ∃ t, u = a ++ s :: t ∧ b = t ++ s :: w := by
  rcases append_eq_append_iff.mp h with ⟨t, ha, hw⟩ | ⟨t, hu, hb⟩
  · cases t with
    | nil => exact .inl ⟨by simpa using ha.symm, (cons.inj hw).2⟩
    | cons c t =>
        obtain ⟨rfl, -⟩ := cons.inj hw
        exact absurd (by simp [ha]) hs
  · cases t with
    | nil => exact .inl ⟨by simpa using hu, (cons.inj hb).2.symm⟩
    | cons c t =>
        obtain ⟨hhead, htail⟩ := cons.inj hb
        subst hhead
        exact .inr ⟨t, hu, htail⟩

/-- A text without the separator ends behind it. -/
theorem suffix_of_suffix_append_cons (h : x <:+ a ++ s :: b) (hs : s ∉ x) : x <:+ b := by
  obtain ⟨u, h⟩ := h
  rcases append_eq_append_iff.mp h with ⟨t, ha, hx⟩ | ⟨t, hu, hb⟩
  · exact absurd (by simp [hx]) hs
  · cases t with
    | nil => exact absurd (by simp [show x = s :: b by simpa using hb.symm]) hs
    | cons c t =>
        exact ⟨t, (cons.inj hb).2.symm⟩

/-- A text without the separator lies on one of its sides. -/
theorem infix_append_cons (h : x <:+: a ++ s :: b) (hs : s ∉ x) : x <:+: a ∨ x <:+: b := by
  obtain ⟨u, w, h⟩ := h
  rcases append_eq_append_iff.mp h with ⟨t, ha, -⟩ | ⟨t, hu, hb⟩
  · exact .inl ⟨u, t, ha.symm⟩
  · cases t with
    | nil => exact .inl ⟨u, [], by simpa using hu⟩
    | cons c t =>
        obtain ⟨hhead, htail⟩ := cons.inj hb
        subst hhead
        obtain ⟨v, hv⟩ := suffix_of_suffix_append_cons ⟨u, hu⟩ hs
        exact .inr ⟨v, w, by rw [hv, htail]; rfl⟩

end List

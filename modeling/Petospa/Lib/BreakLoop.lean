import Mathlib.Data.List.Basic

/-!
# Loops that can be left early

The body of the loop yields the state for the next element, leaves the loop
with a state, or fails. The rules follow a loop up to the first element that
does not yield.
-/

namespace BreakLoop

variable {ε σ α : Type*}

/-- Run the body over the elements until it is done. -/
def loop (body : σ → α → Except ε (ForInStep σ)) : σ → List α → Except ε (ForInStep σ)
  | s, [] => .ok (.yield s)
  | s, x :: xs =>
      match body s x with
      | .error e => .error e
      | .ok (.done s) => .ok (.done s)
      | .ok (.yield s) => loop body s xs

variable {body : σ → α → Except ε (ForInStep σ)} {s s' : σ} {x : α} {xs ys : List α}

theorem loop_append (h : loop body s xs = .ok (.yield s')) :
    loop body s (xs ++ ys) = loop body s' ys := by
  induction xs generalizing s with
  | nil =>
      obtain rfl : s = s' := ForInStep.yield.inj (Except.ok.inj h)
      rfl
  | cons x xs ih =>
      rw [loop] at h
      rw [List.cons_append, loop]
      split at h
      · cases h
      · cases h
      · exact ih h

/-- The body leaves the loop at an element behind those that it yielded for. -/
theorem loop_done {s'' : σ} (ys : List α) (h : loop body s xs = .ok (.yield s'))
    (hdone : body s' x = .ok (.done s'')) : loop body s (xs ++ x :: ys) = .ok (.done s'') := by
  rw [loop_append h, loop, hdone]

theorem loop_error {e : ε} (ys : List α) (h : loop body s xs = .ok (.yield s'))
    (herror : body s' x = .error e) : loop body s (xs ++ x :: ys) = .error e := by
  rw [loop_append h, loop, herror]

/-- What the body keeps. -/
theorem loop_invariant (Inv : σ → Prop)
    (step : ∀ x ∈ xs, ∀ s r, Inv s → body s x = .ok r → Inv r.value) {r : ForInStep σ}
    (hinv : Inv s) (h : loop body s xs = .ok r) : Inv r.value := by
  induction xs generalizing s with
  | nil =>
      obtain rfl := Except.ok.inj h
      exact hinv
  | cons x xs ih =>
      rw [loop] at h
      split at h
      · cases h
      · rename_i s' hbody
        obtain rfl := Except.ok.inj h
        exact step x List.mem_cons_self s _ hinv hbody
      · rename_i s' hbody
        exact ih (fun y hy => step y (List.mem_cons_of_mem x hy))
          (step x List.mem_cons_self s _ hinv hbody) h

/-- A body that yields and keeps an invariant about the elements so far runs to
the end of the list. -/
theorem loop_yield {Inv : List α → σ → Prop}
    (step : ∀ before x s, x ∈ xs → x ∉ before → Inv before s →
      ∃ s', body s x = .ok (.yield s') ∧ Inv (before ++ [x]) s')
    (before : List α) (hnodup : (before ++ xs).Nodup) (hinv : Inv before s) :
    ∃ s', loop body s xs = .ok (.yield s') ∧ Inv (before ++ xs) s' := by
  induction xs generalizing before s with
  | nil => exact ⟨s, rfl, by simpa using hinv⟩
  | cons x xs ih =>
      have hnew : x ∉ before := by
        intro hx
        exact (List.nodup_append.mp hnodup).2.2 x hx x List.mem_cons_self rfl
      obtain ⟨s₁, hbody, hinv₁⟩ := step before x s List.mem_cons_self hnew hinv
      obtain ⟨s', hloop, hinv'⟩ := ih
        (fun before y s hy => step before y s (List.mem_cons_of_mem _ hy))
        (before ++ [x]) (by simpa using hnodup) hinv₁
      refine ⟨s', ?_, by simpa using hinv'⟩
      rw [loop, hbody]
      exact hloop

end BreakLoop

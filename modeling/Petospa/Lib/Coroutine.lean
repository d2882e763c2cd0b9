import Mathlib.Order.Basic

/-!
# Generators that are fed answers

A generator runs until it yields a state, returns or raises; a yielded state is
resumed with one answer. `feed` runs it on a history of answers, `play` against
an environment that computes each answer from the yielded state. Properties of
all runs follow from what one resumption preserves.
-/

namespace Coroutine

/-- What a generator does when it is started or resumed. -/
inductive Outcome (ε σ ρ : Type*) where
  | yielded (s : σ)
  | returned (r : ρ)
  | raised (e : ε)
  deriving Repr

variable {ε σ ρ α : Type*}

/-- An outcome that meets an invariant at a yield and a postcondition at a
return, and that did not raise. -/
def Outcome.Holds (invariant : σ → Prop) (post : ρ → Prop) : Outcome ε σ ρ → Prop
  | .yielded s => invariant s
  | .returned r => post r
  | .raised _ => False

@[simp] theorem Outcome.holds_yielded {invariant : σ → Prop} {post : ρ → Prop} {s : σ} :
    (Outcome.yielded s : Outcome ε σ ρ).Holds invariant post ↔ invariant s := Iff.rfl

@[simp] theorem Outcome.holds_returned {invariant : σ → Prop} {post : ρ → Prop} {r : ρ} :
    (Outcome.returned r : Outcome ε σ ρ).Holds invariant post ↔ post r := Iff.rfl

/-- Feed a history of answers; what is left over once the generator has stopped
is never read. -/
def feed (resume : σ → α → Outcome ε σ ρ) : Outcome ε σ ρ → List α → Outcome ε σ ρ
  | .yielded s, a :: answers => feed resume (resume s a) answers
  | .yielded s, [] => .yielded s
  | .returned r, _ => .returned r
  | .raised e, _ => .raised e

/-- What is yielded while a history of answers is fed. -/
def yields (resume : σ → α → Outcome ε σ ρ) : Outcome ε σ ρ → List α → List σ
  | .yielded s, a :: answers => s :: yields resume (resume s a) answers
  | .yielded s, [] => [s]
  | .returned _, _ => []
  | .raised _, _ => []

/-- Play `n` rounds against an environment that sees the yielded state. -/
def play (resume : σ → α → Outcome ε σ ρ) (ask : Nat → σ → α) (o : Outcome ε σ ρ) :
    Nat → Outcome ε σ ρ
  | 0 => o
  | n + 1 =>
      match play resume ask o n with
      | .yielded s => resume s (ask n s)
      | .returned r => .returned r
      | .raised e => .raised e

variable {resume resume' : σ → α → Outcome ε σ ρ} {ask : Nat → σ → α} {o : Outcome ε σ ρ}

theorem play_succ_of_yielded {n : Nat} {s : σ} (h : play resume ask o n = .yielded s) :
    play resume ask o (n + 1) = resume s (ask n s) := by
  simp only [play, h]

theorem play_succ_yielded {n : Nat} {t : σ} (h : play resume ask o (n + 1) = .yielded t) :
    ∃ s, play resume ask o n = .yielded s ∧ resume s (ask n s) = .yielded t := by
  cases hn : play resume ask o n with
  | yielded s => exact ⟨s, rfl, by rw [← play_succ_of_yielded hn, h]⟩
  | returned r => simp [play, hn] at h
  | raised e => simp [play, hn] at h

/-- The run lemma for histories: what every resumption preserves holds at the
end of every history. -/
theorem feed_holds {invariant : σ → Prop} {post : ρ → Prop}
    (step : ∀ s a, invariant s → (resume s a).Holds invariant post)
    (start : o.Holds invariant post) (answers : List α) :
    (feed resume o answers).Holds invariant post := by
  induction answers generalizing o with
  | nil => cases o <;> exact start
  | cons a answers ih =>
      cases o with
      | yielded s => exact ih (step s a start)
      | returned r => exact start
      | raised e => exact start

/-- The same for a generator that may raise: only what it yields and returns
is constrained. -/
theorem feed_safe {invariant : σ → Prop} {post : ρ → Prop}
    (step : ∀ s a, invariant s →
      (∀ t, resume s a = .yielded t → invariant t) ∧ ∀ r, resume s a = .returned r → post r)
    (start : (∀ t, o = .yielded t → invariant t) ∧ ∀ r, o = .returned r → post r)
    (answers : List α) :
    (∀ t, feed resume o answers = .yielded t → invariant t) ∧
      ∀ r, feed resume o answers = .returned r → post r := by
  induction answers generalizing o with
  | nil => cases o <;> exact start
  | cons a answers ih =>
      cases o with
      | yielded s => exact ih (step s a (start.1 s rfl))
      | returned r => exact start
      | raised e => exact start

/-- A history as long as a measure that every further yield decreases ends in a
return. -/
theorem feed_returns {invariant : σ → Prop} {post : ρ → Prop} (measure : σ → Nat)
    (positive : ∀ s, invariant s → 0 < measure s)
    (step : ∀ s a, invariant s →
      (resume s a).Holds (fun t => invariant t ∧ measure t < measure s) post)
    {answers : List α}
    (start : o.Holds (fun s => invariant s ∧ measure s ≤ answers.length) post) :
    ∃ r, feed resume o answers = .returned r ∧ post r := by
  induction answers generalizing o with
  | nil =>
      cases o with
      | yielded s =>
          have hpos := positive s start.1
          have hlen : measure s ≤ 0 := start.2
          omega
      | returned r => exact ⟨r, rfl, start⟩
      | raised e => exact start.elim
  | cons a answers ih =>
      cases o with
      | yielded s =>
          have hlen : measure s ≤ answers.length + 1 := start.2
          have hstep := step s a start.1
          cases hnext : resume s a with
          | yielded t =>
              rw [hnext] at hstep
              have hless : measure t < measure s := hstep.2
              simp only [feed, hnext]
              exact ih ⟨hstep.1, by omega⟩
          | returned r =>
              rw [hnext] at hstep
              have hpost : post r := hstep
              exact ⟨r, by cases answers <;> simp only [feed, hnext], hpost⟩
          | raised e =>
              rw [hnext] at hstep
              exact hstep.elim
      | returned r => exact ⟨r, rfl, start⟩
      | raised e => exact start.elim

/-- A count that grows with every yield bounds their number. -/
theorem length_yields_le (count : σ → Nat) {n k : Nat}
    (step : ∀ s a t, resume s a = .yielded t → count s < count t ∧ count t ≤ k)
    (start : ∀ t, o = .yielded t → n < count t ∧ count t ≤ k) (answers : List α) :
    (yields resume o answers).length ≤ k - n := by
  induction answers generalizing o n with
  | nil =>
      cases o with
      | yielded s =>
          have := start s rfl
          change 1 ≤ k - n
          omega
      | returned r => exact Nat.zero_le _
      | raised e => exact Nat.zero_le _
  | cons a answers ih =>
      cases o with
      | yielded s =>
          have hstart := start s rfl
          have hrest := ih (step s a)
          change (yields resume (resume s a) answers).length + 1 ≤ k - n
          omega
      | returned r => exact Nat.zero_le _
      | raised e => exact Nat.zero_le _

/-- The run lemma for a play. The step only has to preserve the invariant for
the answer the environment gives in that round. -/
theorem play_holds {invariant : σ → Prop} {post : ρ → Prop}
    (step : ∀ n s, play resume ask o n = .yielded s → invariant s →
      (resume s (ask n s)).Holds invariant post)
    (start : o.Holds invariant post) (n : Nat) :
    (play resume ask o n).Holds invariant post := by
  induction n with
  | zero => exact start
  | succ n ih =>
      cases hn : play resume ask o n with
      | yielded s =>
          rw [play_succ_of_yielded hn]
          exact step n s hn (by simpa [hn] using ih)
      | returned r => simpa [play, hn] using ih
      | raised e => simp [hn, Outcome.Holds] at ih

/-- A generator that stops earlier but otherwise yields the same states plays
through the same states while it runs. -/
theorem play_yielded_of_refines
    (step : ∀ s a t, resume s a = .yielded t → resume' s a = .yielded t)
    {o' : Outcome ε σ ρ} (start : ∀ t, o = .yielded t → o' = .yielded t) {n : Nat} {t : σ}
    (h : play resume ask o n = .yielded t) : play resume' ask o' n = .yielded t := by
  induction n generalizing t with
  | zero => exact start t h
  | succ n ih =>
      obtain ⟨s, hs, ht⟩ := play_succ_yielded h
      rw [play_succ_of_yielded (ih hs)]
      exact step s _ t ht

/-- A play with an invariant and a measure that every further yield decreases
reaches a return. -/
theorem play_returns {invariant : σ → Prop} {post : ρ → Prop} (measure : σ → Nat)
    (step : ∀ s a, invariant s →
      (resume s a).Holds (fun t => invariant t ∧ measure t < measure s) post)
    (start : o.Holds invariant post) :
    ∃ n r, play resume ask o n = .returned r ∧ post r := by
  have run : ∀ k n s, measure s = k → play resume ask o n = .yielded s → invariant s →
      ∃ n r, play resume ask o n = .returned r ∧ post r := by
    intro k
    induction k using Nat.strongRecOn with
    | ind k ih =>
        intro n s hk hn hs
        have hstep := step s (ask n s) hs
        rw [← play_succ_of_yielded hn] at hstep
        cases hnext : play resume ask o (n + 1) with
        | yielded t =>
            rw [hnext] at hstep
            exact ih (measure t) (hk ▸ hstep.2) (n + 1) t rfl hnext hstep.1
        | returned r =>
            rw [hnext] at hstep
            exact ⟨n + 1, r, hnext, hstep⟩
        | raised e =>
            rw [hnext] at hstep
            exact hstep.elim
  cases o with
  | yielded s => exact run _ 0 s rfl rfl start
  | returned r => exact ⟨0, r, rfl, start⟩
  | raised e => exact start.elim

end Coroutine

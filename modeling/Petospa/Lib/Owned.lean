import Mathlib.Data.List.Nodup
import Mathlib.Tactic.Common

/-!
# Stages that own what they write

Stages run one after another on a common state. A key of the state has at most
one owner among them: no other stage writes it, and what the owner writes only
depends on keys that it owns. After a run in which no stage comes twice, a key
has the value that its owner alone would have left.
-/

namespace Petospa

variable {σ ι κ β : Type*}

/-- Stage `i` writes the keys `k` with `owner k = some i`, and reads no others for it. -/
structure Owned (read : σ → κ → β) (step : σ → ι → σ) (owner : κ → Option ι) : Prop where
  frame : ∀ s i k, owner k ≠ some i → read (step s i) k = read s k
  reads : ∀ s s' i, (∀ k, owner k = some i → read s k = read s' k) →
    ∀ k, owner k = some i → read (step s i) k = read (step s' i) k

namespace Owned

variable {read : σ → κ → β} {step : σ → ι → σ} {owner : κ → Option ι}
variable {s : σ} {is : List ι} {i : ι} {k : κ}

/-- A run does not write the keys of stages that are not in it. -/
theorem read_foldl_of_ne (h : Owned read step owner) (hk : ∀ i ∈ is, owner k ≠ some i) :
    read (is.foldl step s) k = read s k := by
  induction is generalizing s with
  | nil => rfl
  | cons i is ih =>
      have hhead := h.frame s i k (hk i List.mem_cons_self)
      have htail := ih (s := step s i) fun j hj => hk j (List.mem_cons_of_mem i hj)
      exact htail.trans hhead

/-- A stage that is still to come finds its keys as they were. -/
theorem read_foldl_of_notMem (h : Owned read step owner) (hi : i ∉ is) (hk : owner k = some i) :
    read (is.foldl step s) k = read s k := by
  apply h.read_foldl_of_ne
  rintro j hj howner
  obtain rfl := Option.some.inj (hk.symm.trans howner)
  exact hi hj

theorem read_foldl (h : Owned read step owner) (hnodup : is.Nodup) (hi : i ∈ is)
    (hk : owner k = some i) : read (is.foldl step s) k = read (step s i) k := by
  induction is generalizing s with
  | nil => cases hi
  | cons j is ih =>
      obtain ⟨hj, hnodup⟩ := List.nodup_cons.mp hnodup
      cases hi with
      | head => exact h.read_foldl_of_notMem hj hk
      | tail _ hi =>
          have hne : j ≠ i := fun heq => hj (heq ▸ hi)
          refine (ih hnodup hi).trans (h.reads _ _ i (fun k' hk' => ?_) k hk)
          apply h.frame
          intro hj
          exact hne (Option.some.inj (hj.symm.trans hk'))

end Owned

end Petospa

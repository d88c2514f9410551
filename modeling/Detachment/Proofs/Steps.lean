import Mathlib.Data.Nat.SuccPred
import Mathlib.Order.SuccPred.IntervalSucc

/-! # Steps of a sequence of numbers

A sequence that does not decrease cuts the numbers between its values into steps, some of which may
be empty. Rows cut the entries of a table in this way, and boundaries the positions of a group.

* `exists_step` says that each number between two values lies in a step between them.
* `step_unique` says that it lies in no other step. -/

namespace Detachment

variable {f : Nat → Nat} {k l n : Nat}

/-- A number that a sequence passes before `stop` lies in one of the steps from `f k` to `f (k + 1)`
before. -/
theorem exists_step {stop : Nat} (hge : f 0 ≤ n) (hlt : n < f stop) :
    ∃ k < stop, f k ≤ n ∧ n < f (k + 1) := by
  induction stop with
  | zero => exact absurd hlt (Nat.not_lt.mpr hge)
  | succ last ih =>
    by_cases hlast : n < f last
    · obtain ⟨k, hk, hstep⟩ := ih hlast
      exact ⟨k, Nat.lt_succ_of_lt hk, hstep⟩
    · exact ⟨last, Nat.lt_succ_self last, Nat.not_lt.mp hlast, hlt⟩

/-- The steps from `f k` to `f (k + 1)` of a sequence that does not decrease have no number in
common. -/
theorem step_unique (hf : Monotone f) (hk : f k ≤ n ∧ n < f (k + 1))
    (hl : f l ≤ n ∧ n < f (l + 1)) : k = l := by
  by_contra hne
  exact Set.disjoint_left.mp (hf.pairwise_disjoint_on_Ico_succ hne) hk hl

end Detachment

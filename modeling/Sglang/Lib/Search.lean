/-
# Bisection for the first number that passes

For a test that, once passed, stays passed, bisection between a range whose upper end passes
finds the least number that does.
-/

import Mathlib.Order.Bounds.Basic

namespace Sglang.Lib

/-- The loop of the bisection. -/
def firstFit (p : Nat → Bool) (low high : Nat) : Nat :=
  if low < high then
    if p ((low + high) / 2) then firstFit p low ((low + high) / 2)
    else firstFit p ((low + high) / 2 + 1) high
  else low
  termination_by high - low

variable {p : Nat → Bool}

variable (mono : ∀ m n, m ≤ n → p m = true → p n = true)
include mono

lemma firstFit_spec (low high : Nat) (le : low ≤ high) (top : p high = true)
    (below : ∀ n < low, p n = false) : IsLeast {n | p n = true} (firstFit p low high) := by
  fun_induction firstFit p low high with
  | case1 low high more passed ih => exact ih (by omega) passed below
  | case2 low high more failed ih =>
    apply ih (by omega) top
    intro n lt
    -- what fails at the middle fails below it
    rw [Bool.eq_false_iff]
    exact fun passed => failed (mono n _ (by omega) passed)
  | case3 low high done =>
    obtain rfl : low = high := by omega
    refine ⟨top, fun n passed => Nat.le_of_not_lt fun lt => ?_⟩
    exact absurd (passed.symm.trans (below n lt)) (by decide)

/-- **Bisection** from the start of the range. -/
lemma firstFit_isLeast {high : Nat} (top : p high = true) :
    IsLeast {n | p n = true} (firstFit p 0 high) :=
  firstFit_spec mono 0 high (Nat.zero_le _) top fun _ lt => absurd lt (Nat.not_lt_zero _)

end Sglang.Lib

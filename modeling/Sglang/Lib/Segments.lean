/-
# Cutting and comparing sequences

* `chunks` — a sequence cut into pieces of one size; a short rest is dropped.
* `gallop` — the first index at which a test fails, found by trying windows of doubling size
  and then halving the window that failed. `gallop_spec` needs only that the window test
  agrees with the test of single indices.
-/

import Mathlib.Data.List.Basic

namespace Sglang.Lib

open List

section

variable {α : Type*}

/-- The full pieces of `size` elements each. -/
def chunks (size : Nat) (xs : List α) : List (List α) :=
  (range (xs.length / size)).map fun j => (xs.drop (j * size)).take size

variable {size j n : Nat} {xs : List α}

@[simp] lemma length_chunks : (chunks size xs).length = xs.length / size := by
  simp [chunks]

lemma getElem?_chunks (lt : j < xs.length / size) :
    (chunks size xs)[j]? = some ((xs.drop (j * size)).take size) := by
  simp [chunks, lt]

lemma chunks_take (pos : 0 < size) (le : n * size ≤ xs.length) :
    chunks size (xs.take (n * size)) = (chunks size xs).take n := by
  have count : (xs.take (n * size)).length / size = n := by
    rw [length_take, Nat.min_eq_left le, Nat.mul_div_cancel _ pos]
  have many : n ≤ xs.length / size := (Nat.le_div_iff_mul_le pos).mpr le
  apply ext_getElem?
  intro j
  by_cases lt : j < n
  · have room : j * size + size ≤ n * size := by
      rw [← Nat.succ_mul]
      exact Nat.mul_le_mul_right _ lt
    rw [getElem?_chunks (by omega), getElem?_take_of_lt lt, getElem?_chunks (by omega),
      drop_take, take_take, Nat.min_eq_left (by omega)]
  · rw [getElem?_eq_none (by rw [length_chunks]; omega),
      getElem?_eq_none (by rw [length_take]; omega)]

lemma chunks_drop (n : Nat) : chunks size (xs.drop (n * size)) = (chunks size xs).drop n := by
  have count : (xs.drop (n * size)).length / size = xs.length / size - n := by
    rw [length_drop, Nat.mul_comm, Nat.sub_mul_div]
  apply ext_getElem?
  intro j
  by_cases lt : j < xs.length / size - n
  · rw [getElem?_chunks (by omega), getElem?_drop, getElem?_chunks (by omega),
      drop_drop, Nat.add_mul]
  · rw [getElem?_eq_none (by rw [length_chunks]; omega),
      getElem?_eq_none (by rw [length_drop, length_chunks]; omega)]

lemma flatten_chunks (xs : List α) (aligned : size ∣ xs.length) :
    (chunks size xs).flatten = xs := by
  rcases Nat.eq_zero_or_pos size with rfl | pos
  · rw [eq_nil_of_length_eq_zero (Nat.eq_zero_of_zero_dvd aligned)]
    simp [chunks]
  obtain ⟨n, length⟩ := aligned
  induction n generalizing xs with
  | zero =>
    have nothing : xs = [] := eq_nil_of_length_eq_zero length
    subst nothing
    simp [chunks]
  | succ n ih =>
    have enough : size ≤ xs.length := by rw [length]; exact Nat.le_mul_of_pos_right _ (by omega)
    have rest := ih (xs.drop (1 * size)) (by
      rw [length_drop, length, Nat.mul_succ]; omega)
    rw [chunks_drop] at rest
    have first : (chunks size xs).take 1 = [xs.take size] := by
      have count : 0 < xs.length / size := Nat.div_pos enough pos
      rw [take_one, head?_eq_getElem?, getElem?_chunks count]
      simp
    rw [← take_append_drop 1 (chunks size xs), flatten_append, first, rest]
    simp

end

/-! ### Galloping -/

/-- Halve a window `[lo, hi)` that fails until its first index fails. -/
def bisect (same : Nat → Nat → Bool) : Nat → Nat → Nat → Nat
  | 0, lo, _ => lo
  | fuel + 1, lo, hi =>
    if 1 < hi - lo then
      let mid := (lo + hi) / 2
      if same lo mid then bisect same fuel mid hi else bisect same fuel lo mid
    else lo

/-- Try windows of doubling size from `lo` on, up to `n`. -/
def gallop (same : Nat → Nat → Bool) (n : Nat) : Nat → Nat → Nat → Nat
  | 0, _, _ => n
  | fuel + 1, lo, step =>
    if lo < n then
      let hi := if lo + step < n then lo + step else n
      if same lo hi then gallop same n fuel hi (step * 2) else bisect same (hi - lo) lo hi
    else n

variable {same : Nat → Nat → Bool} {test : Nat → Prop} {n fuel lo hi step : Nat}

variable (agrees : ∀ lo hi, lo < hi → hi ≤ n → (same lo hi = true ↔ ∀ i, lo ≤ i → i < hi → test i))
include agrees

lemma bisect_spec (lt : lo < hi) (le : hi ≤ n) (enough : hi - lo ≤ fuel + 1)
    (before : ∀ i < lo, test i) (fails : ∃ i, lo ≤ i ∧ i < hi ∧ ¬ test i) :
    bisect same fuel lo hi < n ∧ (∀ i < bisect same fuel lo hi, test i) ∧
      ¬ test (bisect same fuel lo hi) := by
  induction fuel generalizing lo hi with
  | zero =>
    obtain ⟨i, ge, lt', bad⟩ := fails
    obtain rfl : i = lo := by omega
    exact ⟨by rw [bisect]; omega, before, bad⟩
  | succ fuel ih =>
    rw [bisect]
    by_cases wide : 1 < hi - lo
    · rw [if_pos wide]
      by_cases good : same lo ((lo + hi) / 2) = true
      · rw [if_pos good]
        have half := (agrees lo ((lo + hi) / 2) (by omega) (by omega)).mp good
        refine ih (by omega) le (by omega) (fun i small => ?_) ?_
        · by_cases old : i < lo
          · exact before i old
          · exact half i (Nat.le_of_not_lt old) small
        · obtain ⟨i, ge, lt', bad⟩ := fails
          exact ⟨i, Nat.le_of_not_lt fun small => bad (half i ge small), lt', bad⟩
      · rw [if_neg good]
        apply ih (by omega) (by omega) (by omega) before
        by_contra none
        refine good ((agrees lo ((lo + hi) / 2) (by omega) (by omega)).mpr fun i ge small => ?_)
        by_contra bad
        exact none ⟨i, ge, small, bad⟩
    · rw [if_neg wide]
      obtain ⟨i, ge, lt', bad⟩ := fails
      obtain rfl : i = lo := by omega
      exact ⟨by omega, before, bad⟩

/-- Galloping finds the first index below `n` that fails, or `n`. -/
theorem gallop_spec
    (pos : 0 < step) (le : lo ≤ n) (enough : n - lo ≤ fuel) (before : ∀ i < lo, test i) :
    gallop same n fuel lo step ≤ n ∧ (∀ i < gallop same n fuel lo step, test i) ∧
      (gallop same n fuel lo step < n → ¬ test (gallop same n fuel lo step)) := by
  induction fuel generalizing lo step with
  | zero =>
    obtain rfl : lo = n := by omega
    exact ⟨Nat.le_refl _, before, fun lt => absurd lt (Nat.lt_irrefl _)⟩
  | succ fuel ih =>
    rw [gallop]
    by_cases more : lo < n
    · rw [if_pos more]
      generalize bound : (if lo + step < n then lo + step else n) = hi
      have lt : lo < hi := by split at bound <;> omega
      have le' : hi ≤ n := by split at bound <;> omega
      by_cases good : same lo hi = true
      · rw [if_pos good]
        have window := (agrees lo hi lt le').mp good
        refine ih (by omega) le' (by omega) fun i small => ?_
        by_cases old : i < lo
        · exact before i old
        · exact window i (Nat.le_of_not_lt old) small
      · rw [if_neg good]
        have fails : ∃ i, lo ≤ i ∧ i < hi ∧ ¬ test i := by
          by_contra none
          refine good ((agrees lo hi lt le').mpr fun i ge small => ?_)
          by_contra bad
          exact none ⟨i, ge, small, bad⟩
        obtain ⟨inside, all, bad⟩ := bisect_spec agrees lt le' (Nat.le_succ (hi - lo)) before fails
        exact ⟨Nat.le_of_lt inside, all, fun _ => bad⟩
    · rw [if_neg more]
      obtain rfl : lo = n := by omega
      exact ⟨Nat.le_refl _, before, fun lt => absurd lt (Nat.lt_irrefl _)⟩

end Sglang.Lib

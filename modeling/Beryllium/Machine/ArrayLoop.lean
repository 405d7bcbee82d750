import Mathlib.Data.Nat.Notation
import Mathlib.Logic.Function.Basic
import Mathlib.Tactic.Common

/-!
# Loops over arrays

The loops that move the cells of an array down by a distance (`shiftFrom`), and that give cells
one value (`fillFrom`), and what they leave in every cell.
-/

namespace Machine

variable {α : Type*}

/-- The loop `while (i < n) { b[i] = b[i + d]; i++; }`, with `k` rounds to go at `i`. -/
def shiftFrom (d : ℕ) (b : ℕ → α) (i : ℕ) : ℕ → ℕ → α
  | 0 => b
  | k + 1 => shiftFrom d (Function.update b i (b (i + d))) (i + 1) k

/-- The loop `while (i < n) { b[i] = v; i++; }`, with `k` rounds to go at `i`. -/
def fillFrom (v : α) (b : ℕ → α) (i : ℕ) : ℕ → ℕ → α
  | 0 => b
  | k + 1 => fillFrom v (Function.update b i v) (i + 1) k

/-- The cells that are passed are moved down, each as it was before the loop. -/
theorem shiftFrom_apply (d : ℕ) (b : ℕ → α) (i k j : ℕ) :
    shiftFrom d b i k j = if i ≤ j ∧ j < i + k then b (j + d) else b j := by
  induction k generalizing b i with
  | zero => rw [shiftFrom, if_neg (by omega)]
  | succ k ih =>
    rw [shiftFrom, ih]
    rcases eq_or_ne j i with rfl | hne
    · rw [if_neg (by omega), if_pos (by omega), Function.update_self]
    · rw [Function.update_of_ne hne]
      by_cases hj : i ≤ j
      · rw [Function.update_of_ne (show j + d ≠ i by omega)]
        exact if_congr (by omega) rfl rfl
      · rw [if_neg (by omega), if_neg (by omega)]

/-- One more round. -/
theorem shiftFrom_succ (d : ℕ) (b : ℕ → α) (k : ℕ) (hd : 0 < d) :
    shiftFrom d b 0 (k + 1) = Function.update (shiftFrom d b 0 k) k
    (shiftFrom d b 0 k (k + d)) := by
  funext j
  rw [shiftFrom_apply]
  rcases eq_or_ne j k with rfl | hne
  · rw [Function.update_self, shiftFrom_apply, if_pos (by omega), if_neg (by omega)]
  · rw [Function.update_of_ne hne, shiftFrom_apply]
    exact if_congr (by omega) rfl rfl

theorem fillFrom_apply (v : α) (b : ℕ → α) (i k j : ℕ) :
    fillFrom v b i k j = if i ≤ j ∧ j < i + k then v else b j := by
  induction k generalizing b i with
  | zero => rw [fillFrom, if_neg (by omega)]
  | succ k ih =>
    rw [fillFrom, ih]
    rcases eq_or_ne j i with rfl | hne
    · rw [if_neg (by omega), if_pos (by omega), Function.update_self]
    · rw [Function.update_of_ne hne]
      exact if_congr (by omega) rfl rfl

end Machine

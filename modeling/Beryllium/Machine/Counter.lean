import Mathlib.Data.BitVec
import Mathlib.Tactic.Common

/-!
# An interval timer

Counter 0 of an interval timer of the type 8254, with a count of two bytes, and in one of the modes
in which it counts over and over again: from the second byte of the count on, its output is low at
the end of each period and rises with the next one (`Counter.after_eq`). It rises with the control
word, too, if it was low. In the other modes the output does not change here after the control word.
-/

namespace Machine

/-- The counter: its control word, the first byte of a count whose second one has not been written,
    the count, 0 before it is loaded, the clocks of the period that is running, and its output. -/
structure Counter where
  control : BitVec 8
  low : Option (BitVec 8)
  count : ℕ
  phase : ℕ
  out : Bool

namespace Counter

variable (c : Counter)

/-- A byte is written to a port: the counter, and whether its output rises. -/
def outb (port : BitVec 16) (v : BitVec 8) : Counter × Bool :=
  if port = 0x43 then
    -- the control words of the other counters are not for this one, and one without bits 5 and 4
    -- latches the count
    if v.getLsbD 7 || v.getLsbD 6 || !(v.getLsbD 5 || v.getLsbD 4) then (c, false)
    else
      -- the output is high but in mode 0
      let out := v.getLsbD 3 || v.getLsbD 2 || v.getLsbD 1
      ({ control := v, low := none, count := 0, phase := 0, out := out }, out && !c.out)
  else if port = 0x40 then
    match c.low with
    | none => ({ c with low := some v }, false)
    | some low =>
      let count := v.toNat * 256 + low.toNat
      ({ c with low := none, count := if count = 0 then 65536 else count }, false)
  else (c, false)

/-- The counter has a count of two bytes, and counts over and over again. -/
def Periodic : Prop := c.control.getLsbD 5 = true ∧ c.control.getLsbD 4 = true ∧
    c.control.getLsbD 2 = true

instance : Decidable c.Periodic :=
  inferInstanceAs (Decidable (c.control.getLsbD 5 = true ∧ c.control.getLsbD 4 = true ∧
    c.control.getLsbD 2 = true))

/-- The output of a counter that counts over and over again: the second half of a period is low in
    mode 3, the last clock in mode 2. -/
def high (phase : ℕ) : Bool :=
  if c.control.getLsbD 1 then phase < (c.count + 1) / 2 else phase + 1 < c.count

/-- A clock, and whether the output rises. -/
def clock : Counter × Bool :=
  if ¬c.Periodic ∨ c.count = 0 then (c, false)
  else
    let phase := if c.count ≤ c.phase + 1 then 0 else c.phase + 1
    let out := c.high phase
    ({ c with phase := phase, out := out }, out && !c.out)

/-- The counter after a number of clocks, and how often its output has risen. -/
def after : ℕ → Counter × ℕ
  | 0 => (c, 0)
  | k + 1 => ((after k).1.clock.1, (after k).2 + (after k).1.clock.2.toNat)

variable {c}

/-- Before it is loaded, nothing happens. -/
theorem clock_of_count (hc : c.count = 0) : c.clock = (c, false) := if_pos (.inr hc)

theorem high_zero (h : 2 ≤ c.count) : c.high 0 = true := by
  rw [high]
  split_ifs <;> exact decide_eq_true (by omega)

theorem high_last (h : 2 ≤ c.count) : c.high (c.count - 1) = false := by
  rw [high]
  split_ifs <;> exact decide_eq_false (by omega)

/-- Within a period the output does not rise. -/
theorem high_succ {k : ℕ} (h : c.high (k + 1) = true) : c.high k = true := by
  rw [high] at h ⊢
  split_ifs at h ⊢ <;> exact decide_eq_true (by have := of_decide_eq_true h; omega)

theorem clock_of_periodic {k n : ℕ} (hp : c.Periodic) (hn : c.count = n) (hpos : 2 ≤ n) :
    clock { c with phase := k % n, out := c.high (k % n) } =
      ({ c with phase := (k + 1) % n, out := c.high ((k + 1) % n) },
        decide ((k + 1) / n ≠ k / n)) := by
  have hlt := Nat.mod_lt k (show 0 < n by omega)
  have hdiv := Nat.div_add_mod k n
  have hcount : ¬(¬Periodic { c with phase := k % n, out := c.high (k % n) } ∨ c.count = 0) := by
    rintro (h | h)
    · exact h hp
    · omega
  rw [clock, if_neg hcount]
  dsimp only
  change ({ c with
    phase := if c.count ≤ k % n + 1 then 0 else k % n + 1
    out := c.high (if c.count ≤ k % n + 1 then 0 else k % n + 1) },
    c.high (if c.count ≤ k % n + 1 then 0 else k % n + 1) && !c.high (k % n)) = _
  split_ifs with h
  · -- the period is over
    obtain ⟨hnext, hmod⟩ : (k + 1) / n = k / n + 1 ∧ (k + 1) % n = 0 := by
      rw [Nat.div_mod_unique (by omega), Nat.mul_add, Nat.mul_one]
      omega
    have hlast : k % n = c.count - 1 := by omega
    rw [hmod, hnext, hlast, high_zero (by omega), high_last (by omega)]
    simp
  · obtain ⟨hnext, hmod⟩ : (k + 1) / n = k / n ∧ (k + 1) % n = k % n + 1 := by
      rw [Nat.div_mod_unique (by omega)]
      omega
    have hstay : (c.high (k % n + 1) && !c.high (k % n)) = false := by
      cases hhigh : c.high (k % n + 1) with
      | true => rw [high_succ hhigh]; rfl
      | false => rfl
    rw [hmod, hnext, hstay]
    simp

/-- The output rises at the end of each period. -/
theorem after_eq {n : ℕ} (hp : c.Periodic) (hn : c.count = n) (hpos : 2 ≤ n) (hphase : c.phase = 0)
    (hout : c.out = true) (k : ℕ) :
    c.after k = ({ c with phase := k % n, out := c.high (k % n) }, k / n) := by
  induction k with
  | zero =>
    have hhigh : c.high (0 % n) = true := by
      rw [Nat.zero_mod]
      exact high_zero (hn ▸ hpos)
    rw [after, Nat.zero_div, hhigh, Nat.zero_mod, ← hphase, ← hout]
  | succ k ih =>
    rw [after, ih, clock_of_periodic hp hn hpos]
    have hdiv := Nat.succ_div (a := k) (b := n)
    split_ifs at hdiv with h
    · simp [hdiv]
    · simp [hdiv]

end Counter

end Machine

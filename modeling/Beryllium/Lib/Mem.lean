import Beryllium.Machine.Memory
import Mathlib.Data.BitVec

/-!
# Filling and copying memory

`memset` and `memcpy` of `kernel/lib/string.c`: they fill a range word by word, and then its
last `n % 4` bytes one by one. They change no byte outside the range, and between ranges that
do not overlap `memcpy` copies the bytes (`memcpy_apply`).
-/

namespace Beryllium

open Machine

/-- `for (i = 0; i < k; i++) dest32[i] = val32`. -/
def memsetDwords (m : Mem) (dest val32 : ℕ) : ℕ → Mem
  | 0 => m
  | k + 1 => (memsetDwords m dest val32 k).store32 (dest + 4 * k) val32

/-- `for (i = 0; i < k; i++) dest8[i] = val8`. -/
def memsetBytes (m : Mem) (dest val8 : ℕ) : ℕ → Mem
  | 0 => m
  | k + 1 => (memsetBytes m dest val8 k).store8 (dest + k) val8

/-- `memset(dest, val, n)`. -/
def memset (m : Mem) (dest : ℕ) (val : BitVec 32) (n : ℕ) : Mem :=
  let numDwords := n / 4
  let numBytes := n % 4
  let val8 := (val.setWidth 8).toNat
  let val32 := (val ||| val <<< 8 ||| val <<< 16 ||| val <<< 24).toNat
  memsetBytes (memsetDwords m dest val32 numDwords) (dest + numDwords * 4) val8 numBytes

variable {m : Mem} {dest v n x : ℕ}

theorem memsetDwords_apply_of_disjoint (h : x < dest ∨ dest + 4 * n ≤ x) :
    memsetDwords m dest v n x = m x := by
  induction n with
  | zero => rfl
  | succ k ih =>
    rw [memsetDwords, Mem.store32_apply_of_disjoint (by omega)]
    exact ih (by omega)

theorem memsetBytes_apply_of_disjoint (h : x < dest ∨ dest + n ≤ x) :
    memsetBytes m dest v n x = m x := by
  induction n with
  | zero => rfl
  | succ k ih =>
    rw [memsetBytes, Mem.store8_apply_of_ne (by omega)]
    exact ih (by omega)

/-- `memset` changes no byte outside `[dest, dest + n)`. -/
theorem memset_apply_of_disjoint {val : BitVec 32} (h : x < dest ∨ dest + n ≤ x) :
    memset m dest val n x = m x := by
  rw [memset, memsetBytes_apply_of_disjoint (by omega),
    memsetDwords_apply_of_disjoint (by omega)]

/-! ## memcpy -/

/-- `for (i = 0; i < k; i++) dest32[i] = src32[i]`. -/
def memcpyDwords (m : Mem) (dest src : ℕ) : ℕ → Mem
  | 0 => m
  | k + 1 =>
    let m := memcpyDwords m dest src k
    m.store32 (dest + 4 * k) (m.load32 (src + 4 * k))

/-- `for (i = 0; i < k; i++) dest8[i] = src8[i]`. -/
def memcpyBytes (m : Mem) (dest src : ℕ) : ℕ → Mem
  | 0 => m
  | k + 1 =>
    let m := memcpyBytes m dest src k
    m.store8 (dest + k) (m.load8 (src + k))

/-- `memcpy(dest, src, n)`. -/
def memcpy (m : Mem) (dest src n : ℕ) : Mem :=
  let numDwords := n / 4
  let numBytes := n % 4
  memcpyBytes (memcpyDwords m dest src numDwords) (dest + numDwords * 4)
    (src + numDwords * 4) numBytes

variable {src i : ℕ}

theorem memcpyDwords_apply_of_disjoint (h : x < dest ∨ dest + 4 * n ≤ x) :
    memcpyDwords m dest src n x = m x := by
  induction n with
  | zero => rfl
  | succ k ih =>
    rw [memcpyDwords, Mem.store32_apply_of_disjoint (by omega)]
    exact ih (by omega)

theorem memcpyBytes_apply_of_disjoint (h : x < dest ∨ dest + n ≤ x) :
    memcpyBytes m dest src n x = m x := by
  induction n with
  | zero => rfl
  | succ k ih =>
    rw [memcpyBytes, Mem.store8_apply_of_ne (by omega)]
    exact ih (by omega)

/-- `memcpy` changes no byte outside `[dest, dest + n)`. -/
theorem memcpy_apply_of_disjoint (h : x < dest ∨ dest + n ≤ x) : memcpy m dest src n x = m x := by
  rw [memcpy, memcpyBytes_apply_of_disjoint (by omega), memcpyDwords_apply_of_disjoint (by omega)]

theorem memcpyDwords_apply (h : src + 4 * n ≤ dest ∨ dest + 4 * n ≤ src) (hi : i < 4 * n) :
    memcpyDwords m dest src n (dest + i) = m (src + i) := by
  induction n with
  | zero => exact absurd hi (Nat.not_lt_zero i)
  | succ k ih =>
    rw [memcpyDwords]
    by_cases hik : i < 4 * k
    · rw [Mem.store32_apply_of_disjoint (by omega)]
      exact ih (by omega) hik
    · -- the bytes of the last word
      obtain ⟨j, hj, rfl⟩ : ∃ j < 4, i = 4 * k + j := ⟨i - 4 * k, by omega, by omega⟩
      rw [← Nat.add_assoc, ← Nat.add_assoc, Mem.store32_load32 hj]
      exact memcpyDwords_apply_of_disjoint (by omega)

theorem memcpyBytes_apply (h : src + n ≤ dest ∨ dest + n ≤ src) (hi : i < n) :
    memcpyBytes m dest src n (dest + i) = m (src + i) := by
  induction n with
  | zero => exact absurd hi (Nat.not_lt_zero i)
  | succ k ih =>
    rw [memcpyBytes]
    by_cases hik : i < k
    · rw [Mem.store8_apply_of_ne (by omega)]
      exact ih (by omega) hik
    · obtain rfl : i = k := by omega
      rw [Mem.store8_load8]
      exact memcpyBytes_apply_of_disjoint (by omega)

/-- Between ranges that do not overlap, `memcpy` copies the bytes. -/
theorem memcpy_apply (h : src + n ≤ dest ∨ dest + n ≤ src) (hi : i < n) :
    memcpy m dest src n (dest + i) = m (src + i) := by
  rw [memcpy]
  by_cases hik : i < 4 * (n / 4)
  · rw [memcpyBytes_apply_of_disjoint (by omega)]
    exact memcpyDwords_apply (by omega) hik
  · -- the bytes after the last word
    obtain ⟨j, hj, rfl⟩ : ∃ j < n % 4, i = n / 4 * 4 + j := ⟨i - n / 4 * 4, by omega, by omega⟩
    rw [← Nat.add_assoc, memcpyBytes_apply (by omega) hj, Nat.add_assoc]
    exact memcpyDwords_apply_of_disjoint (by omega)

end Beryllium

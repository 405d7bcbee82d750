import Mathlib.Data.Nat.Notation
import Mathlib.Tactic.Common

/-!
# Flat byte memory

A byte memory addressed by natural numbers, with little-endian 32-bit words, as
a 32-bit machine without segmentation sees it. Two accesses that do not touch a
common byte do not interfere (`load32_store32_of_disjoint` and its variants), and
a store changes no byte outside the ones it names (`store32_apply_of_disjoint`).

The arithmetic of such a machine wraps at `2 ^ 32`: `add32`, `sub32`, `mul32`.
Where nothing wraps they are the operations of `ℕ`.
-/

namespace Machine

/-! ## Arithmetic modulo `2 ^ 32` -/

/-- Addition of 32-bit words. -/
def add32 (a b : ℕ) : ℕ := (a + b) % 4294967296

/-- Subtraction of 32-bit words. -/
def sub32 (a b : ℕ) : ℕ := (a + 4294967296 - b % 4294967296) % 4294967296

/-- Multiplication of 32-bit words. -/
def mul32 (a b : ℕ) : ℕ := a * b % 4294967296

theorem add32_eq {a b : ℕ} (h : a + b < 4294967296) : add32 a b = a + b :=
  Nat.mod_eq_of_lt h

theorem sub32_eq {a b : ℕ} (h : b ≤ a) (ha : a < 4294967296) : sub32 a b = a - b := by
  rw [sub32]
  omega

theorem mul32_eq {a b : ℕ} (h : a * b < 4294967296) : mul32 a b = a * b :=
  Nat.mod_eq_of_lt h

theorem add32_lt (a b : ℕ) : add32 a b < 4294967296 := Nat.mod_lt _ (by decide)

theorem sub32_lt (a b : ℕ) : sub32 a b < 4294967296 := Nat.mod_lt _ (by decide)

/-! ## Memory -/

/-- A memory: a byte at every address. -/
abbrev Mem := ℕ → UInt8

namespace Mem

variable (m : Mem) (a b v w : ℕ)

/-- The byte at `a`. -/
def load8 : ℕ := (m a).toNat

/-- The memory with the byte `v` at `a`. -/
def store8 : Mem := fun x => if x = a then UInt8.ofNat v else m x

/-- The little-endian word at `a`. -/
def load32 : ℕ :=
  (m a).toNat + 256 * (m (a + 1)).toNat + 65536 * (m (a + 2)).toNat + 16777216 * (m (a + 3)).toNat

/-- The memory with the little-endian word `v` at `a`. -/
def store32 : Mem := fun x =>
  if x = a then UInt8.ofNat v
  else if x = a + 1 then UInt8.ofNat (v / 256)
  else if x = a + 2 then UInt8.ofNat (v / 65536)
  else if x = a + 3 then UInt8.ofNat (v / 16777216)
  else m x

theorem load32_lt : m.load32 a < 4294967296 := by
  have h₀ := (m a).toNat_lt
  have h₁ := (m (a + 1)).toNat_lt
  have h₂ := (m (a + 2)).toNat_lt
  have h₃ := (m (a + 3)).toNat_lt
  rw [load32]
  omega

/-! ### Reading back a store -/

theorem load8_store8_self : (m.store8 a v).load8 a = v % 256 := by
  simp [load8, store8]

theorem load32_store32_self : (m.store32 a v).load32 a = v % 4294967296 := by
  simp only [load32, store32, ite_true]
  simp
  omega

variable {m a b v w}

theorem load8_store8_of_lt (hv : v < 256) : (m.store8 a v).load8 a = v := by
  rw [load8_store8_self, Nat.mod_eq_of_lt hv]

theorem load32_store32_of_lt (hv : v < 4294967296) : (m.store32 a v).load32 a = v := by
  rw [load32_store32_self, Nat.mod_eq_of_lt hv]

/-- A byte that is copied. -/
theorem store8_load8 {m' : Mem} : (m'.store8 a (m.load8 b)) a = m b := by
  rw [store8, if_pos rfl, load8, UInt8.ofNat_toNat]

/-- The bytes of a word that is copied. -/
theorem store32_load32 {m' : Mem} {j : ℕ} (hj : j < 4) :
    (m'.store32 a (m.load32 b)) (a + j) = m (b + j) := by
  have h₀ := (m b).toNat_lt
  have h₁ := (m (b + 1)).toNat_lt
  have h₂ := (m (b + 2)).toNat_lt
  have hbyte : ∀ (x : UInt8) (v k : ℕ), v = x.toNat + 256 * k → UInt8.ofNat v = x := by
    rintro x v k rfl
    refine UInt8.toNat_inj.1 ?_
    have := x.toNat_lt
    rw [UInt8.toNat_ofNat']
    omega
  rw [load32, store32]
  obtain rfl | rfl | rfl | rfl : j = 0 ∨ j = 1 ∨ j = 2 ∨ j = 3 := by omega
  · rw [if_pos (Nat.add_zero a)]
    exact hbyte (m b) _ ((m (b + 1)).toNat + 256 * (m (b + 2)).toNat + 65536 * (m (b + 3)).toNat)
      (by omega)
  · rw [if_neg (by omega), if_pos rfl]
    exact hbyte _ _ ((m (b + 2)).toNat + 256 * (m (b + 3)).toNat) (by omega)
  · rw [if_neg (by omega), if_neg (by omega), if_pos rfl]
    exact hbyte _ _ (m (b + 3)).toNat (by omega)
  · rw [if_neg (by omega), if_neg (by omega), if_neg (by omega), if_pos rfl]
    exact hbyte _ _ 0 (by omega)

/-! ### Frames -/

theorem store8_apply_of_ne (h : b ≠ a) : m.store8 a v b = m b := by
  simp [store8, h]

theorem store32_apply_of_disjoint (h : b < a ∨ a + 4 ≤ b) : m.store32 a v b = m b := by
  have h₀ : b ≠ a := by omega
  have h₁ : b ≠ a + 1 := by omega
  have h₂ : b ≠ a + 2 := by omega
  have h₃ : b ≠ a + 3 := by omega
  simp [store32, h₀, h₁, h₂, h₃]

/-- A word only depends on its four bytes. -/
theorem load32_congr {m' : Mem} (h : ∀ x, a ≤ x → x < a + 4 → m' x = m x) :
    m'.load32 a = m.load32 a := by
  simp only [load32]
  rw [h a (by omega) (by omega), h (a + 1) (by omega) (by omega),
    h (a + 2) (by omega) (by omega), h (a + 3) (by omega) (by omega)]

theorem load8_congr {m' : Mem} (h : m' a = m a) : m'.load8 a = m.load8 a := by
  rw [load8, load8, h]

theorem load32_store32_of_disjoint (h : b + 4 ≤ a ∨ a + 4 ≤ b) :
    (m.store32 a v).load32 b = m.load32 b :=
  load32_congr fun _ _ _ => store32_apply_of_disjoint (by omega)

theorem load32_store8_of_disjoint (h : a < b ∨ b + 4 ≤ a) :
    (m.store8 a v).load32 b = m.load32 b :=
  load32_congr fun _ _ _ => store8_apply_of_ne (by omega)

theorem load8_store32_of_disjoint (h : b < a ∨ a + 4 ≤ b) :
    (m.store32 a v).load8 b = m.load8 b :=
  load8_congr (store32_apply_of_disjoint h)

theorem load8_store8_of_ne (h : b ≠ a) : (m.store8 a v).load8 b = m.load8 b :=
  load8_congr (store8_apply_of_ne h)

end Mem

end Machine

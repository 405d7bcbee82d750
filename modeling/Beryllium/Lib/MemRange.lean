import Beryllium.Lib.Mem

/-!
# Whole ranges of memory

What `memcpy`, `memmove` and `memset` of `kernel/lib/string.c` are for, as memories:
the simultaneous copy of a range (`copied`) and a range filled with one byte (`filled`).

* `memmove_eq_copied`: `memmove` is the simultaneous copy, however the ranges overlap;
* `memcpy_eq_copied`: so is `memcpy` where they do not;
* `memsetDwords_apply`: the words of `memset` repeat the byte only if the upper three bytes
  of `val` add no bit to it (`UpperInLow`).

Where a range does not wrap, its addresses are the pointers that the loops form.
-/

namespace Beryllium

open Machine

/-- `m`, with the `n` bytes at `dest` replaced by those that `m` has at `src`. -/
def copied (m : Mem) (dest src n : ℕ) : Mem := fun x =>
  if dest ≤ x ∧ x < dest + n then m (src + (x - dest)) else m x

/-- `m`, with the `n` bytes at `dest` replaced by `b`. -/
def filled (m : Mem) (dest : ℕ) (b : UInt8) (n : ℕ) : Mem := fun x =>
  if dest ≤ x ∧ x < dest + n then b else m x

/-- `for (i = n; i > 0; --i) a[i - 1] = b[i - 1]`. -/
def memmoveDown (m : Mem) (a b : ℕ) : ℕ → Mem
  | 0 => m
  | i + 1 => memmoveDown (m.store8 (a + i) (m.load8 (b + i))) a b i

/-- `memmove(dest, src, n)`. -/
def memmove (m : Mem) (dest src n : ℕ) : Mem :=
  if src < dest then memmoveDown m dest src n
  -- the loop upwards is the loop over the bytes in `memcpy`
  else memcpyBytes m dest src n

variable {m : Mem} {dest src n k x : ℕ}

/-! ## Copying -/

theorem copied_apply (h : k < n) : copied m dest src n (dest + k) = m (src + k) := by
  rw [copied, if_pos ⟨Nat.le_add_right _ _, by omega⟩, Nat.add_sub_cancel_left]

theorem copied_apply_of_disjoint (h : x < dest ∨ dest + n ≤ x) : copied m dest src n x = m x := by
  rw [copied, if_neg (by omega)]

/-- A memory is the copy if it has the bytes of the copy. -/
theorem eq_copied {m' : Mem} (hin : ∀ k < n, m' (dest + k) = m (src + k))
    (hout : ∀ x, x < dest ∨ dest + n ≤ x → m' x = m x) : m' = copied m dest src n := by
  funext x
  by_cases hx : dest ≤ x ∧ x < dest + n
  · obtain ⟨k, rfl⟩ := Nat.exists_eq_add_of_le hx.1
    rw [copied_apply (by omega), hin k (by omega)]
  · rw [copied_apply_of_disjoint (by omega), hout x (by omega)]

/-- Upwards: what is read at `src + k` lies behind all that is written before. -/
theorem memcpyBytes_eq_copied (h : dest ≤ src) :
    memcpyBytes m dest src n = copied m dest src n := by
  induction n with
  | zero => exact eq_copied (fun k hk => absurd hk (Nat.not_lt_zero k)) fun _ _ => rfl
  | succ n ih =>
    refine eq_copied (fun k hk => ?_) fun x hx => ?_
    · rw [memcpyBytes, ih]
      rcases (Nat.lt_succ_iff.1 hk).lt_or_eq with hlt | rfl
      · rw [Mem.store8_apply_of_ne (by omega), copied_apply hlt]
      · rw [Mem.store8_load8, copied_apply_of_disjoint (by omega)]
    · exact memcpyBytes_apply_of_disjoint hx

/-- Downwards: what is read at `src + i` lies before all that is written earlier. -/
theorem memmoveDown_eq_copied (h : src ≤ dest) :
    memmoveDown m dest src n = copied m dest src n := by
  induction n generalizing m with
  | zero => exact eq_copied (fun k hk => absurd hk (Nat.not_lt_zero k)) fun _ _ => rfl
  | succ n ih =>
    rw [memmoveDown, ih]
    refine eq_copied (fun k hk => ?_) fun x hx => ?_
    · rcases (Nat.lt_succ_iff.1 hk).lt_or_eq with hlt | rfl
      · rw [copied_apply hlt, Mem.store8_apply_of_ne (by omega)]
      · rw [copied_apply_of_disjoint (.inr le_rfl), Mem.store8_load8]
    · rw [copied_apply_of_disjoint (by omega), Mem.store8_apply_of_ne (by omega)]

theorem memmove_eq_copied (m : Mem) (dest src n : ℕ) :
    memmove m dest src n = copied m dest src n := by
  rw [memmove]
  split_ifs with h
  · exact memmoveDown_eq_copied h.le
  · exact memcpyBytes_eq_copied (Nat.not_lt.1 h)

theorem memcpy_eq_copied (h : src + n ≤ dest ∨ dest + n ≤ src) :
    memcpy m dest src n = copied m dest src n :=
  eq_copied (fun _ hk => memcpy_apply h hk) fun _ => memcpy_apply_of_disjoint

/-- `memmove` is the simultaneous copy for any two ranges, and `memcpy` for disjoint ones:
    the byte `k` of the destination is the old byte `k` of the source, and all others stay. -/
theorem memmove_memcpy_copy (m : Mem) (dest src n : ℕ) :
    ((∀ k < n, memmove m dest src n (dest + k) = m (src + k)) ∧
      ∀ x, x < dest ∨ dest + n ≤ x → memmove m dest src n x = m x) ∧
    (src + n ≤ dest ∨ dest + n ≤ src →
      (∀ k < n, memcpy m dest src n (dest + k) = m (src + k)) ∧
        ∀ x, x < dest ∨ dest + n ≤ x → memcpy m dest src n x = m x) := by
  rw [memmove_eq_copied]
  refine ⟨⟨fun _ hk => copied_apply hk, fun _ => copied_apply_of_disjoint⟩, fun h => ?_⟩
  rw [memcpy_eq_copied h]
  exact ⟨fun _ hk => copied_apply hk, fun _ => copied_apply_of_disjoint⟩

/-- Seven bytes, a word and three single ones, between ranges that touch. -/
theorem memmove_memcpy_copy_seven :
    memcpy (fun a => UInt8.ofNat a) 7 0 7 13 = 6 ∧ memcpy
    (fun a => UInt8.ofNat a) 7 0 7 14 = 14 := by
  have h := (memmove_memcpy_copy (fun a => UInt8.ofNat a) 7 0 7).2 (.inl (by decide))
  exact ⟨h.1 6 (by decide), h.2 14 (.inr (by decide))⟩

/-! ## Filling -/

/-- The upper three bytes of `val` have no bit that its low byte lacks. -/
def UpperInLow (val : BitVec 32) : Prop := ∀ i < 32, val.getLsbD i → val.getLsbD (i % 8)

instance (val : BitVec 32) : Decidable (UpperInLow val) := inferInstanceAs (Decidable (∀ _ < _, _))

/-- The low 8 bits of `val`, `(uint8_t)val`. -/
def lowByte (val : BitVec 32) : UInt8 := UInt8.ofNat (val.setWidth 8).toNat

/-- `val | (val << 8) | (val << 16) | (val << 24)`, the word that `memset` stores. -/
def spread (val : BitVec 32) : BitVec 32 := val ||| val <<< 8 ||| val <<< 16 ||| val <<< 24

variable {val : BitVec 32} {v j : ℕ} {b : UInt8}

theorem filled_apply (h : k < n) : filled m dest b n (dest + k) = b := by
  rw [filled, if_pos ⟨Nat.le_add_right _ _, by omega⟩]

theorem filled_apply_of_disjoint (h : x < dest ∨ dest + n ≤ x) : filled m dest b n x = m x := by
  rw [filled, if_neg (by omega)]

theorem eq_filled {m' : Mem} (hin : ∀ k < n, m' (dest + k) = b)
    (hout : ∀ x, x < dest ∨ dest + n ≤ x → m' x = m x) : m' = filled m dest b n := by
  funext x
  by_cases hx : dest ≤ x ∧ x < dest + n
  · obtain ⟨k, rfl⟩ := Nat.exists_eq_add_of_le hx.1
    rw [filled_apply (by omega), hin k (by omega)]
  · rw [filled_apply_of_disjoint (by omega), hout x (by omega)]

theorem store32_apply (hj : j < 4) (v : ℕ) :
    m.store32 dest v (dest + j) = UInt8.ofNat (v / 2 ^ (8 * j)) := by
  rw [Mem.store32]
  obtain rfl | rfl | rfl | rfl : j = 0 ∨ j = 1 ∨ j = 2 ∨ j = 3 := by omega
  · rw [if_pos (Nat.add_zero dest), Nat.mul_zero, pow_zero, Nat.div_one]
  · rw [if_neg (by omega), if_pos rfl]
    rfl
  · rw [if_neg (by omega), if_neg (by omega), if_pos rfl]
    rfl
  · rw [if_neg (by omega), if_neg (by omega), if_neg (by omega), if_pos rfl]
    rfl

theorem memsetDwords_apply (hk : k < 4 * n) :
    memsetDwords m dest v n (dest + k) = UInt8.ofNat (v / 2 ^ (8 * (k % 4))) := by
  induction n with
  | zero => exact absurd hk (Nat.not_lt_zero k)
  | succ n ih =>
    rw [memsetDwords]
    by_cases hkn : k < 4 * n
    · rw [Mem.store32_apply_of_disjoint (by omega)]
      exact ih hkn
    · -- the bytes of the last word
      obtain ⟨j, hj, rfl⟩ : ∃ j < 4, k = 4 * n + j := ⟨k - 4 * n, by omega, by omega⟩
      rw [← Nat.add_assoc, store32_apply hj, Nat.mul_add_mod, Nat.mod_eq_of_lt hj]

theorem memsetBytes_apply (hk : k < n) : memsetBytes m dest v n (dest + k) = UInt8.ofNat v := by
  induction n with
  | zero => exact absurd hk (Nat.not_lt_zero k)
  | succ n ih =>
    rw [memsetBytes]
    rcases (Nat.lt_succ_iff.1 hk).lt_or_eq with hlt | rfl
    · rw [Mem.store8_apply_of_ne (by omega)]
      exact ih hlt
    · rw [Mem.store8, if_pos rfl]

theorem memset_eq : memset m dest val n =
    memsetBytes (memsetDwords m dest (spread val).toNat (n / 4)) (dest + n / 4 * 4)
      (val.setWidth 8).toNat (n % 4) := rfl

/-- The bits of the word that is stored: those of `val`, moved up by whole bytes. -/
theorem getLsbD_spread {i : ℕ} (hi : i < 32) : (spread val).getLsbD i = true ↔
    ∃ c < 4, 8 * c ≤ i ∧ val.getLsbD (i - 8 * c) = true := by
  simp only [spread, BitVec.getLsbD_or, BitVec.getLsbD_shiftLeft, hi, decide_true, Bool.true_and,
    Bool.or_eq_true, Bool.and_eq_true, Bool.not_eq_true', decide_eq_false_iff_not, Nat.not_lt]
  refine ⟨?_, ?_⟩
  · rintro (((h | h) | h) | h)
    · exact ⟨0, by decide, Nat.zero_le i, h⟩
    · exact ⟨1, by decide, h⟩
    · exact ⟨2, by decide, h⟩
    · exact ⟨3, by decide, h⟩
  · rintro ⟨c, hc, h⟩
    obtain rfl | rfl | rfl | rfl : c = 0 ∨ c = 1 ∨ c = 2 ∨ c = 3 := by omega
    · exact .inl (.inl (.inl h.2))
    · exact .inl (.inl (.inr h))
    · exact .inl (.inr h)
    · exact .inr h

/-- The byte `j` of a word and the low byte of another have the same bits. -/
theorem byte_eq_lowByte {w : BitVec 32} : UInt8.ofNat (w.toNat / 2 ^ (8 * j)) = lowByte val ↔
    ∀ i < 8, w.getLsbD (8 * j + i) = val.getLsbD i := by
  have htest : ∀ i < 8, (w.toNat / 2 ^ (8 * j) % 2 ^ 8).testBit i = w.getLsbD (8 * j + i) ∧
      ((val.setWidth 8).toNat % 2 ^ 8).testBit i = val.getLsbD i := fun i hi => by
    rw [Nat.testBit_mod_two_pow, Nat.testBit_mod_two_pow, Nat.testBit_div_two_pow,
      BitVec.toNat_setWidth, Nat.testBit_mod_two_pow, BitVec.testBit_toNat, BitVec.testBit_toNat,
      decide_eq_true hi, Bool.true_and, Bool.true_and, Nat.add_comm i]
    exact ⟨rfl, Bool.true_and _⟩
  rw [lowByte, ← UInt8.toNat_inj, UInt8.toNat_ofNat', UInt8.toNat_ofNat']
  refine ⟨fun h i hi => ?_, fun h => Nat.eq_of_testBit_eq fun i => ?_⟩
  · rw [← (htest i hi).1, h, (htest i hi).2]
  · by_cases hi : i < 8
    · rw [(htest i hi).1, (htest i hi).2, h i hi]
    · rw [Nat.testBit_mod_two_pow, Nat.testBit_mod_two_pow, decide_eq_false hi, Bool.false_and,
        Bool.false_and]

/-- All four bytes that are stored are the low byte of `val`. -/
theorem spread_bytes_iff :
    (∀ j < 4, UInt8.ofNat ((spread val).toNat / 2 ^ (8 * j)) = lowByte val) ↔ UpperInLow val := by
  simp only [byte_eq_lowByte]
  refine ⟨fun h i hi hbit => ?_, fun h j hj i hi => ?_⟩
  · rw [← h (i / 8) (by omega) (i % 8) (by omega), Nat.div_add_mod, getLsbD_spread hi]
    exact ⟨0, by decide, Nat.zero_le i, hbit⟩
  · rw [Bool.eq_iff_iff, getLsbD_spread (by omega)]
    refine ⟨fun ⟨c, _, hle, hbit⟩ => ?_, fun hbit => ⟨j, hj, by omega, ?_⟩⟩
    · have hmod : (8 * j + i - 8 * c) % 8 = i := by omega
      rw [← hmod]
      exact h _ (by omega) hbit
    · rw [Nat.add_sub_cancel_left]
      exact hbit

theorem memset_apply_words (hk : k < 4 * (n / 4)) : memset m dest val n (dest + k) =
    UInt8.ofNat ((spread val).toNat / 2 ^ (8 * (k % 4))) := by
  rw [memset_eq, memsetBytes_apply_of_disjoint (by omega), memsetDwords_apply hk]

theorem memset_apply_bytes (hk : k < n) (hle : 4 * (n / 4) ≤ k) :
    memset m dest val n (dest + k) = lowByte val := by
  obtain ⟨j, rfl⟩ := Nat.exists_eq_add_of_le hle
  rw [memset_eq, show dest + (4 * (n / 4) + j) = dest + n / 4 * 4 + j by omega,
    memsetBytes_apply (by omega), lowByte]

theorem memset_eq_filled (h : n < 4 ∨ UpperInLow val) :
    memset m dest val n = filled m dest (lowByte val) n := by
  refine eq_filled (fun k hk => ?_) fun x => memset_apply_of_disjoint
  by_cases hkn : k < 4 * (n / 4)
  · rw [memset_apply_words hkn]
    exact spread_bytes_iff.2 (h.resolve_left (by omega)) _ (Nat.mod_lt _ (by decide))
  · exact memset_apply_bytes hk (Nat.not_lt.1 hkn)

/-- A value of one byte adds nothing to its low byte. -/
theorem upperInLow_of_lt (h : val.toNat < 256) : UpperInLow val := by
  intro i hi hbit
  rw [← BitVec.testBit_toNat] at hbit
  have hlt : i < 8 := (Nat.pow_lt_pow_iff_right (by decide)).1
    (lt_of_le_of_lt (Nat.ge_two_pow_of_testBit hbit) h)
  rwa [Nat.mod_eq_of_lt hlt, ← BitVec.testBit_toNat]

/-- `memset(ptr, 0, size)`, the call of `calloc`, clears the whole range. -/
theorem memset_zero : memset m dest 0#32 n = filled m dest 0 n :=
  memset_eq_filled (.inr (upperInLow_of_lt (by decide)))

/-- `memset` fills the range with the low byte of `val` if the range has no whole word, or the
    upper bytes of `val` add no bit to the low one, and otherwise it does not. -/
theorem memset_filled_iff (m : Mem) (dest : ℕ) (val : BitVec 32) (n : ℕ) :
    ((∀ k < n, memset m dest val n (dest + k) = lowByte val) ∧
      ∀ x, x < dest ∨ dest + n ≤ x → memset m dest val n x = m x) ↔ n < 4 ∨ UpperInLow val := by
  refine ⟨fun h => ?_, fun h => ?_⟩
  · refine (Nat.lt_or_ge n 4).imp_right fun hn => spread_bytes_iff.1 fun j hj => ?_
    rw [← h.1 j (by omega), memset_apply_words (by omega), Nat.mod_eq_of_lt hj]
  · rw [memset_eq_filled h]
    exact ⟨fun k => filled_apply, fun x => filled_apply_of_disjoint⟩

/-- `memset(0, 0x100, 4)` writes a one where the low byte of `val` is zero. -/
theorem memset_filled_false :
    ¬∀ (m : Mem) (dest : ℕ) (val : BitVec 32) (n : ℕ), dest + n ≤ 4294967296 →
      (∀ k < n, memset m dest val n (dest + k) = lowByte val) ∧
        ∀ x, x < dest ∨ dest + n ≤ x → memset m dest val n x = m x := by
  intro h
  have hone : memset (fun _ => 0) 0 0x100#32 4 1 = lowByte 0x100#32 :=
    (h (fun _ => 0) 0 0x100#32 4 (by decide)).1 1 (by decide)
  revert hone
  decide

end Beryllium

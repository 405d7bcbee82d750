import Mathlib.Data.List.Basic
import Mathlib.Data.Nat.Notation
import Mathlib.Order.Nat
import Mathlib.Tactic.Common

/-!
# Words in a block of bytes

Little-endian 32-bit words in a block of memory that is given by the list of its bytes.
Reading or writing outside the block answers `none`.

* `loadWord_append`: a block that was put together from its fields is read field by
  field;
* `storeWord_spec`: storing a word changes no other byte of the block, nor its length.
-/

namespace Machine

/-- The bytes of the word `v`. -/
def le32 (v : ℕ) : List UInt8 :=
  [UInt8.ofNat v, UInt8.ofNat (v / 256), UInt8.ofNat (v / 65536), UInt8.ofNat (v / 16777216)]

/-- The word that the bytes begin with. -/
def word : List UInt8 → Option ℕ
  | a :: b :: c :: d :: _ =>
    some (a.toNat + 256 * b.toNat + 65536 * c.toNat + 16777216 * d.toNat)
  | _ => none

/-- The word at the offset `k` of the block `b`. -/
def loadWord (b : List UInt8) (k : ℕ) : Option ℕ := word (b.drop k)

/-- The block `b` with the word `v` at the offset `k`. -/
def storeWord (b : List UInt8) (k v : ℕ) : Option (List UInt8) :=
  if k + 4 ≤ b.length then some (b.take k ++ (le32 v ++ b.drop (k + 4))) else none

variable {b b' r : List UInt8} {k v x : ℕ}

@[simp] theorem length_le32 : (le32 v).length = 4 := rfl

/-! ## Loads -/

theorem word_le32_append : word (le32 v ++ r) = some (v % 4294967296) := by
  simp only [le32, List.cons_append, word, UInt8.toNat_ofNat', Option.some.injEq]
  omega

/-- The word after the bytes `b`. -/
theorem loadWord_append (hk : k = b.length) : loadWord (b ++ (le32 v ++ r)) k =
    some (v % 4294967296) := by
  rw [loadWord, hk, List.drop_left, word_le32_append]

theorem word_cases (b : List UInt8) : (4 ≤ b.length ∧ ∃ v, word b = some v ∧ v < 4294967296) ∨
    (b.length < 4 ∧ word b = none) := by
  match b with
  | [] | [_] | [_, _] | [_, _, _] => exact .inr ⟨by simp, rfl⟩
  | c₀ :: c₁ :: c₂ :: c₃ :: b =>
    refine .inl ⟨by simp, _, rfl, ?_⟩
    have h₀ := c₀.toNat_lt
    have h₁ := c₁.toNat_lt
    have h₂ := c₂.toNat_lt
    have h₃ := c₃.toNat_lt
    omega

theorem loadWord_some (h : k + 4 ≤ b.length) : ∃ v, loadWord b k = some v ∧ v < 4294967296 := by
  rcases word_cases (b.drop k) with ⟨-, hv⟩ | ⟨hlt, -⟩
  · exact hv
  · rw [List.length_drop] at hlt
    omega

theorem le_of_loadWord (h : loadWord b k = some v) : k + 4 ≤ b.length := by
  rcases word_cases (b.drop k) with ⟨hle, -⟩ | ⟨-, hno⟩
  · rw [List.length_drop] at hle
    omega
  · rw [loadWord, hno] at h
    cases h

theorem loadWord_lt (h : loadWord b k = some v) : v < 4294967296 := by
  obtain ⟨w, hw, hlt⟩ := loadWord_some (le_of_loadWord h)
  rw [hw] at h
  cases h
  exact hlt

/-- A range of the block only depends on its bytes. -/
theorem take_drop_congr {m : ℕ} (h : ∀ y, k ≤ y → y < k + m → b'[y]? = b[y]?) :
    (b'.drop k).take m = (b.drop k).take m := by
  refine List.ext_getElem? fun i => ?_
  rw [List.getElem?_take, List.getElem?_take]
  split_ifs with hi
  · rw [List.getElem?_drop, List.getElem?_drop]
    exact h _ (by omega) (by omega)
  · rfl

/-- A word only depends on its four bytes. -/
theorem loadWord_congr (h : ∀ y, k ≤ y → y < k + 4 → b'[y]? = b[y]?) :
    loadWord b' k = loadWord b k := by
  have hword : ∀ c : List UInt8, word c = word (c.take 4) := by
    intro c
    match c with
    | [] | [_] | [_, _] | [_, _, _] | _ :: _ :: _ :: _ :: _ => rfl
  rw [loadWord, loadWord, hword, take_drop_congr h, ← hword]

/-! ## Stores -/

theorem storeWord_some (h : k + 4 ≤ b.length) (v : ℕ) : ∃ b', storeWord b k v = some b' :=
  ⟨_, if_pos h⟩

theorem storeWord_spec (h : storeWord b k v = some b') : b'.length = b.length ∧
    loadWord b' k = some (v % 4294967296) ∧ ∀ y, y < k ∨ k + 4 ≤ y → b'[y]? = b[y]? := by
  rw [storeWord] at h
  split_ifs at h with hle
  cases h
  have hk : (b.take k).length = k := by
    rw [List.length_take]
    omega
  refine ⟨?_, loadWord_append hk.symm, fun y hy => ?_⟩
  · simp only [List.length_append, hk, length_le32, List.length_drop]
    omega
  · rcases hy with hy | hy
    · rw [List.getElem?_append_left (by omega), List.getElem?_take, if_pos hy]
    · rw [List.getElem?_append_right (by omega), List.getElem?_append_right
        (by rw [hk, length_le32]; omega), List.getElem?_drop, hk, length_le32]
      congr 1
      omega

end Machine

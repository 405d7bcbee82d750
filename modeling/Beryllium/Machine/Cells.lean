import Beryllium.Machine.ArrayLoop
import Mathlib.Data.List.InsertIdx
import Mathlib.Data.List.Sort
import Mathlib.Data.Nat.Notation
import Mathlib.Logic.Function.Basic
import Mathlib.Tactic.Common

/-!
# Cells of an array

An array as a function on its indices that records which cells are accessed (`Cells`), and the
list that its first cells hold (`Cells.first`).

* `Cells.shiftUp_cell`, `Cells.shiftDown_cell`: the loops that move the cells up and down by one;
* `Cells.first_eq_insertIdx`, `Cells.first_eq_eraseIdx`: what these are for the list;
* `orderedInsert_eq_insertIdx`: inserting in front of the first item that is not smaller.
-/

namespace Machine

variable {α : Type*}

/-- The cells of an array, and those that were read or written so far. -/
structure Cells (α : Type*) where
  cell : ℕ → α
  touched : List ℕ

namespace Cells

variable (c : Cells α) (i : ℕ) (v : α)

/-- The cell `i` is read. -/
def touch : Cells α := { c with touched := i :: c.touched }

/-- The cell `i` is written. -/
def write : Cells α := ⟨Function.update c.cell i v, i :: c.touched⟩

/-- The list in the first `n` cells. -/
def first (n : ℕ) : List α := (List.range n).map c.cell

/-- `while (i < n) { i++; tmp2 = b[i]; b[i] = tmp; tmp = tmp2; }`, with `k` rounds to go. -/
def shiftUp (c : Cells α) (i : ℕ) (tmp : α) : ℕ → Cells α
  | 0 => c
  | k + 1 => shiftUp ((c.touch (i + 1)).write (i + 1) tmp) (i + 1) (c.cell (i + 1)) k

/-- `while (i < n) { b[i] = b[i + 1]; i++; }`, with `k` rounds to go. -/
def shiftDown (c : Cells α) (i : ℕ) : ℕ → Cells α
  | 0 => c
  | k + 1 => shiftDown ((c.touch (i + 1)).write i (c.cell (i + 1))) (i + 1) k

variable {c i v} {c' : Cells α} {j k n : ℕ} {tmp : α}

@[simp] theorem cell_touch : (c.touch i).cell = c.cell := rfl

@[simp] theorem cell_write : (c.write i v).cell = Function.update c.cell i v := rfl

@[simp] theorem mem_touch : j ∈ (c.touch i).touched ↔ j = i ∨ j ∈ c.touched := List.mem_cons

@[simp] theorem mem_write : j ∈ (c.write i v).touched ↔ j = i ∨ j ∈ c.touched := List.mem_cons

/-! ## The loops -/

/-- The cells behind `i` hold what was in front of them, and the first of them `tmp`. -/
theorem shiftUp_cell : (c.shiftUp i tmp k).cell j =
    if i < j ∧ j ≤ i + k then if j = i + 1 then tmp else c.cell (j - 1) else c.cell j := by
  induction k generalizing c i tmp with
  | zero => rw [shiftUp, if_neg (by omega)]
  | succ k ih =>
    rw [shiftUp, ih, cell_write, cell_touch]
    rcases eq_or_ne j (i + 1) with rfl | hne
    · rw [if_neg (by omega), if_pos (by omega), if_pos rfl, Function.update_self]
    · rw [Function.update_of_ne hne, if_neg hne]
      by_cases hj : i + 1 < j ∧ j ≤ i + 1 + k
      · have hj' : i < j ∧ j ≤ i + (k + 1) := by omega
        rw [if_pos hj, if_pos hj']
        split_ifs with hsecond
        · rw [hsecond, Nat.add_sub_cancel]
        · rw [Function.update_of_ne (by omega)]
      · rw [if_neg hj, if_neg (by omega)]

theorem mem_shiftUp : j ∈ (c.shiftUp i tmp k).touched ↔ (i < j ∧ j ≤ i + k) ∨ j ∈ c.touched := by
  induction k generalizing c i tmp with
  | zero =>
    rw [shiftUp]
    exact ⟨.inr, fun h => h.resolve_left (by omega)⟩
  | succ k ih =>
    rw [shiftUp, ih, mem_write, mem_touch]
    constructor
    · rintro (h | rfl | rfl | h)
      · exact .inl (by omega)
      · exact .inl (by omega)
      · exact .inl (by omega)
      · exact .inr h
    · rintro (h | h)
      · by_cases hj : j = i + 1
        · exact .inr (.inl hj)
        · exact .inl (by omega)
      · exact .inr (.inr (.inr h))

/-- `v` is written to the cell `i`, and what was there on is moved up. -/
theorem shiftUp_write_cell (hj : j ≤ n) :
    (((c.touch i).write i v).shiftUp i (c.cell i) (n - i)).cell j =
    if j < i then c.cell j else if j = i then v else c.cell (j - 1) := by
  rw [shiftUp_cell, cell_write, cell_touch]
  by_cases hbehind : i < j
  · rw [if_pos ⟨hbehind, by omega⟩, if_neg (Nat.not_lt.2 hbehind.le), if_neg hbehind.ne']
    split_ifs with hsecond
    · rw [hsecond, Nat.add_sub_cancel]
    · rw [Function.update_of_ne (by omega)]
  · rw [if_neg (fun h => hbehind h.1), Function.update_apply]
    split_ifs <;> first | rfl | omega

theorem mem_shiftUp_write (hi : i ≤ n) :
    j ∈ (((c.touch i).write i v).shiftUp i tmp (n - i)).touched ↔ (i ≤ j ∧ j ≤ n) ∨
    j ∈ c.touched := by
  rw [mem_shiftUp, mem_write, mem_touch]
  constructor
  · rintro (h | rfl | rfl | h)
    · exact .inl (by omega)
    · exact .inl ⟨le_rfl, hi⟩
    · exact .inl ⟨le_rfl, hi⟩
    · exact .inr h
  · rintro (⟨hle, hj⟩ | h)
    · rcases hle.eq_or_lt with rfl | hlt
      · exact .inr (.inl rfl)
      · exact .inl ⟨hlt, by omega⟩
    · exact .inr (.inr (.inr h))

theorem shiftDown_eq : (c.shiftDown i k).cell = shiftFrom 1 c.cell i k := by
  induction k generalizing c i with
  | zero => rfl
  | succ k ih => exact ih

/-- The cells from `i` on hold what was behind them. -/
theorem shiftDown_cell : (c.shiftDown i k).cell j =
    if i ≤ j ∧ j < i + k then c.cell (j + 1) else c.cell j := by
  rw [shiftDown_eq, shiftFrom_apply]

theorem mem_shiftDown : j ∈ (c.shiftDown i k).touched ↔ (0 < k ∧ i ≤ j ∧ j ≤ i + k) ∨
    j ∈ c.touched := by
  induction k generalizing c i with
  | zero =>
    rw [shiftDown]
    exact ⟨.inr, fun h => h.resolve_left (by omega)⟩
  | succ k ih =>
    rw [shiftDown, ih, mem_write, mem_touch]
    constructor
    · rintro (h | rfl | rfl | h)
      · exact .inl (by omega)
      · exact .inl (by omega)
      · exact .inl (by omega)
      · exact .inr h
    · rintro (h | h)
      · by_cases hj : j = i
        · exact .inr (.inl hj)
        by_cases hj' : j = i + 1
        · exact .inr (.inr (.inl hj'))
        · exact .inl (by omega)
      · exact .inr (.inr (.inr h))

/-! ## The first cells -/

@[simp] theorem length_first : (c.first n).length = n := by
  rw [first, List.length_map, List.length_range]

theorem getElem?_first : (c.first n)[j]? = if j < n then some (c.cell j) else none := by
  rw [first, List.getElem?_map]
  split_ifs with hj
  · rw [List.getElem?_range hj, Option.map_some]
  · rw [List.getElem?_eq_none (by rw [List.length_range]; omega), Option.map_none]

theorem first_eq_insertIdx (hi : i ≤ n)
    (hc : ∀ j ≤ n, c'.cell j = if j < i then c.cell j else if j = i then v else c.cell (j - 1)) :
    c'.first (n + 1) = (c.first n).insertIdx i v := by
  refine List.ext_getElem? fun j => ?_
  rw [getElem?_first, List.getElem?_insertIdx, getElem?_first, getElem?_first, length_first]
  by_cases hj : j ≤ n
  · rw [if_pos (by omega), hc j hj]
    split_ifs <;> first | rfl | omega
  · rw [if_neg (by omega), if_neg (by omega), if_neg (by omega), if_neg (by omega)]

theorem first_eq_eraseIdx (hi : i ≤ n)
    (hc : ∀ j < n, c'.cell j = if j < i then c.cell j else c.cell (j + 1)) :
    c'.first n = (c.first (n + 1)).eraseIdx i := by
  refine List.ext_getElem? fun j => ?_
  rw [getElem?_first, List.getElem?_eraseIdx, getElem?_first, getElem?_first]
  by_cases hj : j < n
  · rw [if_pos hj, hc j hj]
    split_ifs <;> first | rfl | omega
  · rw [if_neg hj, if_neg (by omega), if_neg (by omega)]

end Cells

/-- Inserting at the first index whose item may stand behind the new one. -/
theorem orderedInsert_eq_insertIdx {r : α → α → Prop} [DecidableRel r] {x : α} {l : List α} {i : ℕ}
    (hi : i ≤ l.length) (hbefore : ∀ (j : ℕ) (b : α), j < i → l[j]? = some b → ¬r x b)
    (hat : ∀ b, l[i]? = some b → r x b) : l.orderedInsert r x = l.insertIdx i x := by
  induction l generalizing i with
  | nil =>
    obtain rfl : i = 0 := Nat.le_zero.1 hi
    rfl
  | cons b l ih =>
    rw [List.orderedInsert_cons]
    cases i with
    | zero => rw [if_pos (hat b rfl), List.insertIdx_zero]
    | succ i =>
      rw [if_neg (hbefore 0 b (Nat.succ_pos i) rfl), List.insertIdx_succ_cons,
        ih (Nat.le_of_succ_le_succ hi) (fun j b hj hb => hbefore (j + 1) b (Nat.succ_lt_succ hj) hb)
          fun b hb => hat b hb]

end Machine

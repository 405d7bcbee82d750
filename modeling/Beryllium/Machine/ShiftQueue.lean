import Beryllium.Machine.ArrayLoop
import Beryllium.Machine.Fifo
import Beryllium.Machine.Memory
import Mathlib.Data.List.Basic
import Mathlib.Data.List.Range
import Mathlib.Logic.Function.Basic

/-!
# Queues that shift

A queue in an array, with a counter of its entries: an entry is added behind the last one
(`ShiftQueue.push`), and one is taken from the front by moving every later cell of the array down
by one (`ShiftQueue.pop`). Moving down the last cell reads the cell behind the array, so the
cells go on behind it, and they are arbitrary. A reader takes the queue for empty if its first
cell is 0 (`ShiftQueue.read`).

* `ShiftQueue.waiting`: the entries, in their order;
* `ShiftQueue.waiting_push`, `ShiftQueue.waiting_pop`: a push adds at the end, a pop takes the
  first one;
* `ShiftQueue.fifo_push`, `ShiftQueue.fifo_read`, `ShiftQueue.fifo_congr`: these are steps of a
  queue (`Fifo.Step`), a read if the first cell is 0 exactly for the empty queue;
* `ShiftQueue.Packed`: the cells that are not counted are 0, and the others are not, so that the
  first cell is 0 exactly for the empty queue.
-/

namespace Machine

variable {α : Type*}

/-- The cells of the array and behind it, and the counter of the entries. -/
structure ShiftQueue (α : Type*) where
  cell : ℕ → α
  count : ℕ

namespace ShiftQueue

variable {q q' : ShiftQueue α} {n : ℕ} {c : α}

/-- The counted entries, in their order. -/
def waiting (q : ShiftQueue α) : List α := (List.range q.count).map q.cell

/-- An assignment behind the last entry, which is then counted. -/
def push (q : ShiftQueue α) (c : α) : ShiftQueue α where
  cell := Function.update q.cell q.count c
  count := add32 q.count 1

/-- Every cell of an array of `n` cells is moved down, and one entry less is counted. -/
def pop [Zero α] (n : ℕ) (q : ShiftQueue α) : ShiftQueue α where
  cell := shiftFrom 1 (Function.update q.cell 0 0) 0 n
  count := sub32 q.count 1

@[simp] theorem length_waiting : q.waiting.length = q.count := by
  rw [waiting, List.length_map, List.length_range]

theorem waiting_congr (hc : q'.count = q.count) (h : ∀ i < q.count, q'.cell i = q.cell i) :
    q'.waiting = q.waiting := by
  rw [waiting, waiting, hc]
  exact List.map_congr_left fun i hi => h i (List.mem_range.1 hi)

theorem cell_push : (q.push c).cell = Function.update q.cell q.count c := rfl

theorem waiting_push (h : q.count + 1 < 4294967296) : (q.push c).waiting = q.waiting ++ [c] := by
  have hc : (q.push c).count = q.count + 1 := add32_eq h
  have hold : (List.range q.count).map (q.push c).cell = q.waiting :=
    List.map_congr_left fun i hi => by
      rw [cell_push, Function.update_of_ne (List.mem_range.1 hi).ne]
  have hnew : (q.push c).cell q.count = c := by rw [cell_push, Function.update_self]
  rw [waiting, hc, List.range_succ, List.map_append, hold, List.map_singleton, hnew]

theorem count_pop [Zero α] (h : q.count ≠ 0) (hlt : q.count < 4294967296) :
    (q.pop n).count = q.count - 1 :=
  sub32_eq (Nat.one_le_iff_ne_zero.2 h) hlt

theorem cell_pop [Zero α] {i : ℕ} (h : i < n) : (q.pop n).cell i = q.cell (i + 1) := by
  refine (shiftFrom_apply 1 _ 0 n i).trans ?_
  rw [if_pos ⟨i.zero_le, by omega⟩, Function.update_of_ne i.succ_ne_zero]

theorem cell_pop_self [Zero α] (h : n ≠ 0) : (q.pop n).cell n = q.cell n := by
  refine (shiftFrom_apply 1 _ 0 n n).trans ?_
  rw [if_neg (by omega), Function.update_of_ne h]

/-- A pop takes the first entry, if the array holds all of them. -/
theorem waiting_pop [Zero α] (h : q.count ≠ 0) (hlt : q.count < 4294967296) (hn : q.count ≤ n + 1) :
    q.waiting = q.cell 0 :: (q.pop n).waiting := by
  obtain ⟨m, hm⟩ := Nat.exists_eq_succ_of_ne_zero h
  have hc : (q.pop n).count = m := (count_pop h hlt).trans (by rw [hm, Nat.succ_sub_one])
  rw [waiting, waiting, hc, hm, List.range_succ_eq_map, List.map_cons, List.map_map]
  refine congrArg (q.cell 0 :: ·) (List.map_congr_left fun i hi => ?_)
  exact (cell_pop (by have := List.mem_range.1 hi; omega)).symm

/-! ## Zero as a mark -/

/-- The first entry, if it is not 0; with 0, nothing is taken. -/
def read [Zero α] [DecidableEq α] (n : ℕ) (q : ShiftQueue α) : ShiftQueue α × α :=
  if q.cell 0 = 0 then (q, 0) else (q.pop n, q.cell 0)

/-- The entries are not 0, and the cells after them are, up to cell `n`. -/
structure Packed [Zero α] (n : ℕ) (q : ShiftQueue α) : Prop where
  entry : ∀ i < q.count, q.cell i ≠ 0
  free : ∀ i, q.count ≤ i → i ≤ n → q.cell i = 0

variable [Zero α]

/-- The first cell is 0 exactly for the empty queue. -/
def MarkedEmpty (q : ShiftQueue α) : Prop := q.cell 0 = 0 ↔ q.count = 0

instance [DecidableEq α] : Decidable q.MarkedEmpty :=
  inferInstanceAs (Decidable (q.cell 0 = 0 ↔ q.count = 0))

theorem markedEmpty_of_waiting (hw : ∀ c ∈ q.waiting, c ≠ 0) (h : q.count = 0 → q.cell 0 = 0) :
    q.MarkedEmpty := by
  refine ⟨fun h₀ => by_contra fun hc => hw (q.cell 0) ?_ h₀, h⟩
  exact List.mem_map.2 ⟨0, List.mem_range.2 (Nat.pos_of_ne_zero hc), rfl⟩

theorem Packed.markedEmpty (h : q.Packed n) : q.MarkedEmpty :=
  ⟨fun h₀ => by_contra fun hc => h.entry 0 (Nat.pos_of_ne_zero hc) h₀,
    fun hc => h.free 0 hc.le n.zero_le⟩

theorem Packed.push (h : q.Packed n) (hc : c ≠ 0) (hlt : q.count + 1 < 4294967296) :
    (q.push c).Packed n := by
  have hcount : (q.push c).count = q.count + 1 := add32_eq hlt
  constructor
  · intro i hi
    rw [cell_push]
    rcases eq_or_ne i q.count with rfl | hne
    · rwa [Function.update_self]
    · rw [Function.update_of_ne hne]
      exact h.entry i (by omega)
  · intro i hi hn
    rw [cell_push, Function.update_of_ne (by omega)]
    exact h.free i (by omega) hn

theorem Packed.pop (h : q.Packed n) (hc : q.count ≠ 0) (hn : q.count ≤ n) (hlt : n < 4294967296) :
    (q.pop n).Packed n := by
  have hcount : (q.pop n).count = q.count - 1 := count_pop hc (hn.trans_lt hlt)
  constructor
  · intro i hi
    rw [cell_pop (by omega)]
    exact h.entry _ (by omega)
  · intro i hi hin
    rcases hin.lt_or_eq with hlt' | rfl
    · rw [cell_pop hlt']
      exact h.free _ (by omega) hlt'
    · rw [cell_pop_self (by omega)]
      exact h.free _ hn le_rfl

theorem Packed.congr (h : q.Packed n) (hc : q'.count = q.count)
    (hcell : ∀ i ≤ n, q'.cell i = q.cell i) (hn : q.count ≤ n) : q'.Packed n := by
  constructor
  · intro i hi
    rw [hcell i (by omega)]
    exact h.entry i (hc ▸ hi)
  · intro i hi hin
    rw [hcell i hin]
    exact h.free i (hc ▸ hi) hin

/-! ## Steps of a queue -/

variable [DecidableEq α] {accepted reads : List α}

/-- The queue, with what it accepted, and what the reads returned other than 0. -/
def fifo (q : ShiftQueue α) (accepted reads : List α) : Fifo α :=
  ⟨accepted, reads.filter (· ≠ 0), q.waiting⟩

theorem fifo_start (h : q.count = 0) : (q.fifo [] []).Balanced := by
  rw [fifo, waiting, h]
  rfl

theorem fifo_push (h : q.count + 1 < 4294967296) :
    (q.fifo accepted reads).Step false ((q.push c).fifo (accepted ++ [c]) reads) := by
  rw [fifo, fifo, waiting_push h]
  exact .accept c

theorem fifo_congr (hc : q'.count = q.count) (h : ∀ i < q.count, q'.cell i = q.cell i) :
    (q.fifo accepted reads).Step false (q'.fifo accepted reads) := by
  rw [fifo, fifo, waiting_congr hc h]
  exact .idle fun h => absurd h Bool.false_ne_true

/-- A read finds nothing, or takes the first entry. -/
theorem read_cases (h : q.MarkedEmpty) (hn : q.count ≤ n) (hlt : n < 4294967296) :
    q.waiting = [] ∧ q.read n = (q, 0) ∨
      q.count ≠ 0 ∧ q.read n = (q.pop n, q.cell 0) ∧ q.cell 0 ≠ 0 ∧
        q.waiting = q.cell 0 :: (q.pop n).waiting := by
  by_cases h₀ : q.cell 0 = 0
  · exact .inl ⟨List.length_eq_zero_iff.1 (length_waiting.trans (h.1 h₀)), if_pos h₀⟩
  · have hc : q.count ≠ 0 := fun hc => h₀ (h.2 hc)
    have hw := waiting_pop hc (hn.trans_lt hlt) (hn.trans n.le_succ)
    exact .inr ⟨hc, if_neg h₀, h₀, hw⟩

theorem fifo_read (h : q.MarkedEmpty) (hn : q.count ≤ n) (hlt : n < 4294967296) :
    (q.fifo accepted reads).Step true ((q.read n).1.fifo accepted (reads ++ [(q.read n).2])) := by
  rcases read_cases h hn hlt with ⟨hw, hr⟩ | ⟨-, hr, h₀, hw⟩
  · rw [hr, fifo, fifo, List.filter_append, List.filter_singleton, decide_eq_false (not_not.2 rfl)]
    rw [cond_false, List.append_nil]
    exact .idle fun _ => hw
  · rw [hr, fifo, fifo, List.filter_append, List.filter_singleton, decide_eq_true h₀, cond_true]
    exact .take true hw

theorem count_read_le (h : q.MarkedEmpty) (hn : q.count ≤ n) (hlt : n < 4294967296) :
    (q.read n).1.count ≤ q.count := by
  rcases read_cases h hn hlt with ⟨-, hr⟩ | ⟨hc, hr, -⟩
  · rw [hr]
  · rw [hr, count_pop hc (hn.trans_lt hlt)]
    exact Nat.sub_le ..

theorem waiting_read_subset (h : q.MarkedEmpty) (hn : q.count ≤ n) (hlt : n < 4294967296) :
    (q.read n).1.waiting ⊆ q.waiting := by
  rcases read_cases h hn hlt with ⟨-, hr⟩ | ⟨-, hr, -, hw⟩
  · rw [hr]
    exact List.Subset.refl _
  · rw [hr, hw]
    exact List.subset_cons_self ..

/-- A read returns the first entry, and 0 only if there is none. -/
theorem read_eq_head (h : q.MarkedEmpty) (hn : q.count ≤ n) (hlt : n < 4294967296) :
    (q.read n).2 = q.waiting.headD 0 ∧ ((q.read n).2 = 0 → q.waiting = []) := by
  rcases read_cases h hn hlt with ⟨hw, hr⟩ | ⟨-, hr, h₀, hw⟩
  · rw [hr, hw]
    exact ⟨rfl, fun _ => rfl⟩
  · rw [hr, hw]
    exact ⟨rfl, fun h => absurd h h₀⟩

theorem Packed.read (h : q.Packed n) (hn : q.count ≤ n) (hlt : n < 4294967296) :
    (q.read n).1.Packed n := by
  rcases read_cases h.markedEmpty hn hlt with ⟨-, hr⟩ | ⟨hc, hr, -⟩
  · rwa [hr]
  · rw [hr]
    exact h.pop hc hn hlt

end ShiftQueue

end Machine

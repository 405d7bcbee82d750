import Beryllium.Machine.Cells
import Beryllium.Machine.Memory
import Beryllium.Machine.System
import Mathlib.Data.List.Perm.Basic
import Mathlib.Order.Defs.Unbundled

/-!
# The ordered array

`kernel/arch/x86/lib/ordered_array.c`: an array that is kept sorted by a predicate. Neither an
insertion nor a removal looks at `max_size`, and both access the cell behind the last item.

* `contents_insert`, `contents_remove`: what the two do to the list of the items;
* `insert_touched`, `remove_touched`: the cells that they access;
* `ordered_array_sorted`: calls that can be served keep the array sorted;
* `capacity_iff`: the calls that stay inside the array.
-/

namespace Beryllium

open Machine

variable {α : Type*}

/-- `ordered_array_t`. The predicate may be a null pointer. -/
structure OrderedArray (α : Type*) where
  cells : Cells α
  size : ℕ
  maxSize : ℕ
  lessThan : Option (α → α → Int8)
  maxSize_lt : maxSize < 4294967296

/-- `less_than(a, b)`, as a condition. -/
def Less (lt : α → α → Int8) (a b : α) : Prop := lt a b ≠ 0

instance (lt : α → α → Int8) : DecidableRel (Less lt) :=
  fun a b => inferInstanceAs (Decidable (lt a b ≠ 0))

/-- `while (iterator < array->size && array->less_than(array->array[iterator], item)) iterator++;`
    with `k` items to go. It ends with the iterator. -/
def findPosition (lt : α → α → Int8) (item : α) (c : Cells α) (iterator : ℕ) : ℕ → ℕ × Cells α
  | 0 => (iterator, c)
  | k + 1 =>
    if Less lt (c.cell iterator) item then findPosition lt item (c.touch iterator) (iterator + 1) k
    else (iterator, c.touch iterator)

/-- `insert_ordered_array` -/
def insertOrderedArray (item : α) (a : OrderedArray α) : OrderedArray α :=
  match a.lessThan with
  | none => a
  | some lt =>
    let found := findPosition lt item a.cells 0 a.size
    let iterator := found.1
    if iterator = a.size then
      { a with cells := found.2.write iterator item, size := add32 a.size 1 }
    else
      let tmp := found.2.cell iterator
      let c := (found.2.touch iterator).write iterator item
      { a with cells := c.shiftUp iterator tmp (a.size - iterator), size := add32 a.size 1 }

/-- `lookup_ordered_array`: out of bounds it prints a message, and reads the cell as well. -/
def lookupOrderedArray (i : ℕ) (a : OrderedArray α) : α := a.cells.cell i

/-- `remove_ordered_array` -/
def removeOrderedArray (i : ℕ) (a : OrderedArray α) : OrderedArray α :=
  { a with cells := a.cells.shiftDown i (a.size - i), size := sub32 a.size 1 }

/-- The items, `array[0..size)`. -/
def OrderedArray.contents (a : OrderedArray α) : List α := a.cells.first a.size

/-! ## Runs -/

/-- The operations. -/
inductive ArrayOp (α : Type*)
  | insert (item : α)
  | remove (i : ℕ)

/-- What an operation does. -/
def ArrayOp.apply (a : OrderedArray α) : ArrayOp α → OrderedArray α
  | .insert item => insertOrderedArray item a
  | .remove i => removeOrderedArray i a

/-- The runs of the array, from an empty one on, whatever its cells hold. -/
def arraySystem (α : Type*) : System (OrderedArray α) (ArrayOp α) where
  init a := a.size = 0 ∧ a.cells.touched = []
  guard _ op := ∀ i, op = .remove i → i < 4294967296
  step a op := some (op.apply a)

/-- The call can be served: there is room for the item, and there is an item at the index. -/
def Served (a : OrderedArray α) : ArrayOp α → Prop
  | .insert _ => a.size < a.maxSize
  | .remove i => i < a.size

/-- The items that are inserted. -/
def insertedItems : List (ArrayOp α) → List α
  | [] => []
  | .insert item :: ops => item :: insertedItems ops
  | .remove _ :: ops => insertedItems ops

/-- The items that `lookup_ordered_array` finds right before they are removed. -/
def removedItems (a : OrderedArray α) : List (ArrayOp α) → List α
  | [] => []
  | .insert item :: ops => removedItems (insertOrderedArray item a) ops
  | .remove i :: ops => lookupOrderedArray i a :: removedItems (removeOrderedArray i a) ops

variable {lt : α → α → Int8} {item : α} {c : Cells α} {a a' : OrderedArray α} {i j k : ℕ}
  {op : ArrayOp α} {ops : List (ArrayOp α)}

/-! ## One insertion -/

/-- The loop ends at the first item that is not less, and reads the items up to there. -/
theorem findPosition_spec (lt : α → α → Int8) (item : α) (c : Cells α) (i k : ℕ) :
    (findPosition lt item c i k).2.cell = c.cell ∧
    i ≤ (findPosition lt item c i k).1 ∧ (findPosition lt item c i k).1 ≤ i + k ∧
    (∀ j, i ≤ j → j < (findPosition lt item c i k).1 → Less lt (c.cell j) item) ∧
    ((findPosition lt item c i k).1 < i + k →
      ¬Less lt (c.cell (findPosition lt item c i k).1) item) ∧
    ∀ j, j ∈ (findPosition lt item c i k).2.touched ↔
      (i ≤ j ∧ j ≤ (findPosition lt item c i k).1 ∧ j < i + k) ∨ j ∈ c.touched := by
  induction k generalizing c i with
  | zero =>
    refine ⟨rfl, le_rfl, le_rfl, fun j hle hlt => absurd hlt (Nat.not_lt.2 hle),
      fun h => absurd h (lt_irrefl i),
      fun j => ⟨.inr, fun h => h.resolve_left ?_⟩⟩
    rintro ⟨hle, -, hlt⟩
    exact absurd hlt (Nat.not_lt.2 hle)
  | succ k ih =>
    rw [findPosition]
    split_ifs with hless
    · obtain ⟨hcell, hle, hend, hall, hstop, htouched⟩ := ih (c.touch i) (i + 1)
      refine ⟨hcell, by omega, by omega, fun j hij hj => ?_, fun h => hstop (by omega), fun j => ?_⟩
      · rcases hij.eq_or_lt with rfl | hlt
        · exact hless
        · exact hall j hlt hj
      · rw [htouched, Cells.mem_touch]
        constructor
        · rintro (h | rfl | h)
          · exact .inl (by omega)
          · exact .inl (by omega)
          · exact .inr h
        · rintro (h | h)
          · by_cases hj : j = i
            · exact .inr (.inl hj)
            · exact .inl (by omega)
          · exact .inr (.inr h)
    · refine ⟨rfl, le_rfl, Nat.le_add_right i _, fun j hle hlt => absurd hlt (Nat.not_lt.2 hle),
        fun _ => hless,
        fun j => ?_⟩
      rw [Cells.mem_touch]
      constructor
      · rintro (rfl | h)
        · exact .inl (by omega)
        · exact .inr h
      · rintro (h | h)
        · exact .inl (by omega)
        · exact .inr h

/-- What an insertion does to the cells. -/
structure Inserts (lt : α → α → Int8) (item : α) (a a' : OrderedArray α) (i : ℕ) : Prop where
  le : i ≤ a.size
  before : ∀ j < i, Less lt (a.cells.cell j) item
  stop : i < a.size → ¬Less lt (a.cells.cell i) item
  cell : ∀ j ≤ a.size, a'.cells.cell j =
    if j < i then a.cells.cell j else if j = i then item else a.cells.cell (j - 1)
  touched : ∀ j, j ∈ a'.cells.touched ↔ j ≤ a.size ∨ j ∈ a.cells.touched
  size : a'.size = add32 a.size 1
  maxSize : a'.maxSize = a.maxSize
  lessThan : a'.lessThan = a.lessThan

theorem insertOrderedArray_none (h : a.lessThan = none) : insertOrderedArray item a = a := by
  rw [insertOrderedArray, h]

theorem insertOrderedArray_spec (h : a.lessThan = some lt) (item : α) :
    ∃ i, Inserts lt item a (insertOrderedArray item a) i := by
  obtain ⟨hcell, -, hle, hall, hstop, htouched⟩ := findPosition_spec lt item a.cells 0 a.size
  rw [insertOrderedArray, h]
  dsimp only
  generalize findPosition lt item a.cells 0 a.size = found at *
  rw [Nat.zero_add] at hle hstop
  refine ⟨found.1, ?_⟩
  by_cases hend : found.1 = a.size
  · rw [if_pos hend]
    refine ⟨hle, fun j hj => hall j (Nat.zero_le j) hj, hstop, fun j hj => ?_, fun j => ?_, rfl,
      rfl, h.symm⟩
    · rw [Cells.cell_write, Function.update_apply, hcell]
      split_ifs <;> first | rfl | omega
    · rw [Cells.mem_write, htouched]
      constructor
      · rintro (rfl | h | h)
        · exact .inl hle
        · exact .inl (by omega)
        · exact .inr h
      · rintro (h | h)
        · by_cases hj : j = found.1
          · exact .inl hj
          · exact .inr (.inl (by omega))
        · exact .inr (.inr h)
  · rw [if_neg hend]
    refine ⟨hle, fun j hj => hall j (Nat.zero_le j) hj, hstop, fun j hj => ?_, fun j => ?_, rfl,
      rfl, h.symm⟩
    · rw [← hcell]
      exact Cells.shiftUp_write_cell hj
    · dsimp only
      rw [Cells.mem_shiftUp_write hle, htouched]
      constructor
      · rintro (h | h | h)
        · exact .inl h.2
        · exact .inl (by omega)
        · exact .inr h
      · rintro (h | h)
        · by_cases hj : found.1 ≤ j
          · exact .inl ⟨hj, h⟩
          · exact .inr (.inl (by omega))
        · exact .inr (.inr h)

/-- The items after an insertion: the new one stands in front of the first one that is not less. -/
theorem contents_insert (h : a.lessThan = some lt) (hsize : a.size + 1 < 4294967296) (item : α) :
    (insertOrderedArray item a).contents = a.contents.orderedInsert
    (fun x y => ¬Less lt y x) item := by
  obtain ⟨i, hi⟩ := insertOrderedArray_spec h item
  have hinsert : (insertOrderedArray item a).contents = a.contents.insertIdx i item := by
    rw [OrderedArray.contents, hi.size, add32_eq hsize]
    exact Cells.first_eq_insertIdx hi.le hi.cell
  rw [hinsert]
  refine (orderedInsert_eq_insertIdx ?_ (fun j b hj hb => ?_) fun b hb => ?_).symm
  · rw [OrderedArray.contents, Cells.length_first]
    exact hi.le
  · rw [OrderedArray.contents, Cells.getElem?_first, if_pos (lt_of_lt_of_le hj hi.le)] at hb
    obtain rfl := Option.some.inj hb
    exact not_not.2 (hi.before j hj)
  · rw [OrderedArray.contents, Cells.getElem?_first] at hb
    split_ifs at hb with hlt
    obtain rfl := Option.some.inj hb
    exact hi.stop hlt

/-! ## One removal -/

theorem removeOrderedArray_touched (i : ℕ) (a : OrderedArray α) (j : ℕ) :
    j ∈ (removeOrderedArray i a).cells.touched ↔ (i < a.size ∧ i ≤ j ∧ j ≤ a.size) ∨
    j ∈ a.cells.touched := by
  rw [removeOrderedArray]
  dsimp only
  rw [Cells.mem_shiftDown]
  exact or_congr_left (by omega)

/-- The items after a removal. -/
theorem contents_remove (hi : i < a.size) (hsize : a.size < 4294967296) :
    (removeOrderedArray i a).contents = a.contents.eraseIdx i := by
  obtain ⟨n, hn⟩ : ∃ n, a.size = n + 1 := Nat.exists_eq_succ_of_ne_zero (by omega)
  have hsub : (removeOrderedArray i a).size = n := by
    rw [removeOrderedArray, sub32_eq (by omega) hsize, hn, Nat.add_sub_cancel]
  have hcells : (removeOrderedArray i a).cells = a.cells.shiftDown i (a.size - i) := rfl
  rw [OrderedArray.contents, OrderedArray.contents, hsub, hcells, hn]
  refine Cells.first_eq_eraseIdx (by omega) fun j hj => ?_
  rw [Cells.shiftDown_cell]
  split_ifs <;> first | rfl | omega

/-- A removal takes the item that `lookup_ordered_array` finds. -/
theorem perm_remove (hi : i < a.size) (hsize : a.size < 4294967296) :
    (lookupOrderedArray i a :: (removeOrderedArray i a).contents).Perm a.contents := by
  have hlength : i < a.contents.length := by
    rw [OrderedArray.contents, Cells.length_first]
    exact hi
  have hget : a.contents[i]? = some (lookupOrderedArray i a) := by
    rw [OrderedArray.contents, Cells.getElem?_first, if_pos hi]
    rfl
  rw [contents_remove hi hsize,
    ← Option.some.inj ((List.getElem?_eq_getElem hlength).symm.trans hget)]
  exact List.getElem_cons_eraseIdx_perm hlength

/-! ## Sorted runs -/

theorem trans_of_strictWeakOrder {r : α → α → Prop} [IsStrictWeakOrder α r] :
    IsTrans α fun x y => ¬r y x := by
  refine ⟨fun x y z hxy hyz hzx => ?_⟩
  by_cases h : r x y
  · exact hyz (trans_of r hzx h)
  by_cases h' : r y z
  · exact hxy (trans_of r h' hzx)
  -- the three are all incomparable
  exact (IsStrictWeakOrder.incomp_trans x y z ⟨h, hxy⟩ ⟨h', hyz⟩).2 hzx

/-- The size and the sortedness that calls that can be served keep. -/
structure SortedArray (lt : α → α → Int8) (a : OrderedArray α) : Prop where
  lessThan : a.lessThan = some lt
  size_le : a.size ≤ a.maxSize
  sorted : a.contents.Pairwise fun x y => ¬Less lt y x

theorem sorted_step [IsStrictWeakOrder α (Less lt)] (ha : SortedArray lt a) (hop : Served a op) :
    SortedArray lt (op.apply a) ∧ ∀ i, op = .remove i →
    (op.apply a).contents = a.contents.eraseIdx i := by
  have hmax := a.maxSize_lt
  have hle := ha.size_le
  cases op with
  | insert item =>
    have hlt : a.size < a.maxSize := hop
    obtain ⟨i, hi⟩ := insertOrderedArray_spec ha.lessThan item
    refine ⟨⟨hi.lessThan.trans ha.lessThan, ?_, ?_⟩, fun i h => by cases h⟩
    · rw [ArrayOp.apply, hi.size, hi.maxSize, add32_eq (by omega)]
      exact hlt
    · have := trans_of_strictWeakOrder (r := Less lt)
      have : Std.Total fun x y => ¬Less lt y x := ⟨fun x y => (em (Less lt y x)).elim
        (fun h => .inr fun h' => asymm_of (Less lt) h h') .inl⟩
      rw [ArrayOp.apply, contents_insert ha.lessThan (by omega)]
      exact ha.sorted.orderedInsert item _
  | remove i =>
    have hi : i < a.size := hop
    have herase := contents_remove hi (by omega)
    refine ⟨⟨ha.lessThan, ?_, ?_⟩, fun k hk => ?_⟩
    · rw [ArrayOp.apply, removeOrderedArray, sub32_eq (by omega) (by omega)]
      dsimp only
      omega
    · rw [ArrayOp.apply, herase]
      exact ha.sorted.sublist (List.eraseIdx_sublist ..)
    · cases hk
      exact herase

/-- Along a run the items and those that were removed are those that there were at first and
    those that were inserted. -/
theorem perm_of_run [IsStrictWeakOrder α (Less lt)]
    (hr : ((arraySystem α).restrict Served).Run a ops a') (ha : SortedArray lt a) :
    (a'.contents ++ removedItems a ops).Perm (insertedItems ops ++ a.contents) := by
  induction hr with
  | nil a => rw [removedItems, insertedItems, List.append_nil, List.nil_append]
  | @cons a t a' op ops hg hst _ ih =>
    obtain rfl : op.apply a = t := Option.some.inj hst
    have hmax := a.maxSize_lt
    have hle := ha.size_le
    have hperm := ih (sorted_step ha hg.2).1
    cases op with
    | insert item =>
      have hlt : a.size < a.maxSize := hg.2
      rw [removedItems, insertedItems]
      refine hperm.trans ?_
      rw [ArrayOp.apply, contents_insert ha.lessThan (by omega)]
      refine ((List.perm_orderedInsert _ item a.contents).append_left _).trans ?_
      exact List.perm_middle
    | remove i =>
      have hi : i < a.size := hg.2
      rw [removedItems, insertedItems]
      refine List.perm_middle.trans ((hperm.cons _).trans ?_)
      exact List.perm_middle.symm.trans ((perm_remove hi (by omega)).append_left _)

theorem sortedArray_init (h₀ : (arraySystem α).init a) (hlt : a.lessThan = some lt) :
    SortedArray lt a := by
  refine ⟨hlt, ?_, ?_⟩
  · rw [h₀.1]
    exact Nat.zero_le _
  · rw [OrderedArray.contents, h₀.1]
    exact .nil

/-- Calls that can be served keep the array sorted by any strict weak order: no item is less than an
    earlier one, the items and the removed ones are those that were inserted, and each removal
    takes out the item at its index only. -/
theorem ordered_array_sorted [IsStrictWeakOrder α (Less lt)] (h₀ : (arraySystem α).init a)
    (hlt : a.lessThan = some lt) (hr : ((arraySystem α).restrict Served).Run a ops a') :
    (a'.contents.Pairwise fun x y => ¬Less lt y x) ∧
    (a'.contents ++ removedItems a ops).Perm (insertedItems ops) ∧
    (arraySystem α).EachStep
      (fun b op b' => ∀ i, op = .remove i → b'.contents = b.contents.eraseIdx i) a ops := by
  have ha := sortedArray_init h₀ hlt
  have hstep (b : OrderedArray α) (op : ArrayOp α) (b' : OrderedArray α) (hb : SortedArray lt b)
      (_ : (arraySystem α).guard b op) (hop : Served b op)
        (hst : (arraySystem α).step b op = some b') :
      SortedArray lt b' ∧ ∀ i, op = .remove i → b'.contents = b.contents.eraseIdx i := by
    obtain rfl : op.apply b = b' := Option.some.inj hst
    exact sorted_step hb hop
  refine ⟨?_, ?_, hr.eachStep hstep ha⟩
  · refine (hr.of_step (fun b op b' hb hg hst => ?_) ha).sorted
    exact (hstep b op b' hb hg.1 hg.2 hst).1
  · have hempty : a.contents = [] := by
      rw [OrderedArray.contents, h₀.1]
      rfl
    have hperm := perm_of_run hr ha
    rwa [hempty, List.append_nil] at hperm

/-- `standard_lessthan_predicate` -/
def standardLessthanPredicate (a b : ℕ) : Int8 := if a < b then 1 else 0

theorem less_standard {x y : ℕ} : Less standardLessthanPredicate x y ↔ x < y := by
  rw [Less, standardLessthanPredicate]
  split_ifs with h
  · exact iff_of_true (by decide) h
  · exact iff_of_false (fun hne => hne rfl) h

instance : IsStrictWeakOrder ℕ (Less standardLessthanPredicate) where
  irrefl x h := lt_irrefl x (less_standard.1 h)
  trans x y z hxy hyz := less_standard.2 ((less_standard.1 hxy).trans (less_standard.1 hyz))
  incomp_trans x y z hxy hyz := by
    simp only [less_standard] at hxy hyz ⊢
    omega

/-- An empty array of numbers, with room for two. -/
def twoNumbers : OrderedArray ℕ :=
  ⟨⟨fun _ => 0, []⟩, 0, 2, some standardLessthanPredicate, by decide⟩

/-- Two items that are inserted in the wrong order, and the first of them removed. -/
theorem ordered_array_sorted_two : ∃ a', ((arraySystem ℕ).restrict Served).Run twoNumbers
    [.insert 7, .insert 5, .remove 0] a' ∧ (a'.contents ++ [5]).Perm [7, 5] := by
  have hr : ((arraySystem ℕ).restrict Served).Run twoNumbers [.insert 7, .insert 5, .remove 0] _ :=
    .cons ⟨fun _ h => (by cases h), show 0 < 2 by decide⟩ rfl
      (.cons ⟨fun _ h => (by cases h), show 1 < 2 by decide⟩ rfl
        (.cons ⟨fun _ h => (by cases h; decide), show 0 < 2 by decide⟩ rfl (.nil _)))
  exact ⟨_, hr, (ordered_array_sorted ⟨rfl, rfl⟩ rfl hr).2.1⟩

/-! ## The capacity -/

/-- The size is within the capacity, and so are all cells that were accessed. -/
def WithinCapacity (a : OrderedArray α) : Prop :=
  a.size ≤ a.maxSize ∧ ∀ j ∈ a.cells.touched, j < a.maxSize

/-- The step stays within the capacity, and a call that cannot be served does not change the array.
    -/
def RespectsCapacity (a : OrderedArray α) (op : ArrayOp α) (a' : OrderedArray α) : Prop :=
  WithinCapacity a' ∧ (¬Served a op → a'.cells.cell = a.cells.cell ∧ a'.size = a.size)

/-- There is room for the item, or no predicate, or there is an item at the index and the cell
    behind the last item belongs to the array. -/
def OpFits (a : OrderedArray α) : ArrayOp α → Prop
  | .insert _ => a.size < a.maxSize ∨ a.lessThan = none
  | .remove i => i < a.size ∧ a.size < a.maxSize

theorem respects_of_fits (ha : WithinCapacity a) (hop : OpFits a op) :
    RespectsCapacity a op (op.apply a) := by
  have hmax := a.maxSize_lt
  cases op with
  | insert item =>
    rw [ArrayOp.apply]
    cases hlt : a.lessThan with
    | none =>
      rw [insertOrderedArray_none hlt]
      exact ⟨ha, fun _ => ⟨rfl, rfl⟩⟩
    | some lt =>
      have hroom : a.size < a.maxSize := hop.resolve_right fun h => by cases hlt.symm.trans h
      obtain ⟨i, hi⟩ := insertOrderedArray_spec hlt item
      refine ⟨⟨?_, fun j hj => ?_⟩, fun hn => absurd hroom hn⟩
      · rw [hi.size, hi.maxSize, add32_eq (by omega)]
        exact hroom
      · rw [hi.maxSize]
        rcases (hi.touched j).1 hj with hle | hmem
        · exact lt_of_le_of_lt hle hroom
        · exact ha.2 j hmem
  | remove i =>
    obtain ⟨hi, hroom⟩ : i < a.size ∧ a.size < a.maxSize := hop
    refine ⟨⟨?_, fun j hj => ?_⟩, fun hn => absurd hi hn⟩
    · rw [ArrayOp.apply, removeOrderedArray, sub32_eq (by omega) (by omega)]
      dsimp only
      omega
    · rcases (removeOrderedArray_touched i a j).1 hj with ⟨-, -, hle⟩ | hmem
      · exact lt_of_le_of_lt hle hroom
      · exact ha.2 j hmem

/-- All other calls touch the cell behind the last one, or change the size for nothing. -/
theorem fits_of_respects (hop : RespectsCapacity a op (op.apply a)) : OpFits a op := by
  obtain ⟨⟨hsize, htouched⟩, hsame⟩ := hop
  cases op with
  | insert item =>
    cases hlt : a.lessThan with
    | none => exact .inr hlt
    | some lt =>
      obtain ⟨i, hi⟩ := insertOrderedArray_spec hlt item
      have hlast := htouched a.size ((hi.touched a.size).2 (.inl le_rfl))
      rw [ArrayOp.apply, hi.maxSize] at hlast
      exact .inl hlast
  | remove i =>
    by_cases hi : i < a.size
    · have hmem := (removeOrderedArray_touched i a a.size).2 (.inl ⟨hi, hi.le, le_rfl⟩)
      exact ⟨hi, htouched a.size hmem⟩
    · have hsub : sub32 a.size 1 = a.size := (hsame hi).2
      rw [sub32] at hsub
      omega

/-- A run from an empty array respects the capacity if and only if each of its insertions has room,
    or there is no predicate, and each of its removals has an item at the index and is not made when
    the array is full. -/
theorem capacity_iff (h₀ : (arraySystem α).init a) (hr : (arraySystem α).Run a ops a') :
    (arraySystem α).EachStep RespectsCapacity a ops ↔
    ((arraySystem α).restrict OpFits).Run a ops a' := by
  have hinit : WithinCapacity a := by
    refine ⟨?_, fun j hj => ?_⟩
    · rw [h₀.1]
      exact Nat.zero_le _
    · rw [h₀.2] at hj
      exact absurd hj List.not_mem_nil
  refine hr.eachStep_iff (fun b op b' hb _ hop hst => ?_) (fun b op b' _ _ hn hst hres => ?_) hinit
  · obtain rfl : op.apply b = b' := Option.some.inj hst
    have hres := respects_of_fits hb hop
    exact ⟨hres.1, hres⟩
  · obtain rfl : op.apply b = b' := Option.some.inj hst
    exact hn (fits_of_respects hres)

/-- An insertion into an array with room for two, and the removal of the item. -/
theorem capacity_iff_two :
    (arraySystem ℕ).EachStep RespectsCapacity twoNumbers [.insert 7, .remove 0] := by
  have hr : (arraySystem ℕ).Run twoNumbers [.insert 7, .remove 0] _ :=
    .cons (fun _ h => by cases h) rfl (.cons (fun _ h => by cases h; decide) rfl (.nil _))
  refine (capacity_iff ⟨rfl, rfl⟩ hr).2 ?_
  exact .cons ⟨fun _ h => (by cases h), .inl (show 0 < 2 by decide)⟩ rfl
    (.cons ⟨fun _ h => (by cases h; decide), show 0 < 1 ∧ 1 < 2 by decide⟩ rfl (.nil _))

/-- A removal from an empty array leaves a size of `2 ^ 32 - 1`. -/
theorem capacity_false : ¬∀ (a : OrderedArray ℕ) ops a', (arraySystem ℕ).init a →
    (arraySystem ℕ).Run a ops a' → (arraySystem ℕ).EachStep RespectsCapacity a ops := by
  intro h
  have hr : (arraySystem ℕ).Run twoNumbers [.remove 0] _ :=
    .cons (fun _ h => by cases h; decide) rfl (.nil _)
  have hstep := (h twoNumbers _ _ ⟨rfl, rfl⟩ hr).head rfl
  have hsize : (4294967295 : ℕ) ≤ 2 := hstep.1.1
  exact absurd hsize (by decide)

end Beryllium

import Beryllium.X86.IdentityMap
import Mathlib.Data.Finset.Card

/-!
# The page map

The page tables of the kernel directory as a map from page numbers to page entries
(`pageEntry`): a page without a table has a zeroed entry. While the tables are well
formed (`PageTables`), the processor finds the entries that are present
(`PageTables.walk`), and `pa_alloc_frame(paging_get_page(..), 0, 0)` changes the entry of
its page and no other (`PageTables.allocPage`): a table it places on the way is fresh,
and does not show in the map. There is room for the tables below `N` (`TablesBelow`): all
that `memallocp` may map, or all there are.
-/

namespace Beryllium

open Machine

/-- The entry of the page `n`, zeroed if it has no table. -/
def pageEntry (s : Paging) (n : ℕ) : PageT :=
  if s.dir.tables (n / 1024) = 0 then PageT.zero else s.page (s.dir.tables (n / 1024)) (n % 1024)

/-- The tables that are missing below `0x3C00000`, the number of frames. -/
def missingTables (s : Paging) : Finset ℕ := {i ∈ Finset.range 15 | s.dir.tables i = 0}

/-- The page tables are distinct pages below `placement_address`, which leaves room for
    those that are missing. -/
structure PageTables (s : Paging) : Prop where
  placement : 0x1000 ≤ s.placementAddress
  room : s.placementAddress + 0x2000 * (missingTables s).card < 4294967296
  aligned : ∀ i, s.dir.tables i % 0x1000 = 0
  placed : ∀ i, s.dir.tables i < s.placementAddress
  inj : ∀ i j, s.dir.tables i ≠ 0 → s.dir.tables i = s.dir.tables j → i = j
  physical : ∀ i, s.dir.tables i ≠ 0 → s.dir.tablesPhysical i = s.dir.tables i ||| 0x7

/-- The tables that are missing among the first `N`. -/
def missingBelow (N : ℕ) (s : Paging) : Finset ℕ := {i ∈ Finset.range N | s.dir.tables i = 0}

/-- The same, with room for the first `N` tables. -/
structure TablesBelow (N : ℕ) (s : Paging) : Prop where
  placement : 0x1000 ≤ s.placementAddress
  room : s.placementAddress + 0x2000 * (missingBelow N s).card < 4294967296
  aligned : ∀ i, s.dir.tables i % 0x1000 = 0
  placed : ∀ i, s.dir.tables i < s.placementAddress
  inj : ∀ i j, s.dir.tables i ≠ 0 → s.dir.tables i = s.dir.tables j → i = j
  physical : ∀ i, s.dir.tables i ≠ 0 → s.dir.tablesPhysical i = s.dir.tables i ||| 0x7

variable {s s' : Paging} {a n N : ℕ}

theorem pageTables_iff : PageTables s ↔ TablesBelow 15 s :=
  ⟨fun h => ⟨h.placement, h.room, h.aligned, h.placed, h.inj, h.physical⟩,
    fun h => ⟨h.placement, h.room, h.aligned, h.placed, h.inj, h.physical⟩⟩

theorem PageTables.table_lt (h : PageTables s) (i : ℕ) : s.dir.tables i < 4294967296 :=
  (h.placed i).trans (lt_of_le_of_lt (Nat.le_add_right _ _) h.room)

/-- The processor finds the entries that are present. -/
theorem PageTables.walk (h : PageTables s) (hpresent : (pageEntry s (a / 0x1000)).present = true) :
    hardwareWalk s a = some (pageEntry s (a / 0x1000)) := by
  have hdiv : a / 0x1000 / 1024 = a / 0x400000 := by omega
  rw [pageEntry, hdiv] at hpresent ⊢
  split_ifs at hpresent ⊢ with h₀
  · cases hpresent
  · obtain ⟨hmask, hbit⟩ := flags_and_pageMask (h.table_lt _) (h.aligned (a / 0x400000))
    rw [hardwareWalk, h.physical _ h₀]
    dsimp only
    rw [hbit, hmask, if_neg Nat.one_ne_zero, if_pos hpresent]

/-! ## A new table -/

/-- A zeroed table is placed at `t`, with the index `i`. -/
def withTable (s : Paging) (i t : ℕ) : Paging :=
  { s with
    placementAddress := t + 0x1000
    dir :=
      { s.dir with
        tables := Function.update s.dir.tables i t
        tablesPhysical := Function.update s.dir.tablesPhysical i (t ||| 0x7) }
    page := Function.update s.page t fun _ => PageT.zero }

variable {i t : ℕ}

theorem withTable_tables (j : ℕ) :
    (withTable s i t).dir.tables j = if j = i then t else s.dir.tables j :=
  Function.update_apply _ _ _ _

theorem withTable_tablesPhysical (j : ℕ) :
    (withTable s i t).dir.tablesPhysical j = if j = i then t ||| 0x7 else s.dir.tablesPhysical j :=
  Function.update_apply _ _ _ _

/-- A table that is placed fills a gap. -/
theorem missingBelow_withTable (hi : i < N) (h₀ : s.dir.tables i = 0) (ht : t ≠ 0) :
    (missingBelow N (withTable s i t)).card < (missingBelow N s).card := by
  refine Finset.card_lt_card (Finset.ssubset_iff_subset_ne.2 ⟨fun j hj => ?_, fun heq => ?_⟩)
  · rw [missingBelow, Finset.mem_filter, withTable_tables] at hj
    split_ifs at hj with hji
    · exact absurd hj.2 ht
    · exact Finset.mem_filter.2 hj
  · have hmem : i ∈ missingBelow N s := Finset.mem_filter.2 ⟨Finset.mem_range.2 hi, h₀⟩
    rw [← heq, missingBelow, Finset.mem_filter, withTable_tables, if_pos rfl] at hmem
    exact ht hmem.2

theorem TablesBelow.withTable (h : TablesBelow N s) (hi : i < N) (h₀ : s.dir.tables i = 0)
    (ht : t = s.placementAddress / 0x1000 * 0x1000 + 0x1000) : TablesBelow N (withTable s i t) := by
  have ht₀ : t ≠ 0 := ht ▸ Nat.succ_ne_zero _
  have hplaced (j : ℕ) : s.dir.tables j < t := (h.placed j).trans (by omega)
  have hroom := h.room
  refine ⟨?_, ?_, fun j => ?_, fun j => ?_, fun j k => ?_, fun j => ?_⟩
  · exact Nat.le_add_left _ _
  · have hlt := missingBelow_withTable hi h₀ ht₀
    refine lt_of_le_of_lt ?_ hroom
    change t + 0x1000 + _ ≤ _
    omega
  · rw [withTable_tables]
    split_ifs
    · omega
    · exact h.aligned j
  · change _ < t + 0x1000
    rw [withTable_tables]
    split_ifs
    · exact Nat.lt_add_of_pos_right (by decide)
    · exact (hplaced j).trans (Nat.lt_add_of_pos_right (by decide))
  · rw [withTable_tables, withTable_tables]
    split_ifs with hj hk hk
    · exact fun _ _ => hj.trans hk.symm
    · exact fun _ heq => absurd heq (hplaced k).ne'
    · exact fun _ heq => absurd heq (hplaced j).ne
    · exact h.inj j k
  · rw [withTable_tables, withTable_tablesPhysical]
    split_ifs
    · exact fun _ => rfl
    · exact h.physical j

/-- The new table does not show in the map. -/
theorem pageEntry_withTable (h₀ : s.dir.tables i = 0) (ht : t ≠ 0) (hne : ∀ j, s.dir.tables j ≠ t) :
    pageEntry (withTable s i t) = pageEntry s := by
  funext n
  rw [pageEntry, pageEntry, withTable_tables]
  by_cases hn : n / 1024 = i
  · rw [if_pos hn, if_neg ht, hn, if_pos h₀]
    exact congrFun (Function.update_self t _ s.page) (n % 1024)
  · rw [if_neg hn]
    split_ifs
    · rfl
    · exact congrFun (Function.update_of_ne (hne (n / 1024)) _ s.page) (n % 1024)

/-- `paging_get_page` finds or places the table of the page; the map is the same. -/
theorem TablesBelow.pagingGetPage (h : TablesBelow N s) (ha : a / 0x1000 / 1024 < N) :
    ∃ s', pagingGetPage s a 1 = (s', some (s'.dir.tables (a / 0x1000 / 1024), a / 0x1000 % 1024)) ∧
      s'.dir.tables (a / 0x1000 / 1024) ≠ 0 ∧ TablesBelow N s' ∧ s'.pa = s.pa ∧
      pageEntry s' = pageEntry s := by
  rw [Beryllium.pagingGetPage]
  generalize a / 0x1000 / 1024 = i at *
  by_cases h₀ : s.dir.tables i = 0
  · have hcard : 0 < (missingBelow N s).card :=
      Finset.card_pos.2 ⟨_, Finset.mem_filter.2 ⟨Finset.mem_range.2 ha, h₀⟩⟩
    have hroom := h.room
    have halloc := placementKmallocAp_aligned sizeofPageTable h.placement
      (by rw [sizeofPageTable]; omega)
    set t := s.placementAddress / 0x1000 * 0x1000 + 0x1000 with ht
    have ht₀ : t ≠ 0 := Nat.succ_ne_zero _
    have htable : (Beryllium.withTable s i t).dir.tables i = t :=
      by rw [withTable_tables, if_pos rfl]
    refine ⟨Beryllium.withTable s i t, ?_, by rw [htable]; exact ht₀, h.withTable ha h₀ ht, rfl,
      pageEntry_withTable h₀ ht₀ fun j => ((h.placed j).trans (by omega)).ne⟩
    dsimp only
    rw [if_neg (not_not.2 h₀), if_pos Int.one_ne_zero, halloc, htable]
    rfl
  · exact ⟨s, if_pos h₀, h₀, h, rfl, rfl⟩

/-! ## Changing a page -/

/-- The page allocator with the entry of the page of `a`. -/
def setPage (s : Paging) (a : ℕ) (q : PageAllocator × PageT) : Paging :=
  { s with
    pa := q.1
    page := Function.update s.page (s.dir.tables (a / 0x1000 / 1024)) (Function.update
      (s.page (s.dir.tables (a / 0x1000 / 1024))) (a / 0x1000 % 1024) q.2) }

theorem TablesBelow.setPage (h : TablesBelow N s) (q : PageAllocator × PageT) :
    TablesBelow N (setPage s a q) :=
  ⟨h.placement, h.room, h.aligned, h.placed, h.inj, h.physical⟩

/-- The entry of the page changes, and no other. -/
theorem TablesBelow.pageEntry_setPage (h : TablesBelow N s)
    (h₀ : s.dir.tables (a / 0x1000 / 1024) ≠ 0) (q : PageAllocator × PageT) :
    pageEntry (Beryllium.setPage s a q) = Function.update (pageEntry s) (a / 0x1000) q.2 := by
  funext n
  rw [pageEntry, Function.update_apply, pageEntry, Beryllium.setPage]
  dsimp only
  by_cases hn : n = a / 0x1000
  · rw [if_pos hn, hn, if_neg h₀, Function.update_self, Function.update_self]
  · rw [if_neg hn]
    split_ifs with hz
    · rfl
    · by_cases hdiv : n / 1024 = a / 0x1000 / 1024
      · rw [hdiv, Function.update_self, Function.update_of_ne (by omega)]
      · -- the entry is in another table
        rw [Function.update_of_ne fun heq => hdiv (h.inj _ _ hz heq)]

/-- `alloc_page` looks for a frame for the entry of its page. -/
theorem TablesBelow.allocPage_eq (h : TablesBelow N s) (ha : a / 0x1000 / 1024 < N) :
    ∃ s₁, s₁.dir.tables (a / 0x1000 / 1024) ≠ 0 ∧ TablesBelow N s₁ ∧ pageEntry s₁ = pageEntry s ∧
      Beryllium.allocPage s a = (paAllocFrame s.pa (pageEntry s (a / 0x1000)) 0 0).map
        (Beryllium.setPage s₁ a) := by
  obtain ⟨s₁, hs₁, h₀, h₁, hpa, hentry⟩ := h.pagingGetPage ha
  have hpage : s₁.page (s₁.dir.tables (a / 0x1000 / 1024)) (a / 0x1000 % 1024) =
      pageEntry s (a / 0x1000) := by
    rw [← hentry, pageEntry, if_neg h₀]
  refine ⟨s₁, h₀, h₁, hentry, ?_⟩
  rw [Beryllium.allocPage, hs₁]
  simp only [Option.bind_eq_bind, Option.bind_some, Option.pure_def, hpage, hpa]
  exact Option.map_eq_bind.symm

/-- A page that is mapped changes the entry of its page. -/
theorem TablesBelow.allocPage (h : TablesBelow N s) (ha : a / 0x1000 / 1024 < N)
    {q : PageAllocator × PageT} (hq : paAllocFrame s.pa (pageEntry s (a / 0x1000)) 0 0 = some q) :
    ∃ s', allocPage s a = some s' ∧ TablesBelow N s' ∧ s'.pa = q.1 ∧
      pageEntry s' = Function.update (pageEntry s) (a / 0x1000) q.2 := by
  obtain ⟨s₁, h₀, h₁, hentry, hcall⟩ := h.allocPage_eq ha
  rw [hcall, hq]
  exact ⟨_, rfl, h₁.setPage q, rfl, hentry ▸ h₁.pageEntry_setPage h₀ q⟩

/-- A page is not mapped if there is no frame for it. -/
theorem TablesBelow.allocPage_none (h : TablesBelow N s) (ha : a / 0x1000 / 1024 < N)
    (hq : paAllocFrame s.pa (pageEntry s (a / 0x1000)) 0 0 = none) :
    Beryllium.allocPage s a = none := by
  obtain ⟨s₁, -, -, -, hcall⟩ := h.allocPage_eq ha
  rw [hcall, hq, Option.map_none]

/-- The frames below `0x3C00000` need 15 tables. -/
theorem PageTables.allocPage (h : PageTables s) (ha : a < 0x3C00000) {q : PageAllocator × PageT}
    (hq : paAllocFrame s.pa (pageEntry s (a / 0x1000)) 0 0 = some q) :
    ∃ s', allocPage s a = some s' ∧ PageTables s' ∧ s'.pa = q.1 ∧
      pageEntry s' = Function.update (pageEntry s) (a / 0x1000) q.2 := by
  obtain ⟨s', hs', h', hq'⟩ := (pageTables_iff.1 h).allocPage (by omega) hq
  exact ⟨s', hs', pageTables_iff.2 h', hq'⟩

theorem PageTables.allocPage_none (h : PageTables s) (ha : a < 0x3C00000)
    (hq : paAllocFrame s.pa (pageEntry s (a / 0x1000)) 0 0 = none) :
    Beryllium.allocPage s a = none :=
  (pageTables_iff.1 h).allocPage_none (by omega) hq

end Beryllium

import Beryllium.X86.FrameCount

/-!
# What paging_init maps

The loop of `paging_init` maps page `n` to frame `n`, in lock step: the frames are
taken in order, as the bitmap is clear at the start, and each new page table is
placed two pages above the one before (the placement allocator skips a page when it
is aligned already). So the state after `n` rounds is known exactly (`Mapped`),
and the bound of the loop grows by two pages in 1024 rounds; the loop ends
(`pagingLoop_spec`), and what it has mapped covers all it has placed
(`paging_init_identity`).
-/

namespace Beryllium

open Machine

/-! ## Where the page tables go -/

/-- The number of page tables for the pages below `n`. -/
def tableCount (n : ℕ) : ℕ := (n + 1023) / 1024

theorem tableCount_le_iff {n t : ℕ} : tableCount n ≤ t ↔ n ≤ 1024 * t := by
  rw [tableCount]
  omega

theorem lt_tableCount_iff {n t : ℕ} : t < tableCount n ↔ 1024 * t < n := by
  rw [← Nat.not_le, tableCount_le_iff, Nat.not_le]

theorem le_tableCount (n : ℕ) : n ≤ 1024 * tableCount n := tableCount_le_iff.1 le_rfl

theorem tableCount_ne_zero {n : ℕ} (hn : n ≠ 0) : tableCount n ≠ 0 :=
  (lt_tableCount_iff.2 (Nat.pos_of_ne_zero hn)).ne'

/-- A page below `n` is in one of the tables. -/
theorem div_lt_tableCount {m n : ℕ} (h : m < n) : m / 1024 < tableCount n :=
  lt_tableCount_iff.2 ((Nat.mul_div_le m 1024).trans_lt h)

/-- The first page table, if `placement_address` is `p` before. -/
def tableBase (p : ℕ) : ℕ := p / 0x1000 * 0x1000 + 0x1000

/-- `placement_address` after `t` page tables. -/
def placedAfter (p t : ℕ) : ℕ := if t = 0 then p else tableBase p + 0x2000 * t - 0x1000

/-- `t` page tables from `tableBase p` on map the pages below `n` to the frames of
    the same number, which are those in use, of the frames that have a bit in the bitmap. -/
structure Mapped (p t n : ℕ) (s : Paging) : Prop where
  placementAddress : s.placementAddress = placedAfter p t
  frameAmount : s.pa.frameAmount = 0x3C00000
  used_iff : ∀ f < 0xF00000, Used s.pa f ↔ f < n
  tables : ∀ i, s.dir.tables i = if i < t then tableBase p + 0x2000 * i else 0
  tablesPhysical : ∀ i, s.dir.tablesPhysical i = if i < t then s.dir.tables i ||| 0x7 else 0
  page : ∀ m < 1024 * t, s.page (tableBase p + 0x2000 * (m / 1024)) (m % 1024) =
    if m < n then ⟨true, false, true, m⟩ else PageT.zero

/-- The addresses of the bitmap and the directory stay where they are. -/
def SamePlaces (s s' : Paging) : Prop :=
  s'.frameAddr = s.frameAddr ∧ s'.kernelDirectory = s.kernelDirectory

/-- The walk of the processor from the address `a`: the masked entry of `tablesPhysical`
    is the address of a page table, whose entry is the page. -/
def hardwareWalk (s : Paging) (a : ℕ) : Option PageT :=
  let directoryEntry := s.dir.tablesPhysical (a / 0x400000)
  if directoryEntry &&& 1 = 0 then none
  else
    let e := s.page (directoryEntry &&& 0xFFFFF000) (a / 0x1000 % 1024)
    if e.present then some e else none

/-- The addresses below `placement_address + 0x1000` are those of the pages below `n`,
    which are mapped to themselves; no other page is present, and the frames of these pages are
    those in use, of the frames that have a bit in the bitmap. All that was placed lies below,
    too. -/
structure IdentityMapped (n : ℕ) (s : Paging) : Prop where
  bound : n * 0x1000 = s.placementAddress + 0x1000
  walk : ∀ a < s.placementAddress + 0x1000, ∃ e, hardwareWalk s a = some e ∧
    e.present = true ∧ e.frame = a / 0x1000
  unmapped : ∀ a, s.placementAddress + 0x1000 ≤ a → hardwareWalk s a = none
  physicalAddr : s.dir.physicalAddr = s.kernelDirectory + 0x1000
  tables_eq : ∀ i, s.dir.tables i ≠ 0 → s.dir.tablesPhysical i &&& 0xFFFFF000 = s.dir.tables i
  bitmap_le : s.frameAddr + s.pa.frameAmount / 0x20 ≤ s.placementAddress + 0x1000
  directory_le : s.kernelDirectory + sizeofPageDirectory ≤ s.placementAddress + 0x1000
  tables_le : ∀ i, s.dir.tables i ≠ 0 →
    s.dir.tables i + sizeofPageTable ≤ s.placementAddress + 0x1000
  used_iff : ∀ f < 0xF00000, Used s.pa f ↔ f < n

variable {p t n a : ℕ} {s : Paging}

theorem placementKmallocAp_table (hp : 0x1000 ≤ p)
    (hfit : tableBase p + 0x2000 * (t + 1) < 4294967296) :
    placementKmallocAp (placedAfter p t) sizeofPageTable 1 =
      (tableBase p + 0x2000 * t, placedAfter p (t + 1)) := by
  have hq : 0x1000 ≤ placedAfter p t := by
    rw [placedAfter]
    split_ifs
    · exact hp
    · omega
  have hbase : placedAfter p t / 0x1000 * 0x1000 + 0x1000 = tableBase p + 0x2000 * t := by
    rw [placedAfter]
    split_ifs with h
    · rw [h, tableBase]
    · rw [tableBase]
      omega
  have hnext : tableBase p + 0x2000 * t + 0x1000 = placedAfter p (t + 1) := by
    rw [placedAfter, if_neg (Nat.succ_ne_zero t)]
    omega
  have halign := placementKmallocAp_aligned 0x1000 hq
  rw [hbase, hnext] at halign
  exact halign (by omega)

/-- A page whose table does not exist yet gets a zeroed one. -/
theorem Mapped.newTable (h : Mapped p t n s) (hn : n = 1024 * t) (hp : 0x1000 ≤ p)
    (ha : a / 0x1000 = n) (hfit : tableBase p + 0x2000 * (t + 1) < 4294967296) :
    ∃ s', pagingGetPage s a 1 = (s', some (tableBase p + 0x2000 * t, 0)) ∧
      Mapped p (t + 1) n s' ∧ SamePlaces s s' := by
  have hdiv : a / 0x1000 / 1024 = t := by omega
  have hmod : a / 0x1000 % 1024 = 0 := by omega
  have htab : s.dir.tables t = 0 := by rw [h.tables, if_neg (lt_irrefl t)]
  have hne : tableBase p ≠ 0 := Nat.succ_ne_zero _
  rw [pagingGetPage]
  simp only [hdiv, hmod, htab, ne_eq, not_true_eq_false, if_false, Int.one_ne_zero,
    not_false_eq_true, if_true, h.placementAddress, placementKmallocAp_table hp hfit]
  refine ⟨_, rfl, ⟨rfl, h.frameAmount, h.used_iff, fun i => ?_, fun i => ?_, fun m hm => ?_⟩,
    rfl, rfl⟩
  · simp only [Function.update_apply, h.tables]
    split_ifs <;> omega
  · simp only [Function.update_apply, h.tablesPhysical]
    by_cases hit : i = t
    · rw [if_pos hit, if_pos (by omega), if_pos hit]
    · rw [if_neg hit, if_neg hit]
      exact if_congr (by omega) rfl rfl
  · simp only [Function.update_apply]
    by_cases hmt : m / 1024 = t
    · rw [if_pos (by rw [hmt]), if_neg (by omega)]
    · rw [if_neg (by omega), h.page m (by omega)]

/-- The page entry of page `n`, in a page table that may be new. -/
theorem Mapped.getPage (h : Mapped p (tableCount n) n s) (hp : 0x1000 ≤ p) (ha : a / 0x1000 = n)
    (hfit : tableBase p + 0x2000 * tableCount (n + 1) < 4294967296) :
    ∃ s', pagingGetPage s a 1 = (s', some (tableBase p + 0x2000 * (n / 1024), n % 1024)) ∧
      Mapped p (tableCount (n + 1)) n s' ∧ SamePlaces s s' := by
  have hne : tableBase p ≠ 0 := Nat.succ_ne_zero _
  by_cases hn : n % 1024 = 0
  · have hcount : tableCount n = n / 1024 := by
      rw [tableCount]
      omega
    have hcount' : tableCount (n + 1) = n / 1024 + 1 := by
      rw [tableCount]
      omega
    rw [hcount] at h
    rw [hcount'] at hfit ⊢
    obtain ⟨s', hs', hm, hsame⟩ := h.newTable (by omega) hp ha hfit
    exact ⟨s', by rw [hs', hn], hm, hsame⟩
  · have hcount : tableCount (n + 1) = tableCount n := by
      rw [tableCount, tableCount]
      omega
    have htab : s.dir.tables (n / 1024) = tableBase p + 0x2000 * (n / 1024) := by
      rw [h.tables, if_pos]
      rw [tableCount]
      omega
    refine ⟨s, ?_, hcount ▸ h, rfl, rfl⟩
    rw [pagingGetPage]
    simp only [ha, htab]
    rw [if_pos (by omega)]

/-- The first free frame is the next page. -/
theorem Mapped.first (h : Mapped p t n s) (hn : n < 0x100000) : paFirstFrame s.pa = n := by
  have hbitmap : Bitmap 0xF000 n s.pa := ⟨h.frameAmount, h.used_iff⟩
  exact (hbitmap.first (by decide) (by omega)).1

/-- One round: page `n` is mapped to frame `n`. -/
theorem Mapped.allocPage (h : Mapped p (tableCount n) n s) (hp : 0x1000 ≤ p) (ha : a / 0x1000 = n)
    (hn : n < 0x100000) (hfit : tableBase p + 0x2000 * tableCount (n + 1) < 4294967296) :
    ∃ s', allocPage s a = some s' ∧ Mapped p (tableCount (n + 1)) (n + 1) s' ∧ SamePlaces s s' := by
  obtain ⟨s', hs', h, hsame⟩ := h.getPage hp ha hfit
  have hlt : n < 1024 * tableCount (n + 1) := le_tableCount (n + 1)
  have hpage := h.page n hlt
  rw [if_neg (lt_irrefl n)] at hpage
  have hfirst := h.first hn
  have halloc : paAllocFrame s'.pa PageT.zero 0 0 =
      some (paSetFrame s'.pa (mul32 n 0x1000), ⟨true, false, true, n⟩) := by
    rw [paAllocFrame, hfirst]
    rw [if_neg (by decide), if_neg (by decide)]
    simp only [show n ≠ noFrame by rw [noFrame]; omega, if_false, Nat.mod_eq_of_lt hn, ne_eq,
      not_true_eq_false, decide_false, decide_true]
  simp only [Beryllium.allocPage, hs', hpage, halloc, Option.bind_eq_bind, Option.bind_some,
    Option.pure_def]
  refine ⟨_, rfl, ⟨h.placementAddress, h.frameAmount, fun f hf => ?_, h.tables, h.tablesPhysical,
    fun m hm => ?_⟩, hsame⟩
  · rw [used_paSetFrame, mul32_div, Nat.mod_eq_of_lt hn, h.used_iff f hf]
    omega
  · by_cases hmn : m = n
    · subst hmn
      simp only [Function.update_self, if_pos (Nat.lt_succ_self m)]
    -- another page is in the same table or in another one
    have hold := h.page m hm
    simp only [show m < n ↔ m < n + 1 by omega] at hold
    by_cases hdiv : m / 1024 = n / 1024
    · rw [hdiv] at hold ⊢
      simp only [Function.update_self, Function.update_of_ne (show m % 1024 ≠ n % 1024 by omega)]
      exact hold
    · simp only [Function.update_of_ne (show tableBase p + 0x2000 * (m / 1024) ≠
        tableBase p + 0x2000 * (n / 1024) by omega)]
      exact hold

/-! ## The loop -/

/-- The bound of the loop after `n` rounds. -/
def loopBound (p n : ℕ) : ℕ := placedAfter p (tableCount n) + 0x1000

theorem tableCount_mono {m : ℕ} (h : m ≤ n) : tableCount m ≤ tableCount n := by
  rw [tableCount, tableCount]
  omega

theorem loopBound_mono {m : ℕ} (h : m ≤ n) : loopBound p m ≤ loopBound p n := by
  have := tableCount_mono h
  rw [loopBound, loopBound, placedAfter, placedAfter]
  have : p < tableBase p := by
    rw [tableBase]
    omega
  split_ifs <;> omega

theorem le_loopBound (p n : ℕ) : 0x1000 ≤ loopBound p n := Nat.le_add_left _ _

theorem loopBound_eq (hn : n ≠ 0) : loopBound p n = tableBase p + 0x2000 * tableCount n := by
  have hpos := tableCount_ne_zero hn
  rw [loopBound, placedAfter, if_neg hpos]
  omega

/-- Before the bound is reached for the first time, at `n`, the loop maps one page
    after the other. -/
theorem pagingLoop_spec (hp : 0x1000 ≤ p) (hn : n < 0x100000) (hb : loopBound p n ≤ n * 0x1000)
    (hmin : ∀ m < n, m * 0x1000 < loopBound p m) (fuel : ℕ) {m : ℕ} (hm : m ≤ n)
    (hfuel : n - m < fuel) (h : Mapped p (tableCount m) m s) :
    ∃ s', pagingLoop fuel (m * 0x1000) s = some s' ∧ Mapped p (tableCount n) n s' ∧
      SamePlaces s s' := by
  induction fuel generalizing m s with
  | zero => exact absurd hfuel (Nat.not_lt_zero _)
  | succ fuel ih =>
    have hle : loopBound p m ≤ loopBound p n := loopBound_mono hm
    have hadd : add32 s.placementAddress 0x1000 = loopBound p m := by
      rw [h.placementAddress]
      exact add32_eq (show loopBound p m < 4294967296 by omega)
    rw [pagingLoop, hadd]
    rcases hm.eq_or_lt with rfl | hm
    · rw [if_neg (Nat.not_lt.2 hb)]
      exact ⟨s, rfl, h, rfl, rfl⟩
    have hfit : tableBase p + 0x2000 * tableCount (m + 1) < 4294967296 := by
      have hle : loopBound p (m + 1) ≤ loopBound p n :=
        loopBound_mono (show m + 1 ≤ n from hm)
      rw [loopBound_eq (show m + 1 ≠ 0 from Nat.succ_ne_zero m)] at hle
      omega
    obtain ⟨s₁, hs₁, h₁, hsame⟩ := h.allocPage hp (Nat.mul_div_cancel m (by decide)) (by omega) hfit
    obtain ⟨s₂, hs₂, h₂, hsame'⟩ := ih hm (by omega) h₁
    refine ⟨s₂, ?_, h₂, hsame'.1.trans hsame.1, hsame'.2.trans hsame.2⟩
    rw [if_pos (hmin m hm), hs₁, add32_eq (by omega), Option.bind_eq_bind, Option.bind_some,
      ← Nat.succ_mul]
    exact hs₂

theorem Mapped.walk (h : Mapped p (tableCount n) n s)
    (hfit : tableBase p + 0x2000 * tableCount n < 4294967296) (ha : a / 0x1000 < n) :
    hardwareWalk s a = some ⟨true, false, true, a / 0x1000⟩ := by
  have hdiv : a / 0x400000 = a / 0x1000 / 1024 := by omega
  have hi : a / 0x1000 / 1024 < tableCount n := div_lt_tableCount ha
  have halign : (tableBase p + 0x2000 * (a / 0x1000 / 1024)) % 0x1000 = 0 := by
    rw [tableBase]
    omega
  obtain ⟨hmask, hpresent⟩ := flags_and_pageMask (by omega) halign
  rw [hardwareWalk]
  simp only [hdiv, h.tablesPhysical, h.tables, if_pos hi, hmask, hpresent,
    h.page (a / 0x1000) (by omega), if_pos ha, Nat.one_ne_zero, if_false, if_true]

/-- The other pages of the tables are not present, and there are no other tables. -/
theorem Mapped.walk_eq_none (h : Mapped p (tableCount n) n s)
    (hfit : tableBase p + 0x2000 * tableCount n < 4294967296) (ha : n ≤ a / 0x1000) :
    hardwareWalk s a = none := by
  have hdiv : a / 0x400000 = a / 0x1000 / 1024 := by omega
  rw [hardwareWalk]
  by_cases hi : a / 0x1000 / 1024 < tableCount n
  · have halign : (tableBase p + 0x2000 * (a / 0x1000 / 1024)) % 0x1000 = 0 := by
      rw [tableBase]
      omega
    obtain ⟨hmask, hpresent⟩ := flags_and_pageMask (by omega) halign
    simp only [hdiv, h.tablesPhysical, h.tables, if_pos hi, hmask, hpresent,
      h.page (a / 0x1000) (by omega), if_neg ha.not_gt, Nat.one_ne_zero, if_false]
    rfl
  · simp only [hdiv, h.tablesPhysical, if_neg hi, Nat.zero_and, if_true]

/-! ## paging_init -/

/-- `placement_address` after the bitmap and the directory, if it is `p₀` before. -/
def afterDirectory (p₀ : ℕ) : ℕ := tableBase (p₀ + 0x1E0000) + 0x2004

theorem lt_afterDirectory (p₀ : ℕ) : 0x1000 < afterDirectory p₀ :=
  lt_of_lt_of_le (by decide) (Nat.le_add_left 0x2004 _)

/-- Fewer than `2 ^ 20` frames are needed: they cover what `paging_init` places
    while it maps them, in addresses that do not wrap. -/
def Fits (p₀ : ℕ) : Prop := ∃ n < 0x100000, loopBound (afterDirectory p₀) n ≤ n * 0x1000

/-- This means that the kernel does not end in the last 10 MB of the address space. -/
theorem fits_iff {p₀ : ℕ} : Fits p₀ ↔ p₀ < 0xFF61C000 := by
  have hp : afterDirectory p₀ = tableBase (p₀ + 0x1E0000) + 0x2004 := rfl
  rw [tableBase] at hp
  constructor
  · rintro ⟨n, hn, hb⟩
    rw [loopBound, placedAfter, tableBase, tableCount] at hb
    split_ifs at hb <;> omega
  · intro h
    refine ⟨0xFFFFF, by decide, ?_⟩
    rw [loopBound, placedAfter, tableBase, tableCount, if_neg (by decide)]
    omega

variable {s₀ : Paging}

/-- The bitmap and the directory are placed, and nothing is mapped yet. -/
theorem placeDirectory_spec (hp : 0x100000 ≤ s₀.placementAddress)
    (hfit : Fits s₀.placementAddress) :
    Mapped (afterDirectory s₀.placementAddress) 0 0 (placeDirectory (initPageAllocator s₀)) ∧
      (placeDirectory (initPageAllocator s₀)).frameAddr = s₀.placementAddress ∧
      (placeDirectory (initPageAllocator s₀)).kernelDirectory =
        tableBase (s₀.placementAddress + 0x1E0000) := by
  rw [fits_iff] at hfit
  have hbitmap : (initPageAllocator s₀).placementAddress = s₀.placementAddress + 0x1E0000 :=
    add32_eq (show s₀.placementAddress + 0x1E0000 < 4294967296 by omega)
  have hdir : placementKmallocAp (initPageAllocator s₀).placementAddress sizeofPageDirectory 1 =
      (tableBase (s₀.placementAddress + 0x1E0000), afterDirectory s₀.placementAddress) := by
    rw [hbitmap]
    exact placementKmallocAp_aligned 0x2004 (by omega) (by omega)
  rw [placeDirectory, hdir]
  refine ⟨⟨rfl, rfl, (bitmap_initPageAllocator s₀).used_iff, fun i => ?_, fun i => ?_,
    fun m hm => ?_⟩, rfl, rfl⟩
  · rw [if_neg (Nat.not_lt_zero i)]
  · rw [if_neg (Nat.not_lt_zero i)]
  · exact absurd hm (Nat.not_lt_zero m)

/-- The state at the end of `paging_init`, after which the pages below `n` are mapped. -/
theorem pagingInit_spec (s₀ : Paging) (hp : 0x100000 ≤ s₀.placementAddress)
    (hfit : Fits s₀.placementAddress) :
    ∃ s n, pagingInit s₀ = some s ∧ n < 0x100000 ∧ n ≠ 0 ∧
      n * 0x1000 = tableBase (afterDirectory s₀.placementAddress) + 0x2000 * tableCount n ∧
      (∀ m < n, m * 0x1000 < loopBound (afterDirectory s₀.placementAddress) m) ∧
      Mapped (afterDirectory s₀.placementAddress) (tableCount n) n s ∧
      s.frameAddr = s₀.placementAddress ∧
      s.kernelDirectory = tableBase (s₀.placementAddress + 0x1E0000) ∧
      s.dir.physicalAddr = s.kernelDirectory + 0x1000 := by
  obtain ⟨hinit, hframe, hdir⟩ := placeDirectory_spec hp hfit
  have hlt := fits_iff.1 hfit
  -- the first time the bound is reached
  obtain ⟨n, ⟨hn, hb⟩, hmin⟩ : ∃ n, (n < 0x100000 ∧
      loopBound (afterDirectory s₀.placementAddress) n ≤ n * 0x1000) ∧
      ∀ m < n, m * 0x1000 < loopBound (afterDirectory s₀.placementAddress) m :=
    ⟨Nat.find hfit, Nat.find_spec hfit, fun m hm => Nat.not_le.1 fun h =>
      Nat.find_min hfit hm ⟨lt_trans hm (Nat.find_spec hfit).1, h⟩⟩
  obtain ⟨s, hs, h, hsame⟩ :=
    pagingLoop_spec (le_of_lt (lt_afterDirectory _)) hn hb hmin pagingFuel (Nat.zero_le n)
      (by rw [pagingFuel]; omega) hinit
  have hbase : tableBase (s₀.placementAddress + 0x1E0000) + 0x1000 < 4294967296 := by
    rw [tableBase]
    omega
  have hphys : add32 s.kernelDirectory 0x1000 = s.kernelDirectory + 0x1000 := by
    rw [hsame.2, hdir]
    exact add32_eq hbase
  have hne : n ≠ 0 := by
    rintro rfl
    have := le_loopBound (afterDirectory s₀.placementAddress) 0
    omega
  refine ⟨{ s with dir.physicalAddr := add32 s.kernelDirectory 0x1000 }, n, ?_, hn, hne, ?_, hmin,
    ⟨h.placementAddress, h.frameAmount, h.used_iff, h.tables, h.tablesPhysical, h.page⟩,
    hsame.1.trans hframe, hsame.2.trans hdir, hphys⟩
  · rw [pagingInit, ← Nat.zero_mul 0x1000, hs, Option.bind_eq_bind, Option.bind_some,
      Option.pure_def]
  · have hprev := (hmin (n - 1) (by omega)).trans_le (loopBound_mono (Nat.sub_le n 1))
    rw [loopBound_eq hne] at hb hprev
    rw [tableBase] at hb hprev ⊢
    omega

/-- `paging_init` ends, and maps all it has placed to itself. -/
theorem paging_init_identity (hp : 0x100000 ≤ s₀.placementAddress)
    (hfit : Fits s₀.placementAddress) :
    ∃ s n, pagingInit s₀ = some s ∧ IdentityMapped n s := by
  obtain ⟨s, n, hs, hn, hne, heq, -, h, hframe, hdir, hphys⟩ := pagingInit_spec s₀ hp hfit
  have hbound : n * 0x1000 = s.placementAddress + 0x1000 := by
    rw [h.placementAddress, heq]
    exact (loopBound_eq hne).symm
  have hfit' : tableBase (afterDirectory s₀.placementAddress) + 0x2000 * tableCount n <
      4294967296 :=
    by omega
  have hbase : tableBase (afterDirectory s₀.placementAddress) =
      afterDirectory s₀.placementAddress / 0x1000 * 0x1000 + 0x1000 := rfl
  have hafter : afterDirectory s₀.placementAddress = s.kernelDirectory + 0x2004 :=
    congrArg (· + 0x2004) hdir.symm
  have hdir' : s.kernelDirectory = (s₀.placementAddress + 0x1E0000) / 0x1000 * 0x1000 + 0x1000 :=
    hdir
  refine ⟨s, n, hs, ⟨hbound, fun a ha => ⟨_, h.walk hfit' (by omega), rfl, rfl⟩,
    fun a ha => h.walk_eq_none hfit' (by omega), hphys, fun i hi => ?_, ?_, ?_, fun i hi => ?_,
    h.used_iff⟩⟩
  · rw [h.tables] at hi
    split_ifs at hi with hlt
    · rw [h.tablesPhysical, if_pos hlt, h.tables, if_pos hlt]
      exact (flags_and_pageMask (by omega) (by omega)).1
    · exact absurd rfl hi
  · rw [h.frameAmount, hframe]
    omega
  · rw [sizeofPageDirectory]
    omega
  · rw [h.tables] at hi ⊢
    split_ifs at hi ⊢ with hlt
    · rw [sizeofPageTable]
      omega
    · exact absurd rfl hi

/-- The memory before `paging_init`, if the kernel ends at `p`. -/
def coldBoot (p : ℕ) : Paging where
  placementAddress := p
  pa := ⟨fun _ => 0#32, 0⟩
  frameAddr := 0
  kernelDirectory := 0
  dir := ⟨fun _ => 0, fun _ => 0, 0⟩
  page _ _ := PageT.zero

theorem paging_init_identity_oneMb : ∃ s n, pagingInit (coldBoot 0x100000) = some s ∧
    IdentityMapped n s :=
  paging_init_identity (le_refl 0x100000) (fits_iff.2 (by decide))

end Beryllium

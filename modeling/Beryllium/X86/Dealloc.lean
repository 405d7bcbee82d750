import Beryllium.X86.HeapBreak
import Mathlib.Order.Interval.Finset.Nat

/-!
# Taking pages back

`memory_dealloc_pages` of `kernel/arch/x86/memory.c`, meant to undo `memallocp` (`Undone`).
It calls `pa_free_frame` for the addresses from `mem_lastpage` down, and `pa_free_frame` gives
up the frame of an entry, but leaves its `present` bit. No other code clears the bit, so a
page that is mapped stays mapped in every run (`keepsPresent_freeBlock`), among them the first
page that `memallocp` returned (`dealloc_never_undoes`).
-/

namespace Beryllium

open Machine

/-- `pa_free_frame(paging_get_page(address, 1, kernel_directory))` -/
def freePage (s : Paging) (address : ℕ) : Option Paging := do
  let r := pagingGetPage s address 1
  let e ← r.2
  let q := paFreeFrame r.1.pa (r.1.page e.1 e.2)
  return { r.1 with
    pa := q.1
    page := Function.update r.1.page e.1 (Function.update (r.1.page e.1) e.2 q.2) }

/-- The loop of `memory_dealloc_pages`: `i` pages, from `blk` down. -/
def freeBlock : ℕ → ℕ → Paging → Option Paging
  | 0, _, p => some p
  | i + 1, blk, p => (freePage p blk).bind (freeBlock i (sub32 blk 1))

/-- `memory_dealloc_pages` -/
def memoryDeallocPages (s : Memory) (pages : ℤ) : Option Memory :=
  if pages ≤ 0 then some s
  else do
    let p ← freeBlock pages.toNat s.memLastpage s.paging
    return ⟨p, mul32 (paFirstFrame p.pa) 0x1000⟩

/-! ## Runs -/

/-- The calls that change the pages. -/
inductive MemoryOp
  | sbrk (amount : ℕ)
  | memallocp (pages : ℤ)
  | dealloc (pages : ℤ)

/-- A call, if it does not halt. -/
def Memory.step (s : Memory) : MemoryOp → Option Memory
  | .sbrk amount => (sbrk s amount).map Prod.fst
  | .memallocp pages => (memallocp s pages).map Prod.fst
  | .dealloc pages => memoryDeallocPages s pages

/-- Any calls, from the state that `paging_init` and `memory_init` leave after a boot in which
    no address wraps. -/
def deallocSystem : System Memory MemoryOp where
  init s := ∃ s₀ q, 0x100000 ≤ s₀.placementAddress ∧ Fits s₀.placementAddress ∧
    pagingInit s₀ = some q ∧ s = memoryInit q
  guard _ _ := True
  step := Memory.step

/-- The state after is the one before a call of `memallocp(pages)` that returned `address`, and
    its pages are not mapped. -/
structure Undone (before : Memory) (address pages : ℕ) (after : Memory) : Prop where
  used : ∀ f, Used after.paging.pa f ↔ Used before.paging.pa f
  outside : ∀ m, m < address / 0x1000 ∨ address / 0x1000 + pages ≤ m →
    (pageEntry after.paging m).present = (pageEntry before.paging m).present
  memLastpage : after.memLastpage = before.memLastpage
  unmapped : ∀ i < pages, (pageEntry after.paging (address / 0x1000 + i)).present = false

variable {p p' q : Paging} {s s' : Memory} {a n k i fuel address : ℕ}

/-! ## Pages stay present -/

/-- The pages are well formed: there is room for all 1024 tables, and an entry that has a frame
    is present. -/
structure FramesPresent (p : Paging) : Prop where
  tables : TablesBelow 1024 p
  frameAmount : p.pa.frameAmount = 0x3C00000
  present : ∀ m, (pageEntry p m).frame ≠ 0 → (pageEntry p m).present = true

/-- The pages that were present still are. -/
structure KeepsPresent (p p' : Paging) : Prop where
  framesPresent : FramesPresent p'
  keeps : ∀ m, (pageEntry p m).present = true → (pageEntry p' m).present = true

theorem KeepsPresent.refl (h : FramesPresent p) : KeepsPresent p p := ⟨h, fun _ h => h⟩

theorem KeepsPresent.trans (h : KeepsPresent p p') (h' : KeepsPresent p' q) : KeepsPresent p q :=
  ⟨h'.framesPresent, fun m hm => h'.keeps m (h.keeps m hm)⟩

/-- An entry that is changed keeps the `present` bit, and has it if it has a frame. -/
theorem FramesPresent.update (h : FramesPresent p) (htables : TablesBelow 1024 p')
    (hamount : p'.pa.frameAmount = p.pa.frameAmount) {e : PageT}
    (hentry : pageEntry p' = Function.update (pageEntry p) n e)
    (hkeep : (pageEntry p n).present = true → e.present = true)
    (hframe : e.frame ≠ 0 → e.present = true) : KeepsPresent p p' := by
  refine ⟨⟨htables, hamount.trans h.frameAmount, fun m => ?_⟩, fun m => ?_⟩
  · rw [hentry, Function.update_apply]
    split_ifs
    · exact hframe
    · exact h.present m
  · rw [hentry, Function.update_apply]
    split_ifs with hm
    · exact hm ▸ hkeep
    · exact id

/-- A page that gets a frame is present; one that has a frame already is left as it is. -/
theorem FramesPresent.allocPage (h : FramesPresent p) (ha : a < 4294967296)
    (hq : allocPage p a = some q) :
    KeepsPresent p q ∧ (pageEntry q (a / 0x1000)).present = true ∧
      ∀ m ≠ a / 0x1000, pageEntry q m = pageEntry p m := by
  have hindex : a / 0x1000 / 1024 < 1024 := by omega
  cases hr : paAllocFrame p.pa (pageEntry p (a / 0x1000)) 0 0 with
  | none => cases (h.tables.allocPage_none hindex hr).symm.trans hq
  | some r =>
    obtain ⟨q', hq', htables, hpa, hentry⟩ := h.tables.allocPage hindex hr
    obtain rfl := Option.some.inj (hq'.symm.trans hq)
    have hpresent : r.2.present = true ∧ r.1.frameAmount = p.pa.frameAmount := by
      rcases paAllocFrame_cases hr with ⟨htakes, rfl⟩ | ⟨-, -, rfl⟩
      · exact ⟨h.present _ fun hframe => htakes ⟨by decide, hframe⟩, rfl⟩
      · exact ⟨rfl, rfl⟩
    refine ⟨h.update htables (hpa ▸ hpresent.2) hentry (fun _ => hpresent.1) fun _ => hpresent.1,
      ?_, fun m hm => ?_⟩
    · rw [hentry, Function.update_self]
      exact hpresent.1
    · rw [hentry, Function.update_of_ne hm]

/-- The block of `memory_mult_alloc_pages` lies below the number of frames. -/
theorem le_of_searchBlock (h : searchBlock s k fuel i = some (some n)) :
    n + k ≤ s.paging.pa.frameAmount := by
  induction fuel generalizing i with
  | zero => cases h
  | succ fuel ih =>
    rw [searchBlock] at h
    dsimp only at h
    split_ifs at h with hi hfit
    · exact ih h
    · split at h
      · exact ih h
      · obtain rfl := Option.some.inj (Option.some.inj h)
        exact Nat.not_lt.1 hfit
    · cases h

theorem FramesPresent.allocBlock (h : FramesPresent p) (hn : n + k ≤ 4294967296)
    (hq : allocBlock n k p = some q) :
    KeepsPresent p q ∧ (∀ i < k, (pageEntry q ((n + i) / 0x1000)).present = true) ∧
      ∀ m, (∀ i < k, m ≠ (n + i) / 0x1000) → pageEntry q m = pageEntry p m := by
  induction k generalizing q with
  | zero =>
    obtain rfl := Option.some.inj hq
    exact ⟨.refl h, fun i hi => absurd hi (Nat.not_lt_zero i), fun _ _ => rfl⟩
  | succ k ih =>
    rw [Beryllium.allocBlock] at hq
    obtain ⟨r, hr, hq⟩ := Option.bind_eq_some_iff.1 hq
    obtain ⟨hkeep, hpages, hothers⟩ := ih (by omega) hr
    obtain ⟨hkeep', hpage, hothers'⟩ := hkeep.framesPresent.allocPage (by omega) hq
    refine ⟨hkeep.trans hkeep', fun i hi => ?_, fun m hm => ?_⟩
    · rcases (Nat.lt_succ_iff.1 hi).eq_or_lt with rfl | hi
      · exact hpage
      · exact hkeep'.keeps _ (hpages i hi)
    · rw [hothers' m (hm k (Nat.lt_succ_self k))]
      exact hothers m fun i hi => hm i (Nat.lt_succ_of_lt hi)

/-- A call of `memallocp` for `k` pages has returned `address`. -/
structure Allocated (k : ℕ) (s s' : Memory) (address : ℕ) : Prop where
  keeps : KeepsPresent s.paging s'.paging
  memLastpage_lt : s'.memLastpage < 4294967296
  found : searchBlock s k searchFuel 0 = some (some address)
  present : (pageEntry s'.paging (address / 0x1000)).present = true
  /-- Only the pages of `k` bytes have changed. -/
  others : ∀ m, (∀ i < k, m ≠ (address + i) / 0x1000) → pageEntry s'.paging m = pageEntry s.paging m

/-- A call of `memallocp` that returns leaves the page that it returned present. -/
theorem FramesPresent.memallocp (h : FramesPresent s.paging) (hk : 0 < k)
    (hr : memallocp s k = some (s', address)) : Allocated k s s' address := by
  have hk' : ¬(k : ℤ) ≤ 0 := by omega
  rw [Beryllium.memallocp, if_neg hk', memoryMultAllocPages,
    if_neg (by rw [h.frameAmount]; decide), Int.toNat_natCast] at hr
  rcases hblock : searchBlock s k searchFuel 0 with _ | _ | block
  · rw [hblock] at hr
    cases hr
  · rw [hblock] at hr
    cases hr
  · have hle := le_of_searchBlock hblock
    rw [h.frameAmount] at hle
    rw [hblock] at hr
    simp only [Option.bind_eq_bind, Option.bind_some, Option.pure_def] at hr
    obtain ⟨r, hmult, hr⟩ := Option.bind_eq_some_iff.1 hr
    obtain ⟨q, hq, hmult⟩ := Option.bind_eq_some_iff.1 hmult
    obtain rfl := Option.some.inj hmult
    split_ifs at hr
    cases hr
    obtain ⟨hkeep, hpages, hothers⟩ := h.allocBlock (by omega) hq
    exact ⟨hkeep, Nat.mod_lt _ (by decide), hblock, hpages 0 hk, hothers⟩

/-! ## Freeing a page -/

/-- The frame of the page is given up, and nothing else of its entry changes. -/
theorem FramesPresent.freePage (h : FramesPresent p) (ha : a < 4294967296) :
    ∃ q, freePage p a = some q ∧ KeepsPresent p q := by
  obtain ⟨p₁, hp₁, h₀, h₁, hpa, hentry⟩ := h.tables.pagingGetPage (a := a) (by omega)
  have hpage : p₁.page (p₁.dir.tables (a / 0x1000 / 1024)) (a / 0x1000 % 1024) =
      pageEntry p (a / 0x1000) := by
    rw [← hentry, pageEntry, if_neg h₀]
  have hcall : Beryllium.freePage p a =
      some (setPage p₁ a (paFreeFrame p.pa (pageEntry p (a / 0x1000)))) := by
    rw [Beryllium.freePage, hp₁]
    simp only [Option.bind_eq_bind, Option.bind_some, hpage, hpa]
    rfl
  have hset := h₁.pageEntry_setPage h₀ (paFreeFrame p.pa (pageEntry p (a / 0x1000)))
  rw [hentry] at hset
  refine ⟨_, hcall, h.update (h₁.setPage _) ?_ hset ?_ ?_⟩
  · change (paFreeFrame p.pa (pageEntry p (a / 0x1000))).1.frameAmount = _
    rw [paFreeFrame]
    split_ifs <;> rfl
  · rw [paFreeFrame]
    split_ifs <;> exact id
  · rw [paFreeFrame]
    split_ifs with hframe
    · exact fun hne => absurd hframe hne
    · exact fun hne => absurd rfl hne

theorem keepsPresent_freeBlock (h : FramesPresent p) (ha : a < 4294967296) :
    ∃ q, freeBlock k a p = some q ∧ KeepsPresent p q := by
  induction k generalizing p a with
  | zero => exact ⟨p, rfl, .refl h⟩
  | succ k ih =>
    obtain ⟨r, hr, hkeep⟩ := h.freePage ha
    obtain ⟨q, hq, hkeep'⟩ := ih (a := sub32 a 1) hkeep.framesPresent (Nat.mod_lt _ (by decide))
    exact ⟨q, by rw [freeBlock, hr, Option.bind_some, hq], hkeep.trans hkeep'⟩

theorem FramesPresent.dealloc (h : FramesPresent s.paging) (hlast : s.memLastpage < 4294967296)
    (pages : ℤ) : ∃ s', memoryDeallocPages s pages = some s' ∧ KeepsPresent s.paging s'.paging ∧
      s'.memLastpage < 4294967296 := by
  rw [memoryDeallocPages]
  split_ifs with hpages
  · exact ⟨s, rfl, .refl h, hlast⟩
  · obtain ⟨q, hq, hkeep⟩ := keepsPresent_freeBlock (k := pages.toNat) h hlast
    rw [hq]
    exact ⟨_, rfl, hkeep, Nat.mod_lt _ (by decide)⟩

/-! ## Every run -/

/-- The invariant of the runs. -/
structure MemoryInv (s : Memory) : Prop where
  paging : FramesPresent s.paging
  memLastpage_lt : s.memLastpage < 4294967296

theorem MemoryInv.step {op : MemoryOp} (h : MemoryInv s) (hs : s.step op = some s') :
    MemoryInv s' := by
  have hcall {pages : ℤ} {r : Memory × ℕ} (hr : memallocp s pages = some r) : MemoryInv r.1 := by
    by_cases hpages : pages ≤ 0
    · rw [memallocp, if_pos hpages] at hr
      exact Option.some.inj hr ▸ h
    · obtain ⟨k, rfl⟩ := Int.eq_ofNat_of_zero_le (show 0 ≤ pages by omega)
      have hcall := h.paging.memallocp (by omega) hr
      exact ⟨hcall.keeps.framesPresent, hcall.memLastpage_lt⟩
  cases op with
  | sbrk amount =>
    obtain ⟨r, hr, rfl⟩ := Option.map_eq_some_iff.1 hs
    rw [sbrk] at hr
    split_ifs at hr
    · exact Option.some.inj hr ▸ h
    · exact hcall hr
  | memallocp pages =>
    obtain ⟨r, hr, rfl⟩ := Option.map_eq_some_iff.1 hs
    exact hcall hr
  | dealloc pages =>
    obtain ⟨t, ht, hkeep, hlast⟩ := h.paging.dealloc h.memLastpage_lt pages
    obtain rfl := Option.some.inj (ht.symm.trans hs)
    exact ⟨hkeep.framesPresent, hlast⟩

/-- The pages that `paging_init` did not map have room for their tables. -/
theorem Mapped.tablesBelow {b : ℕ} (h : Mapped b (tableCount n) n p) (hn₀ : n ≠ 0)
    (heq : n * 0x1000 = tableBase b + 0x2000 * tableCount n) (hn : n < 0x100000) :
    TablesBelow 1024 p := by
  obtain ⟨hplacement, -, haligned, hplaced, hinj, hphysical⟩ := h.pageTables hn₀ heq hn
  refine ⟨hplacement, ?_, haligned, hplaced, hinj, hphysical⟩
  have hcount := tableCount_ne_zero hn₀
  have hplace : p.placementAddress = n * 0x1000 - 0x1000 := by
    rw [h.placementAddress, placedAfter, if_neg hcount, heq]
  have hbase : tableBase b ≠ 0 := Nat.succ_ne_zero _
  have hcard : (missingBelow 1024 p).card ≤ 1024 - tableCount n := by
    rw [← Nat.card_Ico]
    refine Finset.card_le_card fun i hi => ?_
    obtain ⟨hi, hzero⟩ := Finset.mem_filter.1 hi
    rw [h.tables] at hzero
    refine Finset.mem_Ico.2 ⟨Nat.not_lt.1 fun hlt => ?_, Finset.mem_range.1 hi⟩
    rw [if_pos hlt] at hzero
    omega
  have := le_tableCount n
  omega

theorem MemoryInv.of_init (h : deallocSystem.init s) : MemoryInv s := by
  obtain ⟨s₀, q, hp, hfit, hq, rfl⟩ := h
  obtain ⟨q', n, hq', hn, hn₀, heq, -, h, -⟩ := pagingInit_spec s₀ hp hfit
  obtain rfl := Option.some.inj (hq'.symm.trans hq)
  have hpages := h.identityPages (h.pageTables hn₀ heq hn)
  refine ⟨⟨h.tablesBelow hn₀ heq hn, h.frameAmount, fun m hm => ?_⟩, Nat.mod_lt _ (by decide)⟩
  by_cases hlt : m < n
  · exact (hpages.mapped m hlt).1
  · exact absurd (hpages.unmapped m (Nat.not_lt.1 hlt)).2 hm

/-- The first page that a call returns is still present when the pages are taken back. -/
theorem MemoryInv.dealloc_present (h : MemoryInv s) (hn : 1 ≤ n)
    (hr : memallocp s n = some (s', address)) :
    ∃ t, memoryDeallocPages s' n = some t ∧
    (pageEntry t.paging (address / 0x1000)).present = true := by
  have hcall := h.paging.memallocp hn hr
  obtain ⟨t, ht, hkeep', -⟩ := hcall.keeps.framesPresent.dealloc hcall.memLastpage_lt n
  exact ⟨t, ht, hkeep'.keeps _ hcall.present⟩

theorem Undone.not_present {t : Memory} (h : Undone s address n t) (hn : 1 ≤ n) :
    (pageEntry t.paging (address / 0x1000)).present ≠ true := by
  have := h.unmapped 0 hn
  rw [Nat.add_zero] at this
  rw [this]
  exact Bool.false_ne_true

/-- The invariant holds in every reachable state. -/
theorem memoryInv_of_reachable (hs : deallocSystem.Reachable s) : MemoryInv s :=
  hs.of_step (fun _ => .of_init) fun _ _ _ h _ hstep => h.step hstep

/-- In no state reachable by any calls does `memory_dealloc_pages(n)`, right after a
    `memallocp(n)` that returned, undo it. -/
theorem dealloc_never_undoes (hs : deallocSystem.Reachable s) (hn : 1 ≤ n)
    (hr : memallocp s n = some (s', address)) :
    ∃ t, memoryDeallocPages s' n = some t ∧ ¬Undone s address n t := by
  obtain ⟨t, ht, hpresent⟩ := (memoryInv_of_reachable hs).dealloc_present hn hr
  exact ⟨t, ht, fun hu => hu.not_present hn hpresent⟩

/-- One page after the boot of a kernel that ends at 1 MB. -/
theorem exists_memallocp_one : ∃ s s' address, deallocSystem.Reachable s ∧
    memallocp s (1 : ℕ) = some (s', address) := by
  obtain ⟨q, n, t, hq, hr, -⟩ := exists_run_sbrk 0x100000 (by decide) (by decide)
  cases hr with
  | cons hg hs _ =>
    obtain ⟨r, hr, -⟩ := Option.bind_eq_some_iff.1 hs
    refine ⟨memoryInit q, r.1, r.2, ⟨_, [], ?_, .nil _⟩, hr⟩
    exact ⟨coldBoot 0x100000, q, le_refl 0x100000, fits_iff.2 (by decide), hq, rfl⟩

theorem dealloc_never_undoes_one : ∃ s s' address t, memallocp s (1 : ℕ) = some (s', address) ∧
    memoryDeallocPages s' (1 : ℕ) = some t ∧ ¬Undone s address 1 t := by
  obtain ⟨s, s', address, hs, hr⟩ := exists_memallocp_one
  obtain ⟨t, ht, hundone⟩ := dealloc_never_undoes hs le_rfl hr
  exact ⟨s, s', address, t, hr, ht, hundone⟩

/-- The page is still mapped when it has been taken back. -/
theorem freed_page_stays_present : ∃ s s' address t, deallocSystem.Reachable s ∧
    memallocp s (1 : ℕ) = some (s', address) ∧ memoryDeallocPages s' (1 : ℕ) = some t ∧
    (pageEntry t.paging (address / 0x1000)).present = true ∧ ¬Undone s address 1 t := by
  obtain ⟨s, s', address, hs, hr⟩ := exists_memallocp_one
  obtain ⟨t, ht, hpresent⟩ := (memoryInv_of_reachable hs).dealloc_present le_rfl hr
  exact ⟨s, s', address, t, hs, hr, ht, hpresent, fun hu => hu.not_present le_rfl hpresent⟩

end Beryllium

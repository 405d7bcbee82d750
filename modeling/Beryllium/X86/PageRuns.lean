import Beryllium.X86.Dealloc

/-!
# Runs of pages

What `memallocp(k)` is meant to hand out (`PageRun.Whole`): the address of `k` whole pages
that were not in use, and are mapped then. `memory_mult_alloc_pages` passes the
address `block + i` to `paging_get_page` where it means the page `i` of the block, so it maps
the pages of `k` bytes only, and no call for two pages or more is whole.

For one page, it looks for a frame that is free, and maps the page of the same number. After
`memory_dealloc_pages`, which clears the bits of other frames and leaves the pages mapped, that
page may be in use, or the search may begin in the middle of it; otherwise the call is whole
(`FindsPage`). So this is exactly when all calls are (`memallocp_runs`). Before the first call of
`memory_dealloc_pages` the frames that are free are those whose pages are not mapped, and the
calls for one page are whole (`memallocp_runs_boot`).
-/

namespace Beryllium

open Machine

/-! ## Runs -/

/-- A call of `memallocp`: the address it returned, for so many pages, and the paging code
    before and after it. -/
structure PageRun where
  address : ℕ
  pages : ℕ
  before : Paging
  after : Paging

/-- The memory, and the calls that have returned. -/
structure RunState where
  memory : Memory
  runs : List PageRun

/-- A call, if it does not halt. -/
def RunState.step (s : RunState) (pages : ℤ) : Option RunState :=
  (memallocp s.memory pages).map fun r =>
    ⟨r.1, ⟨r.2, pages.toNat, s.memory.paging, r.1.paging⟩ :: s.runs⟩

/-- Calls of `memallocp` for one page or more, from any state that calls of `sbrk`, `memallocp`
    and `memory_dealloc_pages` reach after the boot. -/
def runSystem : System RunState ℤ where
  init s := deallocSystem.Reachable s.memory ∧ s.runs = []
  guard _ pages := 1 ≤ pages
  step := RunState.step

/-! ## Whole runs of pages -/

/-- The call handed out whole pages: its address is that of a page, its pages are present
    after the call, and neither they nor their frames were in use before. -/
structure PageRun.Whole (r : PageRun) : Prop where
  aligned : r.address % 0x1000 = 0
  present : ∀ i < r.pages, (pageEntry r.after (r.address / 0x1000 + i)).present = true
  unused : ∀ i < r.pages, (pageEntry r.before (r.address / 0x1000 + i)).present = false ∧
    ¬Used r.before.pa (r.address / 0x1000 + i)

/-- The pages of two calls are disjoint. -/
def PageRun.Disjoint (r r' : PageRun) : Prop :=
  r.address + r.pages * 0x1000 ≤ r'.address ∨ r'.address + r'.pages * 0x1000 ≤ r.address

/-- The calls have handed out whole runs of pages, which are disjoint. -/
structure RunsWhole (s : RunState) : Prop where
  whole : ∀ r ∈ s.runs, r.Whole
  disjoint : s.runs.Pairwise PageRun.Disjoint

/-- The frame that the search looks at when its loop counter is `i` is in use. -/
def SearchUsed (s : Memory) (i : ℕ) : Prop := Used s.paging.pa (searchPos s i / 0x1000)

/-- The call is for one page. The search begins at the first byte of a page, or in a frame that is
    in use; and the page of the first frame that is free from there on is not mapped. -/
structure FindsPage (s : RunState) (pages : ℤ) : Prop where
  pages : pages = 1
  start : searchPos s.memory 0 % 0x1000 = 0 ∨ SearchUsed s.memory 0
  unmapped : ∀ i, (∀ j < i, SearchUsed s.memory j) → ¬SearchUsed s.memory i →
    (pageEntry s.memory.paging (searchPos s.memory i / 0x1000)).present = false

variable {s s' : RunState} {m m' : Memory} {r r' : PageRun} {n k i fuel address : ℕ} {ops : List ℤ}
  {pages : ℤ}

/-! ## One page -/

/-- The search for one page finds the first byte whose frame is free. -/
theorem searchBlock_one (hi : ∀ j < i, SearchUsed m j)
    (h : searchBlock m 1 fuel i = some (some address)) :
    ∃ i, (∀ j < i, SearchUsed m j) ∧ ¬SearchUsed m i ∧ address = searchPos m i := by
  induction fuel generalizing i with
  | zero => cases h
  | succ fuel ih =>
    by_cases hlt : i < m.paging.pa.frameAmount
    · have hfit : searchPos m i + 1 ≤ m.paging.pa.frameAmount := Nat.mod_lt _ (by omega)
      by_cases hused : SearchUsed m i
      · rw [searchBlock_used hlt Nat.one_pos hfit hused] at h
        refine ih (fun j hj => ?_) h
        rcases (Nat.lt_succ_iff.1 hj).eq_or_lt with rfl | hj
        · exact hused
        · exact hi j hj
      · have htest : ¬paTestFrame m.paging.pa (searchPos m i) ≠ 0#32 :=
          mt paTestFrame_ne_zero.1 hused
        rw [searchBlock, if_pos hlt] at h
        dsimp only at h
        rw [if_neg (Nat.not_lt.2 hfit), firstFrom, firstFrom, Nat.zero_div, Nat.add_zero,
          if_neg htest, Option.none_or] at h
        exact ⟨i, hi, hused, (Option.some.inj (Option.some.inj h)).symm⟩
    · rw [searchBlock, if_neg hlt] at h
      cases h

/-- The search goes on with the next byte, or with the first one, where the end is reached or the
    sum wraps. -/
theorem searchPos_succ (h : m.paging.pa.frameAmount = 0x3C00000) (i : ℕ) :
    searchPos m (i + 1) = searchPos m i + 1 ∨ searchPos m (i + 1) = 0 := by
  have hword : add32 (i + 1) m.memLastpage = add32 i m.memLastpage + 1 ∨
      add32 (i + 1) m.memLastpage = 0 := by
    rw [add32, add32]
    omega
  rw [searchPos, searchPos, h]
  rcases hword with hword | hword <;> omega

/-- A byte that is found is the first one of its page, if the search does not begin in its
    middle. -/
theorem aligned_of_start (h : m.paging.pa.frameAmount = 0x3C00000)
    (hstart : searchPos m 0 % 0x1000 = 0 ∨ SearchUsed m 0)
    (hused : ∀ j < i, SearchUsed m j) (hfree : ¬SearchUsed m i) : searchPos m i % 0x1000 = 0 := by
  cases i with
  | zero => exact hstart.resolve_right hfree
  | succ i =>
    have hprev := hused i (Nat.lt_succ_self i)
    have hne : searchPos m i / 0x1000 ≠ searchPos m (i + 1) / 0x1000 := by
      intro heq
      rw [SearchUsed, heq] at hprev
      exact hfree hprev
    rcases searchPos_succ h i with hpos | hpos <;> omega

/-- The first byte whose frame is free is unique. -/
theorem first_free_unique {j : ℕ} (hi : ∀ l < i, SearchUsed m l) (hi' : ¬SearchUsed m i)
    (hj : ∀ l < j, SearchUsed m l) (hj' : ¬SearchUsed m j) : i = j := by
  rcases Nat.lt_trichotomy i j with h | h | h
  · exact absurd (hj i h) hi'
  · exact h
  · exact absurd (hi j h) hj'

/-- A call that returns hands out whole pages if and only if it finds a page. -/
theorem MemoryInv.whole_iff (h : MemoryInv s.memory) (hk : 0 < k)
    (hcall : Allocated k s.memory m' address) :
    PageRun.Whole ⟨address, k, s.memory.paging, m'.paging⟩ ↔ FindsPage s k := by
  have hamount := h.paging.frameAmount
  constructor
  · intro hw
    have haligned : address % 0x1000 = 0 := hw.aligned
    have hone : k = 1 := by
      by_contra hne
      -- the last page is not one of those that are mapped
      have hlast := hw.present (k - 1) (show k - 1 < k by omega)
      have hbefore := (hw.unused (k - 1) (show k - 1 < k by omega)).1
      dsimp only at hlast hbefore
      rw [hcall.others _ fun i hi => by omega, hbefore] at hlast
      cases hlast
    subst hone
    obtain ⟨i, hused, hfree, rfl⟩ :=
      searchBlock_one (fun j hj => absurd hj (Nat.not_lt_zero j)) hcall.found
    refine ⟨rfl, ?_, fun j hj hj' => ?_⟩
    · rcases Nat.eq_zero_or_pos i with rfl | hi
      · exact .inl haligned
      · exact .inr (hused 0 hi)
    · obtain rfl := first_free_unique hused hfree hj hj'
      exact (hw.unused 0 Nat.one_pos).1
  · rintro ⟨hpages, hstart, hunmapped⟩
    obtain rfl : k = 1 := Int.ofNat.inj hpages
    obtain ⟨i, hused, hfree, rfl⟩ :=
      searchBlock_one (fun j hj => absurd hj (Nat.not_lt_zero j)) hcall.found
    refine ⟨aligned_of_start hamount hstart hused hfree, fun j hj => ?_, fun j hj => ?_⟩
    · obtain rfl := Nat.lt_one_iff.1 hj
      exact hcall.present
    · obtain rfl := Nat.lt_one_iff.1 hj
      exact ⟨hunmapped i hused hfree, hfree⟩

/-! ## Every run -/

/-- The invariant of the runs: the pages of a whole run stay present. -/
structure RunInv (s : RunState) : Prop where
  memory : MemoryInv s.memory
  pos : ∀ r ∈ s.runs, 0 < r.pages
  present : ∀ r ∈ s.runs, r.Whole → ∀ i < r.pages,
    (pageEntry s.memory.paging (r.address / 0x1000 + i)).present = true

/-- A call for one page or more that returns. -/
theorem RunInv.call (h : RunInv s) (hpages : 1 ≤ pages) (hstep : s.step pages = some s') :
    ∃ (k : ℕ) (m : Memory) (address : ℕ), 0 < k ∧ pages = k ∧ Allocated k s.memory m address ∧
      s' = ⟨m, ⟨address, k, s.memory.paging, m.paging⟩ :: s.runs⟩ := by
  obtain ⟨k, rfl⟩ := Int.eq_ofNat_of_zero_le (show 0 ≤ pages by omega)
  obtain ⟨⟨m, address⟩, hr, rfl⟩ := Option.map_eq_some_iff.1 hstep
  have hk : 0 < k := by omega
  exact ⟨k, m, address, hk, rfl, h.memory.paging.memallocp hk hr, rfl⟩

theorem RunInv.step (h : RunInv s) (hpages : 1 ≤ pages) (hstep : s.step pages = some s') :
    RunInv s' := by
  obtain ⟨k, m, address, hk, rfl, hcall, rfl⟩ := h.call hpages hstep
  refine ⟨⟨hcall.keeps.framesPresent, hcall.memLastpage_lt⟩, List.forall_mem_cons.2 ⟨hk, h.pos⟩,
    fun r hr hw i hi => ?_⟩
  rcases List.mem_cons.1 hr with rfl | hr
  · exact hw.present i hi
  · exact hcall.keeps.keeps _ (h.present r hr hw i hi)

/-- Of two whole runs, if the pages of the second are present before the first, they are
    disjoint. -/
theorem PageRun.Whole.disjoint (h : r.Whole) (h' : r'.Whole) (hpos : 0 < r.pages)
    (hpos' : 0 < r'.pages)
    (hpresent : ∀ i < r'.pages, (pageEntry r.before (r'.address / 0x1000 + i)).present = true) :
    r.Disjoint r' := by
  have haligned := h.aligned
  have haligned' := h'.aligned
  by_contra hn
  rw [PageRun.Disjoint, not_or, Nat.not_le, Nat.not_le] at hn
  -- the page where both runs are
  obtain ⟨i, j, hi, hj, heq⟩ : ∃ i j, i < r.pages ∧ j < r'.pages ∧
      r.address / 0x1000 + i = r'.address / 0x1000 + j := by
    rcases Nat.le_total (r.address / 0x1000) (r'.address / 0x1000) with hle | hle
    · exact ⟨r'.address / 0x1000 - r.address / 0x1000, 0, by omega, by omega, by omega⟩
    · exact ⟨0, r.address / 0x1000 - r'.address / 0x1000, by omega, by omega, by omega⟩
  have hnone := (h.unused i hi).1
  rw [heq, hpresent j hj] at hnone
  cases hnone

theorem RunInv.runsWhole_step (h : RunInv s) (hpages : 1 ≤ pages) (hstep : s.step pages = some s') :
    RunsWhole s' ↔ RunsWhole s ∧ FindsPage s pages := by
  obtain ⟨k, m, address, hk, rfl, hcall, rfl⟩ := h.call hpages hstep
  have hiff := h.memory.whole_iff hk hcall
  constructor
  · rintro ⟨hwhole, hdisjoint⟩
    obtain ⟨hnew, hold⟩ := List.forall_mem_cons.1 hwhole
    exact ⟨⟨hold, hdisjoint.of_cons⟩, hiff.1 hnew⟩
  · rintro ⟨⟨hwhole, hdisjoint⟩, hfinds⟩
    have hnew := hiff.2 hfinds
    refine ⟨List.forall_mem_cons.2 ⟨hnew, hwhole⟩, List.pairwise_cons.2 ⟨fun r hr => ?_, hdisjoint⟩⟩
    exact hnew.disjoint (hwhole r hr) hk (h.pos r hr) (h.present r hr (hwhole r hr))

/-- The runs are whole if and only if every call finds a page. -/
theorem RunInv.runsWhole_iff (h : RunInv s) (hw : RunsWhole s) (hr : runSystem.Run s ops s') :
    RunsWhole s' ↔ (runSystem.restrict FindsPage).Run s ops s' :=
  hr.iff_restrict (P := RunInv) (fun _ _ _ h hg hst => h.step hg hst)
    (fun _ _ _ h hg hst => h.runsWhole_step hg hst) h hw

theorem runInv_of_init (h : runSystem.init s) : RunInv s ∧ RunsWhole s := by
  obtain ⟨hreach, hruns⟩ := h
  have hnone {P : PageRun → Prop} : ∀ r ∈ s.runs, P r := by
    rw [hruns]
    exact fun r hr => absurd hr List.not_mem_nil
  refine ⟨⟨memoryInv_of_reachable hreach, hnone, hnone⟩, hnone, ?_⟩
  rw [hruns]
  exact .nil

/-- In every run of calls of `memallocp` that return, from any state after the boot, the calls
    hand out whole, separate runs of pages if and only if each is for one page and finds one. -/
theorem memallocp_runs (hinit : runSystem.init s) (hr : runSystem.Run s ops s') :
    RunsWhole s' ↔ (runSystem.restrict FindsPage).Run s ops s' := by
  obtain ⟨h, hw⟩ := runInv_of_init hinit
  exact h.runsWhole_iff hw hr

/-! ## Before any page is taken back -/

/-- The calls that leave the frames alone that are in use. -/
def MemoryOp.Takes : MemoryOp → Prop
  | .dealloc _ => False
  | _ => True

/-- A call of `memallocp` that does not end in a panic keeps the invariant. -/
theorem HeapBreak.of_memallocp {r : Memory × ℕ} (h : HeapBreak n m)
    (hr : Beryllium.memallocp m pages = some r) : ∃ n, HeapBreak n r.1 := by
  by_cases hpages : pages ≤ 0
  · rw [Beryllium.memallocp, if_pos hpages] at hr
    rw [← Option.some.inj hr]
    exact ⟨n, h⟩
  · obtain ⟨k, rfl⟩ := Int.eq_ofNat_of_zero_le (show 0 ≤ pages by omega)
    rcases h.memallocp (k := k) (by omega) with ⟨-, q, hq, h'⟩ | ⟨-, hq⟩
    · obtain rfl := Option.some.inj (hq.symm.trans hr)
      exact ⟨_, h'⟩
    · cases hq.symm.trans hr

/-- The break after any calls that take pages. -/
theorem heapBreak_of_takes (hm : (deallocSystem.restrict fun _ op => op.Takes).Reachable m) :
    ∃ n, HeapBreak n m := by
  refine hm.of_step (P := fun m => ∃ n, HeapBreak n m) ?_ ?_
  · rintro m ⟨s₀, q, hp, hfit, hq, rfl⟩
    exact ⟨_, (postBoot_of_pagingInit hp hfit hq).heapBreak⟩
  · rintro m op m' ⟨n, h⟩ ⟨-, htakes⟩ hstep
    cases op with
    | sbrk amount =>
      obtain ⟨r, hr, rfl⟩ := Option.map_eq_some_iff.1 hstep
      rw [sbrk] at hr
      split_ifs at hr
      · rw [← Option.some.inj hr]
        exact ⟨n, h⟩
      · exact h.of_memallocp hr
    | memallocp pages =>
      obtain ⟨r, hr, rfl⟩ := Option.map_eq_some_iff.1 hstep
      exact h.of_memallocp hr
    | dealloc pages => exact htakes.elim

/-- The frames that are free are those whose pages are not mapped. -/
theorem HeapBreak.findsPage (h : HeapBreak n s.memory) : FindsPage s 1 := by
  have hamount := h.pages.frameAmount
  have hle := h.memLastpage_le
  have hlt := h.lt_memLastpage
  have hbound (i : ℕ) : searchPos s.memory i < 0x3C00000 := by
    rw [searchPos, hamount]
    exact Nat.mod_lt _ (by decide)
  have hiff (i : ℕ) : SearchUsed s.memory i ↔ searchPos s.memory i / 0x1000 < n := by
    have := hbound i
    exact h.pages.used_iff _ (by omega)
  refine ⟨rfl, ?_, fun i _ hfree => ?_⟩
  · -- the break is the end of a page or lies in the last one
    rw [hiff, searchPos, hamount, add32]
    omega
  · rw [hiff, Nat.not_lt] at hfree
    exact (h.pages.unmapped _ hfree).1

/-- From states where no page has been taken back, the runs are whole if and only if each call is
    for one page. -/
theorem memallocp_runs_boot (hs : (deallocSystem.restrict fun _ op => op.Takes).Reachable s.memory)
    (hruns : s.runs = []) (hr : runSystem.Run s ops s') : RunsWhole s' ↔ ∀ k ∈ ops, k = 1 := by
  obtain ⟨s₀, xs, h₀, hxs⟩ := hs
  obtain ⟨h, hw⟩ := runInv_of_init ⟨⟨s₀, xs, h₀, hxs.of_restrict⟩, hruns⟩
  rw [h.runsWhole_iff hw hr]
  constructor
  · intro hfinds
    refine hfinds.forall_mem (p := fun k => k = 1) fun t k hg => ?_
    exact hg.2.pages
  · intro hone
    have hcalls := hr.restrict (C := fun _ k => k = 1) fun k hk _ => hone k hk
    refine hcalls.restrict_mono (P := fun s => ∃ n, HeapBreak n s.memory) ?_
      (heapBreak_of_takes ⟨s₀, xs, h₀, hxs⟩)
    rintro s k s' ⟨n, h⟩ - rfl hst
    obtain ⟨r, hr, rfl⟩ := Option.map_eq_some_iff.1 hst
    exact ⟨h.of_memallocp hr, h.findsPage⟩

/-! ## One page, and two -/

/-- A call for `k` pages after the boot of a kernel that ends at 1 MB. -/
theorem exists_run (k : ℕ) (hk : 0 < k) (hk' : k ≤ 0x1000) : ∃ s s', runSystem.init s ∧
    runSystem.Run s [(k : ℤ)] s' ∧ FindsPage s 1 := by
  obtain ⟨q, n, -, hq, -, hfirst, heq, -⟩ := exists_run_sbrk 0x100000 (by decide) (by decide)
  have hp : 0x100000 ≤ (coldBoot 0x100000).placementAddress := le_refl 0x100000
  have hfit : Fits (coldBoot 0x100000).placementAddress :=
    fits_iff.2 (by decide : 0x100000 < 0xFF61C000)
  have hboot := (postBoot_of_pagingInit hp hfit hq).heapBreak
  have hinit : runSystem.init ⟨memoryInit q, []⟩ :=
    ⟨⟨_, [], ⟨coldBoot 0x100000, q, hp, hfit, hq, rfl⟩, .nil _⟩, rfl⟩
  rcases hboot.memallocp hk with ⟨-, p, hp, -⟩ | ⟨hfull, -⟩
  · refine ⟨_, _, hinit, .cons ?_ (congrArg (Option.map _) hp) (.nil _), hboot.findsPage⟩
    change (1 : ℤ) ≤ k
    omega
  · rw [hfirst] at hfull
    rw [show tableBase (afterDirectory 0x100000) = 0x2E4000 from rfl, tableCount] at heq
    omega

theorem memallocp_runs_one : ∃ s s', runSystem.Run s [(1 : ℕ)] s' ∧ RunsWhole s' := by
  obtain ⟨s, s', hinit, hr, hfinds⟩ := exists_run 1 (by decide) (by decide)
  refine ⟨s, s', hr, (memallocp_runs hinit hr).2 ?_⟩
  obtain ⟨hg, t, hst, hnil⟩ := System.run_cons.1 hr
  exact .cons ⟨hg, hfinds⟩ hst (System.run_nil.1 hnil ▸ .nil _)

/-- Of two pages, the second one is not mapped. -/
theorem two_pages_not_whole : ∃ s s', runSystem.init s ∧ runSystem.Run s [(2 : ℕ)] s' ∧
    ¬RunsWhole s' := by
  obtain ⟨s, s', hinit, hr, -⟩ := exists_run 2 (by decide) (by decide)
  obtain ⟨h, hw⟩ := runInv_of_init hinit
  refine ⟨s, s', hinit, hr, fun hwhole => ?_⟩
  cases (h.runsWhole_iff hw hr).1 hwhole with
  | cons hg _ _ => exact absurd hg.2.pages (by decide)

end Beryllium

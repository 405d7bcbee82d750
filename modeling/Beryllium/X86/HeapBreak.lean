import Beryllium.X86.Memory
import Beryllium.X86.PageMap

/-!
# The break of the heap

Calls of `memallocp` and `sbrk` for any number of pages, from any state after the boot in
which the frames and pages below a bound are those in use (`PostBoot`). A call counts
in bytes: `memallocp(k)` maps the pages of the next `k` *bytes*, and moves `mem_lastpage`
to their end (`HeapBreak.memallocp`), so the pages in use stay those below a
bound, and `mem_lastpage` lies in the last of them or at its end (`HeapBreak`).

For calls of one page this is what `malloc` relies on (`sbrk_heap`): the break only moves
up, and the bytes below it are mapped to frames of their own.
-/

namespace Beryllium

open Machine

/-- The pages below `n` are mapped to the frames of the same number, and nothing else is in
    use, of the frames that have a bit in the bitmap. -/
structure IdentityPages (n : ℕ) (s : Paging) : Prop where
  tables : PageTables s
  frameAmount : s.pa.frameAmount = 0x3C00000
  used_iff : ∀ f < 0xF00000, Used s.pa f ↔ f < n
  mapped : ∀ m < n, (pageEntry s m).present = true ∧ (pageEntry s m).frame = m
  unmapped : ∀ m, n ≤ m → (pageEntry s m).present = false ∧ (pageEntry s m).frame = 0

/-- The memory after the boot, with `n` pages in use. -/
structure PostBoot (n : ℕ) (s : Memory) : Prop where
  pages : IdentityPages n s.paging
  pos : 0 < n
  memLastpage : s.memLastpage = n * 0x1000

/-- The pages below `n` are in use, and the break lies in the last of them, or at its end. -/
structure HeapBreak (n : ℕ) (s : Memory) : Prop where
  pages : IdentityPages n s.paging
  pos : 0 < n
  memLastpage_le : s.memLastpage ≤ n * 0x1000
  lt_memLastpage : (n - 1) * 0x1000 < s.memLastpage

variable {s s' : Memory} {p : Paging} {n k i d a fuel : ℕ}

theorem PostBoot.heapBreak (h : PostBoot n s) : HeapBreak n s := by
  have hpos := h.pos
  refine ⟨h.pages, h.pos, h.memLastpage.le, ?_⟩
  rw [h.memLastpage]
  omega

/-! ## Mapping pages -/

/-- The next page is mapped to the next frame. -/
theorem IdentityPages.next (h : IdentityPages n p) (ha : a / 0x1000 = n) (hn : n < 0x3C00) :
    ∃ q, allocPage p a = some q ∧ IdentityPages (n + 1) q := by
  have hamount := h.frameAmount
  have hbitmap : Bitmap 0xF000 n p.pa := ⟨hamount, h.used_iff⟩
  have hfirst : paFirstFrame p.pa = n := (hbitmap.first (by omega) (by omega)).1
  have halloc : paAllocFrame p.pa (pageEntry p (a / 0x1000)) 0 0 =
      some (paSetFrame p.pa (mul32 n 0x1000), ⟨true, false, true, n⟩) := by
    have hne : n ≠ noFrame := by
      rw [noFrame]
      omega
    rw [paAllocFrame, if_neg (by decide), if_neg (not_not.2 (h.unmapped _ ha.ge).2), hfirst]
    dsimp only
    rw [if_neg hne, Nat.mod_eq_of_lt (by omega)]
    rfl
  obtain ⟨q, hq, htables, hpa, hentry⟩ := h.tables.allocPage (by omega) halloc
  refine ⟨q, hq, htables, ?_, fun f hf => ?_, fun m hm => ?_, fun m hm => ?_⟩
  · rw [hpa]
    exact hamount
  · rw [hpa, used_paSetFrame, mul32_div, Nat.mod_eq_of_lt (by omega), h.used_iff f hf]
    omega
  · rw [hentry, ha]
    rcases (Nat.lt_succ_iff.1 hm).eq_or_lt with rfl | hm
    · rw [Function.update_self]
      exact ⟨rfl, rfl⟩
    · rw [Function.update_of_ne hm.ne]
      exact h.mapped m hm
  · rw [hentry, ha, Function.update_of_ne (by omega)]
    exact h.unmapped m (by omega)

/-- A page that is mapped keeps its frame. -/
theorem IdentityPages.again (h : IdentityPages n p) (ha : a / 0x1000 < n) (ha₀ : a / 0x1000 ≠ 0)
    (hn : n ≤ 0x3C00) : ∃ q, allocPage p a = some q ∧ IdentityPages n q := by
  have halloc : paAllocFrame p.pa (pageEntry p (a / 0x1000)) 0 0 =
      some (p.pa, pageEntry p (a / 0x1000)) := by
    rw [paAllocFrame, if_neg (by decide), if_pos]
    rw [(h.mapped _ ha).2]
    exact ha₀
  obtain ⟨q, hq, htables, hpa, hentry⟩ := h.tables.allocPage (by omega) halloc
  rw [Function.update_eq_self] at hentry
  refine ⟨q, hq, htables, ?_, ?_, ?_, ?_⟩
  · rw [hpa]
    exact h.frameAmount
  · rw [hpa]
    exact h.used_iff
  · rw [hentry]
    exact h.mapped
  · rw [hentry]
    exact h.unmapped

/-- The pages that `k` bytes take. -/
def pagesOf (k : ℕ) : ℕ := (k + 0xFFF) / 0x1000

/-- The loop of `memory_mult_alloc_pages` maps the pages of `k` bytes. -/
theorem IdentityPages.allocBlock (h : IdentityPages n p) (hn : 0 < n)
    (hk : n * 0x1000 + k ≤ 0x3C00000) :
    ∃ q, allocBlock (n * 0x1000) k p = some q ∧ IdentityPages (n + pagesOf k) q := by
  induction k with
  | zero => exact ⟨p, rfl, h⟩
  | succ k ih =>
    obtain ⟨q, hq, h'⟩ := ih (by omega)
    rw [Beryllium.allocBlock, hq, Option.bind_some]
    rw [pagesOf] at h'
    by_cases hk₀ : k % 0x1000 = 0
    · -- the byte is the first of the next page
      obtain ⟨r, hr, h''⟩ := h'.next (a := n * 0x1000 + k) (by omega) (by omega)
      refine ⟨r, hr, ?_⟩
      rw [pagesOf, show n + (k + 1 + 0xFFF) / 0x1000 = n + (k + 0xFFF) / 0x1000 + 1 by omega]
      exact h''
    · obtain ⟨r, hr, h''⟩ := h'.again (a := n * 0x1000 + k) (by omega) (by omega) (by omega)
      refine ⟨r, hr, ?_⟩
      rw [pagesOf, show (k + 1 + 0xFFF) / 0x1000 = (k + 0xFFF) / 0x1000 by omega]
      exact h''

/-! ## One call -/

theorem pagesOf_bounds (hk : 0 < k) (hn : 0 < n) :
    n * 0x1000 + k ≤ (n + pagesOf k) * 0x1000 ∧ (n + pagesOf k - 1) * 0x1000 < n * 0x1000 + k := by
  rw [pagesOf]
  omega

/-- A call that fits takes the pages of the next `k` bytes; one that does not halts. -/
theorem HeapBreak.memallocp (h : HeapBreak n s) (hk : 0 < k) :
    (n * 0x1000 + k ≤ 0x3C00000 ∧ ∃ q, memallocp s k = some (⟨q, n * 0x1000 + k⟩, n * 0x1000) ∧
      HeapBreak (n + pagesOf k) ⟨q, n * 0x1000 + k⟩) ∨
    (0x3C00000 < n * 0x1000 + k ∧ memallocp s k = none) := by
  have hpos := h.pos
  have hk' : ¬(k : ℤ) ≤ 0 := by omega
  rw [Beryllium.memallocp, if_neg hk', memoryMultAllocPages,
    if_neg (by rw [h.pages.frameAmount]; decide), Int.toNat_natCast,
    searchBlock_eq h.pages.frameAmount hk h.pages.used_iff h.memLastpage_le]
  by_cases hfit : n * 0x1000 + k ≤ 0x3C00000
  · obtain ⟨q, hq, h'⟩ := h.pages.allocBlock h.pos hfit
    have hadd : add32 (n * 0x1000) k = n * 0x1000 + k := add32_eq (hfit.trans_lt (by decide))
    have hne : n * 0x1000 ≠ 0 := Nat.mul_ne_zero hpos.ne' (by decide)
    obtain ⟨hle, hlt⟩ := pagesOf_bounds hk hpos
    refine .inl ⟨hfit, q, ?_, ⟨h', Nat.add_pos_left hpos _, hle, hlt⟩⟩
    rw [if_pos hfit]
    simp only [Option.bind_eq_bind, Option.bind_some, hq, Option.pure_def, hadd, if_neg hne]
  · refine .inr ⟨Nat.not_le.1 hfit, ?_⟩
    rw [if_neg hfit]
    rfl

/-! ## After the boot -/

/-- The page tables of `paging_init`. -/
theorem Mapped.pageTables {b : ℕ} (h : Mapped b (tableCount n) n p) (hn₀ : n ≠ 0)
    (heq : n * 0x1000 = tableBase b + 0x2000 * tableCount n) (hn : n < 0x100000) :
    PageTables p := by
  have hcount := tableCount_ne_zero hn₀
  have hplace : p.placementAddress = n * 0x1000 - 0x1000 := by
    rw [h.placementAddress, placedAfter, if_neg hcount, heq]
  have hbase : tableBase b % 0x1000 = 0 ∧ tableBase b ≠ 0 := by
    rw [tableBase]
    omega
  refine ⟨?_, ?_, fun i => ?_, fun i => ?_, fun i j => ?_, fun i => ?_⟩
  · omega
  · have hcard : (missingTables p).card ≤ 15 :=
      (Finset.card_filter_le _ _).trans (Finset.card_range 15).le
    by_cases hlow : n < 0x3C00
    · -- there is room for all 15 tables
      omega
    · -- no table is missing then
      have hnone : missingTables p = ∅ := by
        refine Finset.filter_eq_empty_iff.2 fun i hi => ?_
        have hi := Finset.mem_range.1 hi
        rw [h.tables, if_pos (lt_tableCount_iff.2 (by omega))]
        omega
      rw [hnone, Finset.card_empty]
      omega
  · rw [h.tables]
    split_ifs <;> omega
  · rw [h.tables]
    split_ifs <;> omega
  · rw [h.tables, h.tables]
    split_ifs <;> omega
  · intro hi
    refine (h.tablesPhysical i).trans (if_pos ?_)
    rw [h.tables] at hi
    exact (ite_ne_right_iff.1 hi).1

theorem Mapped.identityPages {b : ℕ} (h : Mapped b (tableCount n) n p) (htables : PageTables p) :
    IdentityPages n p := by
  have hbase : tableBase b ≠ 0 := Nat.succ_ne_zero _
  have hentry (m : ℕ) : pageEntry p m = if m < n then ⟨true, false, true, m⟩ else PageT.zero := by
    have hlt : m < n → m / 1024 < tableCount n := div_lt_tableCount
    rw [pageEntry, h.tables]
    by_cases hm : m / 1024 < tableCount n
    · rw [if_pos hm, if_neg (by omega), h.page m (by omega)]
    · rw [if_neg hm, if_pos rfl, if_neg (mt hlt hm)]
  refine ⟨htables, h.frameAmount, h.used_iff, fun m hm => ?_, fun m hm => ?_⟩
  · rw [hentry, if_pos hm]
    exact ⟨rfl, rfl⟩
  · rw [hentry, if_neg hm.not_gt]
    exact ⟨rfl, rfl⟩

/-- The state that `paging_init` and `memory_init` leave. -/
theorem postBoot_of_pagingInit {s₀ q : Paging} (hp : 0x100000 ≤ s₀.placementAddress)
    (hfit : Fits s₀.placementAddress)
    (hq : pagingInit s₀ = some q) : PostBoot (paFirstFrame q.pa) (memoryInit q) := by
  obtain ⟨q', n, hq', hn, hn₀, heq, -, h, -⟩ := pagingInit_spec s₀ hp hfit
  obtain rfl : q' = q := Option.some.inj (hq'.symm.trans hq)
  have hfirst : paFirstFrame q'.pa = n := h.first hn
  rw [hfirst]
  refine ⟨h.identityPages (h.pageTables hn₀ heq hn), Nat.pos_of_ne_zero hn₀, ?_⟩
  rw [memoryInit, hfirst, mul32_eq (by omega)]

/-! ## The heap of malloc -/

/-- `sbrk(0)` and `sbrk(0x1000)`, from any state after the boot. -/
def sbrkSystem (n : ℕ) : System PageState PageOp where
  init s := PostBoot n s.memory
  guard _ op := op = .sbrk 0 ∨ op = .sbrk 0x1000
  step := PageState.step

/-- What `malloc` relies on, if the break was at the page `n` first. -/
structure HeapMapped (n : ℕ) (s : PageState) : Prop where
  /-- `sbrk(0)` returns `mem_lastpage`, and changes nothing. -/
  sbrk_zero : sbrk s.memory 0 = some (s.memory, s.memory.memLastpage)
  /-- `sbrk(0x1000)` does not halt as long as there is a free frame. -/
  progress : (∃ f < 0x3C00, ¬Used s.memory.paging.pa f) → ∃ s', s.step (.sbrk 0x1000) = some s'
  /-- The break moves up. -/
  lt_memLastpage : ∀ s', s.step (.sbrk 0x1000) = some s' →
      s.memory.memLastpage < s'.memory.memLastpage
  /-- The bytes up to the break lie in pages that are present. -/
  present : ∀ a, n * 0x1000 ≤ a → a < s.memory.memLastpage →
      ∃ e, hardwareWalk s.memory.paging a = some e
  /-- Bytes of distinct pages lie in distinct frames. -/
  frame_inj : ∀ a b, n * 0x1000 ≤ a → a < s.memory.memLastpage → n * 0x1000 ≤ b →
      b < s.memory.memLastpage →
    ∀ e e', hardwareWalk s.memory.paging a = some e → hardwareWalk s.memory.paging b = some e' →
      e.frame = e'.frame → a / 0x1000 = b / 0x1000

theorem IdentityPages.walk (h : IdentityPages n p) (ha : a / 0x1000 < n) :
    ∃ e, hardwareWalk p a = some e ∧ e.frame = a / 0x1000 := by
  obtain ⟨hpresent, hframe⟩ := h.mapped _ ha
  exact ⟨_, h.tables.walk hpresent, hframe⟩

variable {t t' : PageState}

/-- `sbrk(0x1000)` takes the next page. -/
theorem HeapBreak.sbrk_page (h : HeapBreak n t.memory) :
    (n < 0x3C00 ∧ ∃ m, t.step (.sbrk 0x1000) = some ⟨m, n * 0x1000 :: t.returned⟩ ∧
      HeapBreak (n + 1) m ∧ m.memLastpage = n * 0x1000 + 1) ∨
    (0x3C00 ≤ n ∧ t.step (.sbrk 0x1000) = none) := by
  have hsbrk : sbrk t.memory 0x1000 = Beryllium.memallocp t.memory (1 : ℕ) := rfl
  rw [PageState.step]
  dsimp only
  rw [hsbrk]
  rcases h.memallocp Nat.one_pos with ⟨hfit, q, hq, h'⟩ | ⟨hfull, hq⟩
  · rw [hq]
    exact .inl ⟨by omega, _, rfl, h', rfl⟩
  · rw [hq]
    exact .inr ⟨by omega, rfl⟩

theorem heapBreak_of_reachable (ht : (sbrkSystem n).Reachable t) :
    ∃ m, n ≤ m ∧ HeapBreak m t.memory := by
  refine ht.of_step (P := fun t => ∃ m, n ≤ m ∧ HeapBreak m t.memory) ?_ ?_
  · intro t h
    exact ⟨n, le_rfl, PostBoot.heapBreak h⟩
  · rintro t op t' ⟨m, hm, h⟩ (rfl | rfl) hstep
    · obtain rfl := Option.some.inj hstep
      exact ⟨m, hm, h⟩
    · rcases h.sbrk_page with ⟨-, q, hq, h', -⟩ | ⟨-, hq⟩
      · obtain rfl := Option.some.inj (hq.symm.trans hstep)
        exact ⟨m + 1, Nat.le_succ_of_le hm, h'⟩
      · cases hq.symm.trans hstep

/-- `sbrk` gives `malloc` what it relies on, in every run of calls for no or one page after
    the boot. -/
theorem sbrk_heap (ht : (sbrkSystem n).Reachable t) : HeapMapped n t := by
  obtain ⟨m, hm, h⟩ := heapBreak_of_reachable ht
  have hle := h.memLastpage_le
  have hwalk {a : ℕ} (ha : a < t.memory.memLastpage) :
      ∃ e, hardwareWalk t.memory.paging a = some e ∧ e.frame = a / 0x1000 :=
    h.pages.walk (by omega)
  refine ⟨rfl, ?_, ?_, ?_, ?_⟩
  · rintro ⟨f, hf, hfree⟩
    rw [h.pages.used_iff f (hf.trans (by decide))] at hfree
    rcases h.sbrk_page with ⟨-, q, hq, -⟩ | ⟨hfull, -⟩
    · exact ⟨_, hq⟩
    · omega
  · intro t' hstep
    rcases h.sbrk_page with ⟨-, q, hq, -, hlast⟩ | ⟨-, hq⟩
    · obtain rfl := Option.some.inj (hq.symm.trans hstep)
      change _ < q.memLastpage
      omega
    · cases hq.symm.trans hstep
  · intro a _ ha
    obtain ⟨e, he, -⟩ := hwalk ha
    exact ⟨e, he⟩
  · intro a b _ ha _ hb e e' he he' heq
    obtain ⟨e₁, h₁, hf₁⟩ := hwalk ha
    obtain ⟨e₂, h₂, hf₂⟩ := hwalk hb
    obtain rfl := Option.some.inj (h₁.symm.trans he)
    obtain rfl := Option.some.inj (h₂.symm.trans he')
    rw [← hf₁, ← hf₂, heq]

/-- The heap after a boot of a kernel that ends at 1 MB, and one call. -/
theorem sbrk_heap_oneMb : ∃ q t, pagingInit (coldBoot 0x100000) = some q ∧
    (sbrkSystem (paFirstFrame q.pa)).Run ⟨memoryInit q, []⟩ [.sbrk 0x1000] t ∧
    HeapMapped (paFirstFrame q.pa) t := by
  obtain ⟨q, n, s, hq, hr, hfirst, -⟩ := exists_run_sbrk 0x100000 (by decide) (by decide)
  have hboot : (sbrkSystem (paFirstFrame q.pa)).init ⟨memoryInit q, []⟩ :=
    postBoot_of_pagingInit (by exact le_refl 0x100000) (by exact fits_iff.2 (by decide)) hq
  obtain ⟨t, ht⟩ : ∃ t, PageState.step ⟨memoryInit q, []⟩ (.sbrk 0x1000) = some t := by
    cases hr with
    | cons _ hs _ => exact ⟨_, hs⟩
  have hrun : (sbrkSystem (paFirstFrame q.pa)).Run ⟨memoryInit q, []⟩ [.sbrk 0x1000] t :=
    .cons (.inr rfl) ht (.nil t)
  exact ⟨q, t, hq, hrun, sbrk_heap ⟨_, _, hboot, hrun⟩⟩

end Beryllium

import Beryllium.Heap.Break
import Beryllium.X86.HeapBreak

/-!
# The heap of the kernel

`malloc` of `kernel/malloc.c` over `sbrk` of `kernel/arch/x86/memory.c`, over the paging code, from
the boot on: the blocks lie in pages that are mapped, and as every page is mapped to itself, what is
stored in a block is in its frame, where no other page is mapped. A new page table is put at
`placement_address`, which may be in the heap; so this is as long as the break is below the end of
the page tables that `paging_init` has made (`heapLimit`), which `malloc` does not leave if there is
room.

* `kernel_heap`: this, for every client of `malloc`, `calloc` and `free`.
-/

namespace Beryllium

open Machine

/-- The address that the processor finds at the address `a`. -/
def physical (s : Paging) (a : ℕ) : Option ℕ :=
  (hardwareWalk s a).map fun e => e.frame * 0x1000 + a % 0x1000

/-- The end of the page tables that map the pages below `N`, or of memory. -/
def heapLimit (N : ℕ) : ℕ := min (0x400000 * tableCount N) 0x3C00000

/-- The clients of the heap, from the state that `paging_init` and `memory_init` leave. -/
def kernelHeap (st : Sentinels) (q : Paging) : System (OverState Memory) OverOp :=
  overSystem sbrk st fun m => m = memoryInit q

/-- The end of the last block. -/
def OverHeap.blocksEnd (base : ℕ) (h : OverHeap Memory) : ℕ :=
  if h.allocEnd = 0 then base else h.allocEnd

/-- What the clients rely on, if the heap begins at the page `N`. -/
structure KernelHeapSafe (st : Sentinels) (N : ℕ) (s : OverState Memory) : Prop where
  safe : ∃ as, HeapSafe st (N * 0x1000) (s.client Memory.memLastpage) as
  /-- Up to the break, every byte is where it seems to be. -/
  physical : ∀ a < s.heap.pages.memLastpage, physical s.heap.pages.paging a = some a
  /-- The page tables lie below the heap. -/
  tables : ∀ i, s.heap.pages.paging.dir.tables i ≠ 0 →
      s.heap.pages.paging.dir.tables i + sizeofPageTable ≤ N * 0x1000
  /-- `malloc` returns a pointer if there is room. -/
  malloc : ∀ n, s.heap.blocksEnd (N * 0x1000) + 16 + roundUp n + 0x1000 ≤ heapLimit N →
    ∃ ptr h, mallocOver sbrk st s.heap n = some (ptr, h) ∧ ptr ≠ NULL ∧
      h.pages.memLastpage ≤ heapLimit N

/-! ## The pages -/

/-- The pages of the heap from `N` on, where `placement_address` was `p` before the first page
    table. -/
structure KernelPages (p N n : ℕ) (m : Memory) : Prop where
  le : N ≤ n
  lt : n < 0x100000
  heapBreak : HeapBreak n m
  heapPages : HeapPages p n m

variable {p N n k a fuel : ℕ} {m : Memory} {st : Sentinels} {bs : List Block} {h : OverHeap Memory}
  {live : ℕ → Option ℕ}

theorem KernelPages.sbrk_page (h : KernelPages p N n m) (hp : 0x1000 ≤ p)
    (hN : tableBase p ≤ N * 0x1000) :
    (n < 0x3C00 ∧ ∃ q, sbrk m pageSize = some (⟨q, n * 0x1000 + 1⟩, n * 0x1000) ∧
      KernelPages p N (n + 1) ⟨q, n * 0x1000 + 1⟩) ∨
    (0x3C00 ≤ n ∧ sbrk m pageSize = none) := by
  have hsbrk : sbrk m pageSize = memallocp m (1 : ℕ) := rfl
  have hpos := h.heapBreak.pos
  have hlt := h.lt
  rw [hsbrk]
  rcases h.heapBreak.memallocp Nat.one_pos with ⟨hfit, q, hq, hbreak⟩ | ⟨hfull, hq⟩
  · have hn : n < 0x3C00 := by omega
    have hbase : tableBase p ≤ n * 0x1000 := hN.trans (Nat.mul_le_mul_right _ h.le)
    obtain ⟨m', hm', hpages⟩ := h.heapPages.memallocp hp hn hpos.ne' hbase
    cases hq.symm.trans hm'
    exact .inl ⟨hn, q, hq, ⟨h.le.trans (Nat.le_succ n), by omega, hbreak, hpages⟩⟩
  · exact .inr ⟨by omega, hq⟩

theorem kernelPages_laws (hp : 0x1000 ≤ p) (hN : tableBase p ≤ N * 0x1000) :
    SbrkLaws sbrk Memory.memLastpage fun m => ∃ n, KernelPages p N n m := by
  refine ⟨fun m _ => rfl, ?_, ?_⟩
  · rintro m r ⟨n, h⟩ hr
    have hle := h.heapBreak.memLastpage_le
    rcases h.sbrk_page hp hN with ⟨-, q, hq, h'⟩ | ⟨-, hq⟩
    · cases hq.symm.trans hr
      exact ⟨⟨n + 1, h'⟩, hle.trans (Nat.le_succ _)⟩
    · cases hq.symm.trans hr
  · rintro m ⟨n, h⟩
    have hle := h.heapBreak.memLastpage_le
    have hlt := h.lt
    omega

/-- The loop of `malloc` ends, below the limit. -/
theorem KernelPages.enlarge (h : KernelPages p N n m) (hp : 0x1000 ≤ p)
    (hN : tableBase p ≤ N * 0x1000) (ha : a ≤ m.memLastpage) (hbreak : m.memLastpage ≤ heapLimit N)
    (hroom : a + 16 + k + 0x1000 ≤ heapLimit N) (hfuel : 0x3C00 - n < fuel) :
    ∃ m', enlargeOver sbrk a k fuel m = some (true, m') ∧ m'.memLastpage ≤ heapLimit N := by
  have hlimit : heapLimit N ≤ 0x3C00000 := min_le_right _ _
  have hmeta : sizeofMeta = 16 := rfl
  induction fuel generalizing n m with
  | zero => exact absurd hfuel (Nat.not_lt_zero _)
  | succ fuel ih =>
    have hlast := h.heapBreak.lt_memLastpage
    have hle := h.heapBreak.memLastpage_le
    have hzero : sbrk m 0 = some (m, m.memLastpage) := rfl
    rw [enlargeOver, hzero, Option.bind_eq_bind, Option.bind_some]
    dsimp only
    rw [sub32_eq ha (by omega), add32_eq (by omega)]
    split_ifs with henough
    · rcases h.sbrk_page hp hN with ⟨hn, q, hq, h'⟩ | ⟨hfull, -⟩
      · have hne : n * 0x1000 ≠ 0xFFFFFFFF := by omega
        rw [hq, Option.bind_some]
        dsimp only
        rw [if_neg hne]
        exact ih h' (by dsimp only; omega) (by dsimp only; omega) (by omega)
      · omega
    · exact ⟨m, rfl, hbreak⟩

/-! ## Every client -/

theorem OverHeap.Inv.blocksEnd {base : ℕ} {P : Memory → Prop}
    (hi : h.Inv st base Memory.memLastpage P live bs) (hbase : base ≠ 0) :
    h.blocksEnd base = endOf base bs := by
  rcases hi.heap.represents.allocEnd with hend | ⟨hzero, rfl, -⟩
  · have hne : endOf base bs ≠ 0 := (lt_of_lt_of_le (Nat.pos_of_ne_zero hbase) le_endOf).ne'
    exact (if_neg (hend.trans_ne hne)).trans hend
  · exact if_pos hzero

/-- `malloc` returns a pointer if there is room for the block at the end. -/
theorem OverHeap.Inv.exists_malloc
    (hi : h.Inv st (N * 0x1000) Memory.memLastpage (fun m => ∃ n, KernelPages p N n m) live bs)
    (hb : st.Below (N * 0x1000)) (hp : 0x1000 ≤ p) (hN : tableBase p ≤ N * 0x1000)
    (hbreak : h.pages.memLastpage ≤ heapLimit N)
    (hroom : h.blocksEnd (N * 0x1000) + 16 + roundUp k + 0x1000 ≤ heapLimit N) :
    ∃ ptr h', mallocOver sbrk st h k = some (ptr, h') ∧ ptr ≠ NULL ∧
    h'.pages.memLastpage ≤ heapLimit N := by
  have hlimit : heapLimit N ≤ 0x3C00000 := min_le_right _ _
  have hbase : N * 0x1000 ≠ 0 := by
    have := hb.head
    omega
  obtain ⟨n, hpages⟩ := hi.pages
  obtain ⟨ha, -⟩ := hi.heap.enlarged hbase le_rfl hi.heap.represents.brk_lt
  have hle : endOf (N * 0x1000) bs ≤ h.pages.memLastpage := hi.heap.represents.le_brk
  rw [hi.blocksEnd hbase] at hroom
  rw [mallocOver_eq (kernelPages_laws hp hN) hi.pages]
  rcases firstFit_spec (n := roundUp k) hi.heap.represents.list.chain hb.tail
      hi.heap.represents.length_lt with
    ⟨pre, b, post, rfl, -, -, hfit⟩ | ⟨-, hfit⟩
  · have hpre : endOf (N * 0x1000) pre + 16 < 4294967296 :=
      (header_le_endOf.trans hle).trans_lt hi.heap.represents.brk_lt
    have hfit : firstFit st h.mem (roundUp k) loopFuel st.head =
        some (some (endOf (N * 0x1000) pre)) := hfit
    rw [hfit]
    refine ⟨_, _, rfl, ?_, hbreak⟩
    rw [add32_eq hpre]
    exact Nat.succ_ne_zero _
  · have hfit : firstFit st h.mem (roundUp k) loopFuel st.head = some none := hfit
    have ha : (if h.allocEnd = 0 then h.pages.memLastpage else h.allocEnd) =
      endOf (N * 0x1000) bs := ha
    have hfuel : 0x3C00 - n < loopFuel := lt_of_le_of_lt (Nat.sub_le _ _) (by decide)
    obtain ⟨m', hm', hlast⟩ := hpages.enlarge hp hN hle hbreak hroom hfuel
    rw [hfit, Option.bind_some]
    dsimp only
    rw [ha, hm']
    refine ⟨_, _, rfl, ?_, hlast⟩
    rw [add32_eq (show _ + 16 < 4294967296 by omega)]
    exact Nat.succ_ne_zero _

theorem KernelPages.physical (h : KernelPages p N n m) (ha : a < m.memLastpage) :
    physical m.paging a = some a := by
  have hle := h.heapBreak.memLastpage_le
  obtain ⟨e, he, hframe⟩ := h.heapBreak.pages.walk (show a / 0x1000 < n by omega)
  rw [Beryllium.physical, he, Option.map_some, hframe, Nat.div_add_mod']

/-- As long as the break is below the limit, no page table is added. -/
theorem KernelPages.tables (h : KernelPages p N n m)
    (heq : N * 0x1000 = tableBase p + 0x2000 * tableCount N)
    (hbreak : m.memLastpage ≤ heapLimit N) {i : ℕ} (hi : m.paging.dir.tables i ≠ 0) :
    m.paging.dir.tables i + sizeofPageTable ≤ N * 0x1000 := by
  have hlast := h.heapBreak.lt_memLastpage
  have hpos := h.heapBreak.pos
  have hlimit : heapLimit N ≤ 0x400000 * tableCount N := min_le_left _ _
  have hcount : tableCount n ≤ tableCount N := tableCount_le_iff.2 (by omega)
  rw [h.heapPages.mapped.tables] at hi ⊢
  split_ifs at hi ⊢ with hlt
  · rw [sizeofPageTable]
    omega
  · exact absurd rfl hi

/-- In every state that a client of the heap reaches after a boot, the heap is as it relies on, its
    bytes are where they seem to be, outside the page tables, and there is a block for it if there
    is room; a pointer that a call returns is none that it holds. -/
theorem kernel_heap {s₀ q : Paging} {s : OverState Memory} (hp : 0x100000 ≤ s₀.placementAddress)
    (hfit : Fits s₀.placementAddress)
    (hq : pagingInit s₀ = some q) (hb : st.Below s₀.placementAddress)
    (hs : (kernelHeap st q).Reachable s)
    (hbreak : s.heap.pages.memLastpage ≤ heapLimit (paFirstFrame q.pa)) :
    KernelHeapSafe st (paFirstFrame q.pa) s ∧ ∀ op, (kernelHeap st q).guard s op →
      ∀ ptr, op.returned sbrk st s.heap = some ptr → ptr ≠ NULL → s.live ptr = none := by
  have hpost := postBoot_of_pagingInit hp hfit hq
  obtain ⟨q', n, hq', hn, hn₀, heq, -, h, -⟩ := pagingInit_spec s₀ hp hfit
  obtain rfl : q' = q := Option.some.inj (hq'.symm.trans hq)
  obtain ⟨hfirst, hboot⟩ := Returned.boot h hn hn₀
  rw [hfirst] at hpost hbreak ⊢
  have hafter : s₀.placementAddress ≤ n * 0x1000 := by
    rw [heq, tableBase, afterDirectory, tableBase]
    omega
  have hp' := le_of_lt (lt_afterDirectory s₀.placementAddress)
  have hN : tableBase (afterDirectory s₀.placementAddress) ≤ n * 0x1000 := by omega
  have hb' : st.Below (n * 0x1000) := ⟨hb.head.trans hafter, hb.tail.trans hafter, hb.apart⟩
  have hinit (m : Memory) (hm : m = memoryInit q') :
      (∃ k, KernelPages (afterDirectory s₀.placementAddress) n k m) ∧
        m.memLastpage = n * 0x1000 := by
    subst hm
    exact ⟨⟨n, le_rfl, hn, hpost.heapBreak, hboot.heap⟩, hpost.memLastpage⟩
  obtain ⟨bs, hi⟩ := OverHeap.Inv.of_reachable (kernelPages_laws hp' hN) hb' hinit hs
  obtain ⟨k, hpages⟩ := hi.pages
  refine ⟨⟨⟨_, hi.heap.safe hb'⟩, fun a ha => hpages.physical ha, fun i => hpages.tables heq hbreak,
    fun k hroom => hi.exists_malloc hb' hp' hN hbreak hroom⟩, fun op hg ptr hr hptr => ?_⟩
  exact hi.fresh (kernelPages_laws hp' hN) hb' hg hr hptr

/-- The heap before the first call, with the static headers at 16 and 32. -/
def bootOver (q : Paging) : OverState Memory :=
  ⟨⟨bootHeap.heap.mem, 0, memoryInit q⟩, fun _ => none⟩

theorem bootOver_init (q : Paging) : (kernelHeap ⟨16, 32⟩ q).init (bootOver q) :=
  have ⟨hnext, hprev, hhead, htail, _⟩ := bootHeap_init
  ⟨hnext, hprev, hhead, htail, rfl, rfl, rfl⟩

/-- The first call after the boot of a kernel that ends at 1 MB. -/
theorem kernel_heap_oneMb : ∃ q s ptr, pagingInit (coldBoot 0x100000) = some q ∧
    (kernelHeap ⟨16, 32⟩ q).Run (bootOver q) [.malloc 10] s ∧ s.live ptr = some 10 ∧
    KernelHeapSafe ⟨16, 32⟩ (paFirstFrame q.pa) s := by
  have hp : 0x100000 ≤ (coldBoot 0x100000).placementAddress := le_refl 0x100000
  have hfit : Fits (coldBoot 0x100000).placementAddress :=
    fits_iff.2 (by decide : 0x100000 < 0xFF61C000)
  have hb : Sentinels.Below ⟨16, 32⟩ (coldBoot 0x100000).placementAddress :=
    ⟨by decide, by decide, by decide⟩
  obtain ⟨q, n, -, hq, -, hfirst, heq, -, -⟩ := exists_run_sbrk 0x100000 (by decide) (by decide)
  -- the heap begins at the page 742
  have hN : paFirstFrame q.pa = 742 := by
    rw [show tableBase (afterDirectory 0x100000) = 0x2E4000 from rfl, tableCount] at heq
    omega
  have hlimit : heapLimit 742 = 0x400000 := by decide
  have hsafe {s : OverState Memory} (hs : (kernelHeap ⟨16, 32⟩ q).Reachable s)
      (hbreak : s.heap.pages.memLastpage ≤ 0x400000) :
        KernelHeapSafe ⟨16, 32⟩ (paFirstFrame q.pa) s :=
    (kernel_heap hp hfit hq hb hs (by rw [hN, hlimit]; exact hbreak)).1
  have hlast : (bootOver q).heap.pages.memLastpage ≤ 0x400000 := by
    have hboot := (postBoot_of_pagingInit hp hfit hq).memLastpage
    rw [hN] at hboot
    exact hboot.trans_le (by decide)
  have hroom : (bootOver q).heap.blocksEnd (paFirstFrame q.pa * 0x1000) + 16 + roundUp 10 + 0x1000 ≤
      heapLimit (paFirstFrame q.pa) := by
    rw [hN]
    change 742 * 0x1000 + 16 + roundUp 10 + 0x1000 ≤ heapLimit 742
    decide
  obtain ⟨ptr, h, hm, hptr, hle⟩ := (hsafe ⟨_, [], bootOver_init q, .nil _⟩ hlast).malloc 10 hroom
  rw [hN, hlimit] at hle
  have hrun : (kernelHeap ⟨16, 32⟩ q).Run (bootOver q) [.malloc 10]
      (.hand (bootOver q).live 10 (ptr, h)) :=
    .cons (show 10 + 20 ≤ 4294967296 by decide) (congrArg (Option.map _) hm) (.nil _)
  refine ⟨q, _, ptr, hq, hrun, ?_, hsafe ⟨_, _, bootOver_init q, hrun⟩ hle⟩
  simp [OverState.hand, hptr]

end Beryllium

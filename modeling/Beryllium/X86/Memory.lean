import Beryllium.Machine.System
import Beryllium.X86.IdentityMap

/-!
# Page allocation for the heap

`sbrk` and `memallocp` of `kernel/arch/x86/memory.c`, which hand out whole pages from
the first free frame on, over the paging code.

`memory_mult_alloc_pages` scans the addresses byte by byte from `mem_lastpage` on, so
after `paging_init` its calls return one page after the other
(`HeapPages.sbrk`). The page tables it needs for them come from the placement
allocator, whose pointer still is where `paging_init` left it: at the page that the
heap got first. `page_tables_disjoint` states for which runs this goes well.
-/

namespace Beryllium

open Machine

/-- The paging code and `mem_lastpage`. -/
structure Memory where
  paging : Paging
  memLastpage : ℕ

/-- `mem_pagefree`, which nothing changes. -/
def memPagefree : ℕ := 0x1000000

variable (s : Memory)

/-- The address that the search of `memory_mult_alloc_pages` looks at when its loop counter
    is `i`. -/
def searchPos (i : ℕ) : ℕ := add32 i s.memLastpage % s.paging.pa.frameAmount

/-- The search, from the loop counter `i` on: `some none` is the block `-1`. -/
def searchBlock (pages : ℕ) : ℕ → ℕ → Option (Option ℕ)
  | 0, _ => none
  | fuel + 1, i =>
    if i < s.paging.pa.frameAmount then
      let pos := searchPos s i
      if pos + pages > s.paging.pa.frameAmount then searchBlock pages fuel (i + pages - 1)
      else
        -- `INDEX_FROM_BIT(pos + j)` expands to `(pos + j / 0x20)`
        match firstFrom (fun j =>
          if paTestFrame s.paging.pa (pos + j / 0x20) ≠ 0#32 then some j else none) pages 0 with
        | some j => searchBlock pages fuel (i + j + 1)
        | none => some (some pos)
    else some none

def searchFuel : ℕ := 0x3C00001

/-- The pages from `block` on, in `memory_mult_alloc_pages`. -/
def allocBlock (block : ℕ) : ℕ → Paging → Option Paging
  | 0, p => some p
  | n + 1, p => (allocBlock block n p).bind fun p => allocPage p (block + n)

/-- `memory_mult_alloc_pages`: the address is 0 if there are no pages left. -/
def memoryMultAllocPages (pages : ℕ) : Option (Memory × ℕ) :=
  if s.paging.pa.frameAmount < memPagefree then some (s, 0)
  else do
    let block ← searchBlock s pages searchFuel 0
    match block with
    | none => return (s, 0)
    | some block => do
      let p ← allocBlock block pages s.paging
      return (⟨p, add32 block pages⟩, block)

/-- `memallocp`; it halts if there are no pages left. -/
def memallocp (pages : ℤ) : Option (Memory × ℕ) :=
  if pages ≤ 0 then some (s, 0)
  else do
    let r ← memoryMultAllocPages s pages.toNat
    if r.2 = 0 then none else some r

/-- `sbrk` -/
def sbrk (amount : ℕ) : Option (Memory × ℕ) :=
  if amount = 0 then some (s, s.memLastpage)
  else
    let actualAmount := amount / 0x1000
    memallocp s (if actualAmount = 0 then 1 else actualAmount)

/-- `memory_init` -/
def memoryInit (p : Paging) : Memory := ⟨p, mul32 (paFirstFrame p.pa) 0x1000⟩

/-! ## The search -/

variable {s : Memory} {p n i d k fuel : ℕ}

/-- A round at a position whose frame is in use goes on with the next byte. -/
theorem searchBlock_used (hi : i < s.paging.pa.frameAmount) (hk : 0 < k)
    (hfit : searchPos s i + k ≤ s.paging.pa.frameAmount)
    (hused : Used s.paging.pa (searchPos s i / 0x1000)) :
    searchBlock s k (fuel + 1) i = searchBlock s k fuel (i + 1) := by
  obtain ⟨k, rfl⟩ := Nat.exists_eq_succ_of_ne_zero hk.ne'
  rw [searchBlock, if_pos hi]
  dsimp only
  rw [if_neg (Nat.not_lt.2 hfit), firstFrom, Nat.zero_div, Nat.add_zero,
    if_pos (paTestFrame_ne_zero.2 hused), Option.some_or]

/-- A run of bytes is found if it fits and its frames are free. -/
theorem searchBlock_free (hi : i < s.paging.pa.frameAmount)
    (hfit : searchPos s i + k ≤ s.paging.pa.frameAmount)
    (hfree : ∀ f, searchPos s i / 0x1000 ≤ f → f * 0x1000 < s.paging.pa.frameAmount →
      ¬Used s.paging.pa f) :
    searchBlock s k (fuel + 1) i = some (some (searchPos s i)) := by
  have hnone : firstFrom (fun j =>
      if paTestFrame s.paging.pa (searchPos s i + j / 0x20) ≠ 0#32 then some j else none) k 0 =
        none := by
    refine firstFrom_eq_none.2 fun j _ hj => if_neg (mt paTestFrame_ne_zero.1 (hfree _ ?_ ?_))
    · exact Nat.div_le_div_right (Nat.le_add_right _ _)
    · have hdiv : j / 0x20 ≤ j := Nat.div_le_self j 0x20
      exact (Nat.div_mul_le_self _ _).trans_lt (by omega)
  rw [searchBlock, if_pos hi]
  dsimp only
  rw [if_neg (Nat.not_lt.2 hfit), hnone]

theorem searchBlock_found (hk : 0 < k) (hd : d < s.paging.pa.frameAmount) (hid : i ≤ d)
    (hfuel : d - i < fuel)
    (hused : ∀ j, i ≤ j → j < d → searchPos s j + k ≤ s.paging.pa.frameAmount ∧
      Used s.paging.pa (searchPos s j / 0x1000))
    (hfit : searchPos s d + k ≤ s.paging.pa.frameAmount)
    (hfree : ∀ f, searchPos s d / 0x1000 ≤ f → f * 0x1000 < s.paging.pa.frameAmount →
      ¬Used s.paging.pa f) :
    searchBlock s k fuel i = some (some (searchPos s d)) := by
  induction fuel generalizing i with
  | zero => exact absurd hfuel (Nat.not_lt_zero _)
  | succ fuel ih =>
    rcases hid.eq_or_lt with rfl | hid
    · exact searchBlock_free hd hfit hfree
    · obtain ⟨hfit', hused'⟩ := hused i le_rfl hid
      rw [searchBlock_used (by omega) hk hfit' hused']
      exact ih hid (by omega) fun j hj => hused j (by omega)

theorem searchBlock_none (hk : 0 < k) (hfuel : s.paging.pa.frameAmount - i < fuel)
    (hused : ∀ j, searchPos s j + k ≤ s.paging.pa.frameAmount →
      Used s.paging.pa (searchPos s j / 0x1000)) : searchBlock s k fuel i = some none := by
  induction fuel generalizing i with
  | zero => exact absurd hfuel (Nat.not_lt_zero _)
  | succ fuel ih =>
    by_cases hi : i < s.paging.pa.frameAmount
    · by_cases hfit : searchPos s i + k ≤ s.paging.pa.frameAmount
      · rw [searchBlock_used hi hk hfit (hused i hfit)]
        exact ih (by omega)
      · -- a run of one byte always fits
        have hpos : searchPos s i < s.paging.pa.frameAmount := Nat.mod_lt _ (by omega)
        rw [searchBlock, if_pos hi]
        dsimp only
        rw [if_pos (Nat.not_le.1 hfit)]
        exact ih (by omega)
    · rw [searchBlock, if_neg hi]

/-- If the frames below `n` are those in use, the bytes from the next page on are found. -/
theorem searchBlock_eq (hamount : s.paging.pa.frameAmount = 0x3C00000) (hk : 0 < k)
    (hused : ∀ f < 0xF00000, Used s.paging.pa f ↔ f < n) (hle : s.memLastpage ≤ n * 0x1000) :
    searchBlock s k searchFuel 0 =
      some (if n * 0x1000 + k ≤ 0x3C00000 then some (n * 0x1000) else none) := by
  by_cases hn : n * 0x1000 + k ≤ 0x3C00000
  · have hpos : ∀ j ≤ n * 0x1000 - s.memLastpage, searchPos s j = j + s.memLastpage := by
      intro j hj
      rw [searchPos, hamount, add32_eq (by omega), Nat.mod_eq_of_lt (by omega)]
    have hend : searchPos s (n * 0x1000 - s.memLastpage) = n * 0x1000 := by
      rw [hpos _ le_rfl]
      omega
    rw [if_pos hn, ← hend]
    refine searchBlock_found hk (by omega) (Nat.zero_le _) (by rw [searchFuel]; omega) ?_ ?_ ?_
    · intro j _ hj
      rw [hpos j (by omega), hused _ (by omega)]
      omega
    · rw [hend, hamount]
      exact hn
    · intro f hf hlt
      rw [hend] at hf
      rw [hused f (by omega)]
      omega
  · rw [if_neg hn]
    refine searchBlock_none hk (by rw [hamount, searchFuel]; omega) fun j hj => ?_
    rw [hused _ (by omega)]
    omega

/-! ## One call -/

/-- The pages below `n` are mapped, and the search starts after the last of them. -/
structure HeapPages (p n : ℕ) (s : Memory) : Prop where
  mapped : Mapped p (tableCount n) n s.paging
  memLastpage_le : s.memLastpage ≤ n * 0x1000
  lt_memLastpage : (n - 1) * 0x1000 < s.memLastpage

theorem HeapPages.searchBlock (h : HeapPages p n s) :
    searchBlock s 1 searchFuel 0 = some (if n < 0x3C00 then some (n * 0x1000) else none) := by
  rw [searchBlock_eq h.mapped.frameAmount Nat.one_pos h.mapped.used_iff h.memLastpage_le]
  refine congrArg some (if_congr ?_ rfl rfl)
  omega

/-- A call for one page. -/
theorem memallocp_one (h : s.paging.pa.frameAmount = 0x3C00000) :
    memallocp s 1 = (searchBlock s 1 searchFuel 0).bind fun block => block.bind fun block =>
      (allocPage s.paging block).bind fun q =>
        if block = 0 then none else some (⟨q, add32 block 1⟩, block) := by
  have hfree : ¬s.paging.pa.frameAmount < memPagefree := by
    rw [h]
    decide
  rw [memallocp, if_neg (by decide), memoryMultAllocPages, if_neg hfree, Int.toNat_one]
  rcases searchBlock s 1 searchFuel 0 with _ | _ | block
  · rfl
  · rfl
  · simp only [allocBlock, Option.bind_eq_bind, Option.bind_some, Option.pure_def,
      Nat.add_zero]
    cases allocPage s.paging block <;> rfl

/-- A call returns the next page. -/
theorem HeapPages.memallocp (h : HeapPages p n s) (hp : 0x1000 ≤ p) (hn : n < 0x3C00) (hn₀ : n ≠ 0)
    (hbase : tableBase p ≤ n * 0x1000) :
    ∃ s', memallocp s 1 = some (s', n * 0x1000) ∧ HeapPages p (n + 1) s' := by
  have hcount : tableCount (n + 1) ≤ 15 := tableCount_le_iff.2 (by omega)
  obtain ⟨q, hq, hm, -⟩ :=
    h.mapped.allocPage hp (Nat.mul_div_cancel n (by decide)) (by omega) (by omega)
  refine ⟨⟨q, n * 0x1000 + 1⟩, ?_, hm, ?_, ?_⟩
  · rw [memallocp_one h.mapped.frameAmount, h.searchBlock, if_pos hn, Option.bind_some,
      Option.bind_some, hq, Option.bind_some, if_neg (by omega), add32_eq (by omega)]
  · show n * 0x1000 + 1 ≤ (n + 1) * 0x1000
    omega
  · show (n + 1 - 1) * 0x1000 < n * 0x1000 + 1
    omega

/-- Above `mem_end`, there are no pages left, and the call halts. -/
theorem HeapPages.memallocp_eq_none (h : HeapPages p n s) (hn : 0x3C00 ≤ n) :
    Beryllium.memallocp s 1 = none := by
  rw [memallocp_one h.mapped.frameAmount, h.searchBlock, if_neg (Nat.not_lt.2 hn)]
  rfl

/-! ## Runs -/

/-- The calls that return one page. -/
inductive PageOp
  | sbrk (amount : ℕ)
  | memallocp (pages : ℤ)

/-- The memory, and the addresses of the pages that were returned. -/
structure PageState where
  memory : Memory
  returned : List ℕ

/-- A call, if it does not halt. -/
def PageState.step (s : PageState) (op : PageOp) : Option PageState := do
  let r ← match op with
    | .sbrk amount => sbrk s.memory amount
    | .memallocp pages => memallocp s.memory pages
  return ⟨r.1, r.2 :: s.returned⟩

/-- `sbrk(0x1000)` and `memallocp(1)`, from the state that `paging_init` and `memory_init`
    leave. -/
def pageSystem (p : Paging) : System PageState PageOp where
  init s := s = ⟨memoryInit p, []⟩
  guard _ op := op = .sbrk 0x1000 ∨ op = .memallocp 1
  step := PageState.step

/-- After `k` calls, which have returned the pages from `n` on. -/
structure Returned (p n k : ℕ) (s : PageState) : Prop where
  heap : HeapPages p (n + k) s.memory
  mem_returned : ∀ page, page ∈ s.returned ↔ ∃ j < k, page = (n + j) * 0x1000

variable {s s' : PageState} {op : PageOp} {ops : List PageOp} {q : Paging}

/-- Both calls are calls for one page. -/
theorem PageState.step_eq (hg : (pageSystem q).guard s op) :
    s.step op = (memallocp s.memory 1).map fun r => ⟨r.1, r.2 :: s.returned⟩ := by
  rcases hg with rfl | rfl
  · show (sbrk s.memory 0x1000).bind _ = _
    rw [show sbrk s.memory 0x1000 = memallocp s.memory 1 from rfl]
    cases memallocp s.memory 1 <;> rfl
  · show (memallocp s.memory 1).bind _ = _
    cases memallocp s.memory 1 <;> rfl

theorem Returned.step (h : Returned p n k s) (hp : 0x1000 ≤ p) (hn₀ : n ≠ 0) (hn : n + k < 0x100000)
    (hbase : tableBase p ≤ n * 0x1000) (hg : (pageSystem q).guard s op) (hs : s.step op = some s') :
    Returned p n (k + 1) s' ∧ n + k < 0x3C00 := by
  rw [PageState.step_eq hg] at hs
  by_cases hlt : n + k < 0x3C00
  · have hbase' : tableBase p ≤ (n + k) * 0x1000 :=
      hbase.trans (Nat.mul_le_mul_right _ (Nat.le_add_right n k))
    obtain ⟨m, hm, h'⟩ := h.heap.memallocp hp hlt (by omega) hbase'
    rw [hm] at hs
    obtain rfl := Option.some.inj hs
    refine ⟨⟨h', fun page => ?_⟩, hlt⟩
    rw [List.mem_cons, h.mem_returned]
    constructor
    · rintro (rfl | ⟨j, hj, rfl⟩)
      · exact ⟨k, Nat.lt_succ_self k, rfl⟩
      · exact ⟨j, Nat.lt_succ_of_lt hj, rfl⟩
    · rintro ⟨j, hj, rfl⟩
      rcases (Nat.lt_succ_iff.1 hj).eq_or_lt with rfl | hj
      · exact .inl rfl
      · exact .inr ⟨j, hj, rfl⟩
  · rw [h.heap.memallocp_eq_none (Nat.not_lt.1 hlt)] at hs
    cases hs

theorem Returned.run (hp : 0x1000 ≤ p) (hn₀ : n ≠ 0) (hn : n < 0x100000)
    (hbase : tableBase p ≤ n * 0x1000) (hr : (pageSystem q).Run s ops s')
    (h : Returned p n k s) (hk : k = 0 ∨ n + k ≤ 0x3C00) : Returned p n (k + ops.length) s' := by
  induction hr generalizing k with
  | nil => exact h
  | cons hg hs _ ih =>
    obtain ⟨h', hlt⟩ := h.step hp hn₀ (by omega) hbase hg hs
    rw [List.length_cons, Nat.add_comm _ 1, ← Nat.add_assoc]
    exact ih h' (.inr hlt)

/-- The state that `paging_init` and `memory_init` leave. -/
theorem Returned.boot (h : Mapped p (tableCount n) n q) (hn : n < 0x100000) (hn₀ : n ≠ 0) :
    paFirstFrame q.pa = n ∧ Returned p n 0 ⟨memoryInit q, []⟩ := by
  have hfirst : paFirstFrame q.pa = n := h.first hn
  have hlast : (memoryInit q).memLastpage = n * 0x1000 := by
    rw [memoryInit, hfirst, mul32_eq (by omega)]
  refine ⟨hfirst, ⟨h, ?_, ?_⟩, fun page => ⟨fun h => absurd h List.not_mem_nil, ?_⟩⟩
  · rw [hlast, Nat.add_zero]
  · rw [hlast]
    omega
  · rintro ⟨j, hj, -⟩
    exact absurd hj (Nat.not_lt_zero j)

/-- A boot, and one call after it. -/
theorem exists_run_sbrk (p₀ : ℕ) (hp : 0x100000 ≤ p₀) (hp' : p₀ < 0x1000000) :
    ∃ q n s, pagingInit (coldBoot p₀) = some q ∧
      (pageSystem q).Run ⟨memoryInit q, []⟩ [.sbrk 0x1000] s ∧ paFirstFrame q.pa = n ∧
      n * 0x1000 = tableBase (afterDirectory p₀) + 0x2000 * tableCount n ∧
      (∀ m < n, m * 0x1000 < loopBound (afterDirectory p₀) m) ∧
      Returned (afterDirectory p₀) n 1 s := by
  obtain ⟨q, n, hq, hn, hn₀, heq, hmin, h, -⟩ :=
    pagingInit_spec (coldBoot p₀) hp (fits_iff.2 (hp'.trans (by decide)))
  have heq : n * 0x1000 = tableBase (afterDirectory p₀) + 0x2000 * tableCount n := heq
  obtain ⟨hfirst, hboot⟩ := Returned.boot h hn hn₀
  have hlt : n < 0x3C00 := by
    have : tableBase (afterDirectory p₀) ≤ p₀ + 0x1E0000 + 0x4004 := by
      rw [afterDirectory, tableBase, tableBase]
      omega
    rw [tableCount] at heq
    omega
  have hp₀ := le_of_lt (lt_afterDirectory p₀)
  have hg : (pageSystem q).guard ⟨memoryInit q, []⟩ (.sbrk 0x1000) := .inl rfl
  obtain ⟨m, hm, -⟩ := hboot.heap.memallocp hp₀ hlt hn₀ (by omega)
  have hs := (PageState.step_eq hg).trans (congrArg (Option.map _) hm)
  exact ⟨q, n, _, hq, .cons hg hs (.nil _), hfirst, heq, hmin,
    (hboot.step hp₀ hn₀ hn (by omega) hg hs).1⟩

end Beryllium

import Beryllium.Heap.Safety

/-!
# Memory of the integrator-cp port

`memallocp` and `sbrk` of `kernel/arch/arm/integrator-cp/memory.c`: one break,
`mem_allocate_starting`, which only moves up. The heap of `kernel/malloc.c` grows by the
same break (`sbrk_pageSize`), but keeps the end of its last block in `alloc_end`, and takes
all that lies between the two for its own.

`blocks_disjoint_iff`: in a run of calls to the heap and of direct calls to `memallocp` and
`sbrk`, the blocks of the heap stay clear of the pages returned by the direct calls exactly
if every block that is added ends below the next of these pages.
-/

namespace Beryllium

open Machine

namespace IntegratorCp

/-- The initial value of `mem_allocate_starting`. -/
def memAllocateStart : ℕ := 0x10000

/-- `memory_mult_alloc_pages(pages)`: the pointer, and `mem_allocate_starting` after it. -/
def memoryMultAllocPages (memAllocateStarting pages : ℕ) : ℕ × ℕ :=
  (memAllocateStarting, add32 memAllocateStarting (mul32 pages 0x1000))

/-- `memallocp(pages)`, or `none` if it panics. -/
def memallocp (memAllocateStarting : ℕ) (pages : ℤ) : Option (ℕ × ℕ) :=
  if pages ≤ 0 then some (NULL, memAllocateStarting)
  else
    let r := memoryMultAllocPages memAllocateStarting pages.toNat
    if r.1 = NULL then none else some r

/-- `sbrk(amount)`, or `none` if it panics. -/
def sbrk (memAllocateStarting amount : ℕ) : Option (ℕ × ℕ) :=
  if amount = 0 then some (memAllocateStarting, memAllocateStarting)
  else
    let actualAmount := amount / 0x1000
    let actualAmount := if actualAmount = 0 then actualAmount + 1 else actualAmount
    memallocp memAllocateStarting actualAmount

variable {st : Sentinels} {brk k m n base ptr req : ℕ} {bs bs' : List Block}

theorem memallocp_eq (hb : brk ≠ 0) (hk : 0 < k) (h : brk + k * pageSize < 4294967296) :
    memallocp brk k = some (brk, brk + k * pageSize) := by
  have h₄ : pageSize = 0x1000 := rfl
  rw [h₄] at h ⊢
  have hk' : ¬(k : ℤ) ≤ 0 := by omega
  rw [memallocp, if_neg hk', Int.toNat_natCast, memoryMultAllocPages, mul32_eq (by omega),
    add32_eq h]
  exact if_neg hb

theorem sbrk_eq (hb : brk ≠ 0) (hm : 0 < m) (hdvd : pageSize ∣ m) (h : brk + m < 4294967296) :
    sbrk brk m = some (brk, brk + m) := by
  obtain ⟨k, rfl⟩ := hdvd
  have hk : 0 < k := Nat.pos_of_mul_pos_left hm
  have hdiv : pageSize * k / 0x1000 = k := Nat.mul_div_cancel_left k (by decide)
  rw [Nat.mul_comm] at h
  rw [sbrk, if_neg hm.ne', hdiv]
  dsimp only
  rw [if_neg hk.ne', memallocp_eq hb hk h, Nat.mul_comm]

/-- As long as the break does not wrap, `sbrk(PAGE_SIZE)` is the one `malloc` is modelled
    with, and never fails. -/
theorem sbrk_pageSize (hb : brk ≠ 0) (h : brk + pageSize < 4294967296) :
    (sbrk brk pageSize).map Prod.snd = sbrkPage (fun _ => true) brk := by
  rw [sbrk_eq hb (by decide) dvd_rfl h, sbrkPage, if_pos ⟨rfl, h⟩]
  rfl

/-! ## Runs -/

/-- Pages handed out: the address of the first one, and how many they are. -/
structure PageRun where
  addr : ℕ
  pages : ℕ

/-- The end of the pages. -/
def PageRun.bound (r : PageRun) : ℕ := r.addr + r.pages * pageSize

/-- What the kernel calls. -/
inductive PortOp
  | malloc (size : ℕ)
  | free (ptr : ℕ)
  | memallocp (pages : ℕ)
  | sbrk (amount : ℕ)

/-- The heap with the pointers it handed out, and the pages returned by direct calls. -/
structure PortState where
  client : HeapState
  runs : List PageRun

/-- The pages returned by a direct call. -/
def PortState.take (s : PortState) (pages : ℕ) (r : ℕ × ℕ) : PortState :=
  ⟨{ s.client with heap.brk := r.2 }, ⟨r.1, pages⟩ :: s.runs⟩

/-- Where `malloc` puts the next block it adds. -/
def nextBlock (h : Heap) : ℕ := if h.allocEnd = 0 then h.brk else h.allocEnd

/-- `malloc(size)` finds no free block to take. -/
def Grows (st : Sentinels) (h : Heap) (size : ℕ) : Prop :=
  firstFit st h.mem (roundUp size) loopFuel st.head = some none

/-- The kernel calls `malloc`, `free`, `memallocp` and `sbrk`, from the boot on. No size
    wraps: neither that of a block nor the address the break moves to. -/
def portSystem (st : Sentinels) : System PortState PortOp where
  init s := (heapSystem st memAllocateStart).init s.client ∧ s.runs = []
  guard s
    | .malloc size => size + 20 ≤ 4294967296 ∧ (Grows st s.client.heap size →
        nextBlock s.client.heap + 16 + roundUp size + pageSize ≤ 4294967296)
    | .free ptr => ptr = NULL ∨ (s.client.live ptr).isSome
    | .memallocp pages => 0 < pages ∧ s.client.heap.brk + pages * pageSize < 4294967296
    | .sbrk amount => 0 < amount ∧ pageSize ∣ amount ∧ s.client.heap.brk + amount < 4294967296
  step s
    | .malloc size => (malloc st (fun _ => true) s.client.heap size).map fun r =>
        { s with client := .hand s.client.live size r }
    | .free ptr => some { s with
        client := ⟨free s.client.heap ptr, Function.update s.client.live ptr none⟩ }
    | .memallocp pages => (memallocp s.client.heap.brk pages).map (s.take pages)
    | .sbrk amount => (sbrk s.client.heap.brk amount).map (s.take (amount / pageSize))

/-- The headers of the blocks: those the list reaches from `head` before `tail`. -/
inductive IsBlock (st : Sentinels) (m : Mem) : ℕ → Prop
  | first : Meta.next m st.head ≠ st.tail → IsBlock st m (Meta.next m st.head)
  | next {a : ℕ} : IsBlock st m a → Meta.next m a ≠ st.tail → IsBlock st m (Meta.next m a)

/-- No block, header or payload, overlaps pages returned by a direct call. -/
def BlocksDisjoint (st : Sentinels) (s : PortState) : Prop :=
  ∀ a, IsBlock st s.client.heap.mem a → ∀ r ∈ s.runs,
    a + 16 + Meta.size s.client.heap.mem a ≤ r.addr ∨ r.bound ≤ a

/-- A block that `malloc` adds ends below all pages above `alloc_end` that were returned by
    a direct call. -/
def Clear (st : Sentinels) (s : PortState) : PortOp → Prop
  | .malloc size => Grows st s.client.heap size → ∀ r ∈ s.runs,
      nextBlock s.client.heap ≤ r.addr → nextBlock s.client.heap + 16 + roundUp size ≤ r.addr
  | _ => True

/-! ## The blocks in memory -/

theorem isBlock_of_mem_addrs {m : Mem} {p a x : ℕ} (h : Chain st m p a bs) (ht : st.tail < a)
    (hp : p = st.head ∨ IsBlock st m p) (hx : x ∈ addrs a bs) : IsBlock st m x := by
  induction bs generalizing p a with
  | nil => exact absurd hx List.not_mem_nil
  | cons b bs ih =>
    obtain ⟨hn, -, -, -, hr⟩ := chain_cons.1 h
    have hne : Meta.next m p ≠ st.tail := hn ▸ ht.ne'
    have ha : IsBlock st m a := by
      rw [← hn]
      rcases hp with rfl | hp
      · exact .first hne
      · exact .next hp hne
    rcases List.mem_cons.1 hx with rfl | hx
    · exact ha
    · exact ih hr (by omega) (.inr ha) hx

/-- The blocks in memory are those of the list. -/
theorem isBlock_iff {m : Mem} (hb : st.Below base) (h : BlockList st m base bs) {x : ℕ} :
    IsBlock st m x ↔ x ∈ addrs base bs := by
  have ht : st.tail < base := by
    have := hb.tail
    omega
  refine ⟨fun hx => ?_, isBlock_of_mem_addrs h.chain ht (.inl rfl)⟩
  induction hx with
  | first hne =>
    cases bs with
    | nil => exact absurd (chain_nil.1 h.chain).1 hne
    | cons b bs => exact (chain_cons.1 h.chain).1 ▸ List.mem_cons_self
  | next _ hne ih =>
    obtain ⟨pre, b, post, rfl, rfl⟩ := exists_of_mem_addrs ih
    obtain ⟨-, -, -, -, hr⟩ := chain_cons.1 (chain_append.1 h.chain).2
    rw [addrs_append]
    refine List.mem_append_right _ (List.mem_cons_of_mem _ ?_)
    cases post with
    | nil => exact absurd (chain_nil.1 hr).1 hne
    | cons c post => exact (chain_cons.1 hr).1 ▸ List.mem_cons_self

/-- Every address of the heap lies in a block. -/
theorem exists_block {a y : ℕ} (ha : a ≤ y) (hy : y < endOf a bs) : ∃ pre b post,
    bs = pre ++ b :: post ∧ endOf a pre ≤ y ∧ y < endOf a pre + 16 + b.size := by
  induction bs generalizing a with
  | nil => exact absurd ha (Nat.not_le.2 hy)
  | cons b bs ih =>
    by_cases hlt : y < a + 16 + b.size
    · exact ⟨[], b, bs, rfl, ha, hlt⟩
    · obtain ⟨pre, c, post, rfl, h⟩ := ih (Nat.not_lt.1 hlt) hy
      exact ⟨b :: pre, c, post, rfl, h⟩

/-- `malloc` adds a block exactly if none of the blocks fits. -/
theorem grows_iff {h : Heap} (hb : st.Below base) (hr : Represents st base h bs) :
    Grows st h n ↔ ∀ c ∈ bs, ¬c.Fits (roundUp n) := by
  rcases firstFit_spec (n := roundUp n) hr.list.chain hb.tail hr.length_lt with
    ⟨pre, b, post, rfl, -, hfits, he⟩ | ⟨hno, he⟩
  · constructor
    · intro h
      cases he.symm.trans h
    · intro h
      exact absurd hfits (h b (by simp))
  · exact ⟨fun _ => hno, fun _ => he⟩

/-- With pages all the way, the heap grows until the block fits. -/
theorem enlarge_all {allocEnd fuel : ℕ} (ha : allocEnd ≤ brk) (hb : brk < 4294967296)
    (hn : allocEnd + 16 + n + pageSize ≤ 4294967296) (hfuel : 4294967296 - brk < fuel) :
    ∃ brk', enlarge (fun _ => true) allocEnd n fuel brk = some (true, brk') := by
  have h₄ : pageSize = 4096 := rfl
  induction fuel generalizing brk with
  | zero => exact absurd hfuel (Nat.not_lt_zero _)
  | succ fuel ih =>
    rw [enlarge, sub32_eq ha hb, show add32 n sizeofMeta = n + 16 from
      add32_eq (show n + 16 < 4294967296 by omega)]
    split_ifs with h
    · rw [sbrkPage, if_pos ⟨rfl, by omega⟩]
      exact ih (by omega) (by omega) (by omega)
    · exact ⟨brk, rfl⟩

theorem nextBlock_eq {h : Heap} (hpos : 0 < base) (hr : Represents st base h bs) :
    nextBlock h = endOf base bs := by
  have hbase : base ≤ endOf base bs := le_endOf
  rw [nextBlock]
  rcases hr.allocEnd with h' | ⟨h', rfl, h''⟩
  · rw [h', if_neg (by omega)]
  · rw [if_pos h', h'', endOf]

/-- `malloc` only moves the break up. -/
theorem brk_le_malloc {h h' : Heap} (hpos : 0 < base) (hr : Represents st base h bs)
    (hn : n + 20 ≤ 4294967296) (he : malloc st (fun _ => true) h n = some (ptr, h')) :
    h.brk ≤ h'.brk := by
  have hnext := nextBlock_eq hpos hr
  obtain ⟨ok, brk', hen, hle, -⟩ := enlarge_spec (fun _ => true) hr.le_brk hr.brk_lt
    (roundUp_lt hn) (lt_of_le_of_lt (Nat.sub_le _ _) lt_loopFuel)
  rw [← hnext] at hen
  simp only [nextBlock] at hen
  rcases hf : firstFit st h.mem (roundUp n) loopFuel st.head with _ | _ | block
  · simp [malloc, hf] at he
  · simp only [malloc, hf, Option.bind_eq_bind, Option.bind_some, hen, Option.pure_def] at he
    cases ok <;> cases he <;> exact hle
  · simp only [malloc, hf, Option.bind_eq_bind, Option.bind_some, Option.pure_def] at he
    cases he
    exact le_rfl

/-- A call that adds a block does not fail, and moves the end of the heap past the block; any
    other leaves it where it is. -/
theorem MallocStep.endOf_eq {h h' : Heap} (hb : st.Below base) (hr : Represents st base h bs)
    (hroom : Grows st h n → nextBlock h + 16 + roundUp n + pageSize ≤ 4294967296)
    (he : malloc st (fun _ => true) h n = some (ptr, h'))
    (hstep : MallocStep base (roundUp n) req bs ptr bs') :
    (Grows st h n → endOf base bs' = endOf base bs + 16 + roundUp n) ∧
    (¬Grows st h n → endOf base bs' = endOf base bs) := by
  have hpos : 0 < base := by
    have := hb.head
    omega
  have hnext := nextBlock_eq hpos hr
  have hgrows := grows_iff (n := n) hb hr
  cases hstep with
  | @take pre post t hno hs =>
    refine ⟨fun hg => absurd ⟨rfl, hs⟩ (hgrows.1 hg ⟨t, none⟩ (by simp)), fun _ => ?_⟩
    rw [endOf_append, endOf_carve _ hs, endOf_append, endOf]
  | grow hno =>
    exact ⟨fun _ => endOf_append, fun hg => absurd (hgrows.2 hno) hg⟩
  | fail hno =>
    -- with room for the block the break moves far enough
    have h₄ : pageSize = 4096 := rfl
    have hroom := hroom (hgrows.2 hno)
    rw [hnext] at hroom
    obtain ⟨brk', hen⟩ := enlarge_all hr.le_brk hr.brk_lt hroom
      (lt_of_le_of_lt (Nat.sub_le _ _) lt_loopFuel)
    have := malloc_of_grow (hgrows.2 hno) hnext hen (by omega)
    rw [he, Option.some.injEq, Prod.mk.injEq] at this
    exact absurd this.1 (Nat.succ_ne_zero _).symm

/-! ## The invariant -/

/-- The invariant: the heap starts at `base`, the break when the first block was added, and
    pages returned by a direct call lie below `base` or above it, and below the break. -/
structure PortInv (st : Sentinels) (base : ℕ) (s : PortState) (bs : List Block) : Prop where
  start_le : memAllocateStart ≤ base
  heap : HeapInv st base s.client bs
  pos : ∀ r ∈ s.runs, 0 < r.pages
  apart : ∀ r ∈ s.runs, r.bound ≤ base ∨ base ≤ r.addr
  bound_le : ∀ r ∈ s.runs, r.bound ≤ s.client.heap.brk

variable {s s' : PortState} {op : PortOp} {r : PageRun}

theorem Sentinels.Below.mono (hb : st.Below memAllocateStart) (h : memAllocateStart ≤ base) :
    st.Below base :=
  ⟨hb.head.trans h, hb.tail.trans h, hb.apart⟩

theorem PortInv.below (hb : st.Below memAllocateStart) (h : PortInv st base s bs) :
    st.Below base := Sentinels.Below.mono hb h.start_le

theorem PortInv.addr_lt (h : PortInv st base s bs) (hr : r ∈ s.runs) : r.addr < r.bound := by
  have hp := h.pos r hr
  have : 0 < r.pages * pageSize := Nat.mul_pos hp (by decide)
  rw [PageRun.bound]
  omega

/-- The blocks are disjoint from the pages returned by direct calls exactly if the heap is. -/
theorem PortInv.disjoint_iff (hb : st.Below memAllocateStart) (h : PortInv st base s bs) :
    BlocksDisjoint st s ↔ ∀ r ∈ s.runs, r.bound ≤ base ∨ endOf base bs ≤ r.addr := by
  have hlist := h.heap.represents.list
  have hblock : ∀ pre b post, bs = pre ++ b :: post →
      IsBlock st s.client.heap.mem (endOf base pre) ∧
      Meta.size s.client.heap.mem (endOf base pre) = b.size := by
    rintro pre b post rfl
    refine ⟨(isBlock_iff (h.below hb) hlist).2 ?_, hlist.chain.seg.middle.1⟩
    rw [addrs_append]
    exact List.mem_append_right _ List.mem_cons_self
  constructor
  · intro hd r hr
    have hlt := h.addr_lt hr
    rcases h.apart r hr with hle | hle
    · exact .inl hle
    · -- otherwise the first of the pages lies in a block
      refine .inr (Nat.not_lt.1 fun hend => ?_)
      obtain ⟨pre, b, post, hbs, hlo, hhi⟩ := exists_block hle hend
      obtain ⟨hisb, hsize⟩ := hblock pre b post hbs
      have := hd _ hisb r hr
      rw [hsize] at this
      omega
  · intro hd a ha r hr
    obtain ⟨pre, b, post, hbs, rfl⟩ :=
      exists_of_mem_addrs ((isBlock_iff (h.below hb) hlist).1 ha)
    rw [(hblock pre b post hbs).2]
    have hbase : base ≤ endOf base pre := le_endOf
    have hend : endOf base pre + 16 + b.size ≤ endOf base bs := by
      rw [hbs, endOf_append]
      exact le_endOf
    rcases hd r hr with hle | hle
    · exact .inr (hle.trans hbase)
    · exact .inl (hend.trans hle)

theorem PortInv.of_init (h : (portSystem st).init s) : PortInv st memAllocateStart s [] := by
  obtain ⟨hinit, hruns⟩ := h
  have hnil : ∀ r, r ∉ s.runs := fun r hr => List.not_mem_nil (hruns ▸ hr)
  exact ⟨le_rfl, .of_init (by decide) hinit, fun r hr => absurd hr (hnil r),
    fun r hr => absurd hr (hnil r), fun r hr => absurd hr (hnil r)⟩

/-- A direct call takes the pages from the break on, above all blocks. -/
theorem PortInv.take (h : PortInv st base s bs) (hk : 0 < k)
    (hlt : s.client.heap.brk + k * pageSize < 4294967296) : ∃ base', PortInv st base'
      (s.take k (s.client.heap.brk, s.client.heap.brk + k * pageSize)) bs := by
  obtain ⟨hlist, hend, hle, -⟩ := h.heap.represents
  have hbase : base ≤ endOf base bs := le_endOf
  have hpos : ∀ r ∈ ⟨s.client.heap.brk, k⟩ :: s.runs, 0 < r.pages :=
    List.forall_mem_cons.2 ⟨hk, h.pos⟩
  have hbound : ∀ r ∈ ⟨s.client.heap.brk, k⟩ :: s.runs,
      r.bound ≤ s.client.heap.brk + k * pageSize :=
    List.forall_mem_cons.2 ⟨le_rfl, fun r hr => (h.bound_le r hr).trans (Nat.le_add_right _ _)⟩
  rcases hend with hend | ⟨hzero, rfl, hbrk⟩
  · refine ⟨base, h.start_le, ⟨⟨hlist, .inl hend, hle.trans (Nat.le_add_right _ _), hlt⟩,
      h.heap.tidy, h.heap.live⟩, hpos, List.forall_mem_cons.2 ⟨.inr (hbase.trans hle), h.apart⟩,
      hbound⟩
  · -- the heap has no block yet, so it starts above the pages
    refine ⟨_, h.start_le.trans (hbase.trans (hle.trans (Nat.le_add_right _ _))),
      ⟨⟨⟨chain_nil.2 (chain_nil.1 hlist.chain), hlist.head_free, hlist.tail_free⟩,
        .inr ⟨hzero, rfl, rfl⟩, le_rfl, hlt⟩, h.heap.tidy, h.heap.live⟩, hpos,
      fun r hr => .inl (hbound r hr), hbound⟩

/-- The pages of a direct call are disjoint from the blocks there are. -/
theorem PortInv.disjoint_take (hb : st.Below memAllocateStart) (h : PortInv st base s bs) :
    BlocksDisjoint st (s.take k (s.client.heap.brk, n)) ↔ BlocksDisjoint st s := by
  have hlist := h.heap.represents.list
  refine ⟨fun hd a ha r hr => hd a ha r (List.mem_cons_of_mem _ hr), fun hd a ha => ?_⟩
  refine List.forall_mem_cons.2 ⟨.inl ?_, hd a ha⟩
  obtain ⟨pre, b, post, rfl, rfl⟩ :=
    exists_of_mem_addrs ((isBlock_iff (h.below hb) hlist).1 ha)
  refine le_trans ?_ h.heap.represents.le_brk
  have hsize : Meta.size s.client.heap.mem (endOf base pre) = b.size := hlist.chain.seg.middle.1
  rw [endOf_append]
  exact hsize ▸ le_endOf

/-- `malloc` keeps the invariant, and the blocks stay disjoint from the pages of direct calls
    exactly if the block it adds, if any, is clear of them. -/
theorem PortInv.malloc (hb : st.Below memAllocateStart) (h : PortInv st base s bs)
    (hg : (portSystem st).guard s (.malloc n)) : ∃ s' bs',
      (portSystem st).step s (.malloc n) = some s' ∧ PortInv st base s' bs' ∧
      (BlocksDisjoint st s' ↔ BlocksDisjoint st s ∧ Clear st s (.malloc n)) := by
  obtain ⟨hn, hroom⟩ := hg
  have hbelow := h.below hb
  have hpos : 0 < base := by
    have := hbelow.head
    omega
  have hr := h.heap.represents
  obtain ⟨ptr, h', bs', he, hstep, hi', -⟩ := h.heap.malloc hbelow (fun _ => true) hn
  have hbrk := brk_le_malloc hpos hr hn he
  obtain ⟨hgrow, hkeep⟩ := MallocStep.endOf_eq hbelow hr hroom he hstep
  have h' : PortInv st base { s with client := .hand s.client.live n (ptr, h') } bs' :=
    ⟨h.start_le, hi', h.pos, h.apart, fun r hr => (h.bound_le r hr).trans hbrk⟩
  refine ⟨_, bs', congrArg (Option.map _) he, h', ?_⟩
  rw [h'.disjoint_iff hb, h.disjoint_iff hb]
  simp only [Clear, nextBlock_eq hpos hr]
  by_cases hgs : Grows st s.client.heap n
  · rw [hgrow hgs]
    constructor
    · -- what is disjoint from the longer heap is disjoint from the old one and the new block
      intro hd
      refine ⟨fun r hr => (hd r hr).imp_right fun hle => le_trans (by omega) hle,
        fun _ r hr hle => ?_⟩
      rcases hd r hr with hbase | hend
      · have hlt := h.addr_lt hr
        have : base ≤ endOf base bs := le_endOf
        omega
      · exact hend
    · rintro ⟨hd, hc⟩ r hr
      exact (hd r hr).imp_right fun hle => hc hgs r hr hle
  · -- a free block is reused, and the heap ends where it did
    rw [hkeep hgs]
    exact ⟨fun hd => ⟨hd, fun hg => absurd hg hgs⟩, fun hd => hd.1⟩

theorem PortInv.free (hb : st.Below memAllocateStart) (h : PortInv st base s bs)
    (hg : (portSystem st).guard s (.free ptr)) : ∃ s' bs',
      (portSystem st).step s (.free ptr) = some s' ∧ PortInv st base s' bs' ∧
      (BlocksDisjoint st s' ↔ BlocksDisjoint st s) := by
  obtain ⟨bs', hend, hi', -⟩ := h.heap.free (h.below hb) hg
  have hbrk : (Beryllium.free s.client.heap ptr).brk = s.client.heap.brk := by
    rw [Beryllium.free]
    split_ifs <;> rfl
  have h' : PortInv st base { s with
      client := ⟨Beryllium.free s.client.heap ptr, Function.update s.client.live ptr none⟩ } bs' :=
    ⟨h.start_le, hi', h.pos, h.apart, fun r hr => hbrk ▸ h.bound_le r hr⟩
  exact ⟨_, bs', rfl, h', by rw [h'.disjoint_iff hb, h.disjoint_iff hb, hend]⟩

/-- Every call ends and keeps the invariant, and the blocks stay disjoint from the pages
    of direct calls exactly if the call is clear. -/
theorem PortInv.step (hb : st.Below memAllocateStart) (h : PortInv st base s bs)
    (hg : (portSystem st).guard s op) : ∃ s' base' bs', (portSystem st).step s op = some s' ∧
      PortInv st base' s' bs' ∧ (BlocksDisjoint st s' ↔ BlocksDisjoint st s ∧ Clear st s op) := by
  have hne : s.client.heap.brk ≠ 0 := by
    have hle : memAllocateStart ≤ s.client.heap.brk :=
      h.start_le.trans (le_endOf.trans h.heap.represents.le_brk)
    exact (lt_of_lt_of_le (by decide) hle).ne'
  cases op with
  | malloc size =>
    obtain ⟨s', bs', h'⟩ := h.malloc hb hg
    exact ⟨s', base, bs', h'⟩
  | free ptr =>
    obtain ⟨s', bs', hs, h', hiff⟩ := h.free hb hg
    exact ⟨s', base, bs', hs, h', hiff.trans (and_iff_left trivial).symm⟩
  | memallocp pages =>
    obtain ⟨hk, hlt⟩ := hg
    obtain ⟨base', h'⟩ := h.take hk hlt
    exact ⟨_, base', bs, congrArg (Option.map _) (memallocp_eq hne hk hlt), h',
      (h.disjoint_take hb).trans (and_iff_left trivial).symm⟩
  | sbrk amount =>
    obtain ⟨hm, hdvd, hlt⟩ := hg
    have hk : 0 < amount / pageSize := Nat.div_pos (Nat.le_of_dvd hm hdvd) (by decide)
    have hmul : amount / pageSize * pageSize = amount := Nat.div_mul_cancel hdvd
    obtain ⟨base', h'⟩ := h.take hk (hmul.symm ▸ hlt)
    rw [hmul] at h'
    exact ⟨_, base', bs, congrArg (Option.map _) (sbrk_eq hne hm hdvd hlt), h',
      (h.disjoint_take hb).trans (and_iff_left trivial).symm⟩

/-- In every run from the boot on, the blocks of the heap are disjoint from the pages
    returned by direct calls exactly if every block that was added ended below the pages that
    had been returned above `alloc_end`. -/
theorem blocks_disjoint_iff (hb : st.Below memAllocateStart) {s₀ : PortState}
    {ops : List PortOp} (hinit : (portSystem st).init s₀) (h : (portSystem st).Run s₀ ops s) :
    BlocksDisjoint st s ↔ ((portSystem st).restrict (Clear st)).Run s₀ ops s := by
  have hnil : BlocksDisjoint st s₀ := fun a _ r hr => absurd (hinit.2 ▸ hr) List.not_mem_nil
  refine h.iff_restrict (P := fun s => ∃ base bs, PortInv st base s bs) ?_ ?_
    ⟨_, _, .of_init hinit⟩ hnil
  · rintro s op s' ⟨base, bs, hi⟩ hg hs
    obtain ⟨t, base', bs', ht, hi', -⟩ := hi.step hb hg
    rw [hs, Option.some.injEq] at ht
    exact ⟨base', bs', ht ▸ hi'⟩
  · rintro s op s' ⟨base, bs, hi⟩ hg hs
    obtain ⟨t, base', bs', ht, -, hiff⟩ := hi.step hb hg
    rw [hs, Option.some.injEq] at ht
    exact ht ▸ hiff

/-- The boot of a kernel with the static headers at 16 and 32. -/
def portBoot : PortState where
  client := ⟨⟨fun x => if x = 28 then 32 else if x = 40 then 16 else 0, 0, memAllocateStart⟩,
    fun _ => none⟩
  runs := []

theorem portBoot_init : (portSystem ⟨16, 32⟩).init portBoot :=
  ⟨⟨by decide, by decide, by decide, by decide, rfl, rfl, rfl⟩, rfl⟩

/-- A block that ends in the page `malloc` got before the direct call. -/
theorem blocks_disjoint_iff_small : ∃ s, s.runs = [⟨0x11000, 1⟩] ∧
    s.client.live 0x10024 = some 8 ∧ BlocksDisjoint ⟨16, 32⟩ s := by
  have h : ∃ s, ((portSystem ⟨16, 32⟩).restrict (Clear ⟨16, 32⟩)).Run portBoot
      [.malloc 4, .memallocp 1, .malloc 8] s ∧ (portSystem ⟨16, 32⟩).Run portBoot
      [.malloc 4, .memallocp 1, .malloc 8] s ∧ s.runs = [⟨0x11000, 1⟩] ∧
      s.client.live 0x10024 = some 8 := by
    refine ⟨_, .cons ⟨⟨by decide, fun _ => ?_⟩, fun _ r hr => ?_⟩ rfl
      (.cons ⟨⟨by decide, ?_⟩, trivial⟩ rfl
        (.cons ⟨⟨by decide, fun _ => ?_⟩, fun _ r hr => ?_⟩ rfl (.nil _))),
      .cons ⟨by decide, fun _ => ?_⟩ rfl (.cons ⟨by decide, ?_⟩ rfl
        (.cons ⟨by decide, fun _ => ?_⟩ rfl (.nil _))), rfl, rfl⟩
    · decide
    · exact absurd hr List.not_mem_nil
    · decide
    · decide
    · obtain rfl := List.mem_singleton.1 hr
      decide
    all_goals decide
  obtain ⟨s, hclear, hrun, hs⟩ := h
  exact ⟨s, hs.1, hs.2, (blocks_disjoint_iff ⟨by decide, by decide, by decide⟩ portBoot_init
    hrun).2 hclear⟩

/-- A block of 4 bytes, one page taken directly, and a block of a page: the last block
    overlaps the page. -/
theorem block_overlaps_page : ¬∀ (st : Sentinels) (s₀ s : PortState) (ops : List PortOp),
    st.Below memAllocateStart → (portSystem st).init s₀ → (portSystem st).Run s₀ ops s →
    BlocksDisjoint st s := by
  intro h
  have hrun : ∃ s, (portSystem ⟨16, 32⟩).Run portBoot
      [.malloc 4, .memallocp 1, .malloc 0x1000] s ∧ s.runs = [⟨0x11000, 1⟩] ∧
      Meta.next s.client.heap.mem 16 = 0x10000 ∧ Meta.next s.client.heap.mem 0x10000 = 0x10014 ∧
      Meta.size s.client.heap.mem 0x10014 = 0x1000 := by
    refine ⟨_, .cons ⟨by decide, fun _ => ?_⟩ rfl (.cons ⟨by decide, ?_⟩ rfl
      (.cons ⟨by decide, fun _ => ?_⟩ rfl (.nil _))), rfl, rfl, rfl, rfl⟩
    all_goals decide
  obtain ⟨s, hrun, hruns, h₁, h₂, h₃⟩ := hrun
  have hfirst : IsBlock ⟨16, 32⟩ s.client.heap.mem 0x10000 := h₁ ▸ .first (by rw [h₁]; decide)
  have hblock : IsBlock ⟨16, 32⟩ s.client.heap.mem 0x10014 :=
    h₂ ▸ .next hfirst (by rw [h₂]; decide)
  have := h ⟨16, 32⟩ portBoot s _ ⟨by decide, by decide, by decide⟩ portBoot_init hrun 0x10014
    hblock ⟨0x11000, 1⟩ (by rw [hruns]; exact List.mem_singleton_self _)
  rw [h₃] at this
  revert this
  decide

end IntegratorCp

end Beryllium

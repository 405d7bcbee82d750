import Beryllium.Heap.Safety

/-!
# realloc

`realloc` of `kernel/malloc.c`. It calls `malloc` first, and then `free`, twice if the size is
0 and `malloc(0)` returned a block: once because of the size, and once more after the copy.
The second call merges a header that is no block any more.

`realloc_sound_iff`: this is the only way for it to go wrong. In every run of a client without
such a call, and whose sizes do not wrap, `realloc` keeps the heap safe, frees the old block
once, copies its bytes and leaves all others alone.
-/

namespace Beryllium

open Machine

section

variable (st : Sentinels)

/-- `free(ptr)`, with the pointers that have been freed. -/
def freeNoted (r : Heap × List ℕ) (ptr : ℕ) : Heap × List ℕ := (free r.1 ptr, r.2 ++ [ptr])

/-- `realloc(pointer, size)`: the pointer returned, the heap after it, and the pointers that it
    freed, in order. -/
def realloc (avail : ℕ → Bool) (h : Heap) (pointer size : ℕ) : Option (ℕ × Heap × List ℕ) := do
  let r ← malloc st avail h size
  let h := (r.2, [])
  let h := if pointer ≠ NULL ∧ size = 0 then freeNoted h pointer else h
  if pointer ≠ NULL ∧ r.1 ≠ NULL then
    let oldBlock := sub32 pointer sizeofMeta
    let min := if size < Meta.size h.1.mem oldBlock then size else Meta.size h.1.mem oldBlock
    let h := ({ h.1 with mem := memcpy h.1.mem r.1 pointer min }, h.2)
    return (r.1, freeNoted h pointer)
  else return (r.1, h)

end

/-! ## Runs -/

/-- What a client does, `realloc` included. -/
inductive ReallocOp
  | client (op : HeapOp)
  | realloc (avail : ℕ → Bool) (ptr size : ℕ)

/-- The state after `realloc(ptr, size)` with the result `r`. -/
def HeapState.rehand (live : ℕ → Option ℕ) (ptr size : ℕ) (r : ℕ × Heap × List ℕ) : HeapState :=
  .hand (if ptr ∈ r.2.2 then Function.update live ptr none else live) size (r.1, r.2.1)

/-- A client of the heap that may ask for any 32-bit sizes. -/
def reallocSystem (st : Sentinels) (base : ℕ) : System HeapState ReallocOp where
  init := (heapSystem st base).init
  guard s
    | .client (.malloc _ size) => size < 4294967296
    | .client (.calloc _ numOfElts eltSize) => numOfElts < 4294967296 ∧ eltSize < 4294967296
    | .client op => (heapSystem st base).guard s op
    | .realloc _ ptr size => (ptr = NULL ∨ (s.live ptr).isSome) ∧ size < 4294967296
  step s
    | .client op => (heapSystem st base).step s op
    | .realloc avail ptr size => (realloc st avail s.heap ptr size).map (.rehand s.live ptr size)

/-- No size wraps: neither when it is rounded up, nor with the header, nor as the product of
    `calloc`. -/
def NoWrap : ReallocOp → Prop
  | .client (.malloc _ size) => size + 20 ≤ 4294967296
  | .client (.calloc _ numOfElts eltSize) => numOfElts * eltSize + 20 ≤ 4294967296
  | .client _ => True
  | .realloc _ _ size => size + 20 ≤ 4294967296

/-- There is no free block, and `sbrk` has no page for the header of a new one. -/
def NoBlock (st : Sentinels) (avail : ℕ → Bool) (h : Heap) : Prop :=
  firstFit st h.mem 0 loopFuel st.head = some none ∧
  h.brk < (if h.allocEnd = 0 then h.brk else h.allocEnd) + sizeofMeta ∧ sbrkPage avail h.brk = none

/-- `realloc` frees the pointer at most once: it is not asked for 0 bytes when there is a block
    for them. -/
def FreesOnce (st : Sentinels) (s : HeapState) : ReallocOp → Prop
  | .realloc avail ptr size => ptr = NULL ∨ size ≠ 0 ∨ NoBlock st avail s.heap
  | _ => True

/-- The runs of a client without a size that wraps or a block that is freed twice. -/
def soundSystem (st : Sentinels) (base : ℕ) : System HeapState ReallocOp :=
  (reallocSystem st base).restrict fun s op => NoWrap op ∧ FreesOnce st s op

/-- The bytes of the block of `p` are the same in the memory `m`. -/
def SameBlock (s : HeapState) (m : Mem) (p : ℕ) : Prop :=
  ∀ i < Meta.size s.heap.mem (p - 16), m (p + i) = s.heap.mem (p + i)

/-- What `realloc(ptr, size)` is for, with its result `r`. -/
structure ReallocSound (st : Sentinels) (base : ℕ) (s : HeapState) (ptr size : ℕ)
    (r : ℕ × Heap × List ℕ) : Prop where
  /-- The heap is safe. -/
  safe : ∃ as, HeapSafe st base (.rehand s.live ptr size r) as
  /-- The old block is freed once. -/
  freed : r.1 ≠ NULL → ptr ≠ NULL → r.2.2 = [ptr]
  /-- Its bytes have been copied. -/
  copied : r.1 ≠ NULL → ptr ≠ NULL → ∀ i < min size (Meta.size s.heap.mem (ptr - 16)),
    r.2.1.mem (r.1 + i) = s.heap.mem (ptr + i)
  /-- All other blocks are the same. -/
  others : ∀ p, (s.live p).isSome → p ≠ ptr → SameBlock s r.2.1.mem p

variable {st : Sentinels} {base n p ptr q : ℕ} {avail : ℕ → Bool} {s : HeapState}
  {bs bs' : List Block} {b c : Block} {h : Heap}

/-! ## Blocks in use -/

theorem HasBlock.disjoint {a : ℕ} (hp : HasBlock a bs p b) (hq : HasBlock a bs q c) (hne : p ≠ q) :
    p + b.size ≤ q ∨ q + c.size ≤ p := by
  induction bs generalizing a with
  | nil => exact hp.elim
  | cons d bs ih =>
    rcases hp with ⟨rfl, rfl⟩ | hp
    · rcases hq with ⟨rfl, rfl⟩ | hq
      · exact absurd rfl hne
      · have := hq.bounds
        omega
    · rcases hq with ⟨rfl, rfl⟩ | hq
      · have := hp.bounds
        omega
      · exact ih hp hq

/-- The block of a live pointer, and its size in memory. -/
theorem HeapInv.hasBlock (hi : HeapInv st base s bs) {r : ℕ} (hp : s.live p = some r) :
    HasBlock base bs p ⟨Meta.size s.heap.mem (p - 16), some r⟩ ∧ r ≤ Meta.size s.heap.mem
    (p - 16) := by
  obtain ⟨pre, size, post, rfl, rfl⟩ := exists_of_ownerAt (hi.live p ▸ hp)
  rw [Nat.add_sub_cancel, hi.represents.list.chain.seg.middle.1]
  exact ⟨hasBlock_middle, hi.tidy.owner_le ⟨size, some r⟩ (by simp) r rfl⟩

theorem HasBlock.inUse {a i : ℕ} (h : HasBlock a bs p b) (ho : b.owner ≠ none) (hi : i < b.size) :
    InUse a bs (p + i) := ⟨p, b, h, ho, Nat.le_add_right p i, Nat.add_lt_add_left hi p⟩

/-- A block that is still there has the same size in memory. -/
theorem HeapInv.size_eq (hi : HeapInv st base s bs) (h : HasBlock base bs p b) :
    Meta.size s.heap.mem (p - 16) = b.size := by
  obtain ⟨pre, post, rfl, rfl⟩ := hasBlock_iff.1 h
  rw [Nat.add_sub_cancel]
  exact hi.represents.list.chain.seg.middle.1

/-! ## malloc(0) -/

/-- The loop of `malloc(0)` needs one page at most. -/
theorem enlarge_zero (avail : ℕ → Bool) {a brk : ℕ} (ha : a ≤ brk) (hlt : brk < 4294967296)
    (fuel : ℕ) : enlarge avail a 0 (fuel + 2) brk =
      if brk < a + 16 ∧ sbrkPage avail brk = none then some (false, brk)
      else some (true, if brk < a + 16 then brk + pageSize else brk) := by
  have hzero : add32 0 sizeofMeta = 16 := rfl
  rw [enlarge, sub32_eq ha hlt, hzero]
  by_cases hroom : brk < a + 16
  · rw [if_pos (show brk - a < 16 by omega), if_pos hroom]
    rcases hsbrk : sbrkPage avail brk with _ | brk'
    · rw [if_pos ⟨hroom, rfl⟩]
    · rw [if_neg fun h => by cases h.2]
      rw [sbrkPage] at hsbrk
      split_ifs at hsbrk with hpage
      obtain rfl := Option.some.inj hsbrk
      have h₄ : pageSize = 4096 := rfl
      dsimp only
      rw [enlarge, sub32_eq (by omega) hpage.2, hzero, if_neg (by omega)]
  · rw [if_neg (show ¬brk - a < 16 by omega), if_neg hroom, if_neg fun h => hroom h.1]

/-- `malloc(0)` returns `NULL` exactly if there is no block. -/
theorem HeapInv.malloc_zero (hb : st.Below base) (hi : HeapInv st base s bs)
    (he : Beryllium.malloc st avail s.heap 0 = some (ptr, h)) :
    ptr = NULL ↔ NoBlock st avail s.heap := by
  have hbase : base ≤ endOf base bs := le_endOf
  have hlen : bs.length < loopFuel := hi.represents.length_lt
  obtain ⟨hlist, hend, hle, hlt⟩ := hi.represents
  have hround : roundUp 0 = 0 := rfl
  rcases firstFit_spec (n := 0) hlist.chain hb.tail hlen with ⟨pre, b, post, rfl, -, -, hfit⟩ |
    ⟨-, hfit⟩
  · have hmiddle : HasBlock base (pre ++ b :: post) (endOf base pre + 16) b := hasBlock_middle
    have hblock := hmiddle.bounds
    rw [malloc_of_take (hround ▸ hfit) (by omega)] at he
    cases he
    refine iff_of_false (Nat.succ_ne_zero _) fun hno => ?_
    cases hfit.symm.trans hno.1
  · generalize hae : (if s.heap.allocEnd = 0 then s.heap.brk else s.heap.allocEnd) = a
    have ha : a ≤ s.heap.brk := by
      rcases hend with h | ⟨h, -⟩
      · split_ifs at hae <;> omega
      · rw [if_pos h] at hae
        omega
    have henlarge := enlarge_zero avail ha hlt 4294967295
    rw [NoBlock, hae, hfit, and_iff_right rfl]
    by_cases hno : s.heap.brk < a + 16 ∧ sbrkPage avail s.heap.brk = none
    · rw [if_pos hno] at henlarge
      rw [malloc_of_fail (hround ▸ hfit) hae (hround ▸ henlarge)] at he
      cases he
      exact iff_of_true rfl hno
    · rw [if_neg hno] at henlarge
      have hroom : a + 16 + roundUp 0 < 4294967296 := by
        rw [hround]
        have h₄ : pageSize = 4096 := rfl
        by_cases hlow : s.heap.brk < a + 16
        · have hpage := mt (And.intro hlow) hno
          rw [sbrkPage, ite_eq_right_iff, Classical.not_imp] at hpage
          omega
        · omega
      rw [malloc_of_grow (hround ▸ hfit) hae (hround ▸ henlarge) hroom] at he
      cases he
      exact iff_of_false (Nat.succ_ne_zero _) hno

/-! ## What stays the same -/

theorem SameBlock.trans {m : Mem} {live : ℕ → Option ℕ} (h₁ : SameBlock s h.mem p)
    (hsize : Meta.size h.mem (p - 16) = Meta.size s.heap.mem (p - 16))
    (h₂ : SameBlock ⟨h, live⟩ m p) : SameBlock s m p :=
  fun i hi => (h₂ i (hsize.symm ▸ hi)).trans (h₁ i hi)

/-- `malloc` leaves the block of a live pointer alone. -/
theorem HeapInv.same_malloc (hi : HeapInv st base s bs) {req r : ℕ} {live : ℕ → Option ℕ}
    (hstep : MallocStep base n req bs ptr bs') (hi' : HeapInv st base ⟨h, live⟩ bs')
    (hsame : SameInUse s.heap.mem h.mem base bs) (hp : s.live p = some r) :
    SameBlock s h.mem p ∧ Meta.size h.mem (p - 16) = Meta.size s.heap.mem (p - 16) := by
  obtain ⟨hblock, -⟩ := hi.hasBlock hp
  exact ⟨fun i hi => hsame _ (hblock.inUse (by simp) hi),
    hi'.size_eq (hstep.hasBlock hblock (by simp))⟩

/-- `free` leaves the blocks of the other live pointers alone. -/
theorem HeapInv.same_free (hi : HeapInv st base s bs) {r : ℕ} {m : Mem}
    (hkept : ∀ p b, HasBlock base bs p b → b.owner ≠ none → p ≠ ptr → HasBlock base bs' p b)
    (hsame : SameInUse s.heap.mem m base bs') (hp : s.live p = some r) (hne : p ≠ ptr) :
    SameBlock s m p := by
  obtain ⟨hblock, -⟩ := hi.hasBlock hp
  exact fun i hi => hsame _ ((hkept p _ hblock (by simp) hne).inUse (by simp) hi)

/-- A copy into the block of `q` keeps the invariant, and leaves the blocks of the other live
    pointers alone. -/
theorem HeapInv.copy {live : ℕ → Option ℕ} (hb : st.Below base) (hi : HeapInv st base ⟨h, live⟩ bs)
    {size k : ℕ} (ptr : ℕ) (hq : live q = some size) (hk : k ≤ size) :
    HeapInv st base ⟨{ h with mem := memcpy h.mem q ptr k }, live⟩ bs ∧
      ∀ p r, live p = some r → p ≠ q → SameBlock ⟨h, live⟩ (memcpy h.mem q ptr k) p ∧
        Meta.size (memcpy h.mem q ptr k) (p - 16) = Meta.size h.mem (p - 16) := by
  have hi' : HeapInv st base ⟨{ h with mem := memcpy h.mem q ptr k }, live⟩ bs :=
    ⟨hi.represents.store hb hi.tidy ((hi.live q).symm.trans hq) fun x hx =>
      memcpy_apply_of_disjoint (by omega), hi.tidy, hi.live⟩
  refine ⟨hi', fun p r hp hne => ?_⟩
  obtain ⟨hblock, -⟩ := hi.hasBlock (p := p) hp
  obtain ⟨hblock', hle⟩ := hi.hasBlock (p := q) hq
  have hdisj := hblock.disjoint hblock' hne
  dsimp only at hdisj hle
  exact ⟨fun i hi => memcpy_apply_of_disjoint (by dsimp only at hi; omega), hi'.size_eq hblock⟩

/-! ## realloc -/

theorem HeapInv.ptr_bounds (hb : st.Below base) (hi : HeapInv st base s bs)
    (hptr : (s.live ptr).isSome) : 16 < ptr ∧ ptr < 4294967296 := by
  obtain ⟨r, hr⟩ := Option.isSome_iff_exists.1 hptr
  have hbounds := (hi.hasBlock hr).1.bounds
  have hle := hi.represents.le_brk
  have hlt := hi.represents.brk_lt
  have hhead := hb.head
  have htail := hb.tail
  have hapart := hb.apart
  omega

/-- A call with a copy: the old block is freed after its bytes have been copied. -/
theorem HeapInv.realloc_copy (hb : st.Below base) (hi : HeapInv st base s bs) {size : ℕ}
    (hptr : (s.live ptr).isSome) (h₀ : size ≠ 0)
    (he : Beryllium.malloc st avail s.heap size = some (q, h)) (hq : q ≠ NULL)
    (hstep : MallocStep base (roundUp size) size bs q bs')
    (hi' : HeapInv st base (.hand s.live size (q, h)) bs')
    (hsame : SameInUse s.heap.mem h.mem base bs) :
    ∃ r bs'', realloc st avail s.heap ptr size = some r ∧
      HeapInv st base (.rehand s.live ptr size r) bs'' ∧ ReallocSound st base s ptr size r := by
  obtain ⟨hlow, hhigh⟩ := hi.ptr_bounds hb hptr
  obtain ⟨r, hr⟩ := Option.isSome_iff_exists.1 hptr
  -- the new pointer is another one
  have hfresh : s.live q = none := (hi.live q).trans (hstep.fresh hq)
  have hne {p r : ℕ} (hp : s.live p = some r) : p ≠ q := by
    rintro rfl
    cases hp.symm.trans hfresh
  rw [HeapState.hand, if_neg hq] at hi'
  have hlive {p r : ℕ} (hp : s.live p = some r) :
    Function.update s.live q (some size) p = some r := by
    rw [Function.update_of_ne (hne hp), hp]
  obtain ⟨hsamep, hsizep⟩ := hi.same_malloc hstep hi' hsame hr
  -- the copy
  obtain ⟨k, hk⟩ : ∃ k, k = min size (Meta.size s.heap.mem (ptr - 16)) := ⟨_, rfl⟩
  have hmin : (if size < Meta.size h.mem (ptr - 16) then size
    else Meta.size h.mem (ptr - 16)) = k := by
    rw [hsizep, hk]
    split_ifs <;> omega
  have hself : Function.update s.live q (some size) q = some size := Function.update_self _ _ _
  obtain ⟨hi₂, hother⟩ := hi'.copy hb ptr hself (show k ≤ size by omega)
  -- the old block
  have hptr' : (Function.update s.live q (some size) ptr).isSome := by rw [hlive hr]; rfl
  obtain ⟨bs₃, -, hi₃, hsame₃, hkept⟩ := hi₂.free hb (.inr hptr')
  dsimp only at hi₃ hsame₃
  rw [Function.update_comm (hne hr).symm] at hi₃
  have hi₄ : HeapInv st base (.rehand s.live ptr size
      (q, Beryllium.free { h with mem := memcpy h.mem q ptr k } ptr, [ptr])) bs₃ := by
    rw [HeapState.rehand, if_pos (List.mem_singleton_self ptr), HeapState.hand, if_neg hq]
    exact hi₃
  refine ⟨_, bs₃, ?_, hi₄, ⟨_, hi₄.safe hb⟩, fun _ _ => rfl, fun _ _ i hik => ?_,
    fun p hp hpne => ?_⟩
  · rw [realloc, he]
    simp only [Option.bind_eq_bind, Option.bind_some, Option.pure_def, sub32_eq hlow.le hhigh, hmin,
      if_neg (show ¬(ptr ≠ NULL ∧ size = 0) from fun h => h₀ h.2),
      if_pos (show ptr ≠ NULL ∧ q ≠ NULL from ⟨(Nat.zero_lt_of_lt hlow).ne', hq⟩), freeNoted,
      List.nil_append]
  · -- the bytes of the new block are copied, and not changed when the old one is freed
    obtain ⟨hblock, hle⟩ := hi'.hasBlock (p := q) (Function.update_self _ _ _)
    obtain ⟨hblockp, -⟩ := hi'.hasBlock (p := ptr) (hlive hr)
    have hdisj := hblockp.disjoint hblock (hne hr)
    dsimp only at hdisj hle
    rw [hsizep] at hdisj
    have hiq : i < Meta.size h.mem (q - 16) := by omega
    have hcopied : (Beryllium.free { h with mem := memcpy h.mem q ptr k } ptr).mem (q + i) =
        memcpy h.mem q ptr k (q + i) :=
      hsame₃ _ ((hkept q _ hblock (by simp) (hne hr).symm).inUse (by simp) hiq)
    exact (hcopied.trans (memcpy_apply (by omega) (by omega))).trans (hsamep i (by omega))
  · obtain ⟨r', hr'⟩ := Option.isSome_iff_exists.1 hp
    obtain ⟨hsame₁, hsize₁⟩ := hi.same_malloc hstep hi' hsame hr'
    obtain ⟨hsame₂, hsize₂⟩ := hother p r' (hlive hr') (hne hr')
    exact (hsame₁.trans hsize₁ hsame₂).trans (hsize₂.trans hsize₁)
      (hi₂.same_free hkept hsame₃ (hlive hr') hpne)

/-- A call without a copy: the old block is freed if the size is 0. -/
theorem HeapInv.realloc_null (hb : st.Below base) (hi : HeapInv st base s bs) {size : ℕ}
    (hptr : (s.live ptr).isSome) (he : Beryllium.malloc st avail s.heap size = some (NULL, h))
    (hstep : MallocStep base (roundUp size) size bs NULL bs')
    (hi' : HeapInv st base ⟨h, s.live⟩ bs') (hsame : SameInUse s.heap.mem h.mem base bs) :
    ∃ r bs'', realloc st avail s.heap ptr size = some r ∧
      HeapInv st base (.rehand s.live ptr size r) bs'' ∧ ReallocSound st base s ptr size r := by
  obtain ⟨hlow, -⟩ := hi.ptr_bounds hb hptr
  have hne : ptr ≠ NULL := (Nat.zero_lt_of_lt hlow).ne'
  have hcopy : ¬(ptr ≠ NULL ∧ NULL ≠ NULL) := fun h => h.2 rfl
  by_cases h₀ : size = 0
  · obtain ⟨bs₂, -, hi₂, hsame₂, hkept⟩ := hi'.free hb (.inr hptr)
    have hi₃ : HeapInv st base (.rehand s.live ptr size (NULL, Beryllium.free h ptr, [ptr]))
      bs₂ := by
      rw [HeapState.rehand, if_pos (List.mem_singleton_self ptr)]
      exact hi₂
    refine ⟨_, bs₂, ?_, hi₃, ⟨_, hi₃.safe hb⟩, fun h => absurd rfl h, fun h => absurd rfl h,
      fun p hp hpne => ?_⟩
    · rw [realloc, he]
      simp only [Option.bind_eq_bind, Option.bind_some, Option.pure_def, if_pos (And.intro hne h₀),
        if_neg hcopy, freeNoted, List.nil_append]
    · obtain ⟨r, hr⟩ := Option.isSome_iff_exists.1 hp
      obtain ⟨hsame₁, hsize₁⟩ := hi.same_malloc hstep hi' hsame hr
      exact hsame₁.trans hsize₁ (hi'.same_free hkept hsame₂ hr hpne)
  · have hi₃ : HeapInv st base (.rehand s.live ptr size (NULL, h, [])) bs' := hi'
    refine ⟨_, bs', ?_, hi₃, ⟨_, hi₃.safe hb⟩, fun h => absurd rfl h, fun h => absurd rfl h,
      fun p hp _ => ?_⟩
    · rw [realloc, he]
      simp only [Option.bind_eq_bind, Option.bind_some, Option.pure_def,
        if_neg (show ¬(ptr ≠ NULL ∧ size = 0) from fun h => h₀ h.2), if_neg hcopy]
    · obtain ⟨r, hr⟩ := Option.isSome_iff_exists.1 hp
      exact (hi.same_malloc hstep hi' hsame hr).1

/-- A call without a second `free` keeps the heap as its clients rely on. -/
theorem HeapInv.realloc (hb : st.Below base) (hi : HeapInv st base s bs) {size : ℕ}
    (hptr : ptr = NULL ∨ (s.live ptr).isSome) (hsize : size + 20 ≤ 4294967296)
    (honce : ptr = NULL ∨ size ≠ 0 ∨ NoBlock st avail s.heap) :
    ∃ r bs', Beryllium.realloc st avail s.heap ptr size = some r ∧
      HeapInv st base (.rehand s.live ptr size r) bs' ∧ ReallocSound st base s ptr size r := by
  obtain ⟨q, h, bs₁, he, hstep, hi₁, hsame⟩ := hi.malloc hb avail hsize
  rcases hptr with rfl | hptr
  · -- a call of `malloc`
    refine ⟨(q, h, []), bs₁, ?_, hi₁, ⟨_, hi₁.safe hb⟩, fun _ hne => absurd rfl hne,
      fun _ hne => absurd rfl hne, fun p hp _ => ?_⟩
    · rw [Beryllium.realloc, he]
      rfl
    · obtain ⟨r, hr⟩ := Option.isSome_iff_exists.1 hp
      have hi' : HeapInv st base ⟨h, (HeapState.hand s.live size (q, h)).live⟩ bs₁ := hi₁
      exact (hi.same_malloc hstep hi' hsame hr).1
  · by_cases hq : q = NULL
    · subst hq
      exact hi.realloc_null hb hptr he hstep hi₁ hsame
    · have hne : ptr ≠ NULL := (Nat.zero_lt_of_lt (hi.ptr_bounds hb hptr).1).ne'
      refine hi.realloc_copy hb hptr ?_ he hq hstep hi₁ hsame
      rintro rfl
      rcases honce with h | h | h
      · exact hne h
      · exact h rfl
      · exact hq ((hi.malloc_zero hb he).2 h)

/-- A call for 0 bytes that gets a block frees the old one twice. -/
theorem HeapInv.realloc_twice (hb : st.Below base) (hi : HeapInv st base s bs)
    (hptr : (s.live ptr).isSome) (hblock : ¬NoBlock st avail s.heap) :
    ∃ r, Beryllium.realloc st avail s.heap ptr 0 = some r ∧ r.1 ≠ NULL ∧ r.2.2 = [ptr, ptr] := by
  obtain ⟨q, h, bs₁, he, -⟩ := hi.malloc hb avail (n := 0) (by decide)
  have hne : ptr ≠ NULL := (Nat.zero_lt_of_lt (hi.ptr_bounds hb hptr).1).ne'
  have hq : q ≠ NULL := mt (hi.malloc_zero hb he).1 hblock
  rw [Beryllium.realloc, he]
  simp only [Option.bind_eq_bind, Option.bind_some, Option.pure_def, and_true, if_pos hne,
    if_pos (And.intro hne hq), freeNoted, List.nil_append, List.singleton_append]
  exact ⟨_, rfl, hq, rfl⟩

/-! ## Every run -/

/-- The calls of other functions are those of a client as before, if no size wraps. -/
theorem NoWrap.guard {op : HeapOp} (hw : NoWrap (.client op))
    (hg : (reallocSystem st base).guard s (.client op)) : (heapSystem st base).guard s op := by
  cases op with
  | malloc avail size => exact hw
  | calloc avail numOfElts eltSize => exact hw
  | free ptr => exact hg
  | store ptr i v => exact hg

/-- A step without a size that wraps or a block that is freed twice keeps the invariant. -/
theorem HeapInv.sound_step {op : ReallocOp} (hb : st.Below base) (hi : HeapInv st base s bs)
    (hg : (soundSystem st base).guard s op) :
    ∃ s' bs', (reallocSystem st base).step s op = some s' ∧ HeapInv st base s' bs' := by
  obtain ⟨hg, hw, honce⟩ := hg
  cases op with
  | client op =>
    obtain ⟨t, bs', ht, hi', -⟩ := hi.step hb (hw.guard hg)
    exact ⟨t, bs', ht, hi'⟩
  | realloc avail ptr size =>
    obtain ⟨r, bs', hr, hi', -⟩ := hi.realloc hb hg.1 hw honce
    exact ⟨_, bs', congrArg (Option.map _) hr, hi'⟩

theorem heapInv_of_soundSystem (hb : st.Below base) (hbase : base < 4294967296)
    (h : (soundSystem st base).Reachable s) : ∃ bs, HeapInv st base s bs := by
  have hinit : ∀ s, (soundSystem st base).init s → ∃ bs, HeapInv st base s bs :=
    fun s h₀ => ⟨[], .of_init hbase h₀⟩
  refine h.of_step hinit ?_
  rintro s op s' ⟨bs, hi⟩ hg hs
  obtain ⟨t, bs', ht, hi'⟩ := hi.sound_step hb hg
  obtain rfl := Option.some.inj (ht.symm.trans hs)
  exact ⟨bs', hi'⟩

/-- In every state that a client reaches without a size that wraps or a block that is freed
    twice, a call of `realloc` whose size does not wrap does what it is for exactly if it
    does not free the old block twice. -/
theorem realloc_sound_iff (hb : st.Below base) (hbase : base < 4294967296)
    (h : (soundSystem st base).Reachable s) {size : ℕ} (hptr : ptr = NULL ∨ (s.live ptr).isSome)
    (hsize : size + 20 ≤ 4294967296) : ∃ r, realloc st avail s.heap ptr size = some r ∧
      (ReallocSound st base s ptr size r ↔ ptr = NULL ∨ size ≠ 0 ∨ NoBlock st avail s.heap) := by
  obtain ⟨bs, hi⟩ := heapInv_of_soundSystem hb hbase h
  by_cases honce : ptr = NULL ∨ size ≠ 0 ∨ NoBlock st avail s.heap
  · obtain ⟨r, -, hr, -, hsound⟩ := hi.realloc hb hptr hsize honce
    exact ⟨r, hr, iff_of_true hsound honce⟩
  · obtain ⟨hne, hzero, hblock⟩ : ptr ≠ NULL ∧ size = 0 ∧ ¬NoBlock st avail s.heap := by
      rwa [not_or, not_or, not_ne_iff] at honce
    subst hzero
    obtain ⟨r, hr, hq, htwice⟩ := hi.realloc_twice hb (hptr.resolve_left hne) hblock
    refine ⟨r, hr, iff_of_false (fun hsound => ?_) honce⟩
    cases htwice.symm.trans (hsound.freed hq hne)

/-- A block of four bytes that grows to eight. -/
theorem realloc_sound_iff_grow : ∃ s r, (soundSystem ⟨16, 32⟩ 4096).Run bootHeap
    [.client (.malloc (fun _ => true) 4)] s ∧ realloc ⟨16, 32⟩
    (fun _ => true) s.heap 4112 8 = some r ∧ ReallocSound ⟨16, 32⟩ 4096 s 4112 8 r := by
  have hrun : ∃ s, (soundSystem ⟨16, 32⟩ 4096).Run bootHeap
      [.client (.malloc (fun _ => true) 4)] s ∧ s.live 4112 = some 4 := by
    refine ⟨_, .cons ⟨?_, ?_, trivial⟩ rfl (.nil _), rfl⟩
    · exact show 4 < 4294967296 by decide
    · exact show 4 + 20 ≤ 4294967296 by decide
  obtain ⟨s, hr, hlive⟩ := hrun
  obtain ⟨r, hrealloc, hiff⟩ : ∃ r, realloc ⟨16, 32⟩ (fun _ => true) s.heap 4112 8 = some r ∧
      (ReallocSound ⟨16, 32⟩ 4096 s 4112 8 r ↔ 4112 = NULL ∨ 8 ≠ 0 ∨ _) :=
    realloc_sound_iff below_bootHeap (by decide) ⟨_, _, bootHeap_init, hr⟩
      (.inr (by rw [hlive]; rfl)) (show 8 + 20 ≤ 4294967296 by decide)
  exact ⟨s, r, hr, hrealloc, hiff.2 (.inr (.inl (by decide)))⟩

/-- The first and the third of four blocks are free, and the fourth is freed by `realloc`. -/
theorem realloc_frees_twice : ¬∀ (st : Sentinels) (base : ℕ) (avail : ℕ → Bool) (s : HeapState)
    (ptr size : ℕ) (r : ℕ × Heap × List ℕ), st.Below base → base < 4294967296 →
    (reallocSystem st base).Reachable s → (ptr = NULL ∨ (s.live ptr).isSome) →
    size + 20 ≤ 4294967296 →
    realloc st avail s.heap ptr size = some r → ReallocSound st base s ptr size r := by
  intro h
  have hrun : ∃ s r, (reallocSystem ⟨16, 32⟩ 4096).Run bootHeap
      [.client (.malloc (fun _ => true) 4), .client (.malloc (fun _ => true) 4),
        .client (.malloc (fun _ => true) 4), .client (.malloc (fun _ => true) 4),
        .client (.free 4112), .client (.free 4152)] s ∧ s.live 4172 = some 4 ∧
      realloc ⟨16, 32⟩ (fun _ => true) s.heap 4172 0 = some r ∧ r.1 = 4112 ∧
        r.2.2 = [4172, 4172] := by
    have hsize : 4 < 4294967296 := by decide
    exact ⟨_, _, .cons hsize rfl (.cons hsize rfl (.cons hsize rfl (.cons hsize rfl
      (.cons (.inr rfl) rfl (.cons (.inr rfl) rfl (.nil _)))))), rfl, rfl, rfl, rfl⟩
  obtain ⟨s, r, hr, hlive, hrealloc, hq, hfreed⟩ := hrun
  have hsound := h ⟨16, 32⟩ 4096 _ s 4172 0 r below_bootHeap (by decide) ⟨_, _, bootHeap_init, hr⟩
    (.inr (by rw [hlive]; rfl)) (by decide) hrealloc
  have := hsound.freed (by rw [hq]; decide) (by decide)
  rw [hfreed] at this
  cases this

end Beryllium

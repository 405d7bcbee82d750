import Beryllium.Heap.Safety

/-!
# The allocator over sbrk

`malloc`, `free` and `calloc` of `kernel/malloc.c` as they call the `sbrk` of a port, which has a
state of its own and may not return. All that they need of it is that `sbrk(0)` returns a break that
`sbrk(PAGE_SIZE)` does not move down (`SbrkLaws`): each call is then one of the allocator whose
break is a number, at the break that `sbrk` has moved to (`OverHeap.Inv.malloc`), so its invariant
holds in every state that a client reaches (`OverHeap.Inv.of_reachable`).
-/

namespace Beryllium

open Machine

variable {σ : Type}

/-! ## The calls -/

/-- What `malloc.c` works on, and the state of `sbrk`. -/
structure OverHeap (σ : Type) where
  mem : Mem
  allocEnd : ℕ
  pages : σ

/-- `while (sbrk(0) - alloc_end < size + sizeof(Meta))`: the state of `sbrk` afterwards, and `false`
    if it has returned `(void*)-1`. -/
def enlargeOver (sbrk : σ → ℕ → Option (σ × ℕ)) (allocEnd size : ℕ) : ℕ → σ → Option (Bool × σ)
  | 0, _ => none
  | fuel + 1, s => do
    let r ← sbrk s 0
    if sub32 r.2 allocEnd < add32 size sizeofMeta then
      let r ← sbrk r.1 pageSize
      if r.2 = 0xFFFFFFFF then return (false, r.1)
      else enlargeOver sbrk allocEnd size fuel r.1
    else return (true, r.1)

section

variable (sbrk : σ → ℕ → Option (σ × ℕ)) (st : Sentinels)

/-- `if (alloc_end == 0) alloc_end = sbrk(0)` -/
def setAllocEnd (h : OverHeap σ) : Option (σ × ℕ) :=
  if h.allocEnd = 0 then sbrk h.pages 0 else some (h.pages, h.allocEnd)

/-- `malloc` -/
def mallocOver (h : OverHeap σ) (size : ℕ) : Option (ℕ × OverHeap σ) := do
  let size := roundUp size
  match ← firstFit st h.mem size loopFuel st.head with
  | some block => return (add32 block sizeofMeta, { h with mem := takeBlock h.mem block size })
  | none =>
    let first ← setAllocEnd sbrk h
    let grown ← enlargeOver sbrk first.2 size loopFuel first.1
    if grown.1 then
      return (add32 first.2 sizeofMeta,
        ⟨appendBlock st h.mem first.2 size, add32 first.2 (add32 size sizeofMeta), grown.2⟩)
    else return (NULL, ⟨h.mem, first.2, grown.2⟩)

/-- `free`, which does not look at the break. -/
def freeOver (h : OverHeap σ) (ptr : ℕ) : OverHeap σ :=
  { h with mem := (free ⟨h.mem, h.allocEnd, 0⟩ ptr).mem }

/-- `calloc` -/
def callocOver (h : OverHeap σ) (numOfElts eltSize : ℕ) : Option (ℕ × OverHeap σ) := do
  let size := mul32 numOfElts eltSize
  let r ← mallocOver sbrk st h size
  if r.1 ≠ NULL then return (r.1, { r.2 with mem := memset r.2.mem r.1 0 size })
  else return r

/-- What a client does. -/
inductive OverOp
  | malloc (size : ℕ)
  | calloc (numOfElts eltSize : ℕ)
  | free (ptr : ℕ)
  | store (ptr i v : ℕ)

/-- The pointer that a call returns. -/
def OverOp.returned (h : OverHeap σ) : OverOp → Option ℕ
  | .malloc size => (mallocOver sbrk st h size).map Prod.fst
  | .calloc numOfElts eltSize => (callocOver sbrk st h numOfElts eltSize).map Prod.fst
  | .free _ | .store _ _ _ => none

/-- The heap, and the pointers returned and not freed since, with the size requested. -/
structure OverState (σ : Type) where
  heap : OverHeap σ
  live : ℕ → Option ℕ

/-- The pointer `ptr` handed out for a request of `size` bytes. -/
def OverState.hand (live : ℕ → Option ℕ) (size : ℕ) : ℕ × OverHeap σ → OverState σ
  | (ptr, heap) => ⟨heap, if ptr = NULL then live else Function.update live ptr (some size)⟩

/-- A client of the heap, from its initial state, whose requests are small enough not to wrap. -/
def overSystem (init : σ → Prop) : System (OverState σ) OverOp where
  init s :=
    Meta.next s.heap.mem st.head = st.tail ∧ Meta.prev s.heap.mem st.tail = st.head ∧
    Meta.free s.heap.mem st.head = 0 ∧ Meta.free s.heap.mem st.tail = 0 ∧
    s.heap.allocEnd = 0 ∧ init s.heap.pages ∧ s.live = fun _ => none
  guard s
    | .malloc size => size + 20 ≤ 4294967296
    | .calloc numOfElts eltSize => numOfElts * eltSize + 20 ≤ 4294967296
    | .free ptr => ptr = NULL ∨ (s.live ptr).isSome
    | .store ptr i _ => ∃ size, s.live ptr = some size ∧ i < size
  step s
    | .malloc size => (mallocOver sbrk st s.heap size).map (.hand s.live size)
    | .calloc numOfElts eltSize =>
      (callocOver sbrk st s.heap numOfElts eltSize).map (.hand s.live (numOfElts * eltSize))
    | .free ptr => some ⟨freeOver s.heap ptr, Function.update s.live ptr none⟩
    | .store ptr i v => some { s with heap.mem := s.heap.mem.store8 (ptr + i) v }

end

/-! ## The break that it moves to -/

/-- In the states that meet `P`, `sbrk` moves the break `brk` up. -/
structure SbrkLaws (sbrk : σ → ℕ → Option (σ × ℕ)) (brk : σ → ℕ) (P : σ → Prop) : Prop where
  zero : ∀ s, P s → sbrk s 0 = some (s, brk s)
  page : ∀ s r, P s → sbrk s pageSize = some r → P r.1 ∧ brk s ≤ brk r.1
  lt : ∀ s, P s → brk s < 4294967296

variable {sbrk : σ → ℕ → Option (σ × ℕ)} {brk : σ → ℕ} {P : σ → Prop} {st : Sentinels}
  {base n fuel a : ℕ}
  {s s' : σ} {h h' : OverHeap σ} {bs : List Block} {ok : Bool} {live : ℕ → Option ℕ} {ptr : ℕ}

theorem enlargeOver_spec (hl : SbrkLaws sbrk brk P) (hs : P s)
    (he : enlargeOver sbrk a n fuel s = some (ok, s')) :
    P s' ∧ brk s ≤ brk s' ∧ (ok = true → ¬sub32 (brk s') a < add32 n sizeofMeta) := by
  induction fuel generalizing s with
  | zero => cases he
  | succ fuel ih =>
    rw [enlargeOver, hl.zero s hs, Option.bind_eq_bind, Option.bind_some] at he
    dsimp only at he
    split_ifs at he with hlt
    · obtain ⟨r, hr, he⟩ := Option.bind_eq_some_iff.1 he
      obtain ⟨hr', hle⟩ := hl.page s r hs hr
      split_ifs at he with hfail
      · cases he
        exact ⟨hr', hle, nofun⟩
      · obtain ⟨hs', hle', hok⟩ := ih hr' he
        exact ⟨hs', hle.trans hle', hok⟩
    · cases he
      exact ⟨hs, le_rfl, fun _ => hlt⟩

/-- The heap of the allocator whose break is a number. -/
def OverHeap.heap (brk : σ → ℕ) (h : OverHeap σ) : Heap := ⟨h.mem, h.allocEnd, brk h.pages⟩

/-- The client of the allocator whose break is a number. -/
def OverState.client (brk : σ → ℕ) (s : OverState σ) : HeapState := ⟨s.heap.heap brk, s.live⟩

/-- The invariant of the heap, and that of `sbrk`. -/
structure OverHeap.Inv (st : Sentinels) (base : ℕ) (brk : σ → ℕ) (P : σ → Prop) (h : OverHeap σ)
    (live : ℕ → Option ℕ) (bs : List Block) : Prop where
  heap : HeapInv st base ⟨h.heap brk, live⟩ bs
  pages : P h.pages

/-- With the break that the loop has moved to, `alloc_end` is set, and the loop ends at once. -/
theorem malloc_enlarged (avail : ℕ → Bool) {m : Mem} {b : ℕ} (ha : a ≠ 0)
    (hfit : firstFit st m (roundUp n) loopFuel st.head = some none)
    (henough : ¬sub32 b a < add32 (roundUp n) sizeofMeta) :
    malloc st avail ⟨m, a, b⟩ n = some (add32 a sizeofMeta,
      ⟨appendBlock st m a (roundUp n), add32 a (add32 (roundUp n) sizeofMeta), b⟩) := by
  have hloop : enlarge avail a (roundUp n) loopFuel b = some (true, b) := by
    rw [show loopFuel = 2 ^ 32 + 1 from rfl, enlarge, if_neg henough]
  simp only [malloc, hfit, hloop, if_neg ha, Option.bind_eq_bind, Option.bind_some, if_true,
    Option.pure_def]

/-- The heap once `alloc_end` is set and the break has moved up. -/
theorem HeapInv.enlarged {h : Heap} {b : ℕ} (hbase : base ≠ 0) (hi : HeapInv st base ⟨h, live⟩ bs)
    (hle : h.brk ≤ b) (hb : b < 4294967296) :
    (if h.allocEnd = 0 then h.brk else h.allocEnd) = endOf base bs ∧
      HeapInv st base ⟨⟨h.mem, endOf base bs, b⟩, live⟩ bs := by
  have hend : base ≤ endOf base bs := le_endOf
  refine ⟨?_, ⟨hi.represents.list, .inl rfl, hi.represents.le_brk.trans hle, hb⟩, hi.tidy, hi.live⟩
  rcases hi.represents.allocEnd with h' | ⟨h', rfl, h''⟩
  · rw [h', if_neg (by omega)]
  · rw [if_pos h', h'', endOf]

/-- `malloc` searches first. -/
theorem mallocOver_eq (hl : SbrkLaws sbrk brk P) (hs : P h.pages) : mallocOver sbrk st h n =
    (firstFit st h.mem (roundUp n) loopFuel st.head).bind fun
      | some block => some (add32 block sizeofMeta,
          { h with mem := takeBlock h.mem block (roundUp n) })
      | none =>
        let a := if h.allocEnd = 0 then brk h.pages else h.allocEnd
        (enlargeOver sbrk a (roundUp n) loopFuel h.pages).map fun grown =>
          if grown.1 then (add32 a sizeofMeta,
            ⟨appendBlock st h.mem a (roundUp n), add32 a (add32 (roundUp n) sizeofMeta), grown.2⟩)
          else (NULL, ⟨h.mem, a, grown.2⟩) := by
  rw [mallocOver]
  refine congrArg _ (funext fun found => ?_)
  cases found with
  | some block => rfl
  | none =>
    have hfirst : setAllocEnd sbrk h =
        some (h.pages, if h.allocEnd = 0 then brk h.pages else h.allocEnd) := by
      rw [setAllocEnd, hl.zero _ hs]
      split_ifs <;> rfl
    dsimp only
    rw [hfirst, Option.bind_eq_bind, Option.bind_some]
    cases enlargeOver sbrk (if h.allocEnd = 0 then brk h.pages else h.allocEnd) (roundUp n)
        loopFuel h.pages with
    | none => rfl
    | some grown =>
      obtain ⟨_ | _, s⟩ := grown <;> rfl

/-- `malloc` does what it does with a break that is a number; the pointer was not handed out. -/
theorem OverHeap.Inv.malloc (hl : SbrkLaws sbrk brk P) (hb : st.Below base)
    (hi : h.Inv st base brk P live bs)
    (hn : n + 20 ≤ 4294967296) (hm : mallocOver sbrk st h n = some (ptr, h')) :
    (∃ bs', h'.Inv st base brk P (OverState.hand live n (ptr, h')).live bs') ∧
      (ptr ≠ NULL → live ptr = none) := by
  have hbase : base ≠ 0 := by
    have := hb.head
    omega
  rw [mallocOver_eq hl hi.pages] at hm
  obtain ⟨found, hfit, hm⟩ := Option.bind_eq_some_iff.1 hm
  cases found with
  | some block =>
    -- the break is not looked at
    cases hm
    have hrun : Beryllium.malloc st (fun _ => true) (h.heap brk) n =
        some (add32 block sizeofMeta,
          { h.heap brk with mem := takeBlock h.mem block (roundUp n) }) := by
      have hfit' : firstFit st (h.heap brk).mem (roundUp n) loopFuel st.head = some (some block) :=
        hfit
      simp only [Beryllium.malloc, hfit', Option.bind_eq_bind, Option.bind_some, Option.pure_def]
      rfl
    obtain ⟨ptr', h'', bs', he, hstep, hi', -⟩ := hi.heap.malloc hb (fun _ => true) hn
    cases hrun.symm.trans he
    exact ⟨⟨bs', hi', hi.pages⟩, fun hptr => (hi.heap.live _).trans (hstep.fresh hptr)⟩
  | none =>
    obtain ⟨⟨ok, s⟩, hgrown, hm⟩ := Option.map_eq_some_iff.1 hm
    obtain ⟨hs, hle, hok⟩ := enlargeOver_spec hl hi.pages hgrown
    obtain ⟨ha, hi₁⟩ := hi.heap.enlarged hbase hle (hl.lt s hs)
    have ha : (if h.allocEnd = 0 then brk h.pages else h.allocEnd) = endOf base bs := ha
    rw [ha] at hm hok
    cases ok with
    | false =>
      cases hm
      exact ⟨⟨bs, hi₁, hs⟩, fun hptr => absurd rfl hptr⟩
    | true =>
      cases hm
      have hend : base ≤ endOf base bs := le_endOf
      have hrun := malloc_enlarged (fun _ => true) (by omega) hfit (hok rfl)
      obtain ⟨ptr', h'', bs', he, hstep, hi', -⟩ := hi₁.malloc hb (fun _ => true) hn
      cases hrun.symm.trans he
      exact ⟨⟨bs', hi', hs⟩, fun hptr => (hi₁.live _).trans (hstep.fresh hptr)⟩

theorem heap_freeOver : (freeOver h ptr).heap brk = free (h.heap brk) ptr := by
  by_cases hp : ptr = NULL
  · simp only [freeOver, free, hp, ne_eq, not_true_eq_false, if_false]
  · simp only [freeOver, free, hp, ne_eq, not_false_eq_true, if_true, OverHeap.heap]

/-- Every step of the client keeps the invariant. -/
theorem OverHeap.Inv.step {init : σ → Prop} {s s' : OverState σ} {op : OverOp}
    (hl : SbrkLaws sbrk brk P) (hb : st.Below base) (hi : s.heap.Inv st base brk P s.live bs)
    (hg : (overSystem sbrk st init).guard s op)
    (hs : (overSystem sbrk st init).step s op = some s') :
    ∃ bs', s'.heap.Inv st base brk P s'.live bs' := by
  cases op with
  | malloc size =>
    obtain ⟨⟨ptr, h⟩, hm, rfl⟩ := Option.map_eq_some_iff.1 hs
    exact (hi.malloc hl hb hg hm).1
  | calloc numOfElts eltSize =>
    have hg : numOfElts * eltSize + 20 ≤ 4294967296 := hg
    obtain ⟨⟨ptr, h⟩, hc, rfl⟩ := Option.map_eq_some_iff.1 hs
    rw [callocOver, mul32_eq (show numOfElts * eltSize < 4294967296 by omega)] at hc
    obtain ⟨⟨ptr', h'⟩, hm, hc⟩ := Option.bind_eq_some_iff.1 hc
    obtain ⟨⟨bs', hi'⟩, -⟩ := hi.malloc hl hb hg hm
    dsimp only at hc
    split_ifs at hc with hp
    · cases hc
      have howner : ownerAt base bs' ptr = some (numOfElts * eltSize) := by
        rw [← hi'.heap.live]
        simp [OverState.hand, hp]
      have hstore : Represents st base
          ⟨memset h'.mem ptr 0 (numOfElts * eltSize), h'.allocEnd, brk h'.pages⟩ bs' :=
        hi'.heap.represents.store hb hi'.heap.tidy howner fun x hx => memset_apply_of_disjoint hx
      exact ⟨bs', ⟨hstore, hi'.heap.tidy, hi'.heap.live⟩, hi'.pages⟩
    · cases hc
      exact ⟨bs', hi'⟩
  | free ptr =>
    cases hs
    obtain ⟨bs', -, hi', -⟩ := hi.heap.free hb hg
    refine ⟨bs', ⟨?_, hi'.tidy, hi'.live⟩, hi.pages⟩
    rw [heap_freeOver]
    exact hi'.represents
  | store ptr i v =>
    cases hs
    obtain ⟨size, hlive, hlt⟩ := hg
    have hstore : Represents st base
        ⟨s.heap.mem.store8 (ptr + i) v, s.heap.allocEnd, brk s.heap.pages⟩ bs :=
      hi.heap.represents.store hb hi.heap.tidy ((hi.heap.live ptr).symm.trans hlive) fun x hx =>
        Mem.store8_apply_of_ne (by omega)
    exact ⟨bs, ⟨hstore, hi.heap.tidy, hi.heap.live⟩, hi.pages⟩

theorem callocOver_fst (h : OverHeap σ) (numOfElts eltSize : ℕ) :
    (callocOver sbrk st h numOfElts eltSize).map Prod.fst =
      (mallocOver sbrk st h (mul32 numOfElts eltSize)).map Prod.fst := by
  rw [callocOver]
  rcases mallocOver sbrk st h (mul32 numOfElts eltSize) with _ | ⟨ptr, h'⟩
  · rfl
  · rw [Option.bind_eq_bind, Option.bind_some]
    split_ifs <;> rfl

/-- A pointer that a call returns was not handed out. -/
theorem OverHeap.Inv.fresh {init : σ → Prop} {s : OverState σ} {op : OverOp}
    (hl : SbrkLaws sbrk brk P) (hb : st.Below base) (hi : s.heap.Inv st base brk P s.live bs)
    (hg : (overSystem sbrk st init).guard s op) (hr : op.returned sbrk st s.heap = some ptr)
    (hptr : ptr ≠ NULL) : s.live ptr = none := by
  have hmalloc (size : ℕ) (hn : size + 20 ≤ 4294967296)
      (hr : (mallocOver sbrk st s.heap size).map Prod.fst = some ptr) : s.live ptr = none := by
    obtain ⟨⟨p, h⟩, hm, rfl⟩ := Option.map_eq_some_iff.1 hr
    exact (hi.malloc hl hb hn hm).2 hptr
  cases op with
  | malloc size => exact hmalloc size hg hr
  | calloc numOfElts eltSize =>
    have hg : numOfElts * eltSize + 20 ≤ 4294967296 := hg
    rw [OverOp.returned, callocOver_fst,
      mul32_eq (show numOfElts * eltSize < 4294967296 by omega)] at hr
    exact hmalloc _ hg hr
  | free _ => cases hr
  | store _ _ _ => cases hr

/-- In every state that a client reaches, the heap is as it relies on, and the state of `sbrk` meets
    its invariant. -/
theorem OverHeap.Inv.of_reachable {init : σ → Prop} {s : OverState σ} (hl : SbrkLaws sbrk brk P)
    (hb : st.Below base)
    (hinit : ∀ s, init s → P s ∧ brk s = base) (hs : (overSystem sbrk st init).Reachable s) :
    ∃ bs, s.heap.Inv st base brk P s.live bs := by
  refine hs.of_step (P := fun s => ∃ bs, s.heap.Inv st base brk P s.live bs) ?_
    fun s op s' ⟨bs, hi⟩ hg hstep => hi.step hl hb hg hstep
  rintro s ⟨hnext, hprev, hhead, htail, hend, hpages, hlive⟩
  obtain ⟨hp, hbase⟩ := hinit _ hpages
  refine ⟨[], HeapInv.of_init ?_ ⟨hnext, hprev, hhead, htail, hend, hbase, hlive⟩, hp⟩
  rw [← hbase]
  exact hl.lt _ hp

end Beryllium

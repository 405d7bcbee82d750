import Beryllium.Heap.Request
import Beryllium.Kernel.Thread

/-!
# The stack of a new thread

`thread_create` on the heap, with the stores that it makes. The stack of a thread has `0x1000`
bytes, but `thread->stack` points at words, so that `thread->stack + 0x500` is `0x400` bytes behind
its end. The frame of the thread is stored there (`thread_stores`), in what comes after the stack on
the heap.
-/

namespace Beryllium

open Machine

/-- A memory, and the stores that are made to it: their addresses and numbers of bytes. -/
structure StoreLog where
  mem : Mem
  stores : List (ℕ × ℕ)

namespace StoreLog

variable (l : StoreLog) (a v : ℕ)

/-- A store of a word. -/
def store32 : StoreLog := ⟨l.mem.store32 a v, l.stores ++ [(a, 4)]⟩

/-- A store of a byte. -/
def store8 : StoreLog := ⟨l.mem.store8 a v, l.stores ++ [(a, 1)]⟩

/-- `memset` -/
def memset (val : BitVec 32) (n : ℕ) : StoreLog :=
  ⟨Beryllium.memset l.mem a val n, l.stores ++ [(a, n)]⟩

end StoreLog

/-- The end of `thread_create`, with its stores. -/
def threadFrameLog (l : StoreLog) (thread threadExit fn : ℕ) : StoreLog :=
  let stackPtr := add32 (l.mem.load32 (thread + 36)) (4 * 0x500)
  let stackPtr := sub32 stackPtr 4
  let l := l.store32 stackPtr threadExit
  let stackPtr := sub32 stackPtr 4
  let l := l.store32 stackPtr fn
  let stackPtr := sub32 stackPtr 4
  let l := l.store32 stackPtr 0
  let l := l.store32 (thread + 4) stackPtr
  let l := l.store32 thread stackPtr
  l.store32 (thread + 20) 0x200

/-- What `thread_create` leaves: the heap, the two blocks, the memory when they were allocated, and
    the stores. -/
structure ThreadCreation where
  heap : Heap
  thread : ℕ
  stack : ℕ
  allocated : Mem
  stores : List (ℕ × ℕ)

section

variable (st : Sentinels) (avail avail' : ℕ → Bool) (h : Heap)
  (threadId threadExit level pid fn : ℕ)

/-- `thread_create` on the heap. `avail` and `avail'` are what `sbrk` has during the calls of
    `malloc`. -/
def threadCreateHeap : Option ThreadCreation := do
  let r ← malloc st avail h 48
  let l : StoreLog := ⟨r.2.mem, []⟩
  let l := l.memset r.1 0 48
  let l := l.store32 (r.1 + 24) threadId
  let l := l.store8 (r.1 + 28) level
  let l := l.store32 (r.1 + 32) pid
  let r' ← malloc st avail' { r.2 with mem := l.mem } 0x1000
  let l : StoreLog := ⟨r'.2.mem, l.stores⟩
  let l := l.store32 (r.1 + 36) r'.1
  let l := l.memset (l.mem.load32 (r.1 + 36)) 0 0x1000
  let l := threadFrameLog l r.1 threadExit fn
  return ⟨{ r'.2 with mem := l.mem }, r.1, r'.1, r'.2.mem, l.stores⟩

end

/-- `thread_create` keeps to its own memory: it stores to its two blocks, leaves all bytes outside
    of them as they were, and the stack and base pointers of the thread point into its stack. -/
structure KeepsToOwn (c : ThreadCreation) : Prop where
  stores : ∀ w ∈ c.stores, (c.thread ≤ w.1 ∧ w.1 + w.2 ≤ c.thread + 48) ∨
    (c.stack ≤ w.1 ∧ w.1 + w.2 ≤ c.stack + 0x1000)
  unchanged : ∀ x, x < c.thread ∨ c.thread + 48 ≤ x → x < c.stack ∨ c.stack + 0x1000 ≤ x →
    c.heap.mem x = c.allocated x
  esp : c.stack ≤ c.heap.mem.load32 c.thread ∧ c.heap.mem.load32 c.thread < c.stack + 0x1000
  ebp : c.stack ≤ c.heap.mem.load32 (c.thread + 4) ∧
      c.heap.mem.load32 (c.thread + 4) < c.stack + 0x1000

variable {st : Sentinels} {avail avail' : ℕ → Bool} {h : Heap}
  {threadId threadExit level pid fn base : ℕ} {c : ThreadCreation}

/-! ## Its two blocks -/

/-- The calls of `malloc` that `thread_create` makes. -/
theorem threadCreateHeap_some
    (hc : threadCreateHeap st avail avail' h threadId threadExit level pid fn = some c) :
    ∃ (h₁ h₂ : Heap) (m₁ : Mem), malloc st avail h 48 = some (c.thread, h₁) ∧
      malloc st avail' { h₁ with mem := m₁ } 0x1000 = some (c.stack, h₂) ∧
      (∀ x, x < c.thread ∨ c.thread + 48 ≤ x → m₁ x = h₁.mem x) ∧ c.allocated = h₂.mem ∧
      c.heap.mem = (threadCreate (fun _ n => if n = 48 then (h₁.mem, c.thread)
        else (h₂.mem, c.stack))
        h.mem threadId threadExit level pid fn).mem := by
  simp only [threadCreateHeap, Option.bind_eq_bind, Option.bind_eq_some_iff, Option.pure_def,
    Option.some.injEq] at hc
  obtain ⟨⟨thread, h₁⟩, hthread, ⟨stack, h₂⟩, hstack, rfl⟩ := hc
  refine ⟨h₁, h₂, _, hthread, hstack, fun x hx => ?_, rfl, rfl⟩
  dsimp only at hx
  simp only [StoreLog.store32, StoreLog.store8, StoreLog.memset]
  rw [Mem.store32_apply_of_disjoint (by omega), Mem.store8_apply_of_ne (by omega),
    Mem.store32_apply_of_disjoint (by omega), memset_apply_of_disjoint (by omega)]

theorem live_hand {live : ℕ → Option ℕ} {n ptr : ℕ} (hptr : ptr ≠ NULL) :
    (HeapState.hand live n (ptr, h)).live = Function.update live ptr (some n) := by
  rw [HeapState.hand, if_neg hptr]

/-- The two blocks do not overlap, and lie in memory. -/
theorem threadCreateHeap_apart {s : HeapState} {bs : List Block} (hb : st.Below base)
    (hi : HeapInv st base s bs)
    (hc : threadCreateHeap st avail avail' s.heap threadId threadExit level pid fn = some c)
    (hthread : c.thread ≠ NULL) (hstack : c.stack ≠ NULL) :
    (c.thread + 48 ≤ c.stack ∨ c.stack + 0x1000 ≤ c.thread) ∧ c.stack + 0x1000 ≤ 4294967296 := by
  obtain ⟨h₁, h₂, m₁, hm₁, hm₂, hkeep, -⟩ := threadCreateHeap_some hc
  obtain ⟨p, h, bs₁, heq, -, hi₁, -⟩ := hi.malloc hb avail (show 48 + 20 ≤ 4294967296 by decide)
  obtain ⟨rfl, rfl⟩ := Prod.mk.inj (Option.some.inj (heq.symm.trans hm₁))
  have hlive : (HeapState.hand s.live 48 (c.thread, h)).live c.thread = some 48 := by
    rw [live_hand hthread, Function.update_self]
  -- the stores to the `thread_t` keep the heap as it is
  have hi₁' : HeapInv st base
    ⟨{ h with mem := m₁ }, (HeapState.hand s.live 48 (c.thread, h)).live⟩ bs₁ :=
    ⟨hi₁.represents.store hb hi₁.tidy (hi₁.live c.thread ▸ hlive) hkeep, hi₁.tidy, hi₁.live⟩
  obtain ⟨q, h', bs₂, heq', hstep, hi₂, -⟩ :=
    hi₁'.malloc hb avail' (show 0x1000 + 20 ≤ 4294967296 by decide)
  obtain ⟨rfl, rfl⟩ := Prod.mk.inj (Option.some.inj (heq'.symm.trans hm₂))
  have hne : c.thread ≠ c.stack := by
    intro heq
    have hfresh := hstep.fresh hstack
    rw [← heq, ← hi₁.live, hlive] at hfresh
    cases hfresh
  -- both blocks are live
  have hlive₂ : (HeapState.hand (HeapState.hand s.live 48 (c.thread, h)).live 0x1000
      (c.stack, h')).live =
      Function.update (HeapState.hand s.live 48 (c.thread, h)).live c.stack (some 0x1000) :=
        live_hand hstack
  have hstack₂ := hi₂.hasRoom (p := c.stack) (by rw [hlive₂, Function.update_self])
  have hthread₂ := hi₂.hasRoom (p := c.thread)
    (by rw [hlive₂, Function.update_of_ne hne]; exact hlive)
  obtain ⟨hle₁, -, hbrk₁⟩ := hthread₂
  obtain ⟨hle₂, -, hbrk₂⟩ := hstack₂
  have hbrk := hi₂.represents.brk_lt
  have hdisj := (hi₂.safe hb).disjoint
  refine ⟨?_, by omega⟩
  rcases Nat.lt_or_gt_of_ne hne with hlt | hlt
  · have := hdisj _ _ (by rw [hlive₂, Function.update_of_ne hne, hlive]; rfl)
      (by rw [hlive₂, Function.update_self]; rfl) hlt
    omega
  · have := hdisj _ _ (by rw [hlive₂, Function.update_self]; rfl)
      (by rw [hlive₂, Function.update_of_ne hne, hlive]; rfl) hlt
    omega

/-! ## Its stores -/

/-- Where the frame of a thread is, given its stack. -/
def framePtr (stack : ℕ) : ℕ := add32 stack 0x13F4

/-- The stores of `thread_create`: the three words of the frame are behind the stack. -/
def threadStores (thread stack : ℕ) : List (ℕ × ℕ) :=
  [(thread, 48), (thread + 24, 4), (thread + 28, 1), (thread + 32, 4), (thread + 36, 4),
    (stack, 0x1000),
    (add32 stack 0x13FC, 4), (add32 stack 0x13F8, 4), (framePtr stack, 4), (thread + 4, 4),
      (thread, 4),
    (thread + 20, 4)]

/-- The stores that `thread_create` makes, and the pointers that it sets. -/
theorem thread_stores (hc : threadCreateHeap st avail avail' h threadId threadExit level pid
      fn = some c)
    (happart : c.thread + 48 ≤ c.stack ∨ c.stack + 0x1000 ≤ c.thread) (hlt : c.stack < 4294967296) :
    c.stores = threadStores c.thread c.stack ∧ c.heap.mem.load32 c.thread = framePtr c.stack ∧
      c.heap.mem.load32 (c.thread + 4) = framePtr c.stack := by
  simp only [threadCreateHeap, Option.bind_eq_bind, Option.bind_eq_some_iff, Option.pure_def,
    Option.some.injEq] at hc
  obtain ⟨⟨thread, h₁⟩, -, ⟨stack, h₂⟩, -, rfl⟩ := hc
  dsimp only at happart hlt
  have hset : (h₂.mem.store32 (thread + 36) stack).load32 (thread + 36) = stack :=
    Mem.load32_store32_of_lt hlt
  -- filling the stack does not change the pointer to it
  have hload : (memset (h₂.mem.store32 (thread + 36) stack) stack 0 0x1000).load32 (thread + 36) =
      stack := by
    rw [Mem.load32_congr fun x hx hx' => memset_apply_of_disjoint (by omega), hset]
  have h₁ : sub32 (add32 stack (4 * 0x500)) 4 = add32 stack 0x13FC := by
    rw [sub32, add32, add32]
    omega
  have h₂ : sub32 (add32 stack 0x13FC) 4 = add32 stack 0x13F8 := by
    rw [sub32, add32, add32]
    omega
  have h₃ : sub32 (add32 stack 0x13F8) 4 = framePtr stack := by
    rw [sub32, framePtr, add32, add32]
    omega
  have hframe : framePtr stack < 4294967296 := add32_lt ..
  simp only [threadFrameLog, StoreLog.store32, StoreLog.store8, StoreLog.memset, hset, hload,
    h₁, h₂, h₃]
  refine ⟨rfl, ?_, ?_⟩
  · rw [Mem.load32_store32_of_disjoint (by omega), Mem.load32_store32_of_lt hframe]
  · rw [Mem.load32_store32_of_disjoint (by omega), Mem.load32_store32_of_disjoint (by omega),
      Mem.load32_store32_of_lt hframe]

/-- The frame of a thread is not in its stack. -/
theorem framePtr_outside (stack : ℕ) :
    ¬(stack ≤ framePtr stack ∧ framePtr stack < stack + 0x1000) := by
  rw [framePtr, add32]
  omega

/-- `thread_create` never keeps to its own memory: whatever state a client has brought the heap
    to, the frame is stored behind the stack. -/
theorem thread_create_never_own (hb : st.Below base) (hbase : base < 4294967296) {s : HeapState}
    (hs : (soundSystem st base).Reachable s)
    (hc : threadCreateHeap st avail avail' s.heap threadId threadExit level pid fn = some c)
    (hthread : c.thread ≠ NULL) (hstack : c.stack ≠ NULL) : ¬KeepsToOwn c := by
  obtain ⟨bs, hi⟩ := heapInv_of_soundSystem hb hbase hs
  obtain ⟨happart, hle⟩ := threadCreateHeap_apart hb hi hc hthread hstack
  have hlt : c.stack < 4294967296 := by omega
  obtain ⟨-, hesp, -⟩ := thread_stores hc happart hlt
  intro h
  exact framePtr_outside c.stack (hesp ▸ h.esp)

/-- On a new heap, `thread_create` has the block at 4112 for the thread, and that at 4176 for its
    stack. -/
theorem threadCreateHeap_bootHeap : ∃ c, threadCreateHeap ⟨16, 32⟩ (fun _ => true) (fun _ => true)
    bootHeap.heap 1 0x100200 0 0 0x100300 = some c ∧ c.thread = 4112 ∧ c.stack = 4176 :=
    ⟨_, rfl, rfl, rfl⟩

theorem thread_create_never_own_bootHeap :
    ∃ c, threadCreateHeap ⟨16, 32⟩ (fun _ => true) (fun _ => true)
    bootHeap.heap 1 0x100200 0 0 0x100300 = some c ∧ ¬KeepsToOwn c := by
  obtain ⟨c, hc, hthread, hstack⟩ := threadCreateHeap_bootHeap
  exact ⟨c, hc, thread_create_never_own below_bootHeap (by decide) ⟨_, _, bootHeap_init, .nil _⟩ hc
    (by rw [hthread]; decide) (by rw [hstack]; decide)⟩

/-- On a new heap, the frame of a thread is at 9284, behind its stack, which ends at 8272. -/
theorem thread_create_boot :
    ¬∀ (st : Sentinels) (avail avail' : ℕ → Bool) (base : ℕ) (s : HeapState)
    (threadId threadExit level pid fn : ℕ) (c : ThreadCreation), st.Below base → base < 4294967296 →
    (soundSystem st base).Reachable s →
    threadCreateHeap st avail avail' s.heap threadId threadExit level pid fn = some c →
    c.thread ≠ NULL → c.stack ≠ NULL → KeepsToOwn c := by
  intro h
  obtain ⟨c, hc, hthread, hstack⟩ := threadCreateHeap_bootHeap
  have hown := h _ _ _ 4096 bootHeap _ _ _ _ _ c below_bootHeap (by decide)
    ⟨_, _, bootHeap_init, .nil _⟩ hc (by rw [hthread]; decide) (by rw [hstack]; decide)
  obtain ⟨-, hesp, -⟩ := thread_stores hc (by rw [hthread, hstack]; decide) (by rw [hstack]; decide)
  have hin := hown.esp
  rw [hesp, hstack] at hin
  exact absurd hin.2 (by decide)

end Beryllium

import Beryllium.Heap.Realloc

/-!
# Requests

What `malloc`, `calloc` and `realloc` return is as long as the request (`no_short_block`), in
every run in which no size wraps. The sizes are not checked: `malloc` rounds a size above
`0xFFFFFFFC` up to 0, and adds the 16 bytes of the header to one below it without a carry, and
`calloc` multiplies modulo `2 ^ 32`. Each time the block is too short, or ends behind the
break.
-/

namespace Beryllium

open Machine

/-- A call that returns a block. -/
inductive Request
  | malloc (size : ℕ)
  | calloc (numOfElts eltSize : ℕ)
  | realloc (ptr size : ℕ)

namespace Request

/-- How many bytes the request is for. -/
def bytes : Request → ℕ
  | .malloc size => size
  | .calloc numOfElts eltSize => numOfElts * eltSize
  | .realloc _ size => size

/-- The request as a step of a client. -/
def op (avail : ℕ → Bool) : Request → ReallocOp
  | .malloc size => .client (.malloc avail size)
  | .calloc numOfElts eltSize => .client (.calloc avail numOfElts eltSize)
  | .realloc ptr size => .realloc avail ptr size

/-- What the call returns, and the heap after it. -/
def call (st : Sentinels) (avail : ℕ → Bool) (h : Heap) : Request → Option (ℕ × Heap)
  | .malloc size => Beryllium.malloc st avail h size
  | .calloc numOfElts eltSize => Beryllium.calloc st avail h numOfElts eltSize
  | .realloc ptr size => (Beryllium.realloc st avail h ptr size).map fun r => (r.1, r.2.1)

end Request

/-- The block of `ptr` has `n` bytes at least, and lies in the memory from `sbrk`. -/
structure HasRoom (base : ℕ) (h : Heap) (ptr n : ℕ) : Prop where
  le_size : n ≤ Meta.size h.mem (ptr - 16)
  base_le : base + 16 ≤ ptr
  le_brk : ptr + Meta.size h.mem (ptr - 16) ≤ h.brk

variable {st : Sentinels} {base n p ptr : ℕ} {avail : ℕ → Bool} {s s' : HeapState} {bs : List Block}

/-- A live pointer has room for what was requested. -/
theorem HeapInv.hasRoom (hi : HeapInv st base s bs) (hp : s.live p = some n) :
    HasRoom base s.heap p n := by
  obtain ⟨hblock, hle⟩ := hi.hasBlock hp
  obtain ⟨hlow, hhigh⟩ := hblock.bounds
  exact ⟨hle, hlow, hhigh.trans hi.represents.le_brk⟩

/-- A pointer that is handed out is live. -/
theorem hasRoom_of_hand (hi : HeapInv st base s' bs) {live : ℕ → Option ℕ} {r : ℕ × Heap}
    (hs : s' = .hand live n r) (hne : r.1 ≠ NULL) : HasRoom base r.2 r.1 n := by
  obtain ⟨ptr, h⟩ := r
  rw [HeapState.hand, if_neg hne] at hs
  have hroom := hi.hasRoom (p := ptr) (n := n) (by rw [hs]; exact Function.update_self _ _ _)
  rwa [hs] at hroom

/-- A step that is a request hands its result out. -/
theorem Request.step_eq (req : Request)
    (hs : (reallocSystem st base).step s (req.op avail) = some s') :
    ∃ r live, req.call st avail s.heap = some r ∧ s' = .hand live req.bytes r := by
  cases req with
  | malloc size =>
    obtain ⟨r, hr, rfl⟩ := Option.map_eq_some_iff.1 hs
    exact ⟨r, _, hr, rfl⟩
  | calloc numOfElts eltSize =>
    obtain ⟨r, hr, rfl⟩ := Option.map_eq_some_iff.1 hs
    exact ⟨r, _, hr, rfl⟩
  | realloc ptr size =>
    obtain ⟨r, hr, rfl⟩ := Option.map_eq_some_iff.1 hs
    exact ⟨_, _, congrArg (Option.map _) hr, rfl⟩

/-- In every state that a client reaches without a size that wraps or a block that is freed
    twice, a request that is not such a step either returns `NULL` or a block with room for
    its bytes. -/
theorem no_short_block (hb : st.Below base) (hbase : base < 4294967296)
    (h : (soundSystem st base).Reachable s) (req : Request)
    (hg : (soundSystem st base).guard s (req.op avail)) :
    ∃ r, req.call st avail s.heap = some r ∧ (r.1 ≠ NULL → HasRoom base r.2 r.1 req.bytes) := by
  obtain ⟨bs, hi⟩ := heapInv_of_soundSystem hb hbase h
  obtain ⟨s', bs', hs, hi'⟩ := hi.sound_step hb hg
  obtain ⟨r, live, hr, heq⟩ := req.step_eq hs
  exact ⟨r, hr, hasRoom_of_hand hi' heq⟩

/-- Three words. -/
theorem no_short_block_calloc :
    ∃ r, Request.call ⟨16, 32⟩ (fun _ => true) bootHeap.heap (.calloc 3 4) = some r ∧
    (r.1 ≠ NULL → HasRoom 4096 r.2 r.1 12) :=
  have hreach : (soundSystem ⟨16, 32⟩ 4096).Reachable bootHeap := ⟨_, _, bootHeap_init, .nil _⟩
  no_short_block below_bootHeap (by decide) hreach (.calloc 3 4)
    ⟨⟨by decide, by decide⟩, show 3 * 4 + 20 ≤ 4294967296 by decide, trivial⟩

/-- A request for `2 ^ 32 - 1` bytes gets a block of none. -/
theorem short_block : ¬∀ (st : Sentinels) (base : ℕ) (avail : ℕ → Bool) (s : HeapState)
    (req : Request)
    (r : ℕ × Heap), st.Below base → base < 4294967296 → (reallocSystem st base).Reachable s →
    (reallocSystem st base).guard s (req.op avail) → req.call st avail s.heap = some r →
    r.1 ≠ NULL → HasRoom base r.2 r.1 req.bytes := by
  intro h
  have hcall : (Request.call ⟨16, 32⟩ (fun _ => true) bootHeap.heap (.malloc 0xFFFFFFFF)).map
      (fun r => (r.1, Meta.size r.2.mem 4096)) = some (4112, 0) := by decide
  obtain ⟨r, hr, heq⟩ := Option.map_eq_some_iff.1 hcall
  obtain ⟨hptr, hsize⟩ := Prod.mk.inj heq
  have hroom := h ⟨16, 32⟩ 4096 _ bootHeap (.malloc 0xFFFFFFFF) r below_bootHeap (by decide)
    ⟨_, _, bootHeap_init, .nil _⟩ (show 0xFFFFFFFF < 4294967296 by decide) hr (by rw [hptr]; decide)
  have hle := hroom.le_size
  rw [hptr, hsize] at hle
  exact absurd hle (by decide)

end Beryllium

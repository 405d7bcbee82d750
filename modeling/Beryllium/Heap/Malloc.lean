import Beryllium.Lib.Mem
import Beryllium.Machine.System

/-!
# The heap allocator

`malloc`, `free` and `calloc` of `kernel/malloc.c`, over a flat byte memory. A
block is a header (`struct Meta`, 16 bytes) followed by its payload; the blocks
are doubly linked in address order between the two static headers `head` and
`tail`, and `alloc_end` is the end of the last block. New memory comes from `sbrk`,
one page at a time.

The two loops of `malloc` take fuel and answer `none` when they run out of it; the
kernel's call gives them more than the address space can use up (`loopFuel`).
-/

namespace Beryllium

open Machine

/-! ## Headers -/

/-- `sizeof(Meta)`. -/
abbrev sizeofMeta : ℕ := 16

/-- `sizeof(size_t)`. -/
abbrev sizeofSizeT : ℕ := 4

/-- `PAGE_SIZE`. -/
abbrev pageSize : ℕ := 4096

/-- The null pointer. -/
abbrev NULL : ℕ := 0

namespace Meta

variable (m : Mem) (p v : ℕ)

/-- `p->size`. -/
def size : ℕ := m.load32 p
/-- `p->free`. -/
def free : ℕ := m.load8 (p + 4)
/-- `p->prev`. -/
def prev : ℕ := m.load32 (p + 8)
/-- `p->next`. -/
def next : ℕ := m.load32 (p + 12)

/-- `p->size = v`. -/
def setSize : Mem := m.store32 p v
/-- `p->free = v`. -/
def setFree : Mem := m.store8 (p + 4) v
/-- `p->prev = v`. -/
def setPrev : Mem := m.store32 (p + 8) v
/-- `p->next = v`. -/
def setNext : Mem := m.store32 (p + 12) v

end Meta

/-- The addresses of the static headers `head` and `tail`. -/
structure Sentinels where
  head : ℕ
  tail : ℕ

/-- The state `malloc.c` works on: the memory, `alloc_end` and the break of `sbrk`. -/
structure Heap where
  mem : Mem
  allocEnd : ℕ
  brk : ℕ

/-- `sbrk(PAGE_SIZE)`: a contiguous, monotone break, moved up a page if `avail` has
    one at `brk` and it does not leave the address space. `none` is `(void*)-1`. -/
def sbrkPage (avail : ℕ → Bool) (brk : ℕ) : Option ℕ :=
  if avail brk ∧ brk + pageSize < 4294967296 then some (brk + pageSize) else none

/-- More iterations than any terminating loop over 32-bit addresses takes. -/
def loopFuel : ℕ := 2 ^ 32 + 1

theorem lt_loopFuel : 4294967296 < loopFuel := by decide

section

variable (st : Sentinels)

/-! ## malloc -/

/-- `size` rounded up to a multiple of `sizeof(size_t)`. -/
def roundUp (size : ℕ) : ℕ :=
  if size % sizeofSizeT ≠ 0 then add32 size (sizeofSizeT - size % sizeofSizeT) else size

/-- The first-fit search from `block` on: the first block after it that is free and
    large enough, or `some none` at the tail. -/
def firstFit (m : Mem) (size : ℕ) : ℕ → ℕ → Option (Option ℕ)
  | 0, _ => none
  | fuel + 1, block =>
    if Meta.next m block = st.tail then some none
    else
      let block := Meta.next m block
      if Meta.free m block ≠ 0 ∧ size ≤ Meta.size m block then some (some block)
      else firstFit m size fuel block

/-- Taking the free block `block` for `size` bytes, splitting it if the rest can
    hold another block. -/
def takeBlock (m : Mem) (block size : ℕ) : Mem :=
  let m := Meta.setFree m block 0
  if sizeofSizeT + sizeofMeta ≤ sub32 (Meta.size m block) size then
    let newBlock := add32 (add32 block size) sizeofMeta
    let m := Meta.setSize m newBlock (sub32 (sub32 (Meta.size m block) size) sizeofMeta)
    let m := Meta.setSize m block
      (sub32 (Meta.size m block) (add32 (Meta.size m newBlock) sizeofMeta))
    let m := Meta.setPrev m (Meta.next m block) newBlock
    let m := Meta.setPrev m newBlock block
    let m := Meta.setNext m newBlock (Meta.next m block)
    let m := Meta.setNext m block newBlock
    let m := Meta.setFree m newBlock 1
    if Meta.free m (Meta.next m newBlock) ≠ 0 then
      let m := Meta.setSize m newBlock (add32 (Meta.size m newBlock)
        (add32 (Meta.size m (Meta.next m newBlock)) sizeofMeta))
      let m := Meta.setPrev m (Meta.next m (Meta.next m newBlock)) newBlock
      Meta.setNext m newBlock (Meta.next m (Meta.next m newBlock))
    else m
  else m

/-- `while (sbrk(0) - alloc_end < size + sizeof(Meta))`: the break moved up page by
    page, and whether it got far enough. -/
def enlarge (avail : ℕ → Bool) (allocEnd size : ℕ) : ℕ → ℕ → Option (Bool × ℕ)
  | 0, _ => none
  | fuel + 1, brk =>
    if sub32 brk allocEnd < add32 size sizeofMeta then
      match sbrkPage avail brk with
      | none => some (false, brk)
      | some brk' => enlarge avail allocEnd size fuel brk'
    else some (true, brk)

/-- The new block of `size` bytes at `newBlock`, linked in before the tail. -/
def appendBlock (m : Mem) (newBlock size : ℕ) : Mem :=
  let m := Meta.setNext m newBlock st.tail
  let m := Meta.setPrev m newBlock (Meta.prev m st.tail)
  let m := Meta.setNext m (Meta.prev m newBlock) newBlock
  let m := Meta.setPrev m st.tail newBlock
  let m := Meta.setFree m newBlock 0
  Meta.setSize m newBlock size

/-- `malloc(size)`: the pointer returned and the heap after it. `avail` says where
    `sbrk` has a further page during this call. -/
def malloc (avail : ℕ → Bool) (h : Heap) (size : ℕ) : Option (ℕ × Heap) := do
  let size := roundUp size
  match ← firstFit st h.mem size loopFuel st.head with
  | some block => return (add32 block sizeofMeta, { h with mem := takeBlock h.mem block size })
  | none =>
    let allocEnd := if h.allocEnd = 0 then h.brk else h.allocEnd
    let grown ← enlarge avail allocEnd size loopFuel h.brk
    if grown.1 then
      return (add32 allocEnd sizeofMeta,
        { mem := appendBlock st h.mem allocEnd size
          allocEnd := add32 allocEnd (add32 size sizeofMeta)
          brk := grown.2 })
    else return (NULL, { h with allocEnd, brk := grown.2 })

/-! ## free -/

/-- "combine with previous block if both free". -/
def mergePrev (m : Mem) (block : ℕ) : Mem × ℕ :=
  if Meta.free m (Meta.prev m block) ≠ 0 then
    let m := Meta.setPrev m (Meta.next m block) (Meta.prev m block)
    let m := Meta.setNext m (Meta.prev m block) (Meta.next m block)
    let m := Meta.setSize m (Meta.prev m block) (add32 (Meta.size m (Meta.prev m block))
      (add32 (Meta.size m block) sizeofMeta))
    (m, Meta.prev m block)
  else (m, block)

/-- "combine with next block if both free". -/
def mergeNext (m : Mem) (block : ℕ) : Mem :=
  if Meta.free m (Meta.next m block) ≠ 0 then
    let m := Meta.setPrev m (Meta.next m (Meta.next m block)) block
    let m := Meta.setSize m block (add32 (Meta.size m block)
      (add32 (Meta.size m (Meta.next m block)) sizeofMeta))
    Meta.setNext m block (Meta.next m (Meta.next m block))
  else m

/-- `free(ptr)`. -/
def free (h : Heap) (ptr : ℕ) : Heap :=
  if ptr ≠ NULL then
    let block := sub32 ptr sizeofMeta
    let m := Meta.setFree h.mem block 1
    let merged := mergePrev m block
    { h with mem := mergeNext merged.1 merged.2 }
  else h

/-! ## calloc -/

/-- `calloc(num_of_elts, elt_size)`. -/
def calloc (avail : ℕ → Bool) (h : Heap) (numOfElts eltSize : ℕ) : Option (ℕ × Heap) := do
  let size := mul32 numOfElts eltSize
  let r ← malloc st avail h size
  if r.1 ≠ NULL then return (r.1, { r.2 with mem := memset r.2.mem r.1 0 size })
  else return r

end

/-! ## Runs -/

/-- What a client does: the calls (`avail` is what `sbrk` has during the call), and
    storing a byte in a payload it holds. -/
inductive HeapOp
  | malloc (avail : ℕ → Bool) (size : ℕ)
  | calloc (avail : ℕ → Bool) (numOfElts eltSize : ℕ)
  | free (ptr : ℕ)
  | store (ptr i v : ℕ)

/-- The pointer that a call returns. -/
def HeapOp.returned (st : Sentinels) (h : Heap) : HeapOp → Option ℕ
  | .malloc avail size => (Beryllium.malloc st avail h size).map Prod.fst
  | .calloc avail numOfElts eltSize => (Beryllium.calloc st avail h numOfElts eltSize).map Prod.fst
  | .free _ | .store _ _ _ => none

/-- The heap, and the pointers returned and not freed since, with the size requested. -/
structure HeapState where
  heap : Heap
  live : ℕ → Option ℕ

/-- The pointer `ptr` handed out for a request of `size` bytes. -/
def HeapState.hand (live : ℕ → Option ℕ) (size : ℕ) : ℕ × Heap → HeapState
  | (ptr, heap) => ⟨heap, if ptr = NULL then live else Function.update live ptr (some size)⟩

/-- A client of the heap from its initial state, whose break is `base`: the requests
    are small enough not to wrap, only `NULL` and live pointers are freed, and a store
    stays within the bytes requested. -/
def heapSystem (st : Sentinels) (base : ℕ) : System HeapState HeapOp where
  init s :=
    Meta.next s.heap.mem st.head = st.tail ∧ Meta.prev s.heap.mem st.tail = st.head ∧
    Meta.free s.heap.mem st.head = 0 ∧ Meta.free s.heap.mem st.tail = 0 ∧
    s.heap.allocEnd = 0 ∧ s.heap.brk = base ∧ s.live = fun _ => none
  guard s
    | .malloc _ size => size + 20 ≤ 4294967296
    | .calloc _ numOfElts eltSize => numOfElts * eltSize + 20 ≤ 4294967296
    | .free ptr => ptr = NULL ∨ (s.live ptr).isSome
    | .store ptr i _ => ∃ size, s.live ptr = some size ∧ i < size
  step s
    | .malloc avail size => (malloc st avail s.heap size).map (.hand s.live size)
    | .calloc avail numOfElts eltSize =>
      (calloc st avail s.heap numOfElts eltSize).map (.hand s.live (numOfElts * eltSize))
    | .free ptr => some ⟨free s.heap ptr, Function.update s.live ptr none⟩
    | .store ptr i v => some { s with heap.mem := s.heap.mem.store8 (ptr + i) v }

end Beryllium

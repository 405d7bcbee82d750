import Beryllium.X86.PageAllocator

/-!
# Placement allocation and paging

`paging_get_page` and `paging_init` of `kernel/arch/x86/paging.c`, over the placement
allocator of `lib/placement_malloc.c`, a pointer that only moves up. The bitmap, the
page directory and the page tables are the objects the code places there; a
page table is found by its address.

`paging_init` maps pages until they cover what it has placed itself. Its loop takes
fuel and answers `none` when that runs out; there are more rounds in
`pagingFuel` than pages in the address space.
-/

namespace Beryllium

open Machine

/-! ## The placement allocator -/

/-- `placement_kmalloc`: the address and the next `placement_address`. -/
def placementKmalloc (placementAddress sz : ℕ) : ℕ × ℕ :=
  (placementAddress, add32 placementAddress sz)

/-- `placement_kmalloc_ap`: the address, which is also what it stores to `*phys`, and the
    next `placement_address`. -/
def placementKmallocAp (placementAddress sz : ℕ) (align : ℤ) : ℕ × ℕ :=
  let p :=
    if align = 1 ∧ placementAddress &&& 0xFFFFF000 ≠ 0 then
      add32 (placementAddress &&& 0xFFFFF000) 0x1000
    else placementAddress
  (p, add32 p sz)

/-! ## Page directories -/

/-- `page_directory_t`; the null pointer in `tables` is 0. -/
structure PageDirectory where
  tables : ℕ → ℕ
  tablesPhysical : ℕ → ℕ
  physicalAddr : ℕ

/-- The memory of the paging code: where the next object goes, the page allocator with
    the address of its bitmap, the directory with its address, and the page
    tables by their addresses. -/
structure Paging where
  placementAddress : ℕ
  pa : PageAllocator
  frameAddr : ℕ
  kernelDirectory : ℕ
  dir : PageDirectory
  page : ℕ → ℕ → PageT

/-- `sizeof(page_table_t)`. -/
def sizeofPageTable : ℕ := 0x1000

/-- `sizeof(page_directory_t)`. -/
def sizeofPageDirectory : ℕ := 0x2004

/-- `mem_end`, which nothing changes. -/
def memEnd : ℕ := 0xF000000

variable (s : Paging)

/-- `paging_get_page` on the kernel directory: the page entry as the address of its
    table and its index there. -/
def pagingGetPage (address : ℕ) (make : ℤ) : Paging × Option (ℕ × ℕ) :=
  let address := address / 0x1000
  let tableIndex := address / 1024
  if s.dir.tables tableIndex ≠ 0 then
    (s, some (s.dir.tables tableIndex, address % 1024))
  else if make ≠ 0 then
    let temp := placementKmallocAp s.placementAddress sizeofPageTable 1
    ({ s with
        placementAddress := temp.2
        dir :=
          { s.dir with
            tables := Function.update s.dir.tables tableIndex temp.1
            tablesPhysical := Function.update s.dir.tablesPhysical tableIndex (temp.1 ||| 0x7) }
        page := Function.update s.page temp.1 fun _ => PageT.zero },
      some (temp.1, address % 1024))
  else (s, none)

/-- `pa_alloc_frame(paging_get_page(address, 1, kernel_directory), 0, 0)` -/
def allocPage (address : ℕ) : Option Paging := do
  let r := pagingGetPage s address 1
  let e ← r.2
  let q ← paAllocFrame r.1.pa (r.1.page e.1 e.2) 0 0
  return { r.1 with
    pa := q.1
    page := Function.update r.1.page e.1 (Function.update (r.1.page e.1) e.2 q.2) }

/-- `init_page_allocator`: the bitmap is `frame_amount / 32` bytes, and cleared. -/
def initPageAllocator : Paging :=
  let memEndAligned := memEnd &&& 0xFFFFF000
  let frameAmount := memEndAligned / 4
  let r := placementKmalloc s.placementAddress (frameAmount / 0x20)
  { s with
    placementAddress := r.2
    frameAddr := r.1
    pa := ⟨fun i => if i < frameAmount / 0x20 / 4 then 0#32 else s.pa.frame i, frameAmount⟩ }

/-- The loop of `paging_init`, from the address `i`. -/
def pagingLoop : ℕ → ℕ → Paging → Option Paging
  | 0, _, _ => none
  | fuel + 1, i, s =>
    if i < add32 s.placementAddress 0x1000 then do
      let s' ← allocPage s i
      pagingLoop fuel (add32 i 0x1000) s'
    else some s

def pagingFuel : ℕ := 1048576

/-- The new directory of `paging_init`, zeroed. -/
def placeDirectory : Paging :=
  let r := placementKmallocAp s.placementAddress sizeofPageDirectory 1
  { s with
    placementAddress := r.2
    kernelDirectory := r.1
    dir := ⟨fun _ => 0, fun _ => 0, 0⟩ }

/-- `paging_init`; the address it gives to the processor is that of `tablesPhysical`. -/
def pagingInit : Option Paging := do
  let s' ← pagingLoop pagingFuel 0 (placeDirectory (initPageAllocator s))
  return { s' with dir.physicalAddr := add32 s'.kernelDirectory 0x1000 }

/-! ## Page addresses -/

theorem and_pageMask {p : ℕ} (hp : p < 4294967296) : p &&& 0xFFFFF000 = p / 0x1000 * 0x1000 := by
  have hmask : 0xFFFFF000 = (2 ^ 20 - 1) <<< 12 := by decide
  refine Nat.eq_of_testBit_eq fun i => ?_
  rw [Nat.testBit_and, hmask, Nat.testBit_shiftLeft, Nat.testBit_two_pow_sub_one,
    show 0x1000 = 2 ^ 12 by decide, Nat.testBit_mul_two_pow, Nat.testBit_div_two_pow]
  by_cases h₁ : 12 ≤ i
  · by_cases h₂ : i - 12 < 20
    · simp [h₁, h₂, Nat.sub_add_cancel h₁]
    · have : p.testBit i = false := Nat.testBit_lt_two_pow (lt_of_lt_of_le hp
        (show 2 ^ 32 ≤ 2 ^ i from Nat.pow_le_pow_right (by decide) (by omega)))
      simp [h₁, h₂, Nat.sub_add_cancel h₁, this]
  · simp [h₁]

/-- The flags of a directory entry do not reach the address. -/
theorem flags_and_pageMask {t : ℕ} (ht : t < 4294967296) (h : t % 0x1000 = 0) :
    (t ||| 0x7) &&& 0xFFFFF000 = t ∧ (t ||| 0x7) &&& 1 = 1 := by
  have hor : t ||| 0x7 = t + 7 := by
    obtain ⟨k, rfl⟩ : ∃ k, t = 2 ^ 3 * k := ⟨t / 8, by omega⟩
    exact (Nat.two_pow_add_eq_or_of_lt (by decide) k).symm
  rw [hor, and_pageMask (by omega), Nat.and_one_is_mod]
  omega

theorem placementKmallocAp_aligned {p : ℕ} (sz : ℕ) (hp : 0x1000 ≤ p)
    (h : p / 0x1000 * 0x1000 + 0x1000 + sz < 4294967296) :
    placementKmallocAp p sz 1 =
    (p / 0x1000 * 0x1000 + 0x1000, p / 0x1000 * 0x1000 + 0x1000 + sz) := by
  have hmask : p &&& 0xFFFFF000 = p / 0x1000 * 0x1000 := and_pageMask (by omega)
  have hne : p / 0x1000 * 0x1000 ≠ 0 := by omega
  rw [placementKmallocAp]
  have h₁ : add32 (p / 0x1000 * 0x1000) 0x1000 = p / 0x1000 * 0x1000 + 0x1000 :=
    add32_eq (lt_of_le_of_lt (Nat.le_add_right _ sz) h)
  rw [if_pos ⟨rfl, hmask.symm ▸ hne⟩, hmask, h₁, add32_eq h]

end Beryllium

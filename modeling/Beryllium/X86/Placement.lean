import Beryllium.Initrd.Init
import Beryllium.Machine.System
import Beryllium.X86.Paging
import Mathlib.Order.Interval.Set.Basic

/-!
# Placement above the modules

The part of `x86_early` of `kernel/arch/x86/x86-early.c` that handles the modules, which the boot
loader has placed anywhere, and the calls of `lib/placement_malloc.c` after it. Without wrap around,
these hand out all addresses from `placement_address` on and no others (`placement_reaches`). So
they spare the kernel and the modules exactly if nothing of these is above the end of the first
module (`placement_spares_modules`).
-/

namespace Beryllium

open Machine Set

/-! ## The modules -/

/-- `multiboot_mod_t`: the fields that are read, 32 bits each. -/
structure MultibootMod where
  modStart : ℕ
  modEnd : ℕ
  modStart_lt : modStart < 4294967296
  modEnd_lt : modEnd < 4294967296

/-- The addresses of a module, without the one at `mod_end`. -/
def MultibootMod.range (m : MultibootMod) : Set ℕ := Ico m.modStart m.modEnd

/-- `multiboot_info_t`: `mods_count`, and the modules at `mods_addr`. -/
structure MultibootInfo where
  modsCount : ℕ
  mods : ℕ → MultibootMod

/-- The globals that `x86_early` sets for the modules: those of the initial ramdisk, and
    `placement_address`. -/
structure Early where
  initrd : Initrd
  placementAddress : ℕ

/-- The part of `x86_early` that handles the modules. -/
def x86EarlyModules (s : Early) (mboot : MultibootInfo) : Early :=
  if mboot.modsCount ≠ 0 then
    let mod := mboot.mods 0
    { initrd := initrdSetLocation s.initrd mod.modStart mod.modEnd, placementAddress := mod.modEnd }
  else s

/-- Before: `placement_address` is the address of the symbol `end`. -/
def earlyInit (g : Initrd) (kernelEnd : ℕ) : Early := ⟨g, kernelEnd⟩

/-- Where the kernel is linked. -/
def kernelStart : ℕ := 0x100000

/-! ## The calls of the placement allocator -/

/-- `placement_kmalloc_a`: as `placement_kmalloc_ap`, with no `phys` to store to. -/
def placementKmallocA (placementAddress sz : ℕ) (align : ℤ) : ℕ × ℕ :=
  placementKmallocAp placementAddress sz align

/-- A call of the placement allocator. -/
inductive PlacementCall
  | kmalloc (sz : ℕ)
  | kmallocA (sz : ℕ) (align : ℤ)
  | kmallocAp (sz : ℕ) (align : ℤ)

namespace PlacementCall

/-- The size that is asked for. -/
def size : PlacementCall → ℕ
  | kmalloc sz => sz
  | kmallocA sz _ => sz
  | kmallocAp sz _ => sz

/-- The address that the call returns, and the next `placement_address`. -/
def run (p : ℕ) : PlacementCall → ℕ × ℕ
  | kmalloc sz => placementKmalloc p sz
  | kmallocA sz align => placementKmallocA p sz align
  | kmallocAp sz align => placementKmallocAp p sz align

/-- The next page if `align` is set. -/
def pageUp (p : ℕ) (align : ℤ) : ℕ :=
  if align = 1 ∧ p &&& 0xFFFFF000 ≠ 0 then (p &&& 0xFFFFF000) + 0x1000 else p

/-- Where the object goes if nothing wraps around. -/
def place (p : ℕ) : PlacementCall → ℕ
  | kmalloc _ => p
  | kmallocA _ align => pageUp p align
  | kmallocAp _ align => pageUp p align

/-- The call does not wrap around. -/
def NoWrap (p : ℕ) (c : PlacementCall) : Prop := c.place p + c.size < 4294967296

/-- The addresses that the call hands out. -/
def range (p : ℕ) (c : PlacementCall) : Set ℕ := Ico (c.run p).1 ((c.run p).1 + c.size)

variable {p : ℕ} {c : PlacementCall}

theorem placementKmallocAp_eq {sz : ℕ} {align : ℤ} (h : pageUp p align + sz < 4294967296) :
    placementKmallocAp p sz align = (pageUp p align, pageUp p align + sz) := by
  rw [pageUp] at h
  rw [placementKmallocAp, pageUp]
  split_ifs at h ⊢
  · rw [add32_eq (lt_of_le_of_lt (Nat.le_add_right _ sz) h), add32_eq h]
  · rw [add32_eq h]

theorem run_eq (h : c.NoWrap p) : c.run p = (c.place p, c.place p + c.size) := by
  cases c with
  | kmalloc sz => rw [run, placementKmalloc, add32_eq (show p + sz < 4294967296 from h)]; rfl
  | kmallocA sz align => exact placementKmallocAp_eq h
  | kmallocAp sz align => exact placementKmallocAp_eq h

/-- The next page is above, whether the address is that of a page or not. -/
theorem le_pageUp (hp : p < 4294967296) (align : ℤ) : p ≤ pageUp p align := by
  rw [pageUp]
  split_ifs
  · rw [and_pageMask hp]
    omega
  · exact le_rfl

theorem le_place (hp : p < 4294967296) : p ≤ c.place p := by
  cases c with
  | kmalloc sz => exact le_rfl
  | kmallocA sz align => exact le_pageUp hp align
  | kmallocAp sz align => exact le_pageUp hp align

end PlacementCall

/-- Calls of the placement allocator that do not wrap around, from the address `start` on. -/
def placementSystem (start : ℕ) : System ℕ PlacementCall where
  init p := p = start
  guard p c := c.NoWrap p
  step p c := some (c.run p).2

variable {start p a : ℕ} {c : PlacementCall}

theorem placement_le (h : start < 4294967296) (hp : (placementSystem start).Reachable p) :
    start ≤ p ∧ p < 4294967296 := by
  refine hp.of_step (P := fun p => start ≤ p ∧ p < 4294967296) (fun p hp => ?_)
    fun p c p' hle hc hstep => ?_
  · obtain rfl : p = start := hp
    exact ⟨le_rfl, h⟩
  obtain rfl := Option.some.inj hstep
  rw [PlacementCall.run_eq hc]
  exact ⟨hle.1.trans ((PlacementCall.le_place hle.2).trans (Nat.le_add_right _ _)), hc⟩

/-- The addresses that are handed out in some sequence of calls are those from the start on, as far
    as there is no wrap around. -/
theorem placement_reaches (h : start < 4294967296) :
    (∃ (p : ℕ) (c : PlacementCall), (placementSystem start).Reachable p ∧ c.NoWrap p ∧
      a ∈ c.range p) ↔
      start ≤ a ∧ a + 1 < 4294967296 := by
  constructor
  · rintro ⟨p, c, hp, hc, ha⟩
    obtain ⟨hstart, hlt⟩ := placement_le h hp
    rw [PlacementCall.range, PlacementCall.run_eq hc] at ha
    exact ⟨hstart.trans ((PlacementCall.le_place hlt).trans ha.1), lt_of_le_of_lt ha.2 hc⟩
  · rintro ⟨hstart, hlt⟩
    -- one call hands out everything up to `a`
    have hsize : start + (a + 1 - start) = a + 1 := Nat.add_sub_of_le (Nat.le_succ_of_le hstart)
    refine ⟨start, .kmalloc (a + 1 - start), ⟨start, [], rfl, .nil _⟩, ?_, hstart, ?_⟩
    · exact lt_of_eq_of_lt hsize hlt
    · exact lt_of_lt_of_eq (Nat.lt_succ_self a) hsize.symm

/-! ## What the calls spare -/

/-- The kernel, up to the symbol `end`. -/
def kernelImage (kernelEnd : ℕ) : Set ℕ := Ico kernelStart kernelEnd

/-- No sequence of calls after the module handling hands out an address of the kernel or of a
    module. -/
def SparesModules (g : Initrd) (kernelEnd : ℕ) (mboot : MultibootInfo) : Prop :=
  ∀ (p : ℕ) (c : PlacementCall),
    (placementSystem (x86EarlyModules (earlyInit g kernelEnd) mboot).placementAddress).Reachable p →
    c.NoWrap p → ∀ a ∈ c.range p, a ∉ kernelImage kernelEnd ∧
      ∀ i < mboot.modsCount, a ∉ (mboot.mods i).range

/-- The addresses from the start on miss a range if and only if it is empty or ends at the start
    or before. -/
theorem forall_notMem_Ico {l u : ℕ} (hu : u < 4294967296) :
    (∀ a, start ≤ a → a + 1 < 4294967296 → a ∉ Ico l u) ↔ (l < u → u ≤ start) := by
  constructor
  · intro h hlu
    by_contra hstart
    -- the last address of the range
    exact h (u - 1) (by omega) (by omega) ⟨by omega, by omega⟩
  · rintro h a hstart - ⟨hl, ha⟩
    have := h (lt_of_le_of_lt hl ha)
    omega

theorem sparesModules_iff {g : Initrd} {kernelEnd : ℕ} {mboot : MultibootInfo}
    (hend : kernelEnd < 4294967296)
    (hstart : (x86EarlyModules (earlyInit g kernelEnd) mboot).placementAddress = start)
    (h : start < 4294967296) :
    SparesModules g kernelEnd mboot ↔ (kernelStart < kernelEnd → kernelEnd ≤ start) ∧
      ∀ i < mboot.modsCount, (mboot.mods i).modStart < (mboot.mods i).modEnd →
        (mboot.mods i).modEnd ≤ start := by
  have hreach : SparesModules g kernelEnd mboot ↔ ∀ a, start ≤ a → a + 1 < 4294967296 →
      a ∉ kernelImage kernelEnd ∧ ∀ i < mboot.modsCount, a ∉ (mboot.mods i).range := by
    rw [SparesModules, hstart]
    constructor
    · intro hs a hle hlt
      obtain ⟨p, c, hp, hc, ha⟩ := (placement_reaches h).2 ⟨hle, hlt⟩
      exact hs p c hp hc a ha
    · intro hs p c hp hc a ha
      obtain ⟨hle, hlt⟩ := (placement_reaches h).1 ⟨p, c, hp, hc, ha⟩
      exact hs a hle hlt
  have hmod := fun i => @forall_notMem_Ico start (mboot.mods i).modStart _ (mboot.mods i).modEnd_lt
  rw [hreach, ← forall_notMem_Ico hend]
  refine ⟨fun hs => ⟨fun a hle hlt => (hs a hle hlt).1, fun i hi => ?_⟩, fun hs a hle hlt => ?_⟩
  · exact (hmod i).1 fun a hle hlt => (hs a hle hlt).2 i hi
  · exact ⟨hs.1 a hle hlt, fun i hi => (hmod i).2 (hs.2 i hi) a hle hlt⟩

/-- The placement allocator spares the kernel and the modules if and only if the first module ends
    above the kernel and above every other module that is not empty, wherever they are. -/
theorem placement_spares_modules {g : Initrd} {kernelEnd : ℕ} {mboot : MultibootInfo}
    (hkernel : kernelStart < kernelEnd) (hend : kernelEnd < 4294967296) :
    SparesModules g kernelEnd mboot ↔ (mboot.modsCount ≠ 0 → kernelEnd ≤ (mboot.mods 0).modEnd ∧
      ∀ i < mboot.modsCount, (mboot.mods i).modStart < (mboot.mods i).modEnd →
        (mboot.mods i).modEnd ≤ (mboot.mods 0).modEnd) := by
  by_cases hcount : mboot.modsCount = 0
  · have hstart : (x86EarlyModules (earlyInit g kernelEnd) mboot).placementAddress = kernelEnd := by
      rw [x86EarlyModules, if_neg (not_not.2 hcount)]
      rfl
    rw [sparesModules_iff hend hstart hend]
    refine ⟨fun _ hne => absurd hcount hne, fun _ => ⟨fun _ => le_rfl, fun i hi => ?_⟩⟩
    rw [hcount] at hi
    exact absurd hi (Nat.not_lt_zero i)
  · have hstart : (x86EarlyModules (earlyInit g kernelEnd) mboot).placementAddress =
        (mboot.mods 0).modEnd := by
      rw [x86EarlyModules, if_pos hcount]
    rw [sparesModules_iff hend hstart (mboot.mods 0).modEnd_lt]
    exact ⟨fun ⟨hk, hm⟩ _ => ⟨hk hkernel, hm⟩, fun hs => ⟨fun _ => (hs hcount).1, (hs hcount).2⟩⟩

/-- A ramdisk of one page, right above a kernel of 1 MB. -/
def oneModule : MultibootInfo where
  modsCount := 1
  mods _ := ⟨0x200000, 0x201000, by decide, by decide⟩

theorem placement_spares_one : SparesModules (initrdAt 0 []) 0x200000 oneModule := by
  refine (placement_spares_modules (by decide) (by decide)).2 fun _ => ⟨by decide, ?_⟩
  exact fun i _ _ => le_rfl

/-- A second module of one page above the ramdisk. -/
def twoModules : MultibootInfo where
  modsCount := 2
  mods i := if i = 0 then ⟨0x200000, 0x201000, by decide, by decide⟩
    else ⟨0x201000, 0x202000, by decide, by decide⟩

/-- The second module is not spared: `init_page_allocator` places the bitmap of the frames over it.
    -/
theorem placement_hits_module : ¬ SparesModules (initrdAt 0 []) 0x200000 twoModules ∧
    placementKmalloc (x86EarlyModules (earlyInit (initrdAt 0 []) 0x200000)
      twoModules).placementAddress
        (memEnd / 4 / 0x20) = (0x201000, 0x3E1000) ∧
    (twoModules.mods 1).range ⊆ Ico 0x201000 0x3E1000 := by
  refine ⟨fun h => ?_, by decide, Ico_subset_Ico le_rfl (by decide)⟩
  obtain ⟨-, hspared⟩ := h 0x201000 (.kmalloc (memEnd / 4 / 0x20)) ⟨0x201000, [], rfl, .nil _⟩
    (by unfold PlacementCall.NoWrap; decide) 0x201000 ⟨le_rfl, by decide⟩
  have hsecond : (0x201000 : ℕ) ∈ (twoModules.mods 1).range := ⟨le_rfl, by decide⟩
  exact hspared 1 (by decide) hsecond

end Beryllium

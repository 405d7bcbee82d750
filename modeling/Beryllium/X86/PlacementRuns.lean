import Beryllium.X86.Placement

/-!
# Runs of the placement allocator

What the calls of `lib/placement_malloc.c` are meant to hand out (`WellPlaced`): ranges one behind
the other, with `align` from the next page on, or where `placement_address` is if that is the
address of a page.

The calls test `placement_address & 0xFFFFF000` where the bits below the page are meant. From the
second page on it is never zero, so that the address of a page is moved to the next one
(`PlacementInv.not_wellPlaced`). All other calls do what they are for (`placement_runs_iff`).
-/

namespace Beryllium

open Machine

/-- `placement_kmalloc_ap` with its store to `*phys`: the memory after it, the address that is
    returned, and the next `placement_address`. -/
def placementKmallocApPhys (m : Mem) (placementAddress sz : ℕ) (align : ℤ) (phys : ℕ) :
    Mem × ℕ × ℕ :=
  let placementAddress :=
    if align = 1 ∧ placementAddress &&& 0xFFFFF000 ≠ 0 then
      add32 (placementAddress &&& 0xFFFFF000) 0x1000
    else placementAddress
  let m := if phys ≠ 0 then m.store32 phys placementAddress else m
  let tmp := placementAddress
  (m, tmp, add32 placementAddress sz)

/-- The calls. -/
inductive PlacementOp
  | kmalloc (sz : ℕ)
  | kmallocA (sz : ℕ) (align : ℤ)
  | kmallocAp (sz : ℕ) (align : ℤ) (phys : ℕ)

namespace PlacementOp

/-- The size that is asked for. -/
def size : PlacementOp → ℕ
  | kmalloc sz => sz
  | kmallocA sz _ => sz
  | kmallocAp sz _ _ => sz

/-- A page is asked for. -/
def Aligned : PlacementOp → Prop
  | kmalloc _ => False
  | kmallocA _ align => align = 1
  | kmallocAp _ align _ => align = 1

/-- The memory after the call, the address that it returns, and the next `placement_address`. -/
def run (m : Mem) (p : ℕ) : PlacementOp → Mem × ℕ × ℕ
  | kmalloc sz => (m, placementKmalloc p sz)
  | kmallocA sz align => (m, placementKmallocA p sz align)
  | kmallocAp sz align phys => placementKmallocApPhys m p sz align phys

end PlacementOp

/-- `placement_address`, the memory, and the addresses that were returned, with the sizes, the last
    one first. -/
structure PlacementRun where
  placementAddress : ℕ
  mem : Mem
  returned : List (ℕ × ℕ)

/-- What a call does. -/
def PlacementRun.step (s : PlacementRun) (op : PlacementOp) : PlacementRun :=
  let r := op.run s.mem s.placementAddress
  ⟨r.2.2, r.1, (r.2.1, op.size) :: s.returned⟩

/-! ## What they are for -/

/-- The first address of a page from `p` on. -/
def pageFrom (p : ℕ) : ℕ := (p + 0xFFF) / 0x1000 * 0x1000

/-- The object fits below `2 ^ 32`, where it is meant to be. -/
def PlacementOp.Room (p : ℕ) (op : PlacementOp) : Prop :=
  (op.Aligned → pageFrom p + op.size < 4294967296) ∧ p + op.size < 4294967296

/-- The ranges are one behind the other. -/
def Increasing (returned : List (ℕ × ℕ)) : Prop :=
  returned.Pairwise fun later earlier => earlier.1 + earlier.2 ≤ later.1

/-- The call returns `r`: behind all that was returned before, at a page if it is aligned, with less
    than a page skipped, and nothing if `placement_address` is that of a page. It stores `r` to
    `*phys`. -/
structure PlacedAt (s : PlacementRun) (op : PlacementOp) (r : ℕ) (s' : PlacementRun) : Prop where
  returned : s'.returned = (r, op.size) :: s.returned
  increasing : Increasing s'.returned
  page : op.Aligned → r % 0x1000 = 0
  skips : op.Aligned → s.placementAddress ≤ r ∧ r < s.placementAddress + 0x1000
  stays : op.Aligned → s.placementAddress % 0x1000 = 0 → r = s.placementAddress
  phys : ∀ sz align phys, op = .kmallocAp sz align phys → phys ≠ 0 → s'.mem.load32 phys = r

/-- The call does what it is for. -/
def WellPlaced (s : PlacementRun) (op : PlacementOp) (s' : PlacementRun) : Prop :=
  ∃ r, PlacedAt s op r s'

/-- Any calls, from an address in the second page or above on, while there is room. -/
def placementRuns : System PlacementRun PlacementOp where
  init s := 0x1000 ≤ s.placementAddress ∧ s.placementAddress < 4294967296 ∧ s.returned = []
  guard s op := op.Room s.placementAddress
  step s op := some (s.step op)

/-- The call is not aligned, or not at the address of a page. -/
def OffPage (s : PlacementRun) (op : PlacementOp) : Prop :=
  op.Aligned → s.placementAddress % 0x1000 ≠ 0

variable {s s' : PlacementRun} {op : PlacementOp} {ops : List PlacementOp} {p r : ℕ} {m : Mem}

/-! ## One call -/

theorem placementKmallocApPhys_eq (m : Mem) (p sz : ℕ) (align : ℤ) (phys : ℕ) :
    (placementKmallocApPhys m p sz align phys).2 = placementKmallocAp p sz align := rfl

/-- Without alignment the object goes to `placement_address`. -/
theorem PlacementOp.run_of_not_aligned (h : ¬op.Aligned) :
    (op.run m p).2 = (p, add32 p op.size) := by
  cases op with
  | kmalloc sz => rfl
  | kmallocA sz align =>
    rw [run, placementKmallocA, placementKmallocAp, if_neg fun hc => h hc.1]
    rfl
  | kmallocAp sz align phys =>
    rw [run, placementKmallocApPhys_eq, placementKmallocAp, if_neg fun hc => h hc.1]
    rfl

/-- With alignment it goes to the next page, wherever `placement_address` is. -/
theorem PlacementOp.run_of_aligned (h : op.Aligned) (hp : 0x1000 ≤ p) (hlt : p < 4294967296) :
    (op.run m p).2 = (add32 (p / 0x1000 * 0x1000) 0x1000,
      add32 (add32 (p / 0x1000 * 0x1000) 0x1000) op.size) := by
  have hmask : p &&& 0xFFFFF000 = p / 0x1000 * 0x1000 := and_pageMask hlt
  have hne : p / 0x1000 * 0x1000 ≠ 0 := by omega
  cases op with
  | kmalloc sz => exact h.elim
  | kmallocA sz align =>
    rw [run, placementKmallocA, placementKmallocAp, hmask, if_pos ⟨h, hne⟩]
    rfl
  | kmallocAp sz align phys =>
    rw [run, placementKmallocApPhys_eq, placementKmallocAp, hmask, if_pos ⟨h, hne⟩]
    rfl

/-- The address that is stored is the one that is returned. -/
theorem PlacementOp.run_phys {sz phys : ℕ} {align : ℤ} (hphys : phys ≠ 0)
    (hr : ((kmallocAp sz align phys).run m p).2.1 < 4294967296) :
    ((kmallocAp sz align phys).run m p).1.load32 phys =
    ((kmallocAp sz align phys).run m p).2.1 := by
  rw [run, placementKmallocApPhys] at hr ⊢
  dsimp only at hr ⊢
  rw [if_pos hphys]
  exact Mem.load32_store32_of_lt hr

/-- What was returned is below `placement_address`, one range behind the other. -/
structure PlacementInv (s : PlacementRun) : Prop where
  ge : 0x1000 ≤ s.placementAddress
  lt : s.placementAddress < 4294967296
  behind : ∀ x ∈ s.returned, x.1 + x.2 ≤ s.placementAddress
  increasing : Increasing s.returned

/-- An object at `placement_address` or above. -/
theorem PlacementInv.place (h : PlacementInv s)
    (hrun : (op.run s.mem s.placementAddress).2 = (r, add32 r op.size))
    (hle : s.placementAddress ≤ r) (hlt : r + op.size < 4294967296) :
    PlacementInv (s.step op) ∧ (s.step op).returned = (r, op.size) :: s.returned ∧
      ∀ sz align phys, op = .kmallocAp sz align phys → phys ≠ 0 →
      (s.step op).mem.load32 phys = r := by
  have hreturned : (s.step op).returned = (r, op.size) :: s.returned := by
    rw [PlacementRun.step, hrun]
  have haddress : (s.step op).placementAddress = r + op.size := by
    rw [PlacementRun.step, hrun]
    exact add32_eq hlt
  refine ⟨⟨?_, ?_, ?_, ?_⟩, hreturned, ?_⟩
  · rw [haddress]
    exact h.ge.trans (hle.trans (Nat.le_add_right r _))
  · rw [haddress]
    exact hlt
  · rw [hreturned, haddress]
    refine List.forall_mem_cons.2 ⟨le_rfl, fun x hx => ?_⟩
    exact (h.behind x hx).trans (hle.trans (Nat.le_add_right r _))
  · rw [hreturned]
    exact List.pairwise_cons.2 ⟨fun x hx => (h.behind x hx).trans hle, h.increasing⟩
  · rintro sz align phys rfl hphys
    have hr : ((PlacementOp.kmallocAp sz align phys).run s.mem s.placementAddress).2.1 = r := by
      rw [hrun]
    refine (PlacementOp.run_phys hphys ?_).trans hr
    rw [hr]
    exact lt_of_le_of_lt (Nat.le_add_right r _) hlt

/-- Off the pages the next page is the first one from there on. -/
theorem pageFrom_eq (hp : p % 0x1000 ≠ 0) : pageFrom p = p / 0x1000 * 0x1000 + 0x1000 := by
  rw [pageFrom]
  omega

/-- A call that is not aligned at a page does what it is for. -/
theorem PlacementInv.step (h : PlacementInv s) (hroom : op.Room s.placementAddress)
    (hop : OffPage s op) : PlacementInv (s.step op) ∧ WellPlaced s op (s.step op) := by
  by_cases hal : op.Aligned
  · have hoff := hop hal
    have hfits := hroom.1 hal
    rw [pageFrom_eq hoff] at hfits
    have hrun := PlacementOp.run_of_aligned (m := s.mem) hal h.ge h.lt
    rw [add32_eq (lt_of_le_of_lt (Nat.le_add_right _ op.size) hfits)] at hrun
    obtain ⟨hinv, hreturned, hphys⟩ := h.place hrun (by omega) hfits
    refine ⟨hinv, _, hreturned, hinv.increasing, fun _ => ?_, fun _ => ?_,
      fun _ h₀ => absurd h₀ hoff, hphys⟩
    · exact (Nat.add_mod_right _ _).trans (Nat.mul_mod_left _ _)
    · omega
  · obtain ⟨hinv, hreturned, hphys⟩ := h.place (PlacementOp.run_of_not_aligned hal) le_rfl hroom.2
    exact ⟨hinv, _, hreturned, hinv.increasing, fun h' => absurd h' hal, fun h' => absurd h' hal,
      fun h' => absurd h' hal, hphys⟩

/-- The address of a page is moved to the next one. -/
theorem PlacementInv.not_wellPlaced (h : PlacementInv s) (hop : ¬OffPage s op) :
    ¬WellPlaced s op (s.step op) := by
  obtain ⟨hal, hpage⟩ := Classical.not_imp.1 hop
  rintro ⟨r, hr⟩
  have hstays := hr.stays hal (not_not.1 hpage)
  have hrun := PlacementOp.run_of_aligned (m := s.mem) hal h.ge h.lt
  have hreturned := hr.returned
  rw [PlacementRun.step, hrun] at hreturned
  obtain ⟨heq, -⟩ := Prod.mk.inj (List.cons.inj hreturned).1
  have hlt := h.lt
  rw [add32] at heq
  omega

/-! ## Runs -/

/-- In a run each call does what it is for if and only if no call is aligned while
    `placement_address` is the address of a page. -/
theorem placement_runs_iff (h₀ : placementRuns.init s) (hr : placementRuns.Run s ops s') :
    placementRuns.EachStep WellPlaced s ops ↔ (placementRuns.restrict OffPage).Run s ops s' := by
  have hinit : PlacementInv s := by
    refine ⟨h₀.1, h₀.2.1, fun x hx => ?_, ?_⟩
    · rw [h₀.2.2] at hx
      exact absurd hx List.not_mem_nil
    · rw [h₀.2.2]
      exact .nil
  refine hr.eachStep_iff (fun t op t' ht hg hop hst => ?_) (fun t op t' ht _ hop hst => ?_) hinit
  · obtain rfl := Option.some.inj hst
    exact ht.step hg hop
  · obtain rfl := Option.some.inj hst
    exact ht.not_wellPlaced hop

/-- A page table behind a bitmap. -/
theorem placement_runs_iff_pageTable : placementRuns.EachStep WellPlaced ⟨0x100000, fun _ => 0, []⟩
    [.kmalloc 0x1E0, .kmallocAp 0x1000 1 0x200] := by
  have hr : placementRuns.Run ⟨0x100000, fun _ => 0, []⟩
      [.kmalloc 0x1E0, .kmallocAp 0x1000 1 0x200] _ :=
    .cons ⟨fun h => h.elim, by decide⟩ rfl (.cons ⟨fun _ => by decide, by decide⟩ rfl (.nil _))
  refine (placement_runs_iff ⟨by decide, by decide, rfl⟩ hr).2 ?_
  exact .cons ⟨⟨fun h => h.elim, by decide⟩, fun h => h.elim⟩ rfl
    (.cons ⟨⟨fun _ => by decide, by decide⟩, fun _ => by decide⟩ rfl (.nil _))

/-- At the address of a page, a whole page is skipped. -/
theorem placement_runs_false : ¬∀ s ops s', placementRuns.init s → placementRuns.Run s ops s' →
    placementRuns.EachStep WellPlaced s ops := by
  intro h
  have hr : placementRuns.Run ⟨0x100000, fun _ => 0, []⟩ [.kmallocA 0x1000 1]
      (PlacementRun.step ⟨0x100000, fun _ => 0, []⟩ (.kmallocA 0x1000 1)) :=
    .cons ⟨fun _ => by decide, by decide⟩ rfl (.nil _)
  obtain ⟨r, hplaced⟩ := (h _ _ _ ⟨by decide, by decide, rfl⟩ hr).head rfl
  have hreturned : [(0x101000, 0x1000)] = [(r, 0x1000)] := hplaced.returned
  have hstays : r = 0x100000 := hplaced.stays rfl (by decide)
  cases hreturned
  cases hstays

end Beryllium

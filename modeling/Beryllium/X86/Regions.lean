import Beryllium.Machine.DList
import Beryllium.Machine.Memory
import Mathlib.Data.Set.BooleanAlgebra
import Mathlib.Order.CompletePartialOrder
import Mathlib.Order.Interval.Set.Disjoint

/-!
# The regions of the memory manager

The list of regions of `mman.c`, linked from `mman_region`. `memresize` changes the size of a
region, if no other region starts between its start and its new end, a 32-bit sum: it keeps the
regions apart as long as the new end is below `2 ^ 32` (`memresize_iff`). An end that wraps is
before every region.
-/

namespace Beryllium

open Machine

/-- `mman_region_t` -/
structure MmanRegion where
  prev : ℕ
  next : ℕ
  used : ℕ
  type : ℕ
  flags : ℕ
  start : ℕ
  size : ℕ

/-- The regions at their addresses. -/
abbrev RegionMem := ℕ → MmanRegion

namespace RegionMem

variable (m : RegionMem)

/-- A store to a field of a region. -/
def modify (a : ℕ) (f : MmanRegion → MmanRegion) : RegionMem :=
  fun b => if b = a then f (m a) else m b

theorem modify_self (a : ℕ) (f : MmanRegion → MmanRegion) : m.modify a f a = f (m a) := if_pos rfl

theorem modify_of_ne {a b : ℕ} (f : MmanRegion → MmanRegion) (h : b ≠ a) :
    m.modify a f b = m b := if_neg h

end RegionMem

/-- The rounds of a loop over the regions: the list has fewer nodes than there are addresses. -/
def regionFuel : ℕ := 4294967297

/-- The loop of `memresize`. -/
def resizeLoop (m : RegionMem) (region size addrSizeNew : ℕ) : ℕ → ℕ → Option (ℕ × RegionMem)
  | 0, _ => none
  | fuel + 1, parentPtr =>
    if parentPtr = 0 then some (2, m)
    else if parentPtr ≠ region ∧ (m region).start < (m parentPtr).start ∧
        (m parentPtr).start < addrSizeNew then
      some (1, m)
    else if (m parentPtr).next = 0 then
      -- no region in the way: the new size is committed
      some (0, m.modify region fun r => { r with size := size })
    else resizeLoop m region size addrSizeNew fuel (m parentPtr).next

/-- `memresize` -/
def memresize (m : RegionMem) (mmanRegion region size : ℕ) : Option (ℕ × RegionMem) :=
  resizeLoop m region size (add32 size (m region).start) regionFuel mmanRegion

/-- The addresses of a region. -/
def MmanRegion.range (r : MmanRegion) : Set ℕ := Set.Ico r.start (r.start + r.size)

/-- The regions at `ns` are not empty, do not wrap, and are pairwise disjoint. -/
structure RegionsApart (m : RegionMem) (ns : List ℕ) : Prop where
  pos : ∀ a ∈ ns, 0 < (m a).size
  le : ∀ a ∈ ns, (m a).start + (m a).size ≤ 4294967296
  disjoint : ∀ a ∈ ns, ∀ b ∈ ns, a ≠ b → Disjoint (m a).range (m b).range

/-- What `memresize` of the region at `r` to `n` bytes is for, with its result. -/
structure Resizes (m : RegionMem) (ns : List ℕ) (r n : ℕ) (res : ℕ × RegionMem) : Prop where
  /-- Only the size changes. -/
  commits : res.1 = 0 → res.2 = m.modify r fun q => { q with size := n }
  apart : res.1 = 0 → RegionsApart res.2 ns
  unchanged : res.1 ≠ 0 → res.2 = m
  complete : (m r).start + n ≤ 4294967296 →
    (∀ a ∈ ns, a ≠ r → Disjoint (Set.Ico (m r).start ((m r).start + n)) (m a).range) → res.1 = 0

variable {m : RegionMem} {ns : List ℕ} {head p r n e a fuel : ℕ}

/-! ## The loop -/

/-- The region at `a` starts behind that at `r`, and before its new end `e`. -/
def InTheWay (m : RegionMem) (r e a : ℕ) : Prop :=
  a ≠ r ∧ (m r).start < (m a).start ∧ (m a).start < e

/-- The loop returns 1 at a region that is in the way, and commits the size if there is none. -/
theorem resizeLoop_eq (h : Visits (fun a => (m a).next) p ns) (hne : ns ≠ [])
    (hfuel : ns.length < fuel) :
    ((∃ a ∈ ns, InTheWay m r e a) ∧ resizeLoop m r n e fuel p = some (1, m)) ∨
    ((∀ a ∈ ns, ¬InTheWay m r e a) ∧
      resizeLoop m r n e fuel p = some (0, m.modify r fun q => { q with size := n })) := by
  induction ns generalizing p fuel with
  | nil => exact absurd rfl hne
  | cons a ns ih =>
    obtain ⟨fuel, rfl⟩ : ∃ k, fuel = k + 1 := Nat.exists_eq_succ_of_ne_zero (by omega)
    obtain ⟨rfl, hp₀, hrest⟩ := h
    rw [resizeLoop, if_neg hp₀]
    by_cases hway : InTheWay m r e p
    · exact .inl ⟨⟨p, List.mem_cons_self, hway⟩, if_pos hway⟩
    have hpass : ¬(p ≠ r ∧ (m r).start < (m p).start ∧ (m p).start < e) := hway
    rw [if_neg hpass]
    cases ns with
    | nil =>
      have hnext : (m p).next = 0 := hrest
      exact .inr ⟨fun b hb => List.mem_singleton.1 hb ▸ hway, if_pos hnext⟩
    | cons b ns =>
      have hnext : (m p).next ≠ 0 := hrest.1.trans_ne hrest.2.1
      rw [if_neg hnext]
      rcases ih hrest (List.cons_ne_nil b ns) (Nat.lt_of_succ_lt_succ hfuel) with
        ⟨⟨c, hc, hcway⟩, hloop⟩ | ⟨hnone, hloop⟩
      · exact .inl ⟨⟨c, List.mem_cons_of_mem p hc, hcway⟩, hloop⟩
      · exact .inr ⟨List.forall_mem_cons.2 ⟨hway, hnone⟩, hloop⟩

/-! ## Regions apart -/

/-- Two ranges that are not empty are disjoint if one ends before the other starts. -/
theorem disjoint_ico_iff {a b n k : ℕ} (hn : 0 < n) (hk : 0 < k) :
    Disjoint (Set.Ico a (a + n)) (Set.Ico b (b + k)) ↔ a + n ≤ b ∨ b + k ≤ a := by
  rw [Set.Ico_disjoint_Ico]
  omega

/-- The other regions end before the start of a region, or start behind it. -/
theorem RegionsApart.before_or_behind (h : RegionsApart m ns) (hr : r ∈ ns) (ha : a ∈ ns)
    (hne : a ≠ r) : (m r).start < (m a).start ∨ (m a).start + (m a).size ≤ (m r).start := by
  have hpos := h.pos r hr
  have hdisj := (disjoint_ico_iff hpos (h.pos a ha)).1 (h.disjoint r hr a ha hne.symm)
  omega

/-- The regions are still apart with a new size for one of them exactly if its new range is
    below `2 ^ 32`, and ends before the regions behind it. -/
theorem RegionsApart.resize_iff (h : RegionsApart m ns) (hr : r ∈ ns) (hn : 0 < n) :
    RegionsApart (m.modify r fun q => { q with size := n }) ns ↔ (m r).start + n ≤ 4294967296 ∧
      ∀ a ∈ ns, (m r).start < (m a).start → (m r).start + n ≤ (m a).start := by
  constructor
  · intro h'
    have hle := h'.le r hr
    rw [RegionMem.modify_self] at hle
    refine ⟨hle, fun a ha hlt => ?_⟩
    have hne : a ≠ r := by
      rintro rfl
      exact absurd hlt (lt_irrefl _)
    have hdisj := h'.disjoint r hr a ha hne.symm
    rw [RegionMem.modify_self, RegionMem.modify_of_ne _ _ hne] at hdisj
    rcases (disjoint_ico_iff hn (h.pos a ha)).1 hdisj with hend | hend
    · exact hend
    · dsimp only at hend
      omega
  · rintro ⟨hle, hbehind⟩
    have hdisj : ∀ a ∈ ns, a ≠ r →
      Disjoint (Set.Ico (m r).start ((m r).start + n)) (m a).range := by
      intro a ha hne
      refine (disjoint_ico_iff hn (h.pos a ha)).2 ?_
      exact (h.before_or_behind hr ha hne).imp (hbehind a ha) id
    refine ⟨fun a ha => ?_, fun a ha => ?_, fun a ha b hb hne => ?_⟩
    · by_cases heq : a = r
      · rw [heq, RegionMem.modify_self]
        exact hn
      · rw [RegionMem.modify_of_ne _ _ heq]
        exact h.pos a ha
    · by_cases heq : a = r
      · rw [heq, RegionMem.modify_self]
        exact hle
      · rw [RegionMem.modify_of_ne _ _ heq]
        exact h.le a ha
    · by_cases heq : a = r
      · subst heq
        rw [RegionMem.modify_self, RegionMem.modify_of_ne _ _ hne.symm]
        exact hdisj b hb hne.symm
      · rw [RegionMem.modify_of_ne _ _ heq]
        by_cases heq' : b = r
        · subst heq'
          rw [RegionMem.modify_self]
          exact (hdisj a ha hne).symm
        · rw [RegionMem.modify_of_ne _ _ heq']
          exact h.disjoint a ha b hb hne

/-! ## Every size -/

/-- The new end of a region: below `2 ^ 32`, or `2 ^ 32` for the last region. -/
def EndFits (m : RegionMem) (ns : List ℕ) (r n : ℕ) : Prop :=
  (m r).start + n ≤ 4294967296 ∧
    ((m r).start + n = 4294967296 → ∀ a ∈ ns, (m a).start ≤ (m r).start)

/-- Where the new end fits, a region is in the way exactly if it is not behind the new range. -/
theorem inTheWay_iff (hfit : EndFits m ns r n) (ha : a ∈ ns) :
    InTheWay m r (add32 n (m r).start) a ↔ (m r).start < (m a).start ∧
    (m a).start < (m r).start + n := by
  obtain ⟨hle, hlast⟩ := hfit
  have hne : (m r).start < (m a).start → a ≠ r := by
    rintro hlt rfl
    exact absurd hlt (lt_irrefl _)
  rw [InTheWay, add32]
  rcases Nat.lt_or_eq_of_le hle with hlt | heq
  · rw [Nat.mod_eq_of_lt (by omega), Nat.add_comm n]
    exact ⟨fun h => h.2, fun h => ⟨hne h.1, h⟩⟩
  · have := hlast heq a ha
    omega

/-- A new end that wraps is before every region. -/
theorem not_inTheWay (hlt : (m r).start < 4294967296) (hn : n < 4294967296)
    (hwrap : 4294967296 ≤ (m r).start + n) : ¬InTheWay m r (add32 n (m r).start) a := by
  rintro ⟨-, hstart, hend⟩
  rw [add32] at hend
  omega

/-- Distinct addresses are fewer than the rounds of a loop. -/
theorem length_lt_regionFuel (hnodup : ns.Nodup) (hlt : ∀ a ∈ ns, a < 4294967296) :
    ns.length < regionFuel :=
  Nat.lt_succ_of_le (length_le_of_nodup hnodup hlt)

/-- `memresize` to any size of at least one byte does what it is for exactly if the new end of the
    region fits. -/
theorem memresize_iff (hl : Visits (fun a => (m a).next) head ns) (hlt : ∀ a ∈ ns, a < 4294967296)
    (hap : RegionsApart m ns) (hr : r ∈ ns) (hn : 0 < n) (hn' : n < 4294967296) :
    ∃ res, memresize m head r n = some res ∧ (Resizes m ns r n res ↔ EndFits m ns r n) := by
  have hsize := hap.pos r hr
  have hle := hap.le r hr
  rcases resizeLoop_eq (r := r) (n := n) (e := add32 n (m r).start) hl (List.ne_nil_of_mem hr)
    (length_lt_regionFuel hl.nodup hlt) with ⟨⟨a, ha, hway⟩, hloop⟩ | ⟨hnone, hloop⟩
  · -- a region is in the way, so the end does not wrap
    have hnowrap : (m r).start + n < 4294967296 := by
      by_contra hwrap
      exact not_inTheWay (by omega) hn' (Nat.not_lt.1 hwrap) hway
    have hfit : EndFits m ns r n := ⟨hnowrap.le, fun heq => absurd heq hnowrap.ne⟩
    obtain ⟨hstart, hend⟩ := (inTheWay_iff hfit ha).1 hway
    refine ⟨_, hloop, iff_of_true
      ⟨fun h => absurd h Nat.one_ne_zero, fun h => absurd h Nat.one_ne_zero,
      fun _ => rfl, fun _ hdisj => ?_⟩ hfit⟩
    have := (disjoint_ico_iff hn (hap.pos a ha)).1 (hdisj a ha hway.1)
    omega
  · refine ⟨_, hloop, fun h => ?_,
      fun hfit => ⟨fun _ => rfl, fun _ => ?_, fun h => absurd rfl h, fun _ _ => rfl⟩⟩
    · -- the size is committed, so the end fits if the regions are apart with it
      obtain ⟨hend, hbehind⟩ := (hap.resize_iff hr hn).1 (h.apart rfl)
      refine ⟨hend, fun heq a ha => ?_⟩
      by_contra hgt
      have := hbehind a ha (Nat.not_le.1 hgt)
      have := hap.pos a ha
      have := hap.le a ha
      omega
    · refine (hap.resize_iff hr hn).2 ⟨hfit.1, fun a ha hgt => ?_⟩
      by_contra hin
      exact hnone a ha ((inTheWay_iff hfit ha).2 ⟨hgt, Nat.not_le.1 hin⟩)

/-- Two regions: the first megabyte, and one at `0x200000`. -/
def twoRegions : RegionMem := fun a =>
  if a = 4096 then ⟨4096, 4116, 1, 0, 0x21, 0, 0x100000⟩
    else ⟨4096, 0, 1, 1, 0x21, 0x200000, 0x100000⟩

theorem visits_twoRegions : Visits (fun a => (twoRegions a).next) 4096 [4096, 4116] :=
  ⟨rfl, by decide, rfl, by decide, rfl⟩

theorem regionsApart_twoRegions : RegionsApart twoRegions [4096, 4116] := by
  refine ⟨by decide, by decide, ?_⟩
  have hdisj : Disjoint (twoRegions 4096).range (twoRegions 4116).range :=
    (disjoint_ico_iff (by decide) (by decide)).2 (by decide)
  intro a ha b hb hne
  simp only [List.mem_cons, List.not_mem_nil, or_false] at ha hb
  rcases ha with rfl | rfl <;> rcases hb with rfl | rfl
  · exact absurd rfl hne
  · exact hdisj
  · exact hdisj.symm
  · exact absurd rfl hne

/-- The first region may grow to two megabytes. -/
theorem memresize_iff_twoRegions : ∃ res, memresize twoRegions 4096 4096 0x200000 = some res ∧
    Resizes twoRegions [4096, 4116] 4096 0x200000 res := by
  obtain ⟨res, hres, hiff⟩ := memresize_iff visits_twoRegions (by decide) regionsApart_twoRegions
    (show 4096 ∈ [4096, 4116] by decide) (show 0 < 0x200000 by decide) (by decide)
  exact ⟨res, hres, hiff.2 ⟨by decide, by decide⟩⟩

/-- The second region may grow to `0xFFE00001` bytes, whose end wraps to 1. -/
theorem memresize_wraps : ¬∀ (m : RegionMem) (head r n : ℕ) (ns : List ℕ) (res : ℕ × RegionMem),
    Visits (fun a => (m a).next) head ns → (∀ a ∈ ns, a < 4294967296) → RegionsApart m ns →
    r ∈ ns → 0 < n → n < 4294967296 → memresize m head r n = some res → Resizes m ns r n res := by
  intro h
  have hsound := h _ _ _ _ _ _ visits_twoRegions (by decide) regionsApart_twoRegions
    (show 4116 ∈ [4096, 4116] by decide) (show 0 < 0xFFE00001 by decide) (by decide) rfl
  exact absurd ((hsound.apart rfl).le 4116 (by decide)) (by decide)

end Beryllium

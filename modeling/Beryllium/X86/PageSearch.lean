import Beryllium.X86.Dealloc

/-!
# The search for pages in C's arithmetic

The loop of `memory_mult_alloc_pages` on words of 32 bits, as `kernel/arch/x86/memory.c` has it:
`i`, `j`, `pos`, `block` and `pages` are `int`, the number of frames and `mem_lastpage` are
`uint32_t`. The body changes `i` as well, by `pages - 2` where the run does not fit and by `j` where
a frame is in use.

While the number of frames is below `2 ^ 30` nothing wraps that decides where the loop goes: it does
what `searchBlock` does (`pageSearch_eq`), where `i` gets larger in each round
(`searchBlock_returns`). A run that does not fit has two pages or more, so that `pages - 2` is not
negative.
-/

namespace Beryllium

open Machine

/-- The loop over `j`, from `j` on: the first byte of the run at `pos` whose frame is in use. -/
def testPages (pa : PageAllocator) (pos pages : BitVec 32) :
    ℕ → BitVec 32 → Option (Option (BitVec 32))
  | 0, _ => none
  | fuel + 1, j =>
    if j.slt pages then
      -- `INDEX_FROM_BIT(pos + j)` expands to `(pos + j / 0x20)`
      if paTestFrame pa (pos + j.sdiv 0x20#32).toNat ≠ 0#32 then some (some j)
      else testPages pa pos pages fuel (j + 1#32)
    else some none

/-- The loop over `i`, from `i` on: the value of `block` behind it. -/
def pageSearch (s : Memory) (pages : BitVec 32) : ℕ → BitVec 32 → BitVec 32 → Option (BitVec 32)
  | 0, _, _ => none
  | fuel + 1, i, block =>
    let amount := BitVec.ofNat 32 s.paging.pa.frameAmount
    if i.ult amount then
      let pos := (i + BitVec.ofNat 32 s.memLastpage) % amount
      if amount.ult (pos + pages) then pageSearch s pages fuel (i + (pages - 2#32) + 1#32) block
      else
        match testPages s.paging.pa pos pages fuel 0#32 with
        | none => none
        | some none => if pos ≠ -1#32 then some pos else pageSearch s pages fuel (i + 1#32) pos
        | some (some j) => pageSearch s pages fuel (i + j + 1#32) (-1#32)
    else some block

variable {s : Memory} {pa : PageAllocator} {pos i j k n fuel : ℕ} {pages : BitVec 32}

/-! ## Words -/

theorem toNat_ofNat32 (h : n < 4294967296) : (BitVec.ofNat 32 n).toNat = n :=
  (BitVec.toNat_ofNat n 32).trans (Nat.mod_eq_of_lt h)

theorem toInt_ofNat32 (h : n < 2147483648) : (BitVec.ofNat 32 n).toInt = n := by
  have hn := toNat_ofNat32 (h.trans (by decide))
  rw [BitVec.toInt_eq_toNat_of_lt (by omega), hn]

theorem slt_ofNat32 (hj : j < 2147483648) (hk : k < 2147483648) :
    (BitVec.ofNat 32 j).slt (BitVec.ofNat 32 k) = true ↔ j < k := by
  rw [BitVec.slt_iff_toInt_lt, toInt_ofNat32 hj, toInt_ofNat32 hk, Int.ofNat_lt]

theorem ult_ofNat32 (hj : j < 4294967296) (hk : k < 4294967296) :
    (BitVec.ofNat 32 j).ult (BitVec.ofNat 32 k) = true ↔ j < k := by
  rw [BitVec.ult_iff_toNat_lt, toNat_ofNat32 hj, toNat_ofNat32 hk]

theorem sdiv_ofNat32 (hj : j < 2147483648) :
    (BitVec.ofNat 32 j).sdiv 0x20#32 = BitVec.ofNat 32 (j / 0x20) := by
  have hmsb : (BitVec.ofNat 32 j).msb = false := by
    rw [BitVec.msb_eq_false_iff_two_mul_lt, toNat_ofNat32 (hj.trans (by decide))]
    omega
  have hdiv : (BitVec.ofNat 32 j).sdiv 0x20#32 = BitVec.ofNat 32 j / 0x20#32 := by
    rw [BitVec.sdiv_eq, hmsb]
    rfl
  refine BitVec.eq_of_toNat_eq ?_
  rw [hdiv, BitVec.toNat_udiv, toNat_ofNat32 (hj.trans (by decide)),
    toNat_ofNat32 (n := j / 0x20) (by omega)]
  rfl

/-- What a run that does not fit adds to `i`. -/
theorem skip_ofNat32 (hk : 0 < k) :
    BitVec.ofNat 32 i + (BitVec.ofNat 32 k - 2#32) + 1#32 = BitVec.ofNat 32 (i + k - 1) := by
  refine BitVec.eq_of_toNat_eq ?_
  simp only [BitVec.toNat_add, BitVec.toNat_sub, BitVec.toNat_ofNat]
  omega

/-! ## The two loops -/

/-- The loop over `j` is a bounded search. -/
theorem testPages_eq (hfit : pos + k < 2147483648) (hj : j + n = k) (hfuel : n < fuel) :
    testPages pa (BitVec.ofNat 32 pos) (BitVec.ofNat 32 k) fuel (BitVec.ofNat 32 j) =
      some ((firstFrom (fun j => if paTestFrame pa (pos + j / 0x20) ≠ 0#32 then some j
        else none) n j).map
        (BitVec.ofNat 32)) := by
  induction fuel generalizing j n with
  | zero => exact absurd hfuel (Nat.not_lt_zero n)
  | succ fuel ih =>
    rw [testPages]
    cases n with
    | zero =>
      rw [if_neg (by rw [slt_ofNat32 (by omega) (by omega)]; omega)]
      rfl
    | succ n =>
      have hpos : (BitVec.ofNat 32 pos + (BitVec.ofNat 32 j).sdiv 0x20#32).toNat =
        pos + j / 0x20 := by
        rw [sdiv_ofNat32 (by omega), ← BitVec.ofNat_add, toNat_ofNat32 (by omega)]
      rw [if_pos ((slt_ofNat32 (by omega) (by omega)).2 (by omega)), hpos, firstFrom]
      split_ifs with hused
      · rfl
      · rw [← BitVec.ofNat_add, ih (n := n) (by omega) (by omega), Option.none_or]

/-- The position is the same in both. -/
theorem pos_ofNat32 (hlt : s.paging.pa.frameAmount < 4294967296) :
    (BitVec.ofNat 32 i + BitVec.ofNat 32 s.memLastpage) % BitVec.ofNat 32 s.paging.pa.frameAmount =
      BitVec.ofNat 32 (searchPos s i) := by
  refine BitVec.eq_of_toNat_eq ?_
  have hle : searchPos s i ≤ add32 i s.memLastpage := Nat.mod_le _ _
  have hadd := add32_lt i s.memLastpage
  rw [BitVec.toNat_umod, ← BitVec.ofNat_add, BitVec.toNat_ofNat, toNat_ofNat32 hlt,
    toNat_ofNat32 (by omega)]
  rfl

/-- The loop over `i` on words does what `searchBlock` does. -/
theorem pageSearch_eq (h₀ : 0 < s.paging.pa.frameAmount)
    (hlt : s.paging.pa.frameAmount < 1073741824)
    (hk : 0 < k) (hk' : k < 2147483648) (hi : i < 4294967296)
    (hfuel : s.paging.pa.frameAmount + (s.paging.pa.frameAmount - i) + 1 < fuel) :
    pageSearch s (BitVec.ofNat 32 k) fuel (BitVec.ofNat 32 i) (-1#32) =
      (searchBlock s k fuel i).map fun block => block.elim (-1#32) (BitVec.ofNat 32) := by
  induction fuel generalizing i with
  | zero => exact absurd hfuel (Nat.not_lt_zero _)
  | succ fuel ih =>
    have hpos : searchPos s i < s.paging.pa.frameAmount := Nat.mod_lt _ h₀
    rw [pageSearch, searchBlock]
    dsimp only
    rw [pos_ofNat32 (by omega)]
    by_cases hia : i < s.paging.pa.frameAmount
    · rw [if_pos ((ult_ofNat32 hi (by omega)).2 hia), if_pos hia, ← BitVec.ofNat_add]
      by_cases hfit : s.paging.pa.frameAmount < searchPos s i + k
      · -- here `k` is not 1, so that `i` gets larger
        rw [if_pos ((ult_ofNat32 (by omega) (by omega)).2 hfit), if_pos hfit, skip_ofNat32 hk,
          ih (by omega) (by omega)]
      · rw [if_neg (mt (ult_ofNat32 (by omega) (by omega)).1 hfit), if_neg hfit,
          testPages_eq (by omega) (Nat.zero_add k) (by omega)]
        cases hfirst : firstFrom (fun j => if paTestFrame s.paging.pa
          (searchPos s i + j / 0x20) ≠ 0#32 then some j else none) k 0 with
        | none =>
          have hne : BitVec.ofNat 32 (searchPos s i) ≠ -1#32 := by
            intro heq
            have hnat : (BitVec.ofNat 32 (searchPos s i)).toNat = 4294967295 :=
              congrArg BitVec.toNat heq
            rw [toNat_ofNat32 (by omega)] at hnat
            omega
          exact if_pos hne
        | some j =>
          obtain ⟨j', -, hj', hsome, -⟩ := firstFrom_eq_some hfirst
          have hjk : j < k := by
            split_ifs at hsome
            obtain rfl := Option.some.inj hsome
            omega
          dsimp only [Option.map_some]
          rw [← BitVec.ofNat_add, ← BitVec.ofNat_add, ih (by omega) (by omega)]
    · rw [if_neg (mt (ult_ofNat32 hi (by omega)).1 hia), if_neg hia]
      rfl

/-- What a round does: `i` gets larger, or the run at the position is the block. -/
theorem searchBlock_round (hi : i < s.paging.pa.frameAmount) :
    (∃ i', i < i' ∧ ∀ fuel, searchBlock s k (fuel + 1) i = searchBlock s k fuel i') ∨
      ∀ fuel, searchBlock s k (fuel + 1) i = some (some (searchPos s i)) := by
  have hpos : searchPos s i < s.paging.pa.frameAmount := Nat.mod_lt _ (Nat.zero_lt_of_lt hi)
  by_cases hfit : s.paging.pa.frameAmount < searchPos s i + k
  · refine .inl ⟨i + k - 1, by omega, fun fuel => ?_⟩
    rw [searchBlock, if_pos hi]
    exact if_pos hfit
  · cases hfirst : firstFrom (fun j => if paTestFrame s.paging.pa (searchPos s i + j / 0x20) ≠ 0#32
      then some j else none) k 0 with
    | some j =>
      refine .inl ⟨i + j + 1, by omega, fun fuel => ?_⟩
      rw [searchBlock, if_pos hi]
      dsimp only
      rw [if_neg hfit, hfirst]
    | none =>
      refine .inr fun fuel => ?_
      rw [searchBlock, if_pos hi]
      dsimp only
      rw [if_neg hfit, hfirst]

/-- The search returns, since `i` gets larger in each round. -/
theorem searchBlock_returns (s : Memory) (k i : ℕ) :
    ∃ block, ∀ fuel, s.paging.pa.frameAmount - i < fuel → searchBlock s k fuel i = some block := by
  induction hn : s.paging.pa.frameAmount - i using Nat.strongRecOn generalizing i with
  | ind n ih =>
    suffices h : ∃ block, ∀ fuel, n ≤ fuel → searchBlock s k (fuel + 1) i = some block by
      obtain ⟨block, hblock⟩ := h
      refine ⟨block, fun fuel hfuel => ?_⟩
      cases fuel with
      | zero => exact absurd hfuel (Nat.not_lt_zero n)
      | succ fuel => exact hblock fuel (Nat.lt_succ_iff.1 hfuel)
    by_cases hi : i < s.paging.pa.frameAmount
    · rcases searchBlock_round (k := k) hi with ⟨i', hlt, hround⟩ | hround
      · obtain ⟨block, hblock⟩ := ih (s.paging.pa.frameAmount - i') (by omega) i' rfl
        exact ⟨block, fun fuel hfuel => (hround fuel).trans (hblock fuel (by omega))⟩
      · exact ⟨some (searchPos s i), fun fuel _ => hround fuel⟩
    · refine ⟨none, fun fuel _ => ?_⟩
      rw [searchBlock, if_neg hi]

/-- The search of `memory_mult_alloc_pages` returns, and its block fits below the number of frames.
    -/
theorem pageSearch_terminates (h₀ : 0 < s.paging.pa.frameAmount)
    (hlt : s.paging.pa.frameAmount < 2 ^ 30) (hpages : 1 ≤ pages.toInt) :
    ∃ block, (∀ fuel, 2 * s.paging.pa.frameAmount + 1 < fuel →
        pageSearch s pages fuel 0#32 (-1#32) = some block) ∧
      (block ≠ -1#32 → 0 ≤ block.toInt ∧ block.toInt + pages.toInt ≤ s.paging.pa.frameAmount) := by
  obtain ⟨k, rfl, hk⟩ : ∃ k, pages = BitVec.ofNat 32 k ∧ k < 2147483648 := by
    refine ⟨pages.toNat, (BitVec.ofNat_toNat 32 pages).symm, ?_⟩
    rw [BitVec.toInt_eq_toNat_cond] at hpages
    split_ifs at hpages
    · omega
    · have hlt := pages.isLt
      omega
  rw [toInt_ofNat32 hk] at hpages ⊢
  obtain ⟨block, hblock⟩ := searchBlock_returns s k 0
  have heq : ∀ fuel, 2 * s.paging.pa.frameAmount + 1 < fuel →
      pageSearch s (BitVec.ofNat 32 k) fuel 0#32 (-1#32) =
        some (block.elim (-1#32) (BitVec.ofNat 32)) := by
    intro fuel hfuel
    rw [pageSearch_eq h₀ hlt (by omega) hk (by decide) (by omega), hblock fuel (by omega),
      Option.map_some]
  refine ⟨_, heq, fun hne => ?_⟩
  cases block with
  | none => exact absurd rfl hne
  | some n =>
    have hle := le_of_searchBlock (hblock _ (Nat.lt_succ_self _))
    rw [Option.elim_some, toInt_ofNat32 (by omega)]
    omega

/-- The first page after a boot. -/
theorem pageSearch_terminates_boot :
    ∃ block, (∀ fuel, 2 * 0x3C00000 + 1 < fuel →
        pageSearch (memoryInit (initPageAllocator (coldBoot 0x100000))) 1#32 fuel 0#32
        (-1#32) = some block) ∧
      (block ≠ -1#32 → 0 ≤ block.toInt ∧ block.toInt + 1 ≤ 0x3C00000) :=
  pageSearch_terminates (s := memoryInit (initPageAllocator (coldBoot 0x100000))) (by decide)
    (by decide) (by decide)

end Beryllium

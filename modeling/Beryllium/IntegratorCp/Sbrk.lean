import Beryllium.IntegratorCp.Memory
import Mathlib.Data.Set.BooleanAlgebra
import Mathlib.Order.CompletePartialOrder

/-!
# What `sbrk` reserves

`sbrk` of `kernel/arch/arm/integrator-cp/memory.c` divides the amount by the size of a page
and drops the rest, unless nothing is left of it. So a call moves the break by the amount
or more exactly for the amounts below a page and for whole pages (`le_reserved_iff`), and
while the break does not wrap.

`sbrk_reserves_iff`: this is what it takes for a sequence of calls to return ranges that are
disjoint and lie below the break.
-/

namespace Beryllium

open Machine

namespace IntegratorCp

/-- The ranges that a sequence of calls returns, each an address and the amount asked for, and
    the break after them; `none` if a call panics. -/
def sbrks (memAllocateStarting : ℕ) : List ℕ → Option (List (ℕ × ℕ) × ℕ)
  | [] => some ([], memAllocateStarting)
  | amount :: amounts => do
    let r ← sbrk memAllocateStarting amount
    let rs ← sbrks r.2 amounts
    return ((r.1, amount) :: rs.1, rs.2)

/-- The addresses of a range. -/
def range (r : ℕ × ℕ) : Set ℕ := Set.Ico r.1 (r.1 + r.2)

/-- Every call returns the break there is, and moves it by at least what it is asked for. -/
def Moves (brk : ℕ) (amounts : List ℕ) : Prop :=
  ∀ pre a post, amounts = pre ++ a :: post →
    ∃ rs b b', sbrks brk pre = some (rs, b) ∧ sbrk b a = some (b, b') ∧ b + a ≤ b'

/-- What `sbrk` is for: the ranges returned are pairwise disjoint, and below `sbrk(0)`. -/
structure Reserves (brk : ℕ) (amounts : List ℕ) : Prop where
  moves : Moves brk amounts
  apart : ∃ rs b top, sbrks brk amounts = some (rs, b) ∧ sbrk b 0 = some (top, b) ∧
    rs.Pairwise (fun r r' => Disjoint (range r) (range r')) ∧ ∀ r ∈ rs, r.1 + r.2 ≤ top

/-- The pages that hold `a` bytes. -/
def pagesFor (a : ℕ) : ℕ := (a + pageSize - 1) / pageSize

/-- No amount has a rest when it is divided into pages, unless it is below a page, and the
    break does not wrap when every amount gets the pages it needs. -/
def WholePages (brk : ℕ) (amounts : List ℕ) : Prop :=
  (∀ a ∈ amounts, a < pageSize ∨ pageSize ∣ a) ∧
  brk + (amounts.map pagesFor).sum * pageSize < 4294967296

variable {brk a : ℕ} {amounts : List ℕ}

/-! ## One call -/

/-- The bytes of the pages that `sbrk(a)` takes. -/
def reserved (a : ℕ) : ℕ := (if a / pageSize = 0 then a / pageSize + 1 else a / pageSize) * pageSize

theorem reserved_lt (ha : a < 4294967296) : reserved a < 4294967296 := by
  have h₄ : pageSize = 4096 := rfl
  rw [reserved, h₄]
  split_ifs <;> omega

theorem sbrk_eq_reserved (hb : brk ≠ 0) (ha : 0 < a) (hlt : a < 4294967296) :
    sbrk brk a = some (brk, add32 brk (reserved a)) := by
  have hr := reserved_lt hlt
  rw [reserved] at hr ⊢
  rw [sbrk, if_neg ha.ne', ← show pageSize = 0x1000 from rfl]
  dsimp only
  generalize hk : (if a / pageSize = 0 then a / pageSize + 1 else a / pageSize) = k at hr ⊢
  have hpos : ¬(k : ℤ) ≤ 0 := by
    split_ifs at hk <;> omega
  rw [memallocp, if_neg hpos, Int.toNat_natCast, memoryMultAllocPages,
    ← show pageSize = 0x1000 from rfl, mul32_eq hr]
  exact if_neg hb

/-- The rest of the division is lost, unless the quotient is 0. -/
theorem le_reserved_iff (ha : 0 < a) : a ≤ reserved a ↔ a < pageSize ∨ pageSize ∣ a := by
  have h₄ : pageSize = 4096 := rfl
  rw [reserved, h₄]
  split_ifs <;> omega

theorem reserved_eq (ha : 0 < a) (h : a < pageSize ∨ pageSize ∣ a) :
    reserved a = pagesFor a * pageSize := by
  have h₄ : pageSize = 4096 := rfl
  rw [h₄] at h
  rw [reserved, pagesFor, h₄]
  split_ifs <;> omega

/-- The break moves by the amount exactly if no rest is lost and the break does not wrap. -/
theorem le_add32_reserved_iff (hb : brk < 4294967296) (ha : 0 < a) (hlt : a < 4294967296) :
    brk + a ≤ add32 brk (reserved a) ↔
      (a < pageSize ∨ pageSize ∣ a) ∧ brk + pagesFor a * pageSize < 4294967296 := by
  rw [← le_reserved_iff ha]
  constructor
  · intro h
    have hr := reserved_lt hlt
    have hwrap : brk + reserved a < 4294967296 := by
      -- a break that wraps ends below where it was
      by_contra hge
      have : add32 brk (reserved a) = brk + reserved a - 4294967296 := by
        rw [add32]
        omega
      omega
    rw [add32_eq hwrap] at h
    have hle : a ≤ reserved a := by omega
    exact ⟨hle, reserved_eq ha ((le_reserved_iff ha).1 hle) ▸ hwrap⟩
  · rintro ⟨hle, hwrap⟩
    rw [← reserved_eq ha ((le_reserved_iff ha).1 hle)] at hwrap
    rw [add32_eq hwrap]
    omega

/-! ## Sequences of calls -/

/-- The first call, and the calls from the break that it leaves. -/
theorem moves_cons (hb : brk ≠ 0) (ha : 0 < a) (hlt : a < 4294967296) :
    Moves brk (a :: amounts) ↔
      brk + a ≤ add32 brk (reserved a) ∧ Moves (add32 brk (reserved a)) amounts := by
  have hcall := sbrk_eq_reserved hb ha hlt
  constructor
  · intro h
    obtain ⟨rs, b, b', hnil, hsbrk, hle⟩ := h [] a amounts rfl
    cases hnil
    rw [hcall] at hsbrk
    cases hsbrk
    refine ⟨hle, fun pre x post hpost => ?_⟩
    obtain ⟨rs, b, b', hpre, hrest⟩ := h (a :: pre) x post (congrArg (a :: ·) hpost)
    rw [sbrks, hcall] at hpre
    simp only [Option.bind_eq_bind, Option.bind_some] at hpre
    obtain ⟨p, hp, heq⟩ := Option.bind_eq_some_iff.1 hpre
    obtain rfl : p.2 = b := (Prod.mk.inj (Option.some.inj heq)).2
    exact ⟨p.1, p.2, b', hp, hrest⟩
  · rintro ⟨hle, h⟩ pre x post hpost
    cases pre with
    | nil =>
      obtain ⟨rfl, -⟩ := List.cons.inj hpost
      exact ⟨[], brk, _, rfl, hcall, hle⟩
    | cons y pre =>
      obtain ⟨rfl, htail⟩ := List.cons.inj hpost
      obtain ⟨rs, b, b', hpre, hrest⟩ := h pre x post htail
      refine ⟨(brk, a) :: rs, b, b', ?_, hrest⟩
      rw [sbrks, hcall]
      simp only [Option.bind_eq_bind, Option.bind_some, hpre, Option.pure_def]

theorem wholePages_cons : WholePages brk (a :: amounts) ↔
    ((a < pageSize ∨ pageSize ∣ a) ∧ brk + pagesFor a * pageSize < 4294967296) ∧
    WholePages (brk + pagesFor a * pageSize) amounts := by
  rw [WholePages, WholePages, List.forall_mem_cons, List.map_cons, List.sum_cons, Nat.add_mul,
    ← Nat.add_assoc]
  exact ⟨fun h => ⟨⟨h.1.1, by omega⟩, h.1.2, h.2⟩, fun h => ⟨⟨h.1.1, h.2.1⟩, h.2.2⟩⟩

/-- By induction on the calls: each starts from the break the last one left. -/
theorem moves_iff (hb : brk ≠ 0) (hlt : brk < 4294967296)
    (ha : ∀ a ∈ amounts, 0 < a ∧ a < 4294967296) : Moves brk amounts ↔ WholePages brk amounts := by
  induction amounts generalizing brk with
  | nil =>
    refine iff_of_true (fun pre a post h => ?_) ⟨fun a h => absurd h List.not_mem_nil, hlt⟩
    cases pre <;> cases h
  | cons a amounts ih =>
    obtain ⟨⟨hpos, ha'⟩, ha⟩ := List.forall_mem_cons.1 ha
    rw [moves_cons hb hpos ha', wholePages_cons, le_add32_reserved_iff hlt hpos ha']
    refine and_congr_right fun ⟨hwhole, hwrap⟩ => ?_
    rw [← reserved_eq hpos hwhole] at hwrap ⊢
    rw [add32_eq hwrap]
    exact ih (by omega) hwrap ha

/-- Calls that move the break as they should return ranges one above the other. -/
theorem Moves.sorted (hb : brk ≠ 0) (ha : ∀ a ∈ amounts, 0 < a ∧ a < 4294967296)
    (h : Moves brk amounts) : ∃ rs b, sbrks brk amounts = some (rs, b) ∧
      rs.Pairwise (fun r r' => r.1 + r.2 ≤ r'.1) ∧ ∀ r ∈ rs, brk ≤ r.1 ∧ r.1 + r.2 ≤ b := by
  suffices ∃ rs b, sbrks brk amounts = some (rs, b) ∧ brk ≤ b ∧
      rs.Pairwise (fun r r' => r.1 + r.2 ≤ r'.1) ∧ ∀ r ∈ rs, brk ≤ r.1 ∧ r.1 + r.2 ≤ b by
    obtain ⟨rs, b, hrs, -, h⟩ := this
    exact ⟨rs, b, hrs, h⟩
  induction amounts generalizing brk with
  | nil => exact ⟨[], brk, rfl, le_rfl, .nil, fun r hr => absurd hr List.not_mem_nil⟩
  | cons a amounts ih =>
    obtain ⟨⟨hpos, hlt⟩, ha⟩ := List.forall_mem_cons.1 ha
    obtain ⟨hle, hrest⟩ := (moves_cons hb hpos hlt).1 h
    obtain ⟨rs, b, hrs, hbrk, hsorted, hmem⟩ := ih (by omega) ha hrest
    refine ⟨(brk, a) :: rs, b, ?_, by omega, ?_, ?_⟩
    · rw [sbrks, sbrk_eq_reserved hb hpos hlt]
      simp only [Option.bind_eq_bind, Option.bind_some, hrs, Option.pure_def]
    · exact List.pairwise_cons.2 ⟨fun r hr => hle.trans (hmem r hr).1, hsorted⟩
    · refine List.forall_mem_cons.2 ⟨⟨le_rfl, hle.trans hbrk⟩, fun r hr => ?_⟩
      obtain ⟨hlow, hhigh⟩ := hmem r hr
      exact ⟨by omega, hhigh⟩

/-- A sequence of calls of `sbrk` reserves what it asks for exactly if it asks for whole pages
    or less than a page each time, and the pages fit below the end of memory. -/
theorem sbrk_reserves_iff (hb : brk ≠ 0) (hlt : brk < 4294967296)
    (ha : ∀ a ∈ amounts, 0 < a ∧ a < 4294967296) :
    Reserves brk amounts ↔ WholePages brk amounts := by
  rw [← moves_iff hb hlt ha]
  refine ⟨Reserves.moves, fun h => ⟨h, ?_⟩⟩
  obtain ⟨rs, b, hrs, hsorted, hmem⟩ := h.sorted hb ha
  refine ⟨rs, b, b, hrs, rfl, hsorted.imp fun {r r'} hle => ?_, fun r hr => (hmem r hr).2⟩
  refine Set.disjoint_left.2 fun x hx hx' => ?_
  exact absurd (hle.trans hx'.1) (Nat.not_le.2 hx.2)

/-- Four bytes, two pages and one page, from the boot on. -/
theorem sbrk_reserves_boot : Reserves memAllocateStart [4, 0x2000, 0x1000] :=
  (sbrk_reserves_iff (by decide) (by decide) (by decide)).2 ⟨by decide, by decide⟩

/-- One byte more than a page gets one page. -/
theorem sbrk_drops_rest : ¬∀ amounts : List ℕ, (∀ a ∈ amounts, 0 < a) → amounts.sum < 2 ^ 31 →
    Reserves memAllocateStart amounts := by
  intro h
  obtain ⟨rs, b, b', hnil, hsbrk, hle⟩ :=
    (h [0x1001] (by decide) (by decide)).moves [] 0x1001 [] rfl
  cases hnil
  have hb' : sbrk memAllocateStart 0x1001 = some (memAllocateStart, 0x11000) := by decide
  rw [hb'] at hsbrk
  cases hsbrk
  revert hle
  decide

end IntegratorCp

end Beryllium

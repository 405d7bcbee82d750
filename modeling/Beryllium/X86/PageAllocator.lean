import Beryllium.Machine.Memory
import Beryllium.Machine.Search

/-!
# The page allocator

The frame bitmap of `kernel/arch/x86/page_allocator.c`: one bit for each 4 KB frame
of physical memory, set if the frame is in use. `pa_alloc_frame` gives the first
free frame to a page entry, `pa_free_frame` is meant to take it back.

* `used_paSetFrame`, `used_paClearFrame`: what the two do to each bit;
* `paFirstFrame_cases`: `pa_first_frame` finds the first clear bit, if any;
* `paAllocFrame_cases`: what a call of `pa_alloc_frame` can do.

A call that stops the processor (`cli; hlt`) answers `none`.
-/

namespace Beryllium

open Machine

/-- A page entry (`page_t`), with the bits the allocator sets. -/
structure PageT where
  present : Bool
  rw : Bool
  user : Bool
  frame : ℕ
  deriving DecidableEq

/-- A zeroed page entry. -/
def PageT.zero : PageT := ⟨false, false, false, 0⟩

/-- The globals `frame`, the bitmap in words of 32 bits, and `frame_amount`. -/
structure PageAllocator where
  frame : ℕ → BitVec 32
  frameAmount : ℕ

/-- `(uint32_t)-1`, the answer of `pa_first_frame` when no frame is free. -/
def noFrame : ℕ := 4294967295

variable (s : PageAllocator) (address : ℕ)

/-- `pa_set_frame` -/
def paSetFrame : PageAllocator :=
  let frameAddr := address / 0x1000
  let index := frameAddr / 0x20
  let offset := frameAddr % 0x20
  { s with frame := Function.update s.frame index (s.frame index ||| 1#32 <<< offset) }

/-- `pa_clear_frame` -/
def paClearFrame : PageAllocator :=
  let frameAddr := address / 0x1000
  let index := frameAddr / 0x20
  let offset := frameAddr % 0x20
  { s with frame := Function.update s.frame index (s.frame index &&& ~~~(1#32 <<< offset)) }

/-- `pa_test_frame` -/
def paTestFrame : BitVec 32 :=
  let frameAddr := address / 0x1000
  let index := frameAddr / 0x20
  let offset := frameAddr % 0x20
  s.frame index &&& 1#32 <<< offset

/-- The body of the outer loop of `pa_first_frame`: the first clear bit of the word `i`. -/
def scanWord (i : ℕ) : Option ℕ :=
  if s.frame i ≠ 0xFFFFFFFF#32 then
    firstFrom (fun j => if s.frame i &&& 1#32 <<< j = 0#32 then some (i * 0x20 + j) else none) 32 0
  else none

/-- `pa_first_frame` -/
def paFirstFrame : ℕ := (firstFrom (scanWord s) (s.frameAmount / 0x20) 0).getD noFrame

/-- `pa_alloc_frame` -/
def paAllocFrame (page : PageT) (kernel rw : ℤ) : Option (PageAllocator × PageT) :=
  if kernel > 1 then some (s, page)
  else if page.frame ≠ 0 then some (s, page)
  else
    let index := paFirstFrame s
    if index = noFrame then none
    else some (paSetFrame s (mul32 index 0x1000),
      -- the frame field has 20 bits
      ⟨true, decide (rw ≠ 0), decide (kernel = 0), index % 0x100000⟩)

/-- `pa_free_frame` -/
def paFreeFrame (page : PageT) : PageAllocator × PageT :=
  let ftf := page.frame
  if ftf = 0 then (s, page) else (paClearFrame s ftf, { page with frame := 0 })

/-! ## The bits -/

/-- The bit of the frame `f` is set. -/
def Used (f : ℕ) : Prop := (s.frame (f / 0x20)).getLsbD (f % 0x20) = true

instance (f : ℕ) : Decidable (Used s f) := inferInstanceAs (Decidable (_ = true))

variable {s address} {f : ℕ}

theorem getLsbD_mask {o i : ℕ} (hi : i < 32) : (1#32 <<< o).getLsbD i = decide (i = o) := by
  rw [BitVec.getLsbD_shiftLeft, BitVec.getLsbD_one, Bool.eq_iff_iff]
  simp only [Bool.and_eq_true, decide_eq_true_eq, Bool.not_eq_true', decide_eq_false_iff_not]
  omega

theorem and_mask_eq_zero {x : BitVec 32} {o : ℕ} (ho : o < 32) :
    x &&& 1#32 <<< o = 0#32 ↔ x.getLsbD o = false := by
  refine ⟨fun h => ?_, fun h => BitVec.eq_of_getLsbD_eq fun i hi => ?_⟩
  · have := congrArg (fun y => y.getLsbD o) h
    simpa [getLsbD_mask ho] using this
  · rw [BitVec.getLsbD_and, getLsbD_mask hi, BitVec.getLsbD_zero]
    by_cases hio : i = o
    · rw [hio, h, Bool.false_and]
    · rw [decide_eq_false hio, Bool.and_false]

theorem frame_eq_iff {f g : ℕ} : f = g ↔ f / 0x20 = g / 0x20 ∧ f % 0x20 = g % 0x20 := by
  omega

theorem used_paSetFrame : Used (paSetFrame s address) f ↔ f = address / 0x1000 ∨ Used s f := by
  rw [frame_eq_iff, Used, Used]
  simp only [paSetFrame, Function.update_apply]
  split_ifs with h
  · rw [BitVec.getLsbD_or, getLsbD_mask (Nat.mod_lt _ (by decide)), h]
    simp [or_comm]
  · simp [h]

theorem used_paClearFrame :
    Used (paClearFrame s address) f ↔ f ≠ address / 0x1000 ∧ Used s f := by
  rw [ne_eq, frame_eq_iff, Used, Used]
  simp only [paClearFrame, Function.update_apply]
  have hlt : f % 0x20 < 32 := Nat.mod_lt _ (by decide)
  split_ifs with h
  · rw [BitVec.getLsbD_and, BitVec.getLsbD_not, getLsbD_mask hlt, h]
    simp [hlt, and_comm]
  · simp [h]

theorem paTestFrame_ne_zero : paTestFrame s address ≠ 0#32 ↔ Used s (address / 0x1000) := by
  rw [paTestFrame, ne_eq, and_mask_eq_zero (Nat.mod_lt _ (by decide)), Bool.not_eq_false, Used]

/-! ## The first free frame -/

theorem scanWord_eq_some {i : ℕ} (h : scanWord s i = some f) :
    f / 0x20 = i ∧ ¬Used s f ∧ ∀ g, g / 0x20 = i → g < f → Used s g := by
  rw [scanWord] at h
  split_ifs at h
  obtain ⟨k, -, hk, hf, hmin⟩ := firstFrom_eq_some h
  split_ifs at hf with hbit
  obtain rfl : i * 0x20 + k = f := Option.some.inj hf
  have hdiv : (i * 0x20 + k) / 0x20 = i := by omega
  have hmod : (i * 0x20 + k) % 0x20 = k := by omega
  rw [and_mask_eq_zero (by omega)] at hbit
  refine ⟨hdiv, ?_, fun g hg hlt => ?_⟩
  · rw [Used, hdiv, hmod, hbit]
    exact Bool.false_ne_true
  · have hg' := hmin (g % 0x20) (Nat.zero_le _) (by omega)
    rw [ite_eq_right_iff, and_mask_eq_zero (by omega)] at hg'
    rw [Used, hg]
    exact (Bool.eq_false_or_eq_true _).resolve_right fun h => Option.some_ne_none _ (hg' h)

theorem scanWord_eq_none {i : ℕ} (h : scanWord s i = none) (hf : f / 0x20 = i) : Used s f := by
  have hlt : f % 0x20 < 32 := Nat.mod_lt _ (by decide)
  rw [Used, hf]
  rw [scanWord] at h
  split_ifs at h with hw
  · have := firstFrom_eq_none.1 h (f % 0x20) (Nat.zero_le _) (by omega)
    rw [ite_eq_right_iff, and_mask_eq_zero hlt] at this
    exact (Bool.eq_false_or_eq_true _).resolve_right fun h => Option.some_ne_none _ (this h)
  · rw [not_not.1 hw, show 0xFFFFFFFF#32 = BitVec.allOnes 32 from rfl, BitVec.getLsbD_allOnes,
      decide_eq_true hlt]

/-- `pa_first_frame` finds the first clear bit, if there is one. -/
theorem paFirstFrame_cases (hs : s.frameAmount < 4294967296) :
    (paFirstFrame s < 32 * (s.frameAmount / 32) ∧ paFirstFrame s ≠ noFrame ∧
      ¬Used s (paFirstFrame s) ∧ ∀ g < paFirstFrame s, Used s g) ∨
    (paFirstFrame s = noFrame ∧ ∀ g < 32 * (s.frameAmount / 32), Used s g) := by
  rw [paFirstFrame]
  cases hf : firstFrom (scanWord s) (s.frameAmount / 0x20) 0 with
  | some f =>
    obtain ⟨i, -, hi, hi', hmin⟩ := firstFrom_eq_some hf
    obtain ⟨rfl, hfree, hbelow⟩ := scanWord_eq_some hi'
    have hne : f ≠ noFrame := by
      rw [noFrame]
      omega
    refine .inl ⟨?_, hne, hfree, fun g hg => ?_⟩
    · rw [Option.getD_some]
      omega
    · rcases (Nat.div_le_div_right (Nat.le_of_lt hg)).lt_or_eq with h | h
      · exact scanWord_eq_none (hmin _ (Nat.zero_le _) h) rfl
      · exact hbelow g h hg
  | none =>
    refine .inr ⟨rfl, fun g hg => scanWord_eq_none
      (firstFrom_eq_none.1 hf _ (Nat.zero_le _) ?_) rfl⟩
    omega

theorem not_used_paFirstFrame (hs : s.frameAmount < 4294967296) (h : paFirstFrame s ≠ noFrame) :
    ¬Used s (paFirstFrame s) := by
  rcases paFirstFrame_cases hs with ⟨-, -, hfree, -⟩ | ⟨hnone, -⟩
  · exact hfree
  · exact absurd hnone h

/-! ## Allocating a frame -/

/-- A call of `pa_alloc_frame` passes its two checks and takes a frame. -/
def Takes (page : PageT) (kernel : ℤ) : Prop := kernel ≤ 1 ∧ page.frame = 0

instance (page : PageT) (kernel : ℤ) : Decidable (Takes page kernel) :=
  inferInstanceAs (Decidable (_ ∧ _))

theorem paAllocFrame_cases {page : PageT} {kernel rw : ℤ} {r : PageAllocator × PageT}
    (h : paAllocFrame s page kernel rw = some r) :
    (¬Takes page kernel ∧ r = (s, page)) ∨
    (Takes page kernel ∧ paFirstFrame s ≠ noFrame ∧
      r = (paSetFrame s (mul32 (paFirstFrame s) 0x1000),
        ⟨true, decide (rw ≠ 0), decide (kernel = 0), paFirstFrame s % 0x100000⟩)) := by
  rw [paAllocFrame] at h
  by_cases hk : kernel > 1
  · rw [if_pos hk] at h
    exact .inl ⟨fun ht => absurd ht.1 (Int.not_le.2 hk), (Option.some.inj h).symm⟩
  by_cases hf : page.frame = 0
  · rw [if_neg hk, if_neg (not_not.2 hf)] at h
    by_cases hn : paFirstFrame s = noFrame
    · simp only [hn, if_true, reduceCtorEq] at h
    · simp only [hn, if_false, Option.some.injEq] at h
      exact .inr ⟨⟨Int.not_lt.1 hk, hf⟩, hn, h.symm⟩
  · rw [if_neg hk, if_pos hf] at h
    exact .inl ⟨fun ht => absurd ht.2 hf, (Option.some.inj h).symm⟩

/-- The byte address of a frame wraps at `2 ^ 32`, its number at `2 ^ 20`. -/
theorem mul32_div (i : ℕ) : mul32 i 0x1000 / 0x1000 = i % 0x100000 := by
  rw [mul32]
  omega

@[simp] theorem paSetFrame_frameAmount (s : PageAllocator) (a : ℕ) :
    (paSetFrame s a).frameAmount = s.frameAmount := rfl

@[simp] theorem paClearFrame_frameAmount (s : PageAllocator) (a : ℕ) :
    (paClearFrame s a).frameAmount = s.frameAmount := rfl

end Beryllium

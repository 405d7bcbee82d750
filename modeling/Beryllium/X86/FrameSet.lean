import Beryllium.X86.PageAllocator
import Mathlib.Data.Set.Insert

/-!
# The frame bitmap as a set

What the bitmap of `kernel/arch/x86/page_allocator.c` is for: the set of the frames
in use (`usedFrames`). `pa_set_frame` puts the frame of an address into it,
`pa_clear_frame` takes it out, `pa_test_frame` asks for it, and `pa_first_frame`
gives the least frame that the scanned words leave out (`IsFirstFree`).
-/

namespace Beryllium

open Machine

/-- The frames whose bit is set. -/
def usedFrames (s : PageAllocator) : Set ℕ := {f | Used s f}

/-- The frame that a byte address lies in. -/
def frameOf (address : ℕ) : ℕ := address / 0x1000

/-- `r` is the least frame of the whole words that is not in `used`, or the answer
    that stands for none. -/
def IsFirstFree (used : Set ℕ) (frameAmount r : ℕ) : Prop :=
  IsLeast {f | f < 32 * (frameAmount / 32) ∧ f ∉ used} r ∨
    ((∀ f < 32 * (frameAmount / 32), f ∈ used) ∧ r = noFrame)

variable {s : PageAllocator} {address f : ℕ}

@[simp] theorem mem_usedFrames : f ∈ usedFrames s ↔ Used s f := Iff.rfl

theorem usedFrames_paSetFrame (s : PageAllocator) (address : ℕ) :
    usedFrames (paSetFrame s address) = insert (frameOf address) (usedFrames s) := by
  ext f
  rw [mem_usedFrames, used_paSetFrame, Set.mem_insert_iff, mem_usedFrames, frameOf]

theorem usedFrames_paClearFrame (s : PageAllocator) (address : ℕ) :
    usedFrames (paClearFrame s address) = usedFrames s \ {frameOf address} := by
  ext f
  rw [mem_usedFrames, used_paClearFrame, Set.mem_sdiff, Set.mem_singleton_iff, mem_usedFrames,
    frameOf, and_comm]

theorem paTestFrame_ne_zero_iff : paTestFrame s address ≠ 0#32 ↔ frameOf address ∈ usedFrames s :=
  paTestFrame_ne_zero

theorem isFirstFree_paFirstFrame (hs : s.frameAmount < 4294967296) :
    IsFirstFree (usedFrames s) s.frameAmount (paFirstFrame s) := by
  rcases paFirstFrame_cases hs with ⟨hlt, -, hfree, hbelow⟩ | ⟨hnone, hall⟩
  · exact .inl ⟨⟨hlt, hfree⟩, fun g hg => Nat.not_lt.1 fun h => hg.2 (hbelow g h)⟩
  · exact .inr ⟨hall, hnone⟩

theorem frameOf_mul32 (hf : f < 0x100000) : frameOf (mul32 f 0x1000) = f := by
  rw [frameOf, mul32_div, Nat.mod_eq_of_lt hf]

/-- A frame that is first free is no longer so once it is in use: the next one is larger. -/
theorem IsFirstFree.lt_insert {used : Set ℕ} {n r r' : ℕ} (h : IsFirstFree used n r)
    (h' : IsFirstFree (insert r used) n r') (hr : r < noFrame) : r < r' := by
  rcases h with ⟨-, hmin⟩ | ⟨-, rfl⟩
  · rcases h' with ⟨⟨hlt, hfree⟩, -⟩ | ⟨-, rfl⟩
    · rw [Set.mem_insert_iff, not_or] at hfree
      exact lt_of_le_of_ne (hmin ⟨hlt, hfree.2⟩) (Ne.symm hfree.1)
    · exact hr
  · exact absurd hr (lt_irrefl _)

/-- The bitmap is a set of frames: setting, clearing and testing the bit of an address
    are inserting, removing and membership of its frame, and `pa_first_frame` is the least
    frame that is not in the set. Taking that frame leaves a larger one to the next search. -/
theorem bitmap_is_set (s : PageAllocator) (hs : s.frameAmount < 4294967296) :
    (∀ a b, paTestFrame (paSetFrame s a) b ≠ 0#32 ↔
      frameOf a = frameOf b ∨ paTestFrame s b ≠ 0#32) ∧
    (∀ a b, paTestFrame (paClearFrame s a) b ≠ 0#32 ↔
      frameOf a ≠ frameOf b ∧ paTestFrame s b ≠ 0#32) ∧
    IsFirstFree (usedFrames s) s.frameAmount (paFirstFrame s) ∧
    (∀ f < 0x100000, usedFrames (paSetFrame s (mul32 f 0x1000)) = insert f (usedFrames s)) ∧
    (paFirstFrame s < 0x100000 →
      paFirstFrame s < paFirstFrame (paSetFrame s (mul32 (paFirstFrame s) 0x1000))) := by
  have hset : ∀ f < 0x100000,
      usedFrames (paSetFrame s (mul32 f 0x1000)) = insert f (usedFrames s) := fun f hf => by
    rw [usedFrames_paSetFrame, frameOf_mul32 hf]
  refine ⟨fun a b => ?_, fun a b => ?_, isFirstFree_paFirstFrame hs, hset, fun hf => ?_⟩
  · rw [paTestFrame_ne_zero_iff, paTestFrame_ne_zero_iff, usedFrames_paSetFrame,
      Set.mem_insert_iff, eq_comm]
  · rw [paTestFrame_ne_zero_iff, paTestFrame_ne_zero_iff, usedFrames_paClearFrame, Set.mem_sdiff,
      Set.mem_singleton_iff, and_comm, ne_comm]
  · have hnext := isFirstFree_paFirstFrame (s := paSetFrame s (mul32 (paFirstFrame s) 0x1000)) hs
    rw [hset _ hf] at hnext
    exact (isFirstFree_paFirstFrame hs).lt_insert hnext (hf.trans (by decide))

/-- With the lowest 32 of 64 frames in use, the first free frame is `32`, then `33`. -/
theorem bitmap_is_set_full_word :
    let s : PageAllocator := ⟨fun i => if i = 0 then 0xFFFFFFFF#32 else 0#32, 64⟩
    paFirstFrame s = 32 ∧ paFirstFrame s < paFirstFrame
    (paSetFrame s (mul32 (paFirstFrame s) 0x1000)) := by
  refine ⟨by decide, (bitmap_is_set _ (by decide)).2.2.2.2 (by decide)⟩

end Beryllium

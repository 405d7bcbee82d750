import Beryllium.Machine.System
import Beryllium.X86.Paging
import Mathlib.Data.List.Count

/-!
# The number of frames

How many frames there are, for any end of the memory (`initPageAllocatorFor`), and how many
of them `pa_alloc_frame` hands out. `frame_amount` is a quarter of the bytes of the
memory, while a frame has `0x1000` bytes: the bitmap has bits for frames past the
end of the memory, and a quarter of the words that `pa_first_frame` looks at are
reserved and cleared.

The frames are handed out in order, so all is well until as many calls have been made as
there are frames, and no longer (`frames_exist`).
-/

namespace Beryllium

open Machine

/-- `mem_end_aligned` -/
def memEndAligned (memEnd : ℕ) : ℕ := memEnd &&& 0xFFFFF000

/-- `init_page_allocator`, if the memory ends at `memEnd`. -/
def initPageAllocatorFor (memEnd : ℕ) (s : Paging) : Paging :=
  let frameAmount := memEndAligned memEnd / 4
  let r := placementKmalloc s.placementAddress (frameAmount / 0x20)
  { s with
    placementAddress := r.2
    frameAddr := r.1
    pa := ⟨fun i => if i < frameAmount / 0x20 / 4 then 0#32 else s.pa.frame i, frameAmount⟩ }

/-- The memory ends at `mem_end`. -/
theorem initPageAllocator_eq (s : Paging) :
    initPageAllocator s = initPageAllocatorFor memEnd s := rfl

/-! ## Runs -/

/-- The words of the bitmap that `pa_first_frame` looks at. -/
def wordsRead (s : PageAllocator) : List ℕ :=
  (List.range (s.frameAmount / 0x20)).filter fun i => ∀ j < i, scanWord s j = none

/-- The word of the bitmap that `pa_set_frame` and `pa_test_frame` look at. -/
def wordOf (address : ℕ) : ℕ := address / 0x1000 / 0x20

/-- The allocator, the page entries of the calls, and the words of the bitmap they have looked
    at. -/
structure FrameRun where
  pa : PageAllocator
  entries : List PageT
  touched : List ℕ

/-- A call of `pa_alloc_frame` on a fresh entry. -/
def FrameRun.step (s : FrameRun) (op : ℤ × ℤ) : Option FrameRun :=
  (paAllocFrame s.pa PageT.zero op.1 op.2).map fun r => ⟨r.1, r.2 :: s.entries,
    s.touched ++
      if op.1 > 1 then [] else wordsRead s.pa ++ [wordOf (mul32 (paFirstFrame s.pa) 0x1000)]⟩

/-- Calls of `pa_alloc_frame` on fresh entries, after `init_page_allocator`. -/
def frameRuns (memEnd : ℕ) : System FrameRun (ℤ × ℤ) where
  init s := ∃ p, s = ⟨(initPageAllocatorFor memEnd p).pa, [], []⟩
  guard _ _ := True
  step := FrameRun.step

/-- The frames that were handed out exist, and their bits and all words of the bitmap that were
    looked at lie in the bytes reserved for it. -/
structure FramesExist (memEnd : ℕ) (s : FrameRun) : Prop where
  frame_le : ∀ e ∈ s.entries, e.present = true → (e.frame + 1) * 0x1000 ≤ memEndAligned memEnd
  frame_lt : ∀ e ∈ s.entries, e.present = true → e.frame < 0x100000
  tested : ∀ e ∈ s.entries, e.present = true →
    4 * wordOf (e.frame * 0x1000) + 4 ≤ memEndAligned memEnd / 4 / 0x20
  touched : ∀ i ∈ s.touched, 4 * i + 4 ≤ memEndAligned memEnd / 4 / 0x20

/-- The calls that take a frame: the others are refused. -/
def takes (ops : List (ℤ × ℤ)) : ℕ := ops.countP fun op => op.1 ≤ 1

variable {memEnd n c : ℕ} {s s' : FrameRun} {op : ℤ × ℤ} {ops : List (ℤ × ℤ)} {p : PageAllocator}

/-! ## The bitmap -/

/-- The frames below `c` are in use, of those whose bits are cleared at first, for a memory of
    `n` frames. -/
structure Bitmap (n c : ℕ) (p : PageAllocator) : Prop where
  frameAmount : p.frameAmount = 1024 * n
  used_iff : ∀ f < 256 * n, Used p f ↔ f < c

/-- The next frame is handed out, and the words up to its bit are looked at. -/
theorem Bitmap.first (h : Bitmap n c p) (hn : n < 0x100000) (hc : c < 256 * n) :
    paFirstFrame p = c ∧ ∀ i ∈ wordsRead p, i ≤ c / 0x20 := by
  have hamount := h.frameAmount
  have hfree : ¬Used p c := by
    rw [h.used_iff c hc]
    exact lt_irrefl c
  constructor
  · rcases paFirstFrame_cases (show p.frameAmount < 4294967296 by omega) with
      ⟨-, -, hfree', hbelow⟩ | ⟨-, hall⟩
    · rcases Nat.lt_trichotomy (paFirstFrame p) c with hlt | heq | hlt
      · exact absurd ((h.used_iff _ (hlt.trans hc)).2 hlt) hfree'
      · exact heq
      · exact absurd (hbelow c hlt) hfree
    · exact absurd (hall c (by omega)) hfree
  · intro i hi
    obtain ⟨-, hall⟩ := List.mem_filter.1 hi
    by_contra hlt
    have hnone := of_decide_eq_true hall (c / 0x20) (Nat.not_le.1 hlt)
    exact hfree (scanWord_eq_none hnone rfl)

theorem Bitmap.set (h : Bitmap n c p) (hc : c < 0x100000) :
    Bitmap n (c + 1) (paSetFrame p (mul32 c 0x1000)) := by
  refine ⟨h.frameAmount, fun f hf => ?_⟩
  rw [used_paSetFrame, mul32_div, Nat.mod_eq_of_lt hc, h.used_iff f hf]
  omega

theorem memEndAligned_eq (hm : memEnd < 4294967296) :
    memEndAligned memEnd = memEnd / 0x1000 * 0x1000 :=
  and_pageMask hm

/-- The bitmap after `init_page_allocator`. -/
theorem bitmap_init (hm : memEnd < 4294967296) (q : Paging) :
    Bitmap (memEnd / 0x1000) 0 (initPageAllocatorFor memEnd q).pa := by
  have hdiv : memEndAligned memEnd / 4 = 1024 * (memEnd / 0x1000) := by
    rw [memEndAligned_eq hm]
    omega
  refine ⟨hdiv, fun f hf => ?_⟩
  rw [Used, initPageAllocatorFor]
  dsimp only
  rw [hdiv, if_pos (by omega), BitVec.getLsbD_zero]
  exact ⟨fun h => absurd h Bool.false_ne_true, fun h => absurd h (Nat.not_lt_zero f)⟩

/-- The bitmap that `paging_init` starts with. -/
theorem bitmap_initPageAllocator (q : Paging) : Bitmap 0xF000 0 (initPageAllocator q).pa := by
  have hlt : Beryllium.memEnd < 4294967296 := by decide
  rw [initPageAllocator_eq]
  exact bitmap_init hlt q

/-! ## Counting the calls -/

/-- After `c` calls that take a frame, as long as there are as many. -/
structure Counted (n c : ℕ) (s : FrameRun) : Prop where
  bitmap : Bitmap n c s.pa
  frame_lt : ∀ e ∈ s.entries, e.present = true → e.frame < c
  touched : ∀ i ∈ s.touched, ∃ f < c, i ≤ f / 0x20

/-- After more calls, a frame was handed out that does not exist. -/
def RunInv' (n c : ℕ) (s : FrameRun) : Prop :=
  c ≤ n ∧ Counted n c s ∨ n < c ∧ ∃ e ∈ s.entries, e.present = true ∧ e.frame = n

/-- A call that is refused stores nothing. -/
theorem FrameRun.step_refused (hop : op.1 > 1) :
    s.step op = some ⟨s.pa, PageT.zero :: s.entries, s.touched⟩ := by
  have halloc : paAllocFrame s.pa PageT.zero op.1 op.2 = some (s.pa, PageT.zero) := if_pos hop
  rw [FrameRun.step, halloc, Option.map_some, if_pos hop, List.append_nil]

/-- A call that takes the frame `c`. -/
theorem FrameRun.step_taken (hop : ¬op.1 > 1) (hfirst : paFirstFrame s.pa = c) (hc : c < 0x100000) :
    ∃ e : PageT, e.present = true ∧ e.frame = c ∧ s.step op = some
      ⟨paSetFrame s.pa (mul32 c 0x1000), e :: s.entries,
        s.touched ++ (wordsRead s.pa ++ [wordOf (mul32 c 0x1000)])⟩ := by
  have hne : c ≠ noFrame := by
    rw [noFrame]
    omega
  have halloc : paAllocFrame s.pa PageT.zero op.1 op.2 =
      some (paSetFrame s.pa (mul32 c 0x1000), ⟨true, decide (op.2 ≠ 0), decide (op.1 = 0), c⟩) := by
    rw [paAllocFrame, if_neg hop, if_neg (by decide : ¬PageT.zero.frame ≠ 0), hfirst]
    dsimp only
    rw [if_neg hne, Nat.mod_eq_of_lt hc]
  refine ⟨⟨true, decide (op.2 ≠ 0), decide (op.1 = 0), c⟩, rfl, rfl, ?_⟩
  rw [FrameRun.step, halloc, Option.map_some, if_neg hop, hfirst]

/-- A call that takes a frame that exists. -/
theorem Counted.take (h : Counted n c s) (hn : n < 0x100000) (hc : c < n) (op : ℤ × ℤ)
    (hop : ¬op.1 > 1) : ∃ s', s.step op = some s' ∧ Counted n (c + 1) s' := by
  obtain ⟨hfirst, hread⟩ := h.bitmap.first hn (by omega)
  obtain ⟨e, -, hframe, hstep⟩ := FrameRun.step_taken (s := s) hop hfirst (hc.trans hn)
  refine ⟨_, hstep, h.bitmap.set (hc.trans hn), fun e' he' hp' => ?_, fun i hi => ?_⟩
  · rcases List.mem_cons.1 he' with rfl | he'
    · exact hframe.trans_lt (Nat.lt_succ_self c)
    · exact Nat.lt_succ_of_lt (h.frame_lt e' he' hp')
  · rcases List.mem_append.1 hi with hi | hi
    · obtain ⟨f, hf, hle⟩ := h.touched i hi
      exact ⟨f, Nat.lt_succ_of_lt hf, hle⟩
    · refine ⟨c, Nat.lt_succ_self c, ?_⟩
      rcases List.mem_append.1 hi with hi | hi
      · exact hread i hi
      · rw [List.mem_singleton.1 hi, wordOf, mul32_div, Nat.mod_eq_of_lt (hc.trans hn)]

/-- The first call past the end of the memory. -/
theorem Counted.take_last (h : Counted n n s) (hn : n < 0x100000) (hop : ¬op.1 > 1)
    (hstep : s.step op = some s') : ∃ e ∈ s'.entries, e.present = true ∧ e.frame = n := by
  rcases Nat.eq_zero_or_pos n with rfl | hpos
  · -- there is no frame at all
    have hnone : paFirstFrame s.pa = noFrame := by
      rw [paFirstFrame, h.bitmap.frameAmount]
      rfl
    have halloc : paAllocFrame s.pa PageT.zero op.1 op.2 = none := by
      rw [paAllocFrame, if_neg hop, if_neg (by decide : ¬PageT.zero.frame ≠ 0), hnone]
      rfl
    rw [FrameRun.step, halloc] at hstep
    cases hstep
  · obtain ⟨hfirst, -⟩ := h.bitmap.first hn (by omega)
    obtain ⟨e, hp, hframe, heq⟩ := FrameRun.step_taken (s := s) hop hfirst hn
    obtain rfl := Option.some.inj (heq.symm.trans hstep)
    exact ⟨e, List.mem_cons_self, hp, hframe⟩

theorem FrameRun.entries_subset (hstep : s.step op = some s') :
    ∀ e ∈ s.entries, e ∈ s'.entries := by
  intro e he
  obtain ⟨r, -, rfl⟩ := Option.map_eq_some_iff.1 hstep
  exact List.mem_cons_of_mem _ he

theorem RunInv'.step (h : RunInv' n c s) (hn : n < 0x100000) (hstep : s.step op = some s') :
    RunInv' n (c + if op.1 ≤ 1 then 1 else 0) s' := by
  by_cases hop : op.1 > 1
  · rw [if_neg (Int.not_le.2 hop), Nat.add_zero]
    obtain rfl := Option.some.inj ((FrameRun.step_refused hop).symm.trans hstep)
    refine h.imp (fun ⟨hc, h⟩ => ⟨hc, h.bitmap, fun e he hp => ?_, h.touched⟩)
      fun ⟨hc, e, he, h⟩ => ⟨hc, e, List.mem_cons_of_mem _ he, h⟩
    rcases List.mem_cons.1 he with rfl | he
    · cases hp
    · exact h.frame_lt e he hp
  · rw [if_pos (Int.not_lt.1 hop)]
    rcases h with ⟨hc, h⟩ | ⟨hc, e, he, h⟩
    · rcases hc.eq_or_lt with rfl | hc
      · exact .inr ⟨Nat.lt_succ_self c, h.take_last hn hop hstep⟩
      · obtain ⟨t, ht, h'⟩ := h.take hn hc op hop
        obtain rfl := Option.some.inj (ht.symm.trans hstep)
        exact .inl ⟨hc, h'⟩
    · exact .inr ⟨Nat.lt_succ_of_lt hc, e, FrameRun.entries_subset hstep e he, h⟩

theorem takes_cons : takes (op :: ops) = (if op.1 ≤ 1 then 1 else 0) + takes ops := by
  rw [takes, List.countP_cons, Nat.add_comm]
  simp only [decide_eq_true_eq]
  rfl

theorem RunInv'.run (hr : (frameRuns memEnd).Run s ops s') (hn : n < 0x100000) (h : RunInv' n c s) :
    RunInv' n (c + takes ops) s' := by
  induction hr generalizing c with
  | nil => exact h
  | @cons _ _ _ op ops _ hs _ ih =>
    rw [takes_cons, ← Nat.add_assoc]
    exact ih (h.step hn hs)

/-- For every end of the memory and every run of calls after `init_page_allocator`: the frames
    that were handed out exist, and the words of the bitmap that were looked at are reserved, if
    and only if no more frames were taken than there are. -/
theorem frames_exist (hm : memEnd < 4294967296) (hinit : (frameRuns memEnd).init s)
    (hr : (frameRuns memEnd).Run s ops s') :
    FramesExist memEnd s' ↔ takes ops ≤ memEndAligned memEnd / 0x1000 := by
  have hn : memEnd / 0x1000 < 0x100000 := by omega
  have haligned := memEndAligned_eq hm
  have hdiv : memEndAligned memEnd / 0x1000 = memEnd / 0x1000 := by omega
  have hstart : RunInv' (memEnd / 0x1000) 0 s := by
    obtain ⟨q, rfl⟩ := hinit
    exact .inl ⟨Nat.zero_le _, bitmap_init hm q, fun e he => absurd he List.not_mem_nil,
      fun i hi => absurd hi List.not_mem_nil⟩
  have h := hstart.run hr hn
  rw [Nat.zero_add] at h
  rw [hdiv]
  constructor
  · intro hex
    rcases h with ⟨hc, -⟩ | ⟨-, e, he, hp, hframe⟩
    · exact hc
    · -- the first frame behind the memory has been handed out
      have := hex.frame_le e he hp
      omega
  · intro hc
    rcases h with ⟨-, h⟩ | ⟨hc', -⟩
    · refine ⟨fun e he hp => ?_, fun e he hp => ?_, fun e he hp => ?_, fun i hi => ?_⟩
      · have := h.frame_lt e he hp
        omega
      · have := h.frame_lt e he hp
        omega
      · have := h.frame_lt e he hp
        rw [wordOf]
        omega
      · obtain ⟨f, hf, hle⟩ := h.touched i hi
        omega
    · omega

/-! ## As many calls as there are frames -/

theorem exists_frameRun (hm : memEnd < 4294967296) (q : Paging) (c : ℕ) (hc : c ≤ memEnd / 0x1000) :
    ∃ s, (frameRuns memEnd).Run ⟨(initPageAllocatorFor memEnd q).pa, [], []⟩
    (List.replicate c (0, 0)) s ∧
      Counted (memEnd / 0x1000) c s := by
  induction c with
  | zero =>
    exact ⟨_, .nil _, bitmap_init hm q, fun e he => absurd he List.not_mem_nil,
      fun i hi => absurd hi List.not_mem_nil⟩
  | succ c ih =>
    obtain ⟨s, hr, h⟩ := ih (Nat.le_of_succ_le hc)
    obtain ⟨s', hs', h'⟩ := h.take (by omega) hc (0, 0) (by decide)
    refine ⟨s', ?_, h'⟩
    rw [List.replicate_succ']
    exact hr.snoc trivial hs'

/-- No page is mapped, and the bitmap is clear. -/
def noPages : Paging where
  placementAddress := 0x100000
  pa := ⟨fun _ => 0#32, 0⟩
  frameAddr := 0
  kernelDirectory := 0
  dir := ⟨fun _ => 0, fun _ => 0, 0⟩
  page _ _ := PageT.zero

theorem frames_exist_first : ∃ s s', (frameRuns 0xF000000).init s ∧
    (frameRuns 0xF000000).Run s (List.replicate 1 (0, 0)) s' ∧ FramesExist 0xF000000 s' := by
  obtain ⟨s, hr, -⟩ := exists_frameRun (show 0xF000000 < 4294967296 by decide) noPages 1 (by decide)
  exact ⟨_, s, ⟨_, rfl⟩, hr, (frames_exist (by decide) ⟨_, rfl⟩ hr).2 (by decide)⟩

/-- There are `0xF000` frames in `0xF000000` bytes; the next call hands out one more. -/
theorem frame_past_memory : ∃ s s', (frameRuns 0xF000000).init s ∧
    (frameRuns 0xF000000).Run s (List.replicate 0xF000 (0, 0) ++ [(0, 0)]) s' ∧
    ¬FramesExist 0xF000000 s' := by
  have hmem : 0xF000000 < 4294967296 := by decide
  obtain ⟨s, hr, h⟩ := exists_frameRun hmem noPages 0xF000 (by decide)
  obtain ⟨hfirst, -⟩ := h.bitmap.first (by decide) (by decide)
  obtain ⟨e, hp, hframe, hstep⟩ :=
    FrameRun.step_taken (s := s) (show ¬((0, 0) : ℤ × ℤ).1 > 1 by decide) hfirst (by decide)
  refine ⟨_, _, ⟨_, rfl⟩, hr.snoc trivial hstep, fun hex => ?_⟩
  have hle := hex.frame_le e List.mem_cons_self hp
  rw [hframe, memEndAligned_eq hmem] at hle
  exact absurd hle (by decide)

end Beryllium

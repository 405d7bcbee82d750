import Beryllium.Machine.System
import Beryllium.X86.PageAllocator

/-!
# Who owns a frame

The page allocator and the page entries of its callers, as a system whose steps
are calls of `pa_alloc_frame` and `pa_free_frame`, with a ghost that remembers which
frame was given to which entry and not taken back since (`FrameState.owner`).

The bitmap and the entries ought to say the same as the ghost (`FrameLaw`), and
a call of `pa_free_frame` ought to take back the frame of its entry and no other
(`FreeLaw`). The code keeps this only as long as no frame is ever taken back:

* `pa_free_frame` passes the *number* of the frame to `pa_clear_frame`, which
  expects its address, so the bit of the frame stays set;
* the frame number `0` doubles as "no frame": the entry that owns frame `0` can not
  give it back, and a second call of `pa_alloc_frame` gives it a second frame.

`frame_ownership` states exactly which steps keep the laws (`Keeps`).
-/

namespace Beryllium

open Machine

variable {E : Type*}

/-- The allocator, the page entries, and which frame each entry was given. -/
structure FrameState (E : Type*) where
  pa : PageAllocator
  page : E → PageT
  owner : E → Option ℕ

/-- The calls, on the page entry `e`. -/
inductive FrameOp (E : Type*)
  | alloc (e : E) (kernel rw : ℤ)
  | free (e : E)

/-- One call: the ghost follows the frames that `pa_alloc_frame` takes from the
    bitmap and forgets them at `pa_free_frame`. -/
def FrameState.step [DecidableEq E] (s : FrameState E) : FrameOp E → Option (FrameState E)
  | .alloc e kernel rw => (paAllocFrame s.pa (s.page e) kernel rw).map fun r =>
    ⟨r.1, Function.update s.page e r.2,
      if Takes (s.page e) kernel then Function.update s.owner e (some (paFirstFrame s.pa))
      else s.owner⟩
  | .free e =>
    let r := paFreeFrame s.pa (s.page e)
    some ⟨r.1, Function.update s.page e r.2, Function.update s.owner e none⟩

/-- The state after `init_page_allocator`: no bit is set, and every entry is zeroed. -/
def FrameState.boot (E : Type*) (frameAmount : ℕ) : FrameState E :=
  ⟨⟨fun _ => 0#32, frameAmount⟩, fun _ => PageT.zero, fun _ => none⟩

/-- Any sequence of calls after the initialisation. -/
def frameSystem (E : Type*) [DecidableEq E] : System (FrameState E) (FrameOp E) where
  init s := ∃ frameAmount < 4294967296, s = FrameState.boot E frameAmount
  guard _ _ := True
  step := FrameState.step

/-! ## The laws -/

/-- The bitmap agrees with the owners of the frames, the entries that are present name the frames
    that they own, and no two of them name the same frame. -/
structure FrameLaw (s : FrameState E) : Prop where
  owner_iff : ∀ e f, s.owner e = some f ↔ (s.page e).present = true ∧ (s.page e).frame = f
  used_iff : ∀ f, Used s.pa f ↔ ∃! e, s.owner e = some f
  frame_inj : ∀ e e', (s.page e).present → (s.page e').present →
    (s.page e).frame = (s.page e').frame → e = e'

/-- Freeing an entry makes its frame available, and no other frame. -/
def FreeLaw (s : FrameState E) (op : FrameOp E) (s' : FrameState E) : Prop :=
  ∀ e, op = .free e → ∀ f, Used s'.pa f ↔ Used s.pa f ∧ s.owner e ≠ some f

/-- The steps that keep the laws: no entry in use is freed or given a second
    frame, and the first free frame has an address. -/
def Keeps (s : FrameState E) : FrameOp E → Prop
  | .alloc e kernel _ => Takes (s.page e) kernel →
    (s.page e).present = false ∧ paFirstFrame s.pa < 0x100000
  | .free e => (s.page e).present = false

/-! ## The invariant -/

/-- As long as the laws are kept: an entry is present if and only if it owns the
    frame it names. -/
structure FrameInv (s : FrameState E) : Prop where
  frameAmount_lt : s.pa.frameAmount < 4294967296
  owner_iff : ∀ e f, s.owner e = some f ↔ (s.page e).present = true ∧ (s.page e).frame = f
  absent : ∀ e, (s.page e).present = false → (s.page e).frame = 0
  frame_lt : ∀ e, (s.page e).frame < 0x100000
  frame_inj : ∀ e e', (s.page e).present → (s.page e').present →
    (s.page e).frame = (s.page e').frame → e = e'
  used_iff : ∀ f, Used s.pa f ↔ ∃ e, s.owner e = some f

variable {s s' : FrameState E} {op : FrameOp E}

theorem FrameInv.law (h : FrameInv s) : FrameLaw s := by
  refine ⟨h.owner_iff, fun f => (h.used_iff f).trans
    ⟨fun ⟨e, he⟩ => ⟨e, he, fun e' he' => ?_⟩, fun h => h.exists⟩, h.frame_inj⟩
  have he := (h.owner_iff e f).1 he
  have he' := (h.owner_iff e' f).1 he'
  exact h.frame_inj e' e he'.1 he.1 (he'.2.trans he.2.symm)

theorem FrameInv.boot {n : ℕ} (hn : n < 4294967296) : FrameInv (FrameState.boot E n) where
  frameAmount_lt := hn
  owner_iff e f := by simp [FrameState.boot, PageT.zero]
  absent _ _ := rfl
  frame_lt _ := Nat.zero_lt_succ _
  frame_inj e e' h := by simp [FrameState.boot, PageT.zero] at h
  used_iff f := by simp [Used, FrameState.boot]

variable [DecidableEq E]

/-! ## Steps that keep the laws -/

/-- A frame taken from the bitmap becomes the frame of the entry. -/
theorem FrameInv.take (h : FrameInv s) {e : E} {page : PageT}
    (hpresent : (s.page e).present = false) (hfree : ¬Used s.pa (paFirstFrame s.pa))
    (hlt : paFirstFrame s.pa < 0x100000) (hpage : page.present = true)
    (hframe : page.frame = paFirstFrame s.pa) :
    FrameInv ⟨paSetFrame s.pa (mul32 (paFirstFrame s.pa) 0x1000), Function.update s.page e page,
      Function.update s.owner e (some (paFirstFrame s.pa))⟩ := by
  have hdiv : mul32 (paFirstFrame s.pa) 0x1000 / 0x1000 = paFirstFrame s.pa := by
    rw [mul32_div, Nat.mod_eq_of_lt hlt]
  generalize paFirstFrame s.pa = g at *
  -- no present entry names the frame, as its bit is clear
  have hne : ∀ e', (s.page e').present → (s.page e').frame ≠ g := fun e' hp hg =>
    hfree ((h.used_iff g).2 ⟨e', (h.owner_iff e' g).2 ⟨hp, hg⟩⟩)
  refine ⟨h.frameAmount_lt, fun e' f => ?_, ?_, ?_, fun e₁ e₂ => ?_, fun f => ?_⟩
  · by_cases he : e' = e
    · subst he
      simp only [Function.update_self, Option.some.injEq, hpage, hframe, true_and]
    · simp only [Function.update_of_ne he]
      exact h.owner_iff e' f
  · rw [Function.forall_update_iff s.page fun _ p => p.present = false → p.frame = 0]
    exact ⟨fun hp => absurd hp (by rw [hpage]; decide), fun e' _ => h.absent e'⟩
  · rw [Function.forall_update_iff s.page fun _ p => p.frame < 0x100000]
    exact ⟨hframe ▸ hlt, fun e' _ => h.frame_lt e'⟩
  · by_cases h₁ : e₁ = e <;> by_cases h₂ : e₂ = e
    · exact fun _ _ _ => h₁.trans h₂.symm
    · subst h₁
      simp only [Function.update_self, Function.update_of_ne h₂, hframe]
      exact fun _ hp hg => absurd hg.symm (hne e₂ hp)
    · subst h₂
      simp only [Function.update_self, Function.update_of_ne h₁, hframe]
      exact fun hp _ hg => absurd hg (hne e₁ hp)
    · simp only [Function.update_of_ne h₁, Function.update_of_ne h₂]
      exact h.frame_inj e₁ e₂
  · rw [used_paSetFrame, hdiv, h.used_iff]
    constructor
    · rintro (rfl | ⟨e', he'⟩)
      · exact ⟨e, Function.update_self ..⟩
      · refine ⟨e', (Function.update_of_ne ?_ ..).trans he'⟩
        rintro rfl
        exact absurd ((h.owner_iff e' f).1 he').1 (by rw [hpresent]; decide)
    · rintro ⟨e', he'⟩
      by_cases he : e' = e
      · subst he
        simp only [Function.update_self, Option.some.injEq] at he'
        exact .inl he'.symm
      · simp only [Function.update_of_ne he] at he'
        exact .inr ⟨e', he'⟩

/-- What one step does, in a state where the laws have been kept. -/
theorem FrameInv.step (h : FrameInv s) (hs : s.step op = some s') (hk : Keeps s op) :
    FrameInv s' ∧ FreeLaw s op s' := by
  cases op with
  | alloc e kernel rw =>
    obtain ⟨r, hr, rfl⟩ := Option.map_eq_some_iff.1 hs
    refine ⟨?_, fun e' he' => by cases he'⟩
    rcases paAllocFrame_cases hr with ⟨ht, rfl⟩ | ⟨ht, hn, rfl⟩
    · simp only [if_neg ht, Function.update_eq_self]
      exact h
    · obtain ⟨hp, hlt⟩ := hk ht
      rw [if_pos ht]
      exact h.take hp (not_used_paFirstFrame h.frameAmount_lt hn) hlt rfl (Nat.mod_eq_of_lt hlt)
  | free e =>
    obtain rfl := Option.some.inj hs
    have hf : (s.page e).frame = 0 := h.absent e hk
    have ho : ∀ f, s.owner e ≠ some f := fun f ho =>
      absurd ((h.owner_iff e f).1 ho).1 (by rw [hk]; decide)
    have hnone : s.owner e = none := Option.eq_none_iff_forall_ne_some.2 ho
    simp only [FreeLaw, paFreeFrame, hf, if_true, Function.update_eq_self, ← hnone]
    exact ⟨h, fun e' he' f => by cases he'; simp [ho f]⟩

/-- A step that does not keep the laws: it breaks them at once. -/
theorem FrameInv.of_law (h : FrameInv s) (hs : s.step op = some s') (hl : FrameLaw s')
    (hf : FreeLaw s op s') : Keeps s op := by
  cases op with
  | alloc e kernel rw =>
    obtain ⟨r, hr, rfl⟩ := Option.map_eq_some_iff.1 hs
    rcases paAllocFrame_cases hr with ⟨ht, rfl⟩ | ⟨ht, hn, rfl⟩
    · exact fun ht' => absurd ht' ht
    have hu := hl.used_iff
    simp only [if_pos ht, used_paSetFrame, mul32_div] at hu
    have hfree := not_used_paFirstFrame h.frameAmount_lt hn
    refine fun _ => ⟨?_, ?_⟩
    · -- else the entry owns frame 0, whose bit stays set when it gets a second frame
      by_contra hp
      rw [Bool.not_eq_false] at hp
      have h₀ : s.owner e = some 0 := (h.owner_iff e 0).2 ⟨hp, ht.2⟩
      have hused : Used s.pa 0 := (h.used_iff 0).2 ⟨e, h₀⟩
      obtain ⟨e', he', -⟩ := (hu 0).1 (.inr hused)
      by_cases he : e' = e
      · subst he
        rw [Function.update_self] at he'
        exact hfree (Option.some.inj he' ▸ hused)
      · rw [Function.update_of_ne he] at he'
        obtain ⟨hp', hf'⟩ := (h.owner_iff e' 0).1 he'
        exact he (h.frame_inj e' e hp' hp (hf'.trans ht.2.symm))
    · -- else the bit of the frame is not the one that is set
      by_contra hlt
      have huniq : ∀ e', Function.update s.owner e (some (paFirstFrame s.pa)) e' =
          some (paFirstFrame s.pa) → e' = e := by
        intro e' he'
        by_contra he
        rw [Function.update_of_ne he] at he'
        exact hlt (((h.owner_iff e' _).1 he').2 ▸ h.frame_lt e')
      rcases (hu (paFirstFrame s.pa)).2 ⟨e, Function.update_self .., huniq⟩ with h' | h'
      · omega
      · exact hfree h'
  | free e =>
    obtain rfl := Option.some.inj hs
    by_contra hp
    rw [Keeps, Bool.not_eq_false] at hp
    have ho : s.owner e = some (s.page e).frame := (h.owner_iff e _).2 ⟨hp, rfl⟩
    have hused : Used s.pa (s.page e).frame := (h.used_iff _).2 ⟨e, ho⟩
    -- the bit of the frame survives, whether the call does nothing or clears another one
    refine ((hf e rfl (s.page e).frame).1 ?_).2 ho
    rw [paFreeFrame]
    dsimp only
    split_ifs with h₀
    · exact hused
    · exact used_paClearFrame.2 ⟨by omega, hused⟩

/-! ## Runs -/

/-- In every run whose steps are all as `Keeps` says, the bitmap and the entries agree
    with the owners in every state; a further step keeps the laws if and only if it
    is as `Keeps` says. -/
theorem frame_ownership (h : ((frameSystem E).restrict Keeps).Reachable s) :
    FrameLaw s ∧ ∀ op s', s.step op = some s' → (FrameLaw s' ∧ FreeLaw s op s' ↔ Keeps s op) := by
  have hi : FrameInv s := by
    refine h.of_step ?_ fun s op s' hi hg hs => (hi.step hs hg.2).1
    rintro s ⟨n, hn, rfl⟩
    exact .boot hn
  exact ⟨hi.law, fun op s' hs => ⟨fun hl => hi.of_law hs hl.1 hl.2, fun hk =>
    ⟨(hi.step hs hk).1.law, (hi.step hs hk).2⟩⟩⟩

/-- Two entries that get the frames `0` and `1`. -/
theorem frame_ownership_two : ∃ s, FrameLaw (s : FrameState (Fin 2)) ∧ s.owner 0 = some 0 ∧
    s.owner 1 = some 1 := by
  have h₀ : 0x3C00000 < 4294967296 := by decide
  refine ⟨_, (frame_ownership ⟨FrameState.boot (Fin 2) 0x3C00000, [.alloc 0 0 0, .alloc 1 0 0],
    ⟨_, h₀, rfl⟩, .cons ⟨trivial, ?_⟩ rfl (.cons ⟨trivial, ?_⟩ rfl (.nil _))⟩).1, rfl, rfl⟩
  · exact fun _ => ⟨rfl, by decide⟩
  · exact fun _ => ⟨rfl, by decide⟩

/-- Freeing the second of two entries leaves the bit of its frame set, although no entry
    owns the frame. -/
theorem freed_frame_stays_used : ∃ s s', (frameSystem (Fin 2)).Reachable s ∧
    s.step (.free 1) = some s' ∧ s.owner 1 = some 1 ∧ Used s'.pa 1 ∧ (∀ e, s'.owner e ≠ some 1) ∧
    ¬FrameLaw s' ∧ ¬FreeLaw s (.free 1) s' := by
  have h₀ : 0x3C00000 < 4294967296 := by decide
  obtain ⟨s, s', hs, hs', h₁, hused, hown⟩ : ∃ s s', (frameSystem (Fin 2)).Reachable s ∧
      s.step (.free 1) = some s' ∧ s.owner 1 = some 1 ∧ Used s'.pa 1 ∧ ∀ e, s'.owner e ≠ some 1 :=
    ⟨_, _, ⟨FrameState.boot (Fin 2) 0x3C00000, [.alloc 0 0 0, .alloc 1 0 0], ⟨_, h₀, rfl⟩,
      .cons trivial rfl (.cons trivial rfl (.nil _))⟩, rfl, rfl, by decide, by decide⟩
  refine ⟨s, s', hs, hs', h₁, hused, hown, fun hl => ?_, fun hf => ?_⟩
  · obtain ⟨e, he⟩ := ((hl.used_iff 1).1 hused).exists
    exact hown e he
  · exact ((hf 1 rfl 1).1 hused).2 h₁

end Beryllium

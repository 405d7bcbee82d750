import Beryllium.Machine.System
import Beryllium.Timing.Tick

/-!
# Timers fire exactly when due

The runs of the timers from `timing_init` on (`timerSystem`): ticks of the selected device, and
registrations between them. A registration made at tick `t` is due at `t + d`, and every `r`
ticks after it (`Registration.firesAt`). A run counts its registrations, the reaper being
the first, and records the calls of their handlers.

* `SlotFires`: a slot in use holds the next tick at which its registration is due;
* `FiringInv`: every registration whose next tick may come is in a slot;
* `timers_fire`: handlers are called exactly when due, a registration fails only if
  the table is full, and the slot of a one-shot is free again once a reaper has run after it.
-/

namespace Beryllium

open Machine

/-! ## Runs -/

/-- A registration: the tick it is made at, its delay, its rate (`0` if it does not repeat) and
    its handler. -/
structure Registration where
  tick : ℕ
  delay : ℕ
  repeatRate : ℕ
  handler : Handler

/-- The registration is due at `T`. -/
def Registration.firesAt (g : Registration) (T : ℕ) : Prop :=
  ∃ k, T = g.tick + g.delay + k * g.repeatRate

/-- The timers, with the registrations made so far, the number of the one that last took a
    slot, and the calls: at which tick, for which registration, and of which handler. -/
structure TimerRun where
  timing : Timing
  regs : List Registration
  owner : ℕ → ℕ
  calls : List (ℕ × ℕ × Handler)

/-- The operations. -/
inductive TimerOp
  | tick
  | register (name : ℕ) (d : BitVec 32) (h : Handler) (r : BitVec 32)

/-- The current tick. -/
def TimerRun.now (s : TimerRun) : ℕ := s.timing.timerHi.toNat

/-- The timers after `timing_init`. -/
def TimerRun.start (t : Timing) : TimerRun :=
  ⟨timingInit t, [⟨t.timerHi.toNat, 100, 100, .reaper⟩], fun _ => 0, []⟩

/-- What an operation does. -/
def TimerRun.step (s : TimerRun) : TimerOp → Option TimerRun
  | .tick => (timerRecieveTick s.timing s.timing.device).map fun u =>
      { s with
        timing := u.1
        calls := s.calls ++ u.2.map fun c => (u.1.timerHi.toNat, s.owner c.1, c.2) }
  | .register name d h r =>
    let u := timingRegisterTimer s.timing name d h r
    if u.2 = 0xFF then some { s with timing := u.1 }
    else some { s with
      timing := u.1
      regs := s.regs ++ [⟨s.now, d.toNat, r.toNat, h⟩]
      owner := Function.update s.owner u.2 s.regs.length }

/-- The runs of the timers: ticks stay below `2^31`, delays are positive, rates are not
    negative. -/
def timerSystem : System TimerRun TimerOp where
  init s := ∃ t : Timing, t.timerHi.toNat < 2 ^ 31 ∧ s = .start t
  guard s op := match op with
    | .tick => s.now + 1 < 2 ^ 31
    | .register _ d h r => 1 ≤ d.toInt ∧ 0 ≤ r.toInt ∧ h ≠ .null
  step := TimerRun.step

variable {s s' : TimerRun} {g : Registration} {e : Timer} {tick a : BitVec 32} {now i j n T : ℕ}

/-! ## One slot -/

/-- The slot `e` holds the registration `g`, and its next tick, if there is one. -/
structure SlotFires (now : ℕ) (g : Registration) (e : Timer) : Prop where
  handler : e.handler = g.handler
  rate : e.repeatRate.toNat = g.repeatRate
  fires : g.firesAt e.fireTick.toNat
  next : ∀ T, g.firesAt T → now < T → e.fireTick.toNat ≤ T
  pending : now < e.fireTick.toNat ∨ g.repeatRate = 0

/-- The comparison with a tick: a negative `int` is less. -/
theorem slt_iff (ht : tick.toNat < 2 ^ 31) :
    a.slt tick = true ↔ a.toNat < tick.toNat ∨ 2 ^ 31 ≤ a.toNat := by
  rw [BitVec.slt, decide_eq_true_iff, BitVec.toInt_eq_toNat_cond, BitVec.toInt_eq_toNat_cond]
  split_ifs <;> omega

theorem due_iff : e.due tick = true ↔ e.fireTick ≠ 0 ∧ e.fireTick = tick := by
  rw [Timer.due, decide_eq_true_iff]

/-- The slot of a registration is due when the registration is. -/
theorem SlotFires.due_iff (h : SlotFires now g e) (htick : tick.toNat = now + 1)
    (hne : e.fireTick ≠ 0) : e.due tick = true ↔ g.firesAt (now + 1) := by
  rw [Beryllium.due_iff]
  constructor
  · rintro ⟨-, heq⟩
    rw [← htick, ← heq]
    exact h.fires
  · intro hf
    refine ⟨hne, BitVec.eq_of_toNat_eq ?_⟩
    have hle := h.next _ hf (Nat.lt_succ_self now)
    rcases h.pending with hp | hr
    · omega
    · obtain ⟨k, hk⟩ := hf
      obtain ⟨k', hk'⟩ := h.fires
      rw [hr, Nat.mul_zero] at hk hk'
      omega

/-- A tick sets the slot to the next tick of its registration. -/
theorem SlotFires.set (h : SlotFires now g e) (htick : tick.toNat = now + 1)
    (hnow : now + 1 < 2 ^ 31)
    (hrate : g.repeatRate < 2 ^ 31) : SlotFires (now + 1) g (setSlot tick e) := by
  have hrep : e.repeatRate = 0 ↔ g.repeatRate = 0 := by
    rw [← h.rate, ← BitVec.toNat_inj]
    rfl
  rw [setSlot]
  split_ifs with hc
  · obtain ⟨hd, hr⟩ := hc
    obtain ⟨-, heq⟩ := Beryllium.due_iff.1 hd
    have hr' : g.repeatRate ≠ 0 := fun h₀ => hr (hrep.2 h₀)
    have hsum : (tick + e.repeatRate).toNat = now + 1 + g.repeatRate := by
      rw [BitVec.toNat_add, htick, h.rate, Nat.mod_eq_of_lt (by omega)]
    obtain ⟨k, hk⟩ := h.fires
    rw [heq, htick] at hk
    refine ⟨h.handler, h.rate, ⟨k + 1, ?_⟩, fun T hT hlt => ?_, .inl ?_⟩
    · rw [hsum, hk, Nat.add_mul, Nat.one_mul, ← Nat.add_assoc]
    · obtain ⟨k', rfl⟩ := hT
      -- a later tick is at least one period later
      have hk' : k + 1 ≤ k' := by
        by_contra hle
        have := Nat.mul_le_mul_right g.repeatRate (by omega : k' ≤ k)
        omega
      have := Nat.mul_le_mul_right g.repeatRate hk'
      rw [Nat.add_mul, Nat.one_mul] at this
      change (tick + e.repeatRate).toNat ≤ _
      omega
    · change _ < (tick + e.repeatRate).toNat
      omega
  · refine ⟨h.handler, h.rate, h.fires, fun T hT hlt => h.next T hT (by omega), ?_⟩
    rcases h.pending with hp | hr
    · by_cases hd : e.fireTick = tick
      · right
        by_contra hr
        have hne : e.fireTick ≠ 0 := fun h₀ => by rw [h₀] at hp; exact Nat.not_lt_zero _ hp
        exact hc ⟨Beryllium.due_iff.2 ⟨hne, hd⟩, fun h₀ => hr (hrep.1 h₀)⟩
      · have : e.fireTick.toNat ≠ now + 1 :=
          fun h' => hd (BitVec.eq_of_toNat_eq (h'.trans htick.symm))
        exact .inl (by omega)
    · exact .inr hr

/-- A registration whose slot is overdue is not due again below `2^31`. -/
theorem SlotFires.overdue (h : SlotFires now g e) (htick : tick.toNat = now) (hnow : now < 2 ^ 31)
    (hlt : e.fireTick.slt tick = true) (hT : g.firesAt T) (hnT : now < T) : 2 ^ 31 ≤ T := by
  have hle := h.next T hT hnT
  rcases (slt_iff (htick ▸ hnow)).1 hlt with h' | h'
  · rcases h.pending with hp | hr
    · omega
    · obtain ⟨k, hk⟩ := hT
      obtain ⟨k', hk'⟩ := h.fires
      rw [hr, Nat.mul_zero] at hk hk'
      omega
  · exact h'.trans hle

theorem setSlot_fireTick_ne (htick : tick.toNat = now + 1) (hnow : now + 1 < 2 ^ 31)
    (hne : e.fireTick ≠ 0) (h : SlotFires now g e) (hrate : g.repeatRate < 2 ^ 31) :
    (setSlot tick e).fireTick ≠ 0 := by
  rw [setSlot]
  split_ifs
  · intro h₀
    have hsum := congrArg BitVec.toNat h₀
    rw [BitVec.toNat_add, htick, h.rate, Nat.mod_eq_of_lt (by omega)] at hsum
    exact absurd hsum (by simp)
  · exact hne

/-! ## The invariant -/

/-- The slot `i` is in use. -/
def TimerRun.Occupied (s : TimerRun) (i : ℕ) : Prop :=
  i < slots ∧ (s.timing.handlers i).fireTick ≠ 0

/-- The invariant of the runs. -/
structure FiringInv (s : TimerRun) : Prop where
  now_lt : s.now < 2 ^ 31
  regs : ∀ g ∈ s.regs, g.handler ≠ .null ∧ g.repeatRate < 2 ^ 31
  slot : ∀ i, s.Occupied i → ∃ g, s.regs[s.owner i]? = some g ∧
      SlotFires s.now g (s.timing.handlers i)
  owner_inj : ∀ i j, s.Occupied i → s.Occupied j → s.owner i = s.owner j → i = j
  stored : ∀ n g, s.regs[n]? = some g → (∃ i, s.Occupied i ∧ s.owner i = n) ∨
    ∀ T, g.firesAt T → s.now < T → 2 ^ 31 ≤ T
  calls : ∀ T n f, (T, n, f) ∈ s.calls ↔
    T ≤ s.now ∧ ∃ g, s.regs[n]? = some g ∧ g.handler = f ∧ g.firesAt T
  nodup : s.calls.Nodup

/-! ## Registrations -/

theorem getElem?_snoc {α : Type*} {l : List α} {x y : α} :
    (l ++ [x])[n]? = some y ↔ l[n]? = some y ∨ n = l.length ∧ y = x := by
  rw [List.getElem?_append]
  split_ifs with hn
  · exact ⟨.inl, fun h => h.resolve_right fun h' => hn.ne h'.1⟩
  · rw [List.getElem?_singleton, List.getElem?_eq_none (Nat.not_lt.1 hn)]
    split_ifs with h₀
    · exact ⟨fun h => .inr ⟨by omega, (Option.some.inj h).symm⟩, fun h =>
        h.elim (fun h' => nomatch h') fun h' => congrArg some h'.2.symm⟩
    · exact ⟨fun h => (nomatch h),
        fun h => h.elim (fun h' => nomatch h') fun h' => absurd (by omega) h₀⟩

/-- The run after a registration in the slot `i`. -/
def TimerRun.inserted (s : TimerRun) (i name : ℕ) (d : BitVec 32) (h : Handler) (r : BitVec 32) :
    TimerRun :=
  { s with
    timing := s.timing.set i ⟨name, d + s.timing.timerHi, r, i, h⟩
    regs := s.regs ++ [⟨s.now, d.toNat, r.toNat, h⟩]
    owner := Function.update s.owner i s.regs.length }

/-- A registration takes a free slot, if there is one. -/
theorem TimerRun.register_cases (s : TimerRun) (name : ℕ) (d r : BitVec 32) (h : Handler) :
    (∃ i < slots, (s.timing.handlers i).fireTick = 0 ∧
      (timingRegisterTimer s.timing name d h r).2 = i ∧
      s.step (.register name d h r) = some (s.inserted i name d h r)) ∨
    (∀ i < slots, s.Occupied i) ∧ timingRegisterTimer s.timing name d h r = (s.timing, 0xFF) ∧
      s.step (.register name d h r) = some s := by
  rw [TimerRun.step]
  rcases timingRegisterTimer_cases s.timing name d r h with ⟨i, hi, hfree, hne, heq⟩ | ⟨hfull, heq⟩
  · refine .inl ⟨i, hi, hfree, by rw [heq], ?_⟩
    rw [heq, if_neg hne]
    rfl
  · rw [heq, if_pos rfl]
    exact .inr ⟨fun i hi => ⟨hi, hfull i hi⟩, rfl, rfl⟩

/-- The tick stored for a registration. -/
theorem FiringInv.fireTick_eq (h : FiringInv s) {d : BitVec 32} (hd : 1 ≤ d.toInt) :
    (d + s.timing.timerHi).toNat = s.now + d.toNat ∧ 1 ≤ d.toNat ∧ d + s.timing.timerHi ≠ 0 := by
  have hd' := toNat_of_one_le hd
  have hnow := h.now_lt
  have hsum : (d + s.timing.timerHi).toNat = s.now + d.toNat := by
    rw [BitVec.toNat_add, TimerRun.now, Nat.mod_eq_of_lt, Nat.add_comm]
    rw [TimerRun.now] at hnow
    omega
  refine ⟨hsum, hd'.1, fun h₀ => ?_⟩
  rw [h₀] at hsum
  exact absurd hsum (by simp; omega)

/-- A new registration in a free slot keeps the invariant. -/
theorem FiringInv.inserted (h : FiringInv s) {name : ℕ} {d r : BitVec 32} {hd : Handler}
    (hi : i < slots)
    (hfree : (s.timing.handlers i).fireTick = 0) (hd₁ : 1 ≤ d.toInt) (hr₀ : 0 ≤ r.toInt)
    (hnull : hd ≠ .null) : FiringInv (s.inserted i name d hd r) := by
  obtain ⟨hsum, hd₂, hne⟩ := h.fireTick_eq hd₁
  have hr₂ := toNat_lt_of_nonneg hr₀
  set g : Registration := ⟨s.now, d.toNat, r.toNat, hd⟩ with hg
  set e : Timer := ⟨name, d + s.timing.timerHi, r, i, hd⟩ with he
  have hfires (T : ℕ) (hT : g.firesAt T) : s.now + d.toNat ≤ T := by
    obtain ⟨k, rfl⟩ := hT
    exact Nat.le_add_right _ _
  have hslot : SlotFires s.now g e := by
    refine ⟨rfl, rfl, ⟨0, ?_⟩, fun T hT _ => ?_, .inl ?_⟩
    · rw [Nat.zero_mul]
      exact hsum
    · exact hsum.trans_le (hfires T hT)
    · exact hsum ▸ (by omega : s.now < s.now + d.toNat)
  set s₁ := s.inserted i name d hd r with hs₁
  have hself : s₁.timing.handlers i = e ∧ s₁.owner i = s.regs.length :=
    ⟨Function.update_self _ _ _, Function.update_self _ _ _⟩
  have hother {j : ℕ} (hj : j ≠ i) :
      s₁.timing.handlers j = s.timing.handlers j ∧ s₁.owner j = s.owner j :=
    ⟨Function.update_of_ne hj _ _, Function.update_of_ne hj _ _⟩
  have hocc {j : ℕ} (hj : j ≠ i) : s₁.Occupied j ↔ s.Occupied j := by
    rw [TimerRun.Occupied, (hother hj).1, TimerRun.Occupied]
  -- a slot in use is another one, and its registration is an earlier one
  have hold {j : ℕ} (hj : s.Occupied j) : j ≠ i ∧ s.owner j < s.regs.length := by
    obtain ⟨g', hg', -⟩ := h.slot j hj
    obtain ⟨hlt, -⟩ := List.getElem?_eq_some_iff.1 hg'
    exact ⟨fun heq => hj.2 (heq ▸ hfree), hlt⟩
  refine ⟨h.now_lt, ?_, ?_, ?_, ?_, ?_, h.nodup⟩
  · intro g' hg'
    rcases List.mem_append.1 hg' with hg' | hg'
    · exact h.regs g' hg'
    · obtain rfl := List.mem_singleton.1 hg'
      exact ⟨hnull, hr₂⟩
  · intro j hj
    by_cases hji : j = i
    · rw [hji, hself.1, hself.2]
      exact ⟨g, getElem?_snoc.2 (.inr ⟨rfl, rfl⟩), hslot⟩
    · obtain ⟨g', hg', hf⟩ := h.slot j ((hocc hji).1 hj)
      rw [(hother hji).1, (hother hji).2]
      exact ⟨g', getElem?_snoc.2 (.inl hg'), hf⟩
  · intro j k hj hk hown
    by_cases hji : j = i <;> by_cases hki : k = i
    · rw [hji, hki]
    · rw [hji, hself.2, (hother hki).2] at hown
      exact absurd hown.symm (hold ((hocc hki).1 hk)).2.ne
    · rw [hki, hself.2, (hother hji).2] at hown
      exact absurd hown (hold ((hocc hji).1 hj)).2.ne
    · rw [(hother hji).2, (hother hki).2] at hown
      exact h.owner_inj j k ((hocc hji).1 hj) ((hocc hki).1 hk) hown
  · intro n g' hn
    rcases getElem?_snoc.1 hn with hn | ⟨rfl, rfl⟩
    · refine (h.stored n g' hn).imp ?_ id
      rintro ⟨j, hj, hown⟩
      have hji := (hold hj).1
      exact ⟨j, (hocc hji).2 hj, (hother hji).2.trans hown⟩
    · exact .inl ⟨i, ⟨hi, by rw [hself.1]; exact hne⟩, hself.2⟩
  · intro T n f
    rw [hs₁, TimerRun.inserted, h.calls]
    constructor
    · rintro ⟨hT, g', hn, hf⟩
      exact ⟨hT, g', getElem?_snoc.2 (.inl hn), hf⟩
    · rintro ⟨hT, g', hn, hf⟩
      rcases getElem?_snoc.1 hn with hn | ⟨rfl, rfl⟩
      · exact ⟨hT, g', hn, hf⟩
      · have := hfires T hf.2
        exact absurd hT (by change ¬T ≤ s.now; omega)

/-- A registration keeps the invariant. -/
theorem FiringInv.register (h : FiringInv s) {name : ℕ} {d r : BitVec 32} {hd : Handler}
    (hd₁ : 1 ≤ d.toInt) (hr₀ : 0 ≤ r.toInt) (hnull : hd ≠ .null)
    (hstep : s.step (.register name d hd r) = some s') : FiringInv s' := by
  rcases s.register_cases name d r hd with ⟨i, hi, hfree, -, heq⟩ | ⟨-, -, heq⟩
  · rw [← Option.some.inj (heq.symm.trans hstep)]
    exact h.inserted hi hfree hd₁ hr₀ hnull
  · rw [← Option.some.inj (heq.symm.trans hstep)]
    exact h

/-- The timers before `timing_init` registers the reaper. -/
def TimerRun.empty (t : Timing) : TimerRun :=
  ⟨{ t with handlers := fun i => if i < slots then ⟨0, 0, 0, 0, .null⟩ else t.handlers i }, [],
    fun _ => 0, []⟩

theorem step_empty (t : Timing) :
    (TimerRun.empty t).step (.register timerReaperName 100 .reaper 100) = some (.start t) := by
  have hfree : ((TimerRun.empty t).timing.handlers 0).fireTick = 0 := rfl
  have hindex : (timingRegisterTimer (TimerRun.empty t).timing timerReaperName 100 .reaper 100).2 =
      0 := by
    rw [register_zero hfree]
  rw [TimerRun.step, hindex, if_neg (by decide)]
  congr 1
  rw [TimerRun.start, timingInit]
  congr 1
  exact Function.update_eq_self _ _

theorem firingInv_start {t : Timing} (ht : t.timerHi.toNat < 2 ^ 31) : FiringInv (.start t) := by
  have hfree {i : ℕ} : ¬(TimerRun.empty t).Occupied i := by
    rintro ⟨hi, hne⟩
    rw [TimerRun.empty] at hne
    exact hne (by dsimp only; rw [if_pos hi])
  have hempty : FiringInv (.empty t) := by
    refine ⟨ht, fun g hg => absurd hg List.not_mem_nil, fun i hi => absurd hi hfree,
      fun i j hi => absurd hi hfree, fun n g hn => (nomatch hn), fun T n f => ?_, List.nodup_nil⟩
    exact ⟨fun hT => absurd hT List.not_mem_nil, fun ⟨_, g, hn, _⟩ => nomatch hn⟩
  exact hempty.register (by decide) (by decide) Handler.noConfusion (step_empty t)

/-! ## Ticks -/

/-- The run after a tick. -/
def TimerRun.ticked (s : TimerRun) (tick low : BitVec 32) : TimerRun :=
  { s with
    timing := { s.timing with
      handlers := tickSlot tick s.timing slots
      timerHi := tick
      timerLow := low }
    calls := s.calls ++
      (dueCalls tick s.timing slots).map fun c => (tick.toNat, s.owner c.1, c.2) }

/-- A tick: every slot is left as `tickSlot` says, and the registrations are called whose slots
    are due. -/
theorem FiringInv.tick_eq (h : FiringInv s) (hnow : s.now + 1 < 2 ^ 31) :
    ∃ tick low, tick.toNat = s.now + 1 ∧ s.step .tick = some (s.ticked tick low) := by
  have htick : (s.timing.timerHi + 1).toNat = s.now + 1 := by
    rw [BitVec.toNat_add]
    change (_ + 1) % _ = _
    rw [Nat.mod_eq_of_lt]
    · rfl
    · exact hnow.trans (by decide)
  have hnull (i : ℕ) (hi : i < slots)
      (hd : (s.timing.handlers i).due (s.timing.timerHi + 1) = true) :
      (s.timing.handlers i).handler ≠ .null := by
    obtain ⟨g, hg, hf⟩ := h.slot i ⟨hi, (due_iff.1 hd).1⟩
    rw [hf.handler]
    exact (h.regs g (List.mem_of_getElem? hg)).1
  obtain ⟨low, heq⟩ := timerRecieveTick_eq s.timing hnull
  refine ⟨s.timing.timerHi + 1, low, htick, ?_⟩
  rw [TimerRun.step, heq]
  rfl

/-- A slot in use is set to the next tick of its registration, and stays in use unless a
    reaper clears it. -/
theorem FiringInv.tick_slot (h : FiringInv s) (hnow : s.now + 1 < 2 ^ 31)
    (htick : tick.toNat = s.now + 1) (hi : s.Occupied i) : ∃ g, s.regs[s.owner i]? = some g ∧
      SlotFires (s.now + 1) g (setSlot tick (s.timing.handlers i)) ∧
      (setSlot tick (s.timing.handlers i)).fireTick ≠ 0 := by
  obtain ⟨g, hg, hf⟩ := h.slot i hi
  have hrate := (h.regs g (List.mem_of_getElem? hg)).2
  exact ⟨g, hg, hf.set htick hnow hrate, setSlot_fireTick_ne htick hnow hi.2 hf hrate⟩

/-- The handlers that a tick calls are those of the slots in use that are due. -/
theorem mem_dueCalls {t : Timing} {f : Handler} : (i, f) ∈ dueCalls tick t slots ↔
    i < slots ∧ (t.handlers i).due tick = true ∧ (t.handlers i).handler = f := by
  rw [dueCalls, List.mem_map]
  constructor
  · rintro ⟨j, hj, heq⟩
    obtain ⟨rfl, rfl⟩ := Prod.mk.inj heq
    obtain ⟨hj, hd⟩ := List.mem_filter.1 hj
    exact ⟨List.mem_range.1 hj, hd, rfl⟩
  · rintro ⟨hi, hd, rfl⟩
    exact ⟨i, List.mem_filter.2 ⟨List.mem_range.2 hi, hd⟩, rfl⟩

/-- The calls of a tick. -/
theorem FiringInv.mem_tick_calls (h : FiringInv s) (htick : tick.toNat = s.now + 1)
    (hnow : s.now + 1 < 2 ^ 31) {f : Handler} :
    (T, n, f) ∈ (dueCalls tick s.timing slots).map (fun c => (tick.toNat, s.owner c.1, c.2)) ↔
      T = s.now + 1 ∧ ∃ g, s.regs[n]? = some g ∧ g.handler = f ∧ g.firesAt T := by
  rw [List.mem_map]
  constructor
  · rintro ⟨⟨i, f'⟩, hi, heq⟩
    obtain ⟨hi, hd, hh⟩ := mem_dueCalls.1 hi
    have hocc : s.Occupied i := ⟨hi, (due_iff.1 hd).1⟩
    obtain ⟨g, hg, hf⟩ := h.slot i hocc
    cases heq
    rw [htick]
    exact ⟨rfl, g, hg, hf.handler.symm.trans hh, (hf.due_iff htick hocc.2).1 hd⟩
  · rintro ⟨rfl, g, hg, rfl, hfires⟩
    rcases h.stored n g hg with ⟨i, hocc, rfl⟩ | hlate
    · obtain ⟨g', hg', hf⟩ := h.slot i hocc
      obtain rfl := Option.some.inj (hg.symm.trans hg')
      refine ⟨(i, g.handler), mem_dueCalls.2 ⟨hocc.1, ?_, hf.handler⟩, ?_⟩
      · exact (hf.due_iff htick hocc.2).2 hfires
      · rw [htick]
    · exact absurd (hlate _ hfires (Nat.lt_succ_self _)) (by omega)

/-- A tick keeps the invariant. -/
theorem FiringInv.ticked (h : FiringInv s) (hnow : s.now + 1 < 2 ^ 31) {low : BitVec 32}
    (htick : tick.toNat = s.now + 1) : FiringInv (s.ticked tick low) := by
  have hnow' : (s.ticked tick low).now = s.now + 1 := htick
  have hstay {i : ℕ} (hi : (s.ticked tick low).Occupied i) : s.Occupied i ∧
      (s.ticked tick low).timing.handlers i = setSlot tick (s.timing.handlers i) :=
    have h' := occupied_of_tick hi.1 hi.2
    ⟨⟨hi.1, h'.1⟩, h'.2⟩
  refine ⟨hnow' ▸ hnow, h.regs, ?_, ?_, ?_, ?_, ?_⟩
  · intro i hi
    obtain ⟨hocc, heq⟩ := hstay hi
    obtain ⟨g, hg, hf, -⟩ := h.tick_slot hnow htick hocc
    rw [heq, hnow']
    exact ⟨g, hg, hf⟩
  · intro i j hi hj
    exact h.owner_inj i j (hstay hi).1 (hstay hj).1
  · -- a registration loses its slot only if it is cleared, and then it is overdue
    intro n g hn
    rw [hnow']
    rcases h.stored n g hn with ⟨i, hocc, rfl⟩ | hlate
    · obtain ⟨g', hg', hf, hne⟩ := h.tick_slot hnow htick hocc
      obtain rfl := Option.some.inj (hn.symm.trans hg')
      obtain ⟨reap, heq⟩ := tickSlot_eq tick s.timing hocc.1
      rcases clearSlot_cases tick reap (setSlot tick (s.timing.handlers i)) with hc | ⟨-, hlt, -⟩
      · refine .inl ⟨i, ⟨hocc.1, ?_⟩, rfl⟩
        change (tickSlot tick s.timing slots i).fireTick ≠ 0
        rw [heq, hc]
        exact hne
      · exact .inr fun T hT hlate => hf.overdue htick hnow hlt hT hlate
    · exact .inr fun T hT hlt => hlate T hT (by omega)
  · -- the calls of the tick are those of the slots that are due
    intro T n f
    rw [hnow']
    refine List.mem_append.trans ?_
    rw [h.calls, h.mem_tick_calls htick hnow, ← or_and_right]
    exact and_congr_left' (by omega)
  · rw [TimerRun.ticked]
    refine List.nodup_append'.2 ⟨h.nodup, ?_, ?_⟩
    · rw [dueCalls, List.map_map]
      refine List.Nodup.map_on ?_ (List.nodup_range.filter _)
      intro i hi j hj heq
      have hocc {i : ℕ} (hi : i ∈ (List.range slots).filter
          fun i => (s.timing.handlers i).due tick) : s.Occupied i := by
        obtain ⟨hi, hd⟩ := List.mem_filter.1 hi
        exact ⟨List.mem_range.1 hi, (Beryllium.due_iff.1 hd).1⟩
      exact h.owner_inj i j (hocc hi) (hocc hj) (Prod.mk.inj (Prod.mk.inj heq).2).1
    · -- the calls before are of earlier ticks
      rintro ⟨T, n, f⟩ hold hnew
      have h₁ := ((h.calls T n f).1 hold).1
      have h₂ := ((h.mem_tick_calls htick hnow).1 hnew).1
      omega

/-- Every reachable state of the timers keeps the invariant. -/
theorem firingInv (hs : timerSystem.Reachable s) : FiringInv s := by
  refine hs.of_step ?_ ?_
  · rintro s ⟨t, ht, rfl⟩
    exact firingInv_start ht
  · intro s op s' h hg hstep
    cases op with
    | tick =>
      obtain ⟨tick, low, htick, heq⟩ := h.tick_eq hg
      rw [← Option.some.inj (heq.symm.trans hstep)]
      exact h.ticked hg htick
    | register name d hd r => exact h.register hg.1 hg.2.1 hg.2.2 hstep

/-! ## Timers fire exactly when due -/

/-- A reaper has been called at the current tick. -/
def TimerRun.Reaped (s : TimerRun) : Prop := ∃ n, (s.now, n, .reaper) ∈ s.calls

/-- The timers fire exactly when due. -/
structure FiresWhenDue (s : TimerRun) : Prop where
  /-- Handlers are called at the ticks at which their registrations are due, and at no other. -/
  calls : ∀ T n f, (T, n, f) ∈ s.calls ↔
    T ≤ s.now ∧ ∃ g, s.regs[n]? = some g ∧ g.handler = f ∧ g.firesAt T
  /-- They are called once each. -/
  once : s.calls.Nodup
  /-- No operation gets stuck. -/
  progress : ∀ op, timerSystem.guard s op → ∃ s', s.step op = some s'
  /-- A registration fails if all slots are in use, and only then. -/
  register_full : ∀ name d h r,
    (timingRegisterTimer s.timing name d h r).2 = 0xFF ↔ ∀ i < slots, s.Occupied i
  /-- A registration that fails changes nothing. -/
  register_fail : ∀ name d h r,
    (timingRegisterTimer s.timing name d h r).2 = 0xFF →
      (timingRegisterTimer s.timing name d h r).1 = s.timing
  /-- A registration that succeeds takes the slot it answers with, which was free. -/
  register_slot : ∀ name d h r s', timerSystem.guard s (.register name d h r) →
    s.step (.register name d h r) = some s' → ∀ i, (timingRegisterTimer s.timing name d h r).2 = i →
      i ≠ 0xFF → ¬s.Occupied i ∧ s'.Occupied i ∧ s'.owner i = s.regs.length ∧
      s'.regs[s.regs.length]? = some ⟨s.now, d.toNat, r.toNat, h⟩
  /-- A slot in use keeps its registration. The slot of a one-shot is free again after the first
      tick after it fired at which a reaper runs, and not before. -/
  free : ∀ op s', timerSystem.guard s op → s.step op = some s' → ∀ i, s.Occupied i →
    s'.owner i = s.owner i ∧ ∀ g, s.regs[s.owner i]? = some g → g.repeatRate = 0 →
      g.tick + g.delay < 2 ^ 31 →
        (¬s'.Occupied i ↔ op = .tick ∧ g.tick + g.delay < s'.now ∧ s'.Reaped)

/-- A reaper runs in a tick if one is due. -/
theorem FiringInv.reaped_iff (h : FiringInv s) (htick : tick.toNat = s.now + 1)
    (hnow : s.now + 1 < 2 ^ 31)
    (low : BitVec 32) : (s.ticked tick low).Reaped ↔ reapsIn tick s.timing 0 slots = true := by
  have hnow' : (s.ticked tick low).now = s.now + 1 := htick
  rw [reapsIn_eq_true]
  constructor
  · rintro ⟨n, hmem⟩
    obtain ⟨-, g, hg, hreaper, hfires⟩ := ((h.ticked hnow htick).calls _ n _).1 hmem
    rw [hnow'] at hfires
    rcases h.stored n g hg with ⟨i, hocc, rfl⟩ | hlate
    · obtain ⟨g', hg', hf⟩ := h.slot i hocc
      obtain rfl := Option.some.inj (hg.symm.trans hg')
      exact ⟨i, Nat.zero_le i, hocc.1,
        decide_eq_true ⟨(hf.due_iff htick hocc.2).2 hfires, hf.handler.trans hreaper⟩⟩
    · exact absurd (hlate _ hfires (Nat.lt_succ_self _)) (by omega)
  · rintro ⟨i, -, hi, hreap⟩
    obtain ⟨hd, hreaper⟩ := of_decide_eq_true hreap
    have hocc : s.Occupied i := ⟨hi, (due_iff.1 hd).1⟩
    obtain ⟨g, hg, hf⟩ := h.slot i hocc
    refine ⟨s.owner i, ((h.ticked hnow htick).calls _ _ _).2
      ⟨le_rfl, g, hg, hf.handler.symm.trans hreaper, ?_⟩⟩
    rw [hnow']
    exact (hf.due_iff htick hocc.2).1 hd

/-- The slot of a one-shot is freed by a reaper after it fired. -/
theorem FiringInv.free_iff (h : FiringInv s) (htick : tick.toNat = s.now + 1)
    (hnow : s.now + 1 < 2 ^ 31)
    (low : BitVec 32) (hi : s.Occupied i) (hg : s.regs[s.owner i]? = some g) (hr : g.repeatRate = 0)
    (hlt : g.tick + g.delay < 2 ^ 31) :
    ¬(s.ticked tick low).Occupied i ↔ g.tick + g.delay < s.now + 1 ∧
    (s.ticked tick low).Reaped := by
  obtain ⟨g', hg', hf⟩ := h.slot i hi
  obtain rfl := Option.some.inj (hg.symm.trans hg')
  have hfire : (s.timing.handlers i).fireTick.toNat = g.tick + g.delay := by
    obtain ⟨k, hk⟩ := hf.fires
    rw [hk, hr, Nat.mul_zero, Nat.add_zero]
  have hset : setSlot tick (s.timing.handlers i) = s.timing.handlers i := by
    refine if_neg fun hc => hc.2 (BitVec.eq_of_toNat_eq ?_)
    rw [hf.rate, hr]
    rfl
  rw [h.reaped_iff htick hnow, TimerRun.Occupied, not_and, not_ne_iff, forall_prop_of_true hi.1]
  change (tickSlot tick s.timing slots i).fireTick = 0 ↔ _
  cases hd : (s.timing.handlers i).due tick with
  | true =>
    -- it fires at this tick, and is not cleared by it
    have heq := congrArg BitVec.toNat (due_iff.1 hd).2
    rw [hfire, htick] at heq
    rw [tickSlot_due hi.1 hd, hset, clearSlot_due hd]
    exact ⟨fun h₀ => absurd h₀ hi.2, fun h' => absurd h'.1 (by omega)⟩
  | false =>
    -- the reaper clears it if its tick has passed
    have hslt : (s.timing.handlers i).fireTick.slt tick = true ↔ g.tick + g.delay < s.now + 1 := by
      rw [slt_iff (htick ▸ hnow), hfire, htick]
      omega
    rw [tickSlot_not_due hi.1 hd, clearSlot, ← hslt]
    split_ifs with hc
    · exact ⟨fun _ => ⟨hc.2.2, hc.1⟩, fun _ => rfl⟩
    · exact ⟨fun h₀ => absurd h₀ hi.2, fun h' => absurd ⟨h'.2, hi.2, h'.1⟩ hc⟩

theorem FiringInv.progress (h : FiringInv s) (op : TimerOp) (hg : timerSystem.guard s op) :
    ∃ s', s.step op = some s' := by
  cases op with
  | tick =>
    obtain ⟨tick, low, -, heq⟩ := h.tick_eq hg
    exact ⟨_, heq⟩
  | register name d hd r =>
    rcases s.register_cases name d r hd with ⟨_, _, _, _, heq⟩ | ⟨_, _, heq⟩
    · exact ⟨_, heq⟩
    · exact ⟨_, heq⟩

/-- A registration answers `0xFF` if there is no free slot, and changes nothing then. -/
theorem TimerRun.register_full (s : TimerRun) (name : ℕ) (d r : BitVec 32) (hd : Handler) :
    ((timingRegisterTimer s.timing name d hd r).2 = 0xFF ↔ ∀ i < slots, s.Occupied i) ∧
    ((timingRegisterTimer s.timing name d hd r).2 = 0xFF →
      (timingRegisterTimer s.timing name d hd r).1 = s.timing) := by
  rcases s.register_cases name d r hd with ⟨i, hi, hfree, heq, -⟩ | ⟨hfull, heq, -⟩
  · have hne : i ≠ 0xFF := by
      rw [slots] at hi
      exact hi.ne
    rw [heq]
    exact ⟨⟨fun h' => absurd h' hne, fun h' => absurd hfree (h' i hi).2⟩, fun h' => absurd h' hne⟩
  · rw [heq]
    exact ⟨⟨fun _ => hfull, fun _ => rfl⟩, fun _ => rfl⟩

/-- A registration that succeeds takes a slot that was free. -/
theorem FiringInv.register_slot (h : FiringInv s) {name : ℕ} {d r : BitVec 32} {hd : Handler}
    (hg : timerSystem.guard s (.register name d hd r))
    (hstep : s.step (.register name d hd r) = some s')
    (hret : (timingRegisterTimer s.timing name d hd r).2 = i) (hi : i ≠ 0xFF) :
    ¬s.Occupied i ∧ s'.Occupied i ∧ s'.owner i = s.regs.length ∧
      s'.regs[s.regs.length]? = some ⟨s.now, d.toNat, r.toNat, hd⟩ := by
  rcases s.register_cases name d r hd with ⟨j, hj, hfree, heq, hs'⟩ | ⟨-, heq, -⟩
  · obtain rfl := heq.symm.trans hret
    -- the slot that was free is occupied, as the tick stored is not 0
    rw [← Option.some.inj (hs'.symm.trans hstep)]
    refine ⟨fun h' => h'.2 hfree, ⟨hj, ?_⟩, Function.update_self _ _ _,
      getElem?_snoc.2 (.inr ⟨rfl, rfl⟩)⟩
    rw [TimerRun.inserted, Timing.set]
    dsimp only
    rw [Function.update_self]
    exact (h.fireTick_eq hg.1).2.2
  · rw [heq] at hret
    exact absurd hret.symm hi

/-- A registration leaves the slots in use as they are. -/
theorem TimerRun.register_occupied {name : ℕ} {d r : BitVec 32} {hd : Handler}
    (hstep : s.step (.register name d hd r) = some s') (hi : s.Occupied i) :
    s'.owner i = s.owner i ∧ s'.Occupied i := by
  rcases s.register_cases name d r hd with ⟨j, hj, hfree, -, heq⟩ | ⟨-, -, heq⟩
  · rw [← Option.some.inj (heq.symm.trans hstep)]
    have hij : i ≠ j := fun h' => hi.2 (h' ▸ hfree)
    have hsame : (s.inserted j name d hd r).timing.handlers i = s.timing.handlers i :=
      Function.update_of_ne hij _ _
    exact ⟨Function.update_of_ne hij _ _, hi.1, hsame ▸ hi.2⟩
  · rw [← Option.some.inj (heq.symm.trans hstep)]
    exact ⟨rfl, hi⟩

/-- In every run from `timing_init`, timers fire exactly when due: a registration at tick `t` is
    called at `t + d` and every `r` ticks after it, whatever the other timers are. -/
theorem timers_fire (hs : timerSystem.Reachable s) : FiresWhenDue s := by
  have h := firingInv hs
  refine ⟨h.calls, h.nodup, h.progress, fun name d hd r => (s.register_full name d r hd).1,
    fun name d hd r => (s.register_full name d r hd).2, fun name d hd r s' hg hstep i hret hi =>
      h.register_slot hg hstep hret hi, fun op s' hg hstep i hi => ?_⟩
  cases op with
  | tick =>
    obtain ⟨tick, low, htick, heq⟩ := h.tick_eq hg
    rw [← Option.some.inj (heq.symm.trans hstep)]
    refine ⟨rfl, fun g hg' hr hlt => ?_⟩
    rw [h.free_iff htick hg low hi hg' hr hlt, show (s.ticked tick low).now = s.now + 1 from htick]
    exact ⟨fun h' => ⟨rfl, h'⟩, fun h' => h'.2⟩
  | register name d hd r =>
    obtain ⟨howner, hocc⟩ := TimerRun.register_occupied hstep hi
    exact ⟨howner, fun g _ _ _ => ⟨fun h' => absurd hocc h', fun h' => TimerOp.noConfusion h'.1⟩⟩

/-- A timer registered with delay 1 and rate 5 is called at the first tick. -/
theorem timers_fire_registered : ∃ s,
    timerSystem.Run (.start bootTiming) [.register 0 1 (.fn 0) 5, .tick] s ∧ FiresWhenDue s ∧
      (1, 1, .fn 0) ∈ s.calls := by
  have hinit : timerSystem.init (.start bootTiming) := ⟨bootTiming, by decide, rfl⟩
  have hguard : timerSystem.guard (.start bootTiming) (.register 0 1 (.fn 0) 5) :=
    ⟨by decide, by decide, Handler.noConfusion⟩
  rcases (TimerRun.start bootTiming).register_cases 0 1 5 (.fn 0) with ⟨i, hi, hfree, -, hs⟩ |
    ⟨hfull, -⟩
  · set s := (TimerRun.start bootTiming).inserted i 0 1 (.fn 0) 5
    have hrun : timerSystem.Run (.start bootTiming) [.register 0 1 (.fn 0) 5] s :=
      .cons hguard hs (.nil s)
    have htick : timerSystem.guard s .tick := show 0 + 1 < 2 ^ 31 by decide
    obtain ⟨tick, low, hnow, hs'⟩ := (firingInv ⟨_, _, hinit, hrun⟩).tick_eq htick
    have hrun' := hrun.snoc htick hs'
    have hfires := timers_fire ⟨_, _, hinit, hrun'⟩
    refine ⟨_, hrun', hfires, (hfires.calls 1 1 _).2 ⟨?_, _, rfl, rfl, 0, rfl⟩⟩
    exact hnow.ge
  · exact absurd rfl (hfull 1 (by decide)).2

end Beryllium

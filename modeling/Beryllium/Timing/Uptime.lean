import Beryllium.Timing.Handlers

/-!
# The uptime

The two counters of `kernel/timer.c`: `timer_hi`, the ticks of the device in use, and
`timer_low`, its overflows by a second. `timer_getLow` returns the one, and `timer_getUptime`
divides the other.

* `clock_step_cases`: only ticks of the device in use count, whatever the handlers do;
* `Clocked.step`: the counters agree, up to the tick that wraps `timer_hi`;
* `not_agree_of_wrap`: that tick is counted as a whole second. `2 ^ 32` is no multiple of 1000.
-/

namespace Beryllium

open Machine

/-- `timer_switchDevice`. The call of itself in the default case is written out. -/
def timerSwitchDevice (s : Timing) (deviceId : BitVec 32) : Timing :=
  if deviceId = 0x0 then { s with device := 0, deviceResoulution := 1 }
  else if deviceId = 0x2 then { s with device := 2, deviceResoulution := 1 }
  else { s with device := 0, deviceResoulution := 1 }

/-- `timer_getLow` -/
def timerGetLow (s : Timing) : BitVec 32 := s.timerLow

/-- `timer_getUptime` -/
def timerGetUptime (s : Timing) : BitVec 32 := s.timerHi / (s.deviceResoulution * 1000)

/-- The operations: those of the timers, and `timer_switchDevice`. -/
inductive ClockOp
  | timers (op : HandlerOp)
  | switchDevice (deviceId : BitVec 32)

/-- A tick of the device in use. -/
def ClockOp.Selected (s : Timing) : ClockOp → Prop
  | .timers (.tick deviceId) => deviceId = s.device
  | _ => False

/-- The runs of the clock from the start on, with any table of timers. A handler may switch the
    device as well. -/
def clockSystem : System HandlerRun ClockOp where
  init s := ∃ handlers, s = ⟨{ bootTiming with handlers }, .idle, []⟩
  guard s op := match op with
    | .timers op => handlerSystem.guard s op
    | .switchDevice _ => s.place = .idle ∨ ∃ i, s.place = .handler i
  step s op := match op with
    | .timers op => s.step op
    | .switchDevice deviceId => some { s with timing := timerSwitchDevice s.timing deviceId }

/-- The two counters agree. -/
def Agree (s : HandlerRun) : Prop := timerGetLow s.timing = timerGetUptime s.timing

/-- The step is no tick that wraps `timer_hi`. -/
def HiFits (s : HandlerRun) (op : ClockOp) : Prop :=
  ¬(op.Selected s.timing ∧ s.timing.timerHi = 0xFFFFFFFF)

/-- `timer_hi` changes by one in a step that is a tick of the device in use, and in no other. -/
def CountsTick (s : HandlerRun) (op : ClockOp) (s' : HandlerRun) : Prop :=
  (op.Selected s.timing → s'.timing.timerHi = s.timing.timerHi + 1) ∧
  (¬op.Selected s.timing → s'.timing.timerHi = s.timing.timerHi)

variable {s s' : HandlerRun} {op : ClockOp} {ops : List ClockOp} {t t' : Timing} {i : ℕ}
  {x y : BitVec 32}

/-! ## One step -/

/-- The fields that `timer.c` owns are the same. -/
structure SameClock (t t' : Timing) : Prop where
  hi : t'.timerHi = t.timerHi
  low : t'.timerLow = t.timerLow
  device : t'.device = t.device
  resolution : t'.deviceResoulution = t.deviceResoulution

theorem SameClock.refl (t : Timing) : SameClock t t := ⟨rfl, rfl, rfl, rfl⟩

/-- Setting a slot again touches the table only. -/
theorem rearm_sameClock (t : Timing) (i : ℕ) : SameClock t (rearm t i) := by
  rw [rearm]
  split_ifs
  · exact ⟨rfl, rfl, rfl, rfl⟩
  · exact .refl t

theorem TableOp.apply_sameClock (o : TableOp) (t : Timing) : SameClock t (o.apply t) := by
  cases o with
  | register name d h r =>
    rw [apply]
    rcases timingRegisterTimer_cases t name d r h with ⟨i, -, -, -, heq⟩ | ⟨-, heq⟩
    · rw [heq]
      exact ⟨rfl, rfl, rfl, rfl⟩
    · rw [heq]
      exact .refl t
  | deregister h =>
    rw [apply]
    rcases timingDeregisterTimer_cases t h with ⟨i, -, -, -, heq⟩ | ⟨-, heq⟩
    · rw [heq]
      exact ⟨rfl, rfl, rfl, rfl⟩
    · rw [heq]
      exact .refl t
  | removeIndex i => exact ⟨rfl, rfl, rfl, rfl⟩

/-- So does a visit of a slot: the only handler that is called at once is the reaper. -/
theorem visit_sameClock (hv : s.visit i = some s') : SameClock s.timing s'.timing := by
  cases hd : (s.timing.handlers i).due s.timing.timerHi with
  | false =>
    obtain rfl := Option.some.inj ((visit_not_due hd).symm.trans hv)
    exact .refl _
  | true =>
    rw [visit_due hd] at hv
    obtain ⟨-, ⟨-, htiming, -⟩ | ⟨-, htiming, -⟩⟩ := callSlot_cases hv
    · have hreap : SameClock s.timing (timingReaper s.timing) := ⟨rfl, rfl, rfl, rfl⟩
      obtain ⟨h₁, h₂, h₃, h₄⟩ := rearm_sameClock (timingReaper s.timing) i
      rw [htiming]
      exact ⟨h₁.trans hreap.hi, h₂.trans hreap.low, h₃.trans hreap.device,
        h₄.trans hreap.resolution⟩
    · rw [htiming]
      exact .refl _

/-- The clock after a tick that counts. -/
structure Ticked (t t' : Timing) : Prop where
  hi : t'.timerHi = t.timerHi + 1
  low : t'.timerLow =
    if (t.timerHi + 1) % (t.deviceResoulution * 1000) = 0 then t.timerLow + 1 else t.timerLow
  device : t'.device = t.device
  resolution : t'.deviceResoulution = t.deviceResoulution

/-- What a step does to the clock: a tick of the device in use counts, `timer_switchDevice` keeps
    the counters, and all other steps leave the clock alone. -/
theorem clock_step_cases (hst : clockSystem.step s op = some s') :
    (op.Selected s.timing ∧ Ticked s.timing s'.timing) ∨
    (¬op.Selected s.timing ∧ (∃ deviceId, op = .switchDevice deviceId) ∧
      s'.timing.timerHi = s.timing.timerHi ∧ s'.timing.timerLow = s.timing.timerLow ∧
      s'.timing.deviceResoulution = 1) ∨
    (¬op.Selected s.timing ∧ SameClock s.timing s'.timing) := by
  cases op with
  | switchDevice deviceId =>
    obtain rfl := Option.some.inj hst
    refine .inr (.inl ⟨id, ⟨deviceId, rfl⟩, ?_⟩)
    dsimp only [timerSwitchDevice]
    split_ifs <;> exact ⟨rfl, rfl, rfl⟩
  | timers op =>
    have hst' : handlerSystem.step s op = some s' := hst
    rcases handler_step_cases hst' with
      ⟨deviceId, rfl, rfl⟩ | ⟨i, rfl, -, hvisit⟩ | ⟨i, rfl, -, rfl⟩ | ⟨o, rfl, rfl⟩
    · by_cases hdev : deviceId = s.timing.device
      · refine .inl ⟨hdev, ?_⟩
        rw [HandlerRun.tick, if_pos hdev]
        exact ⟨rfl, rfl, rfl, rfl⟩
      · refine .inr (.inr ⟨hdev, ?_⟩)
        rw [HandlerRun.tick, if_neg hdev]
        exact .refl _
    · exact .inr (.inr ⟨id, visit_sameClock hvisit⟩)
    · exact .inr (.inr ⟨id, rearm_sameClock _ i⟩)
    · exact .inr (.inr ⟨id, o.apply_sameClock _⟩)

theorem countsTick (hst : clockSystem.step s op = some s') : CountsTick s op s' := by
  rcases clock_step_cases hst with ⟨hsel, htick⟩ | ⟨hsel, -, hhi, -⟩ | ⟨hsel, hsame⟩
  · exact ⟨fun _ => htick.hi, fun hn => absurd hsel hn⟩
  · exact ⟨fun h => absurd h hsel, fun _ => hhi⟩
  · exact ⟨fun h => absurd h hsel, fun _ => hsame.hi⟩

/-! ## The counters -/

/-- `timer_low` is `timer_hi` in whole seconds. -/
structure Clocked (s : HandlerRun) : Prop where
  resolution : s.timing.deviceResoulution = 1
  low : s.timing.timerLow.toNat = s.timing.timerHi.toNat / 1000

theorem agree_iff (hres : s.timing.deviceResoulution = 1) :
    Agree s ↔ s.timing.timerLow.toNat = s.timing.timerHi.toNat / 1000 := by
  rw [Agree, timerGetLow, timerGetUptime, hres, ← BitVec.toNat_inj, BitVec.toNat_udiv]
  rfl

theorem Clocked.agree (h : Clocked s) : Agree s := (agree_iff h.resolution).2 h.low

theorem clocked_init (hs : clockSystem.init s) : Clocked s := by
  obtain ⟨handlers, rfl⟩ := hs
  exact ⟨rfl, (Nat.zero_div 1000).symm⟩

theorem toNat_succ (h : x.toNat < 4294967295) : (x + 1).toNat = x.toNat + 1 := by
  rw [BitVec.toNat_add]
  exact Nat.mod_eq_of_lt (Nat.succ_lt_succ h)

/-- The low counter after a tick, if the high one does not wrap. -/
theorem low_tick (hlow : y.toNat = x.toNat / 1000) (hx : x ≠ 0xFFFFFFFF) :
    (if (x + 1) % (1 * 1000) = 0 then y + 1 else y).toNat = (x + 1).toNat / 1000 := by
  have hlt := x.isLt
  have hx' : x.toNat ≠ 4294967295 := fun heq => hx (BitVec.eq_of_toNat_eq heq)
  have hsucc : (x + 1).toNat = x.toNat + 1 := toNat_succ (by omega)
  have hsec : (x + 1) % (1 * 1000) = 0 ↔ (x.toNat + 1) % 1000 = 0 := by
    rw [← BitVec.toNat_inj, BitVec.toNat_umod, hsucc]
    rfl
  rw [hsucc]
  split_ifs with hc
  · rw [hsec] at hc
    rw [toNat_succ (by omega), hlow]
    omega
  · rw [hsec] at hc
    omega

theorem Clocked.step (h : Clocked s) (hw : HiFits s op) (hst : clockSystem.step s op = some s') :
    Clocked s' := by
  rcases clock_step_cases hst with ⟨hsel, htick⟩ | ⟨-, -, hhi, hlow, hres⟩ | ⟨-, hsame⟩
  · refine ⟨htick.resolution.trans h.resolution, ?_⟩
    rw [htick.low, htick.hi, h.resolution]
    exact low_tick h.low fun hmax => hw ⟨hsel, hmax⟩
  · exact ⟨hres, by rw [hhi, hlow, h.low]⟩
  · exact ⟨hsame.resolution.trans h.resolution, by rw [hsame.hi, hsame.low, h.low]⟩

/-- The tick that wraps `timer_hi` is counted by `timer_low` as the end of a second. -/
theorem not_agree_of_wrap (h : Clocked s) (hw : ¬HiFits s op)
    (hst : clockSystem.step s op = some s') : ¬Agree s' := by
  obtain ⟨hsel, hmax⟩ := not_not.1 hw
  rcases clock_step_cases hst with ⟨-, htick⟩ | ⟨hn, -⟩ | ⟨hn, -⟩
  · have hlow := h.low
    rw [hmax] at hlow
    rw [agree_iff (htick.resolution.trans h.resolution), htick.low, htick.hi, h.resolution, hmax,
      if_pos (by decide), BitVec.toNat_add, hlow]
    decide
  · exact absurd hsel hn
  · exact absurd hsel hn

/-! ## Runs -/

/-- `timer_hi` counts in the step, and the counters agree after it. -/
def ClockStep (s : HandlerRun) (op : ClockOp) (s' : HandlerRun) : Prop :=
  CountsTick s op s' ∧ Agree s'

theorem eachStep_clockStep_iff (h₀ : clockSystem.init s) (hr : clockSystem.Run s ops s') :
    clockSystem.EachStep ClockStep s ops ↔ (clockSystem.restrict HiFits).Run s ops s' := by
  refine hr.eachStep_iff (fun t op t' h _ hw hst => ?_) (fun t op t' h _ hw hst hstep => ?_)
    (clocked_init h₀)
  · have hnext := h.step hw hst
    exact ⟨hnext, countsTick hst, hnext.agree⟩
  · exact not_agree_of_wrap h hw hst hstep.2

/-- In a run from the start each step counts a tick of the device in use in `timer_hi`, and no
    other, and the two counters agree before and after it, if and only if none of its ticks
    wraps `timer_hi`. -/
theorem uptime_agrees_iff (h₀ : clockSystem.init s) (hr : clockSystem.Run s ops s') :
    (Agree s ∧ clockSystem.EachStep ClockStep s ops) ↔
    (clockSystem.restrict HiFits).Run s ops s' := by
  rw [eachStep_clockStep_iff h₀ hr]
  exact and_iff_right (clocked_init h₀).agree

/-- A switch to the other device, and a tick of it. -/
theorem uptime_agrees_iff_tick :
    ∃ ops s', clockSystem.Run ⟨bootTiming, .idle, []⟩ ops s' ∧ ops.length = 2 ∧
    clockSystem.EachStep ClockStep ⟨bootTiming, .idle, []⟩ ops := by
  have h₀ : clockSystem.init ⟨bootTiming, .idle, []⟩ := ⟨bootTiming.handlers, rfl⟩
  have hr : clockSystem.Run ⟨bootTiming, .idle, []⟩ [.switchDevice 2, .timers (.tick 2)] _ :=
    .cons (.inl rfl) rfl (.cons rfl rfl (.nil _))
  refine ⟨_, _, hr, rfl, ((uptime_agrees_iff h₀ hr).2 ?_).2⟩
  exact .cons ⟨.inl rfl, fun hc => hc.1⟩ rfl
    (.cons ⟨rfl, fun hc => absurd hc.2 (by decide)⟩ rfl (.nil _))

/-- The steps of the timers are steps of the clock. They leave the device in use. -/
theorem run_timers {ops : List HandlerOp} (hr : handlerSystem.Run s ops s') :
    clockSystem.Run s (ops.map .timers) s' ∧ s'.timing.device = s.timing.device := by
  induction hr with
  | nil s => exact ⟨.nil s, rfl⟩
  | @cons s t s' op ops hg hst _ ih =>
    have hst' : clockSystem.step s (.timers op) = some t := hst
    have hdev : t.timing.device = s.timing.device := by
      rcases clock_step_cases hst' with ⟨-, htick⟩ | ⟨-, ⟨_, hop⟩, -⟩ | ⟨-, hsame⟩
      · exact htick.device
      · cases hop
      · exact hsame.device
    exact ⟨.cons hg hst' ih.1, ih.2.trans hdev⟩

/-- There is a run of `n` ticks of the first device. -/
theorem run_ticks (n : ℕ) :
    ∃ ops s, clockSystem.Run ⟨bootTiming, .idle, []⟩ ops s ∧ s.place = .idle ∧
    s.timing.device = 0 ∧ NoNullHandler s.timing ∧ s.timing.timerHi = BitVec.ofNat 32 n := by
  induction n with
  | zero => exact ⟨[], _, .nil _, rfl, rfl, fun _ _ _ => rfl, rfl⟩
  | succ n ih =>
    obtain ⟨ops, s, hr, hidle, hdev, hnull, hhi⟩ := ih
    have htick : handlerSystem.Run s [.tick 0] (s.tick 0) := .cons hidle rfl (.nil _)
    have hticked : s.tick 0 = ⟨(s.tick 0).timing, .loop 0, s.calls⟩ ∧
        NoNullHandler (s.tick 0).timing ∧ (s.tick 0).timing.timerHi = s.timing.timerHi + 1 := by
      rw [HandlerRun.tick, if_pos hdev.symm]
      exact ⟨rfl, hnull, rfl⟩
    obtain ⟨hplace, hnull', hhi'⟩ := hticked
    obtain ⟨ops', t', new, -, hloop, hnull'', hhi''⟩ :=
      hnull'.run_to_idle (show 0 + (254 + 1) = slots from rfl) s.calls
    rw [← hplace] at hloop
    obtain ⟨hrun, hdev'⟩ := run_timers (htick.append hloop)
    refine ⟨_, _, hr.append hrun, rfl, hdev'.trans hdev, hnull'', ?_⟩
    rw [hhi'', hhi', hhi, BitVec.ofNat_add]
    rfl

/-- After `2 ^ 32` ticks the counters do not agree. -/
theorem uptime_agrees_false :
    ¬∀ s ops s', clockSystem.init s → clockSystem.Run s ops s' → Agree s' := by
  intro h
  have h₀ : clockSystem.init ⟨bootTiming, .idle, []⟩ := ⟨bootTiming.handlers, rfl⟩
  obtain ⟨ops, s, hr, hidle, hdev, -, hhi⟩ := run_ticks 4294967295
  have hlast : clockSystem.Run ⟨bootTiming, .idle, []⟩ (ops ++ [.timers (.tick 0)]) (s.tick 0) :=
    hr.snoc hidle rfl
  have hall : clockSystem.EachStep ClockStep ⟨bootTiming, .idle, []⟩ (ops ++ [.timers (.tick 0)]) :=
    fun xs op ys t t' hops ht hst => by
      have hg : clockSystem.guard t op := by
        rw [hops] at hlast
        obtain ⟨u, hu, _ | ⟨hg, -, -⟩⟩ := hlast.of_append
        rwa [hu.unique ht] at hg
      exact ⟨countsTick hst, h _ _ t' h₀ (ht.snoc hg hst)⟩
  obtain ⟨t, ht, hg, -⟩ := ((eachStep_clockStep_iff h₀ hlast).1 hall).of_snoc
  obtain rfl : t = s := ht.of_restrict.unique hr
  exact hg.2 ⟨hdev.symm, hhi⟩

end Beryllium

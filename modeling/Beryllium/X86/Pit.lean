import Beryllium.Machine.Counter
import Beryllium.Timing.Uptime
import Beryllium.X86.Irq

/-!
# The interval timer

The driver of `arch/x86/drivers/pit.c`, from the counter that it programs through the interrupt
controllers to the clock of `kernel/timer.c`. The output of the counter requests an interrupt on
line 0 each time that it rises; the request may be withdrawn before it is accepted, as it is by some
controllers when the output falls. Between the three bytes that program the counter, anything may
happen that may happen later.

* `uptime_clocks`: `timer_hi` is the number of the requests of the counter, but for those that were
  lost or are still pending. These are the ones from before the last byte of `pit_phase`, among them
  that of the control word if the output was low, and one for each period since. A second of
  `timer_getUptime` is therefore 1193000 clocks, where `pit_phase` takes the counter to have 1193180
  in a second.
-/

namespace Beryllium

attribute [local instance] Machine.neZero_lines

open Machine I386

/-- `pit_phase`, as the bytes that it writes to the ports. -/
def pitPhase (hz : ℕ) : List (BitVec 16 × BitVec 8) :=
  let divisor := 1193180 / hz
  [(0x43, 0x36), (0x40, BitVec.ofNat 8 (divisor &&& 0xFF)), (0x40, BitVec.ofNat 8 (divisor >>> 8))]

/-- The interrupt handlers: `timer_handler`, and others. -/
inductive KernelHandler
  | timer
  | other (id : ℕ)
  deriving DecidableEq

/-- The counter, and what is still to be written to it. In addition, its requests since `pit_start`,
    with one that was pending then, those of them that were made before the last byte, and the
    clocks since. -/
structure PitDriver where
  pit : Counter
  writes : List (BitVec 16 × BitVec 8)
  requests : ℕ
  before : ℕ
  clocks : ℕ

/-- The counter, the interrupt controllers with the handlers, and the timers. In addition, the
    requests of the counter that were lost. -/
structure Ticking where
  driver : PitDriver
  irq : Irq KernelHandler
  timing : Timing
  timerTicks : BitVec 32
  lost : ℕ

/-- `timer_handler` -/
def timerHandler (s : Ticking) : Option Ticking := do
  let (timing, _) ← timerRecieveTick s.timing 0
  return { s with timing := timing, timerTicks := s.timerTicks + 1 }

/-- There is a request on line 0. -/
def Ticking.pending (s : Ticking) : Bool := decide (0 ∈ s.irq.pics.master.request)

/-- `pit_start`, up to the bytes of `pit_phase`. -/
def pitStart (s : Ticking) : Ticking :=
  { s with
    irq := registerInterruptHandler s.irq 32 (some .timer)
    driver := ⟨s.driver.pit, pitPhase 1000, s.pending.toNat, s.pending.toNat, 0⟩ }

/-- The handlers that are called. -/
def Ticking.runCalls (s : Ticking) (calls : List (KernelHandler × Regs)) : Option Ticking :=
  calls.foldlM (fun s c => match c.1 with
    | .timer => timerHandler s
    | .other _ => some s) s

/-- The interrupts other than those of the counter may do anything, but to the handler of the
    counter. -/
inductive TickingOp
  | outb
  | clock
  | irq (op : IrqOp KernelHandler)
  | timers (op : TableOp)

/-- What happens to the interrupts besides the requests of the counter. -/
def OtherIrq : IrqOp KernelHandler → Prop
  | .register n h => n ≠ 32 ∧ h ≠ some .timer
  | .deregister n => n ≠ 32
  | .raise k => k.val ≠ 0
  | _ => True

/-- A step of the interrupts, and the handlers that it calls. -/
def Ticking.irqStep (s : Ticking) (op : IrqOp KernelHandler) : Option Ticking := do
  let irq ← (irqSystem KernelHandler).step s.irq op
  let lost := match op with
    | .raise k | .withdraw k => if k.val = 0 then s.pending.toNat else 0
    | _ => 0
  { s with irq := irq, lost := s.lost + lost }.runCalls (irq.calls.drop s.irq.calls.length)

/-- The output of the counter requests an interrupt when it rises. -/
def Ticking.edge (s : Ticking) (rises : Bool) : Option Ticking :=
  if rises then
    { s with driver := { s.driver with requests := s.driver.requests + 1 } }.irqStep
      (.raise ⟨0, Nat.zero_lt_succ 15⟩)
  else some s

/-- The next byte of `pit_phase`. -/
def Ticking.outb (s : Ticking) : Option Ticking :=
  match s.driver.writes with
  | [] => none
  | (port, v) :: writes =>
    let (pit, rises) := s.driver.pit.outb port v
    let requests := s.driver.requests
    { s with driver := ⟨pit, writes, requests, requests + rises.toNat, 0⟩ }.edge rises

/-- The runs from `pit_start` on. -/
def tickingSystem : System Ticking TickingOp where
  init s := ∃ s₀ : Ticking, (irqSystem KernelHandler).Reachable s₀.irq ∧
    (∀ n, s₀.irq.interruptHandlers n ≠ some .timer) ∧ s₀.irq.calls.countP (·.1 = .timer) = 0 ∧
    s₀.timing.timerHi = 0 ∧ s₀.timing.device = 0 ∧ s₀.timing.deviceResoulution = 1 ∧
    s₀.lost = 0 ∧ s = pitStart s₀
  guard s op := s.irq.halted = none ∧
    match op with
    | .irq op => (irqSystem KernelHandler).guard s.irq op ∧ OtherIrq op
    | _ => True
  step s op :=
    match op with
    | .outb => s.outb
    | .clock =>
      let (pit, rises) := s.driver.pit.clock
      { s with driver := { s.driver with pit := pit, clocks := s.driver.clocks + 1 } }.edge rises
    | .irq op => s.irqStep op
    | .timers op => some { s with timing := op.apply s.timing }

/-! ## The counter -/

/-- The counter with the count of `pit_start`. -/
def milliseconds : Counter := ⟨0x36, none, 1193, 0, true⟩

theorem milliseconds_after (k : ℕ) : milliseconds.after k =
    ({ milliseconds with phase := k % 1193, out := milliseconds.high (k % 1193) }, k / 1193) :=
  Counter.after_eq (by decide) rfl (by decide) rfl rfl k

theorem outb_milliseconds :
    Counter.outb ⟨0x36, some 0xA9, 0, 0, true⟩ 0x40 0x04 = (milliseconds, false) := by
  simp [Counter.outb, milliseconds]

/-- What the counter and its requests are after each byte of `pit_phase`. -/
inductive PitDriver.Programmed (d : PitDriver) : Prop
  | start (hwrites : d.writes = pitPhase 1000)
  | control (hwrites : d.writes = (pitPhase 1000).tail) (hpit : d.pit = ⟨0x36, none, 0, 0, true⟩)
  | low (hwrites : d.writes = (pitPhase 1000).tail.tail)
      (hpit : d.pit = ⟨0x36, some 0xA9, 0, 0, true⟩)
  | high (hwrites : d.writes = []) (hpit : d.pit = (milliseconds.after d.clocks).1)
      (hrequests : d.requests = d.before + d.clocks / 1193)

/-! ## The timers -/

variable {s s' : Ticking} {t t' : Timing} {op : IrqOp KernelHandler} {n : ℕ}

theorem cyclicStep_sameClock {tick : BitVec 32} {c c' : List (ℕ × Handler)} {i : ℕ}
    (h : cyclicStep tick (t, c) i = some (t', c')) : SameClock t t' := by
  rw [cyclicStep] at h
  dsimp only at h
  split_ifs at h with h₀ h₁
  · cases h
    exact .refl t
  · obtain ⟨u, hu, h⟩ := Option.bind_eq_some_iff.1 h
    have hcall : SameClock t u := by
      cases hh : (t.handlers i).handler with
      | null =>
        rw [hh] at hu
        cases hu
      | reaper =>
        rw [hh] at hu
        cases hu
        exact ⟨rfl, rfl, rfl, rfl⟩
      | fn id =>
        rw [hh] at hu
        obtain rfl := Option.some.inj hu
        exact .refl _
    cases h
    split_ifs
    · exact ⟨hcall.hi, hcall.low, hcall.device, hcall.resolution⟩
    · exact hcall
  · cases h
    exact .refl t

theorem foldlM_cyclicStep_sameClock {tick : BitVec 32} {is : List ℕ}
    {c c' : List (ℕ × Handler)}
    (h : is.foldlM (cyclicStep tick) (t, c) = some (t', c')) : SameClock t t' := by
  induction is generalizing t c with
  | nil =>
    cases h
    exact .refl _
  | cons i is ih =>
    obtain ⟨⟨u, d⟩, hu, h⟩ := Option.bind_eq_some_iff.1 h
    have hstep := cyclicStep_sameClock hu
    have hrest := ih h
    exact ⟨hrest.hi.trans hstep.hi, hrest.low.trans hstep.low, hrest.device.trans hstep.device,
      hrest.resolution.trans hstep.resolution⟩

/-- A tick of the device in use, whatever the timers do. -/
theorem timerHandler_clock (hdev : s.timing.device = 0) (h : timerHandler s = some s') :
    s'.irq = s.irq ∧ s'.driver = s.driver ∧ s'.lost = s.lost ∧
      s'.timing.timerHi = s.timing.timerHi + 1 ∧ s'.timing.device = 0 ∧
      s'.timing.deviceResoulution = s.timing.deviceResoulution := by
  obtain ⟨⟨t, c⟩, ht, h⟩ := Option.bind_eq_some_iff.1 h
  cases h
  rw [timerRecieveTick, if_pos hdev.symm] at ht
  have hsame := foldlM_cyclicStep_sameClock ht
  exact ⟨rfl, rfl, rfl, hsame.hi, hsame.device.trans hdev, hsame.resolution⟩

/-! ## The interrupts -/

/-- How often `timer_handler` was called. -/
def Ticking.ticks (s : Ticking) : ℕ := s.irq.calls.countP (·.1 = .timer)

/-- Of `n` requests of the counter, each was accepted, is pending or was lost. -/
structure Ticking.Counts (s : Ticking) (n : ℕ) : Prop where
  lines : ∃ x, IsLines s.irq x
  handler : s.irq.interruptHandlers 32 = some .timer
  others : ∀ m, m ≠ 32 → s.irq.interruptHandlers m ≠ some .timer
  device : s.timing.device = 0
  resolution : s.timing.deviceResoulution = 1
  hi : s.timing.timerHi = BitVec.ofNat 32 s.ticks
  count : s.ticks + s.pending.toNat + s.lost = n

theorem pending_eq {x : Lines KernelHandler} (h : IsLines s.irq x) :
    s.pending = decide (0 ∈ x.pending) :=
  decide_eq_decide.2 (h.master 0)

theorem runCalls_other {calls : List (KernelHandler × Regs)} (h : ∀ c ∈ calls, c.1 ≠ .timer) :
    s.runCalls calls = some s := by
  induction calls with
  | nil => rfl
  | cons c calls ih =>
    obtain ⟨hc, hcalls⟩ := List.forall_mem_cons.1 h
    rw [Ticking.runCalls, List.foldlM_cons]
    cases hh : c.1 with
    | timer => exact absurd hh hc
    | other id => exact ih hcalls

theorem call_ne_timer {o : Option KernelHandler} (h : o ≠ some .timer) (r : Regs) :
    ∀ c ∈ (o.map fun f => (f, r)).toList, c.1 ≠ .timer := by
  intro c hc
  obtain ⟨f, hf, rfl⟩ : ∃ f, o = some f ∧ (f, r) = c := by simpa using hc
  exact fun he => h (hf.trans (congrArg some he))

/-- Interrupts whose handlers are not that of the counter. -/
theorem Ticking.Counts.silent {m lost : ℕ} {irq : Irq KernelHandler}
    {new : List (KernelHandler × Regs)}
    (h : s.Counts n) (hlines : ∃ x, IsLines irq x)
    (hhandler : irq.interruptHandlers 32 = some .timer)
    (hothers : ∀ m, m ≠ 32 → irq.interruptHandlers m ≠ some .timer)
    (hcalls : irq.calls = s.irq.calls ++ new) (hnew : ∀ c ∈ new, c.1 ≠ .timer)
    (hcount : ({ s with irq := irq } : Ticking).pending.toNat + lost + n = s.pending.toNat + m)
    (hs : ({ s with irq := irq, lost := s.lost + lost } : Ticking).runCalls
      (irq.calls.drop s.irq.calls.length) = some s') :
    s'.Counts m ∧ s'.driver = s.driver := by
  rw [hcalls, List.drop_left, runCalls_other hnew] at hs
  cases hs
  have hticks : irq.calls.countP (·.1 = .timer) = s.ticks := by
    have hzero : new.countP (·.1 = .timer) = 0 :=
      List.countP_eq_zero.2 fun c hc => by simpa using hnew c hc
    rw [hcalls, List.countP_append, hzero, Nat.add_zero]
    rfl
  refine ⟨⟨hlines, hhandler, hothers, h.device, h.resolution, ?_, ?_⟩, rfl⟩
  · rw [Ticking.ticks, hticks]
    exact h.hi
  · have hold := h.count
    change irq.calls.countP (·.1 = .timer) + ({ s with irq := irq } : Ticking).pending.toNat +
      (s.lost + lost) = m
    omega

/-- The request of the counter is accepted. -/
theorem Ticking.Counts.callTimer {irq : Irq KernelHandler} {x : Lines KernelHandler} {r : Regs}
    (h : s.Counts n) (hlines : IsLines irq x) (hx : 0 ∉ x.pending)
    (hhandlers : irq.interruptHandlers = s.irq.interruptHandlers)
    (hcalls : irq.calls = s.irq.calls ++ [(.timer, r)]) (hpending : s.pending = true)
    (hs : ({ s with irq := irq, lost := s.lost + 0 } : Ticking).runCalls
      (irq.calls.drop s.irq.calls.length) = some s') :
    s'.Counts n ∧ s'.driver = s.driver := by
  have hu : timerHandler { s with irq := irq, lost := s.lost + 0 } = some s' := by
    rw [hcalls, List.drop_left] at hs
    obtain ⟨u, hu, hs⟩ := Option.bind_eq_some_iff.1 hs
    cases hs
    exact hu
  obtain ⟨hirq, hdriver, hlost, hhi, hdev, hres⟩ := timerHandler_clock
    (s := { s with irq := irq, lost := s.lost + 0 }) h.device hu
  have hticks : s'.ticks = s.ticks + 1 := by
    rw [Ticking.ticks, hirq]
    change irq.calls.countP (·.1 = .timer) = _
    rw [hcalls, List.countP_append]
    rfl
  have hdone : s'.pending = false := (pending_eq (hirq.symm ▸ hlines)).trans (decide_eq_false hx)
  refine ⟨⟨⟨x, hirq.symm ▸ hlines⟩, ?_, fun m hm => ?_, hdev, hres.trans h.resolution, ?_, ?_⟩,
    hdriver⟩
  · rw [hirq, hhandlers]
    exact h.handler
  · rw [hirq, hhandlers]
    exact h.others m hm
  · rw [hhi, hticks, BitVec.ofNat_add]
    exact congrArg (· + 1) h.hi
  · have hcount := h.count
    rw [hpending] at hcount
    rw [hticks, hdone, hlost]
    simp only [Bool.toNat_true, Bool.toNat_false] at hcount ⊢
    omega

/-- A request is accepted. If it is that of the counter, there is a tick. -/
theorem Ticking.Counts.accept {cpu : Cpu} {m : ℕ} (h : s.Counts n)
    (hg : (irqSystem KernelHandler).guard s.irq (.accept m cpu))
    (hs : s.irqStep (.accept m cpu) = some s') :
    s'.Counts n ∧ s'.driver = s.driver := by
  obtain ⟨irq, hirq, hrun⟩ := Option.bind_eq_some_iff.1 hs
  obtain ⟨x, hx⟩ := h.lines
  obtain ⟨k, hk, rfl, -, hst⟩ := hx.accept_step cpu hg.2
  have hlines := (hx.withdraw k).call (32 + k.1) (Regs.of cpu (32 + k) 0)
  rw [hst] at hirq
  obtain rfl := Option.some.inj hirq
  by_cases hzero : k = 0
  · subst hzero
    have hcalls : ((s.irq.interruptHandlers 32).map fun f => (f, Regs.of cpu 32 0)).toList =
        [(.timer, Regs.of cpu 32 0)] := by
      rw [h.handler]
      rfl
    refine h.callTimer hlines ?_ rfl (congrArg (s.irq.calls ++ ·) hcalls)
      ((pending_eq hx).trans (decide_eq_true hk)) hrun
    exact Finset.notMem_erase _ _
  · have hother : s.irq.interruptHandlers (32 + k) ≠ some .timer :=
      h.others _ fun he => hzero (Fin.ext (by simpa using he))
    refine h.silent ⟨_, hlines⟩ h.handler h.others rfl (call_ne_timer hother _) ?_ hrun
    rw [pending_eq hlines, pending_eq hx]
    simp [Lines.call, Ne.symm hzero]

theorem irqStep_raise (s : Ticking) : s.irqStep (.raise 0) = some { s with
    irq := { s.irq with pics := onLine s.irq.pics Pic.raise 0 }
    lost := s.lost + s.pending.toNat } := by
  change ({ s with
    irq := { s.irq with pics := onLine s.irq.pics Pic.raise 0 }
    lost := s.lost + s.pending.toNat } : Ticking).runCalls (s.irq.calls.drop s.irq.calls.length) = _
  rw [List.drop_length]
  rfl

/-- The counter requests an interrupt. -/
theorem Ticking.Counts.raise (h : s.Counts n) (hs : s.irqStep (.raise 0) = some s') :
    s'.Counts (n + 1) ∧ s'.driver = s.driver := by
  obtain ⟨x, hx⟩ := h.lines
  have hlines := hx.raise (k := 0) (by decide)
  rw [irqStep_raise] at hs
  cases hs
  refine ⟨⟨⟨_, hlines⟩, h.handler, h.others, h.device, h.resolution, h.hi, ?_⟩, rfl⟩
  have hcount := h.count
  have hpending : Ticking.pending
      { s with irq := { s.irq with pics := onLine s.irq.pics Pic.raise 0 } } = true :=
    (pending_eq hlines).trans (decide_eq_true (Finset.mem_insert_self ..))
  change s.ticks +
    (Ticking.pending { s with irq := { s.irq with pics := onLine s.irq.pics Pic.raise 0 } }).toNat +
    (s.lost + s.pending.toNat) = n + 1
  rw [hpending, Bool.toNat_true]
  omega

/-- The entry of another vector is changed. -/
theorem Ticking.Counts.setHandler {k : ℕ} {f : Option KernelHandler} {irq : Irq KernelHandler}
    (h : s.Counts n) (hk : k ≠ 32) (hf : f ≠ some .timer)
    (hirq : irq = { s.irq with interruptHandlers := Function.update s.irq.interruptHandlers k f })
    (hlines : ∃ x, IsLines irq x)
    (hs : ({ s with irq := irq, lost := s.lost + 0 } : Ticking).runCalls
      (irq.calls.drop s.irq.calls.length) = some s') :
    s'.Counts n ∧ s'.driver = s.driver := by
  subst hirq
  refine h.silent hlines ?_ (fun m hm => ?_) (List.append_nil _).symm (fun c hc => nomatch hc)
    (Nat.add_right_comm _ _ _) hs
  · exact (Function.update_of_ne hk.symm ..).trans h.handler
  · by_cases hm' : m = k
    · subst hm'
      exact (Function.update_self ..).trans_ne hf
    · exact (Function.update_of_ne hm' ..).trans_ne (h.others m hm)

/-- An interrupt that is on no line. -/
theorem Ticking.Counts.offLines {irq : Irq KernelHandler} {x x' : Lines KernelHandler}
    {new : List (KernelHandler × Regs)} (h : s.Counts n) (hx : IsLines s.irq x)
    (hlines : IsLines irq x') (hpending : x'.pending = x.pending)
    (hhandler : x'.handler = x.handler)
    (hcalls : x'.calls = x.calls ++ new) (hnew : ∀ c ∈ new, c.1 ≠ .timer)
    (hs : ({ s with irq := irq, lost := s.lost + 0 } : Ticking).runCalls
      (irq.calls.drop s.irq.calls.length) = some s') :
    s'.Counts n ∧ s'.driver = s.driver := by
  have hhandlers : irq.interruptHandlers = s.irq.interruptHandlers :=
    hlines.handler.trans (hhandler.trans hx.handler.symm)
  refine h.silent ⟨_, hlines⟩ (hhandlers ▸ h.handler) (hhandlers ▸ h.others) ?_ hnew ?_ hs
  · rw [hlines.calls, hx.calls, hcalls]
  · rw [pending_eq hlines, pending_eq hx, hpending]
    exact Nat.add_right_comm _ _ _

/-- The other interrupts. -/
theorem Ticking.Counts.irqStep (h : s.Counts n) (hg : (irqSystem KernelHandler).guard s.irq op)
    (hop : OtherIrq op) (hs : s.irqStep op = some s') :
    s'.Counts n ∧ s'.driver = s.driver := by
  obtain ⟨irq, hirq, hrun⟩ := Option.bind_eq_some_iff.1 hs
  obtain ⟨x, hx⟩ := h.lines
  obtain ⟨x', -, hx', hlines⟩ := irq_step hx hg hirq
  have hnil : ∀ c ∈ ([] : List (KernelHandler × Regs)), c.1 ≠ .timer := by simp
  -- what is called is not the handler of the counter
  have hcall (m : ℕ) (hm : m ≠ 32) (r : Regs) :
      ∀ c ∈ ((x.handler m).map fun f => (f, r)).toList, c.1 ≠ .timer :=
    call_ne_timer (hx.handler ▸ h.others m hm) r
  cases op with
  | register k f =>
    cases hirq
    exact h.setHandler (fun he => hop.1 (UInt8.toNat_inj.1 he)) hop.2 rfl ⟨x', hlines⟩ hrun
  | deregister k =>
    cases hirq
    exact h.setHandler (fun he => hop (UInt8.toNat_inj.1 he)) (by simp) rfl ⟨x', hlines⟩ hrun
  | raise k =>
    cases hirq
    cases hx'
    have hk : k ≠ 0 := mt (congrArg Fin.val) hop
    have hval : k.val ≠ 0 := hop
    refine h.silent ⟨_, hlines⟩ h.handler h.others (List.append_nil _).symm hnil ?_ hrun
    rw [pending_eq hlines, pending_eq hx]
    simp [hk.symm, hval]
  | withdraw k =>
    cases hirq
    cases hx'
    refine h.silent ⟨_, hlines⟩ h.handler h.others (List.append_nil _).symm hnil ?_ hrun
    rw [pending_eq hlines, pending_eq hx]
    by_cases hk : k = 0
    · simp [hk]
    · have hval : k.val ≠ 0 := fun he => hk (Fin.ext he)
      simp [hval, Ne.symm hk]
  | accept m cpu => exact h.accept hg hs
  | spurious slave cpu =>
    cases hx'
    have hm : (if slave then 47 else 39) ≠ 32 := by
      cases slave <;> decide
    exact h.offLines hx hlines rfl rfl rfl (hcall _ hm _) hrun
  | fault m err cpu =>
    cases hx'
    have hm : m ≠ 32 := by
      have hlt : m < 32 := hg.2
      omega
    by_cases h14 : m = 14
    · rw [if_pos h14] at hlines
      exact h.offLines hx hlines rfl rfl rfl (hcall m hm _) hrun
    · rw [if_neg h14] at hlines
      exact h.offLines hx hlines rfl rfl (List.append_nil _).symm hnil hrun

/-! ## The clock -/

/-- What is known of the interrupts and the timers does not depend on the counter. -/
theorem Ticking.Counts.setDriver {d : PitDriver} (h : s.Counts n) :
    ({ s with driver := d } : Ticking).Counts n :=
  ⟨h.lines, h.handler, h.others, h.device, h.resolution, h.hi, h.count⟩

/-- A request for each rise of the output. -/
theorem Ticking.Counts.edge {rises : Bool} (h : s.Counts n) (hs : s.edge rises = some s') :
    s'.Counts (n + rises.toNat) ∧
      s'.driver = { s.driver with requests := s.driver.requests + rises.toNat } := by
  rw [Ticking.edge] at hs
  cases rises with
  | true => exact h.setDriver.raise hs
  | false =>
    cases hs
    exact ⟨h, rfl⟩

theorem PitDriver.Programmed.clock {d : PitDriver} (h : d.Programmed) :
    PitDriver.Programmed { d with
      pit := d.pit.clock.1
      requests := d.requests + d.pit.clock.2.toNat
      clocks := d.clocks + 1 } := by
  cases h with
  | start hwrites => exact .start hwrites
  | control hwrites hpit =>
    have hclock : d.pit.clock = (d.pit, false) := Counter.clock_of_count (hpit ▸ rfl)
    exact .control hwrites (hclock ▸ hpit)
  | low hwrites hpit =>
    have hclock : d.pit.clock = (d.pit, false) := Counter.clock_of_count (hpit ▸ rfl)
    exact .low hwrites (hclock ▸ hpit)
  | high hwrites hpit hrequests =>
    have hafter : (milliseconds.after d.clocks).2 = d.clocks / 1193 := by
      rw [milliseconds_after]
    have hnext : (milliseconds.after (d.clocks + 1)).2 = (d.clocks + 1) / 1193 := by
      rw [milliseconds_after]
    have hrises : d.clocks / 1193 + d.pit.clock.2.toNat = (d.clocks + 1) / 1193 := by
      rw [← hafter, ← hnext, hpit]
      rfl
    refine .high hwrites ?_ ?_
    · change d.pit.clock.1 = _
      rw [hpit]
      rfl
    · change d.requests + d.pit.clock.2.toNat = d.before + (d.clocks + 1) / 1193
      omega

theorem PitDriver.Programmed.outb {d : PitDriver} {port : BitVec 16} {v : BitVec 8}
    {writes : List (BitVec 16 × BitVec 8)} (h : d.Programmed)
    (hd : d.writes = (port, v) :: writes) :
    PitDriver.Programmed ⟨(d.pit.outb port v).1, writes, d.requests + (d.pit.outb port v).2.toNat,
      d.requests + (d.pit.outb port v).2.toNat, 0⟩ := by
  cases h with
  | start hwrites =>
    obtain ⟨hfirst, rfl⟩ := List.cons.inj (hd.symm.trans hwrites)
    cases hfirst
    exact .control rfl rfl
  | control hwrites hpit =>
    obtain ⟨hfirst, rfl⟩ := List.cons.inj (hd.symm.trans hwrites)
    cases hfirst
    exact .low rfl (hpit ▸ rfl)
  | low hwrites hpit =>
    obtain ⟨hfirst, rfl⟩ := List.cons.inj (hd.symm.trans hwrites)
    cases hfirst
    have hlast : d.pit.outb 0x40 0x04 = (milliseconds, false) := by
      rw [hpit, outb_milliseconds]
    exact .high rfl (congrArg Prod.fst hlast) (by rw [Nat.zero_div, Nat.add_zero])
  | high hwrites _ _ => cases hd.symm.trans hwrites

/-- The counter is programmed as far as the bytes are written, and each of its requests was a tick,
    is pending or was lost. -/
structure Ticking.Inv (s : Ticking) : Prop where
  programmed : s.driver.Programmed
  counts : s.Counts s.driver.requests

theorem ticking_init (h : tickingSystem.init s) : s.Inv := by
  obtain ⟨s₀, ⟨irq₀, ops, hinit, hrun⟩, hother, hticks, hhi, hdev, hres, hlost, rfl⟩ := h
  obtain ⟨x₀, -, hlines₀⟩ := irq_init hinit
  obtain ⟨x, -, hlines⟩ := hrun.simulates (fun s x op s' hx hg hs => irq_step hx hg hs) hlines₀
  have hregister : IsLines (registerInterruptHandler s₀.irq 32 (some .timer))
      { x with handler := Function.update x.handler 32 (some .timer) } :=
    hlines.setHandler 32 (some .timer)
  have hhandler : (pitStart s₀).irq.interruptHandlers 32 = some .timer := by
    simp [pitStart, registerInterruptHandler]
  refine ⟨.start rfl, ⟨_, hregister⟩, hhandler, fun m hm => ?_, hdev, hres, ?_, ?_⟩
  · exact (Function.update_of_ne hm ..).trans_ne (hother m)
  · exact hhi.trans (congrArg (BitVec.ofNat 32) hticks.symm)
  · change s₀.irq.calls.countP (·.1 = .timer) + s₀.pending.toNat + s₀.lost = s₀.pending.toNat
    rw [hticks, hlost, Nat.zero_add, Nat.add_zero]

theorem Ticking.Inv.step {op : TickingOp} (h : s.Inv) (hg : tickingSystem.guard s op)
    (hs : tickingSystem.step s op = some s') : s'.Inv := by
  cases op with
  | outb =>
    change s.outb = some s' at hs
    rw [Ticking.outb] at hs
    cases hwrites : s.driver.writes with
    | nil =>
      rw [hwrites] at hs
      cases hs
    | cons w writes =>
      rw [hwrites] at hs
      obtain ⟨hcounts, hdriver⟩ := h.counts.setDriver.edge hs
      exact ⟨hdriver ▸ h.programmed.outb hwrites, hdriver ▸ hcounts⟩
  | clock =>
    obtain ⟨hcounts, hdriver⟩ := h.counts.setDriver.edge hs
    exact ⟨hdriver ▸ h.programmed.clock, hdriver ▸ hcounts⟩
  | irq op =>
    obtain ⟨hcounts, hdriver⟩ := h.counts.irqStep hg.2.1 hg.2.2 hs
    exact ⟨hdriver ▸ h.programmed, hdriver ▸ hcounts⟩
  | timers op =>
    cases hs
    have hsame := op.apply_sameClock s.timing
    exact ⟨h.programmed, h.counts.lines, h.counts.handler, h.counts.others,
      hsame.device.trans h.counts.device, hsame.resolution.trans h.counts.resolution,
      hsame.hi.trans h.counts.hi, h.counts.count⟩

/-- The kernel's clock counts the requests of the counter, but for those that are pending or were
    lost. Once the counter is programmed, there is one for each of its periods; when there was none
    before, and none is pending or lost, the uptime is the time of the counter, with seconds of
    1193000 clocks. -/
theorem uptime_clocks (h : tickingSystem.Reachable s) :
    s.timing.timerHi = BitVec.ofNat 32 s.ticks ∧
      s.ticks + s.pending.toNat + s.lost = s.driver.requests ∧
      (s.driver.writes = [] → s.driver.requests = s.driver.before + s.driver.clocks / 1193 ∧
        (s.driver.before = 0 → s.pending = false → s.lost = 0 →
          s.driver.clocks / 1193 < 4294967296 →
          (timerGetUptime s.timing).toNat = s.driver.clocks / 1193000)) := by
  obtain ⟨hprogrammed, hcounts⟩ : s.Inv :=
    h.of_step (P := Ticking.Inv) (fun _ => ticking_init) fun _ _ _ h hg hs => h.step hg hs
  refine ⟨hcounts.hi, hcounts.count, fun hwrites => ?_⟩
  obtain ⟨h'⟩ | ⟨h', -⟩ | ⟨h', -⟩ | ⟨-, -, hrequests⟩ := hprogrammed
  case high =>
    refine ⟨hrequests, fun hbefore hpending hlost hlt => ?_⟩
    have hticks : s.ticks = s.driver.clocks / 1193 := by
      have hcount := hcounts.count
      rw [hpending, hlost, hrequests, hbefore, Nat.zero_add] at hcount
      exact hcount
    rw [timerGetUptime, hcounts.resolution, hcounts.hi, hticks, BitVec.toNat_udiv,
      BitVec.toNat_ofNat, Nat.mod_eq_of_lt hlt]
    change s.driver.clocks / 1193 / 1000 = _
    rw [Nat.div_div_eq_div_mul]
  all_goals cases hwrites.symm.trans h'

/-- Nothing has happened yet, and the output of the counter is low. -/
def bootTicking : Ticking where
  driver := ⟨⟨0, none, 0, 0, false⟩, [], 0, 0, 0⟩
  irq := ⟨fun _ => none, irqRemap ⟨resetPic, resetPic⟩, [], none⟩
  timing := bootTiming
  timerTicks := 0
  lost := 0

theorem bootTicking_init : tickingSystem.init (pitStart bootTicking) := by
  refine ⟨bootTicking, ⟨_, [], ⟨⟨resetPic, resetPic⟩, rfl, rfl, rfl⟩, .nil _⟩, ?_⟩
  exact ⟨nofun, rfl, rfl, rfl, rfl, rfl, rfl⟩

set_option maxRecDepth 4000 in
/-- The request of the control word is accepted before the count is written. -/
theorem bootTicking_programmed : ∃ s, tickingSystem.Run (pitStart bootTicking)
    [.outb, .irq (.accept 32 countingStart), .outb, .outb] s ∧ s.irq.halted = none ∧ s.ticks = 1 ∧
    s.driver.writes = [] ∧ s.driver.before = 1 ∧ s.driver.clocks = 0 := by
  refine ⟨_, .cons ⟨rfl, trivial⟩ rfl (.cons ⟨rfl, ⟨rfl, _, rfl⟩, trivial⟩ rfl
    (.cons ⟨rfl, trivial⟩ rfl (.cons ⟨rfl, trivial⟩ rfl (.nil _)))), rfl, rfl, rfl, rfl, rfl⟩

theorem exists_edge (s : Ticking) (rises : Bool) : ∃ u, s.edge rises = some u ∧
    u.irq.halted = s.irq.halted ∧ u.ticks = s.ticks ∧
    u.driver = { s.driver with requests := s.driver.requests + rises.toNat } := by
  cases rises with
  | true => exact ⟨_, irqStep_raise _, rfl, rfl, rfl⟩
  | false => exact ⟨_, rfl, rfl, rfl, rfl⟩

/-- The counter goes on, whatever is accepted. -/
theorem exists_clocks (k : ℕ) (hs : s.irq.halted = none) :
    ∃ s', tickingSystem.Run s (List.replicate k .clock) s' ∧ s'.ticks = s.ticks ∧
      s'.driver.writes = s.driver.writes ∧ s'.driver.before = s.driver.before ∧
      s'.driver.clocks = s.driver.clocks + k := by
  induction k generalizing s with
  | zero => exact ⟨s, .nil s, rfl, rfl, rfl, rfl⟩
  | succ k ih =>
    obtain ⟨u, hu, hhalted, hticks, hdriver⟩ := exists_edge
      { s with driver := { s.driver with
          pit := s.driver.pit.clock.1
          clocks := s.driver.clocks + 1 } }
      s.driver.pit.clock.2
    obtain ⟨s', hrun, hticks', hwrites, hbefore, hclocks⟩ := ih (hhalted.trans hs)
    rw [hdriver] at hwrites hbefore hclocks
    exact ⟨s', .cons ⟨hs, trivial⟩ hu hrun, hticks'.trans hticks, hwrites, hbefore,
      hclocks.trans (Nat.add_right_comm _ _ _)⟩

/-- The request of the control word is a tick. Of the three periods that follow nothing is accepted:
    all requests but the last one are lost. -/
theorem uptime_clocks_lost : ∃ s, tickingSystem.Reachable s ∧ s.driver.clocks = 3579 ∧
    s.ticks = 1 ∧ s.timing.timerHi = 1 ∧ s.pending.toNat + s.lost = 3 := by
  obtain ⟨u, hboot, hhalted, hticks, hwrites, hbefore, hclocks⟩ := bootTicking_programmed
  obtain ⟨s, hrun, hticks', hwrites', hbefore', hclocks'⟩ := exists_clocks 3579 hhalted
  have hreach : tickingSystem.Reachable s := ⟨_, _, bootTicking_init, hboot.append hrun⟩
  rw [hclocks, Nat.zero_add] at hclocks'
  obtain ⟨hhi, hcount, hdone⟩ := uptime_clocks hreach
  have hrequests := (hdone (hwrites'.trans hwrites)).1
  rw [hticks', hticks] at hhi hcount
  rw [hbefore', hbefore, hclocks'] at hrequests
  exact ⟨s, hreach, hclocks', hticks'.trans hticks, hhi, by omega⟩

end Beryllium

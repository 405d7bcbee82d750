import Beryllium.Timing.Handlers

/-!
# Timers with firings to come

Whole runs of the timers, of any length: the tick counter wraps, and the handlers may call the
functions of `timing.h`. A run counts its ticks without bound, and records the next firing of the
timer of every slot (`Pending`), which no comparison of the code decides.

A timer with a firing to come is dropped if its deadline is `2^32`, which the table takes for
a free slot, or if its deadline overflows an `int` and the reaper runs before the tick
counter does. In the runs that set no such deadline (`PendingRun.Fits`) none is dropped
(`no_pending_dropped`).
-/

namespace Beryllium

open Machine

/-! ## Runs -/

/-- The next firing of a timer, and its rate. -/
structure Pending where
  next : ℕ
  rate : ℕ

/-- The firings to come once a timer that is due at the tick `T` has fired. -/
def Pending.after (T : ℕ) (p : Pending) : Option Pending :=
  if p.next = T then if p.rate = 0 then none else some ⟨T + p.rate, p.rate⟩ else some p

/-- The firings to come once the handler of the slot returns at the tick `T`: a timer that repeats
    is set again, be it one that the handler has registered. -/
def Pending.returned (T : ℕ) (p : Pending) : Option Pending :=
  if p.rate = 0 then p.after T else some ⟨T + p.rate, p.rate⟩

/-- The timers, the number of ticks, and the next firing of every slot, also while its handler
    runs. -/
structure PendingRun where
  run : HandlerRun
  now : ℕ
  due : ℕ → Option Pending

/-- The firings to come after an operation that leads to `run`. -/
def PendingRun.dueAfter (s : PendingRun) (run : HandlerRun) : HandlerOp → ℕ → Option Pending
  | .tick _ => s.due
  | .visit =>
    match s.run.place, run.place with
    | .loop _, .handler _ => s.due
    | .loop i, _ => Function.update s.due i ((s.due i).bind (Pending.after s.now))
    | _, _ => s.due
  | .ret =>
    match s.run.place with
    | .handler i => Function.update s.due i ((s.due i).bind (Pending.returned s.now))
    | _ => s.due
  | .table (.register name d h r) =>
    let u := timingRegisterTimer s.run.timing name d h r
    if u.2 = 0xFF then s.due
    else Function.update s.due u.2 (some ⟨s.now + d.toNat, r.toNat⟩)
  | .table (.deregister h) =>
    match firstFrom (fun index => if (s.run.timing.handlers index).handler ≠ .null ∧
        (s.run.timing.handlers index).handler = h then some index else none) slots 0 with
    | none => s.due
    | some index => Function.update s.due index none
  | .table (.removeIndex index) =>
    Function.update s.due index ((s.due index).map fun p => ⟨p.next, 0⟩)

/-- The number of ticks after an operation. -/
def PendingRun.nowAfter (s : PendingRun) : HandlerOp → ℕ
  | .tick deviceId => if deviceId = s.run.timing.device then s.now + 1 else s.now
  | _ => s.now

/-- What an operation does. -/
def PendingRun.step (s : PendingRun) (op : HandlerOp) : Option PendingRun :=
  (s.run.step op).map fun run => ⟨run, s.nowAfter op, s.dueAfter run op⟩

/-- The timers after `timing_init`. -/
def PendingRun.start (t : Timing) : PendingRun :=
  ⟨⟨timingInit t, .idle, []⟩, t.timerHi.toNat,
    fun j => if j = 0 then some ⟨t.timerHi.toNat + 100, 100⟩ else none⟩

/-- What is called: delays are positive, rates are not negative, handlers are functions other than
    `timing_reaper`, which `timing.h` does not declare. -/
def ValidCall : HandlerOp → Prop
  | .table (.register _ d h r) => (∃ f, h = .fn f) ∧ 1 ≤ d.toInt ∧ 0 ≤ r.toInt
  | .table (.deregister h) => ∃ f, h = .fn f
  | _ => True

/-- The runs of the timers. -/
def pendingSystem : System PendingRun HandlerOp where
  init s := ∃ t, s = .start t
  guard s op := handlerSystem.guard s.run op ∧ ValidCall op
  step := PendingRun.step

/-! ## Deadlines that fit -/

/-- A deadline set at `tick`, `δ` ticks ahead, fits: it is not `0`, and if it overflows, the
    reaper does not run before the tick counter overflows. -/
def DeadlineFits (tick reaper δ : BitVec 32) : Prop :=
  tick + δ ≠ 0 ∧ (tick.toNat < 2 ^ 31 → 2 ^ 31 ≤ tick.toNat + δ.toNat →
    ¬(tick.toNat < reaper.toNat ∧ reaper.toNat < 2 ^ 31))

/-- The deadlines that an operation sets fit: that of a registration that finds a free slot, and
    that of a slot that repeats when its handler returns. The reaper's own deadline is not `0`. -/
def PendingRun.Fits (s : PendingRun) : HandlerOp → Prop
  | .visit => ∀ i, s.run.place = .loop i →
      (s.run.timing.handlers i).due s.run.timing.timerHi = true →
      (s.run.timing.handlers i).handler = .reaper → (s.run.timing.handlers i).repeatRate ≠ 0 →
        s.run.timing.timerHi + (s.run.timing.handlers i).repeatRate ≠ 0
  | .ret => ∀ i, s.run.place = .handler i → (s.run.timing.handlers i).repeatRate ≠ 0 →
      DeadlineFits s.run.timing.timerHi (s.run.timing.handlers 0).fireTick
        (s.run.timing.handlers i).repeatRate
  | .table (.register _ d _ _) => (∃ j < slots, (s.run.timing.handlers j).fireTick = 0) →
      DeadlineFits s.run.timing.timerHi (s.run.timing.handlers 0).fireTick d
  | _ => True

/-- An operation drops no timer with a firing to come. -/
structure NothingDropped (s : PendingRun) (op : HandlerOp) (s' : PendingRun) : Prop where
  /-- A slot that the reaper clears has no firing left. -/
  reaper : op = .visit → ∀ j < slots, (s.run.timing.handlers j).fireTick ≠ 0 →
    (s'.run.timing.handlers j).fireTick = 0 → s.due j = none
  /-- A slot that a registration stores into has no firing left. -/
  register : ∀ name d h r, op = .table (.register name d h r) → ∀ j < slots,
    s'.run.timing.handlers j ≠ s.run.timing.handlers j → s.due j = none
  /-- A timer with a firing to come is in the table. -/
  table : ∀ j < slots, ∀ p, s'.due j = some p →
    (s'.run.timing.handlers j).fireTick = BitVec.ofNat 32 p.next ∧
      (s'.run.timing.handlers j).fireTick ≠ 0

variable {s s' : PendingRun} {tick a : BitVec 32} {p : Pending} {q : Option Pending} {e : Timer}
  {i j n : ℕ} {op : HandlerOp}

/-! ## The invariant -/

/-- The slot `j` is still to be visited in this tick, or its handler runs. -/
def Place.Ahead (j : ℕ) : Place → Prop
  | .idle => False
  | .loop i => i ≤ j
  | .handler i => i ≤ j

/-- What a slot knows of its next firing. -/
structure SlotPending (now : ℕ) (e : Timer) (q : Option Pending) : Prop where
  rate_lt : e.repeatRate.toNat < 2 ^ 31
  idle : q = none → e.repeatRate = 0
  fire : ∀ p, q = some p → e.fireTick.toNat = p.next % 2 ^ 32
  rate : ∀ p, q = some p → e.repeatRate.toNat = p.rate
  le : ∀ p, q = some p → now ≤ p.next
  lt : ∀ p, q = some p → p.next < now + 2 ^ 31
  ne : ∀ p, q = some p → e.fireTick ≠ 0

/-- The deadline overflows an `int`, and the tick counter has not overflowed. -/
def Overflows (now : ℕ) (p : Pending) : Prop :=
  now % 2 ^ 32 < 2 ^ 31 ∧ 2 ^ 31 ≤ now % 2 ^ 32 + (p.next - now)

/-- The reaper is set to run at a tick before the tick counter overflows. -/
def PendingRun.ReaperAhead (s : PendingRun) : Prop :=
  (s.now % 2 ^ 32 < (s.run.timing.handlers 0).fireTick.toNat ∨
    s.now % 2 ^ 32 = (s.run.timing.handlers 0).fireTick.toNat ∧ s.run.place = .loop 0) ∧
  (s.run.timing.handlers 0).fireTick.toNat < 2 ^ 31

/-- The invariant of the runs whose deadlines fit. -/
structure PendingInv (s : PendingRun) : Prop where
  hi : s.run.timing.timerHi.toNat = s.now % 2 ^ 32
  placed : s.run.Placed
  slot : ∀ j < slots, SlotPending s.now (s.run.timing.handlers j) (s.due j)
  ahead : ∀ j < slots, ∀ p, s.due j = some p → p.next = s.now → s.run.place.Ahead j
  -- where a deadline has overflowed, the reaper waits until the counter has
  overflow : ∀ j < slots, ∀ p, s.due j = some p → Overflows s.now p → ¬s.ReaperAhead
  fire_zero : (s.run.timing.handlers 0).fireTick ≠ 0
  reaper_zero : (s.run.timing.handlers 0).handler = .reaper
  place_zero : s.run.place ≠ .handler 0
  fn : ∀ j < slots, j ≠ 0 → (s.run.timing.handlers j).handler ≠ .reaper

/-- The comparison of a deadline with the tick counter: it is less if it overflows. -/
theorem slt_iff_overflows (hfire : a.toNat = p.next % 2 ^ 32) (htick : tick.toNat = n % 2 ^ 32)
    (hle : n ≤ p.next) (hlt : p.next < n + 2 ^ 31) : a.slt tick = true ↔ Overflows n p := by
  rw [BitVec.slt, decide_eq_true_iff, BitVec.toInt_eq_toNat_cond, BitVec.toInt_eq_toNat_cond,
    hfire, htick, Overflows]
  split_ifs <;> omega

/-- The timer of a slot fires when the slot is due. -/
theorem PendingInv.due_iff (h : PendingInv s) (hj : j < slots) (hp : s.due j = some p) :
    (s.run.timing.handlers j).due s.run.timing.timerHi = true ↔ p.next = s.now := by
  have hslot := h.slot j hj
  have hfire := hslot.fire p hp
  have hle := hslot.le p hp
  have hlt := hslot.lt p hp
  rw [Timer.due, decide_eq_true_iff, ← BitVec.toNat_inj, hfire, h.hi]
  constructor
  · rintro ⟨-, heq⟩
    omega
  · intro heq
    exact ⟨hslot.ne p hp, by rw [heq]⟩

/-- Nothing but the place changes. -/
theorem PendingInv.move {place : Place} {calls : List HandlerCall} (h : PendingInv s)
    (hplaced : HandlerRun.Placed ⟨s.run.timing, place, calls⟩)
    (hahead : ∀ j < slots, ∀ p, s.due j = some p → p.next = s.now → place.Ahead j)
    (hhandler : place ≠ .handler 0) (hloop : place ≠ .loop 0) :
    PendingInv ⟨⟨s.run.timing, place, calls⟩, s.now, s.due⟩ := by
  refine ⟨h.hi, hplaced, h.slot, hahead, fun j hj p hp hover hreaper => ?_, h.fire_zero,
    h.reaper_zero, hhandler, h.fn⟩
  refine h.overflow j hj p hp hover ⟨.inl ?_, hreaper.2⟩
  exact hreaper.1.resolve_right fun hc => hloop hc.2

/-- The run after a store into a slot. -/
def PendingRun.set (s : PendingRun) (i : ℕ) (e : Timer) (q : Option Pending) : PendingRun :=
  ⟨{ s.run with timing := s.run.timing.set i e }, s.now, Function.update s.due i q⟩

/-- What holds of the new slot and of all the others holds of all slots after a store. -/
theorem PendingRun.forall_set {P : ℕ → Timer → Option Pending → Prop} (hi : P i e q)
    (hother : ∀ j, j ≠ i → P j (s.run.timing.handlers j) (s.due j)) (j : ℕ) :
    P j ((s.set i e q).run.timing.handlers j) ((s.set i e q).due j) := by
  rw [PendingRun.set, Timing.set]
  dsimp only
  by_cases hji : j = i
  · rw [hji, Function.update_self, Function.update_self]
    exact hi
  · rw [Function.update_of_ne hji, Function.update_of_ne hji]
    exact hother j hji

/-- A store into a slot, other than by the loop before the first slot, keeps the invariant if the
    slot meets it. -/
theorem PendingInv.set (h : PendingInv s) (hloop : s.run.place ≠ .loop 0)
    (hslot : SlotPending s.now e q)
    (hahead : ∀ p, q = some p → p.next = s.now → s.run.place.Ahead i)
    (hoverflow : ∀ p, q = some p → Overflows s.now p →
      ¬(s.now % 2 ^ 32 < (s.run.timing.handlers 0).fireTick.toNat ∧
        (s.run.timing.handlers 0).fireTick.toNat < 2 ^ 31))
    (hzero : i = 0 → e.fireTick = (s.run.timing.handlers 0).fireTick ∧ e.handler = .reaper)
    (hfn : i ≠ 0 → e.handler ≠ .reaper) : PendingInv (s.set i e q) := by
  have hzero' : ((s.set i e q).run.timing.handlers 0).fireTick =
      (s.run.timing.handlers 0).fireTick ∧
      ((s.set i e q).run.timing.handlers 0).handler = .reaper :=
    PendingRun.forall_set (P := fun j e' _ => j = 0 →
      e'.fireTick = (s.run.timing.handlers 0).fireTick ∧ e'.handler = .reaper) hzero
      (by rintro j - rfl; exact ⟨rfl, h.reaper_zero⟩) 0 rfl
  refine ⟨h.hi, h.placed, ?_, ?_, ?_, hzero'.1 ▸ h.fire_zero, hzero'.2, h.place_zero, ?_⟩
  · exact PendingRun.forall_set (P := fun j e' q' => j < slots → SlotPending s.now e' q')
      (fun _ => hslot) fun j _ => h.slot j
  · exact PendingRun.forall_set (P := fun j _ q' => j < slots → ∀ p, q' = some p →
      p.next = s.now → s.run.place.Ahead j) (fun _ => hahead) fun j _ => h.ahead j
  · rw [PendingRun.ReaperAhead, hzero'.1]
    refine PendingRun.forall_set (P := fun j _ q' => j < slots → ∀ p, q' = some p →
      Overflows s.now p → ¬s.ReaperAhead) (fun _ p hp hover hreaper => ?_) fun j _ => h.overflow j
    exact hoverflow p hp hover
      ⟨hreaper.1.resolve_right fun hc => hloop hc.2, hreaper.2⟩
  · exact PendingRun.forall_set (P := fun j e' _ => j < slots → j ≠ 0 → e'.handler ≠ .reaper)
      (fun _ => hfn) fun j _ => h.fn j

/-! ## One operation -/

theorem PendingInv.ticked {run : HandlerRun} (h : PendingInv s) (hidle : s.run.place = .idle)
    (hhi : run.timing.timerHi = s.run.timing.timerHi + 1)
    (hhandlers : run.timing.handlers = s.run.timing.handlers) (hplace : run.place = .loop 0) :
    PendingInv ⟨run, s.now + 1, s.due⟩ := by
  -- nothing that was due is left from the tick before
  have hlater (j : ℕ) (hj : j < slots) (p : Pending) (hp : s.due j = some p) : s.now < p.next := by
    refine lt_of_le_of_ne ((h.slot j hj).le p hp) fun heq => ?_
    have hahead := h.ahead j hj p hp heq.symm
    rw [hidle] at hahead
    exact hahead
  have hold := h.hi
  refine ⟨?_, ?_, fun j hj => ?_, fun j _ _ _ _ => ?_, fun j hj p hp hover hreaper => ?_, ?_, ?_,
    ?_, ?_⟩
  · change run.timing.timerHi.toNat = (s.now + 1) % 2 ^ 32
    rw [hhi, BitVec.toNat_add, hold]
    change (_ + 1) % _ = _
    omega
  · intro i hi
    change run.place = _ ∨ run.place = _ at hi
    rw [hplace] at hi
    rcases hi with hi | hi <;> cases hi
    decide
  · rw [hhandlers]
    have hslot := h.slot j hj
    exact ⟨hslot.rate_lt, hslot.idle, hslot.fire, hslot.rate, hlater j hj,
      fun p hp => (hslot.lt p hp).trans (Nat.add_lt_add_right s.now.lt_succ_self _), hslot.ne⟩
  · change run.place.Ahead j
    rw [hplace]
    exact Nat.zero_le j
  · have hlt := hlater j hj p hp
    have hlt' := (h.slot j hj).lt p hp
    obtain ⟨h₁, h₂⟩ : Overflows (s.now + 1) p := hover
    obtain ⟨hrun, h₃⟩ := hreaper
    dsimp only at h₁ h₂ hrun h₃
    rw [hhandlers] at hrun h₃
    have hle : (s.now + 1) % 2 ^ 32 ≤ (s.run.timing.handlers 0).fireTick.toNat := by omega
    exact h.overflow j hj p hp ⟨by omega, by omega⟩ ⟨.inl (by omega), h₃⟩
  · rw [hhandlers]
    exact h.fire_zero
  · rw [hhandlers]
    exact h.reaper_zero
  · change run.place ≠ _
    rw [hplace]
    exact Place.noConfusion
  · rw [hhandlers]
    exact h.fn

theorem ahead_nextPlace (hj : j < slots) (hle : i ≤ j) (hne : j ≠ i) : (nextPlace i).Ahead j := by
  rw [nextPlace, if_pos (by omega)]
  change i + 1 ≤ j
  omega

/-- Where the loop is, what is due has not been visited. -/
theorem PendingInv.ahead_next (h : PendingInv s) (hi : s.run.place = .loop i)
    (hne : ∀ p, s.due i = some p → p.next ≠ s.now) :
    ∀ j < slots, ∀ p, s.due j = some p → p.next = s.now → (nextPlace i).Ahead j := by
  intro j hj p hp heq
  have hahead : i ≤ j := by
    have := h.ahead j hj p hp heq
    rwa [hi] at this
  exact ahead_nextPlace hj hahead fun hji => hne p (hji ▸ hp) heq

theorem nextPlace_ne_loop_zero : nextPlace i ≠ .loop 0 := by
  intro hc
  rcases nextPlace_cases i with heq | ⟨-, heq⟩
  · cases heq.symm.trans hc
  · cases heq.symm.trans hc

/-- The reaper leaves the timers alone that have a firing to come. -/
theorem PendingInv.timingReaper_pending (h : PendingInv s) (hplace : s.run.place = .loop 0)
    (hd : (s.run.timing.handlers 0).due s.run.timing.timerHi = true) (hj : j < slots)
    (hp : s.due j = some p) : (timingReaper s.run.timing).handlers j = s.run.timing.handlers j := by
  refine (timingReaper_cases s.run.timing j).resolve_right fun hc => ?_
  have hslt := hc.1
  have hslot := h.slot j hj
  have hover := (slt_iff_overflows (hslot.fire p hp) h.hi (hslot.le p hp) (hslot.lt p hp)).1 hslt
  -- the deadline overflows the `int`, and so the reaper was not to run at this tick
  have hzero : s.now % 2 ^ 32 = (s.run.timing.handlers 0).fireTick.toNat := by
    rw [(of_decide_eq_true hd).2, h.hi]
  refine h.overflow j hj p hp hover ⟨.inr ⟨hzero, hplace⟩, ?_⟩
  rw [← hzero]
  exact hover.1

/-- A timer that repeats, set again. -/
theorem SlotPending.rearmed (h : SlotPending s.now e q) (hhi : s.run.timing.timerHi.toNat =
    s.now % 2 ^ 32) (hne : s.run.timing.timerHi + e.repeatRate ≠ 0) :
    SlotPending s.now { e with fireTick := s.run.timing.timerHi + e.repeatRate }
      (some ⟨s.now + e.repeatRate.toNat, e.repeatRate.toNat⟩) := by
  have hlt := h.rate_lt
  refine ⟨hlt, nofun, ?_, ?_, ?_, ?_, fun _ _ => hne⟩ <;> rintro p hp <;>
    obtain rfl := Option.some.inj hp
  · dsimp only
    rw [BitVec.toNat_add, hhi]
    omega
  · rfl
  · exact Nat.le_add_right _ _
  · exact Nat.add_lt_add_left hlt _

/-- What repeats has a firing to come. -/
theorem SlotPending.exists_due (h : SlotPending n e q) (hr : e.repeatRate ≠ 0) :
    ∃ p, q = some p ∧ p.rate = e.repeatRate.toNat ∧ p.rate ≠ 0 := by
  cases q with
  | none => exact absurd (h.idle rfl) hr
  | some p =>
    refine ⟨p, rfl, (h.rate p rfl).symm, fun h₀ => hr (BitVec.eq_of_toNat_eq ?_)⟩
    rw [h.rate p rfl, h₀]
    rfl

/-- A slot that does not repeat, with no firing to come. -/
theorem SlotPending.cleared (h : SlotPending n e q) (hr : e.repeatRate = 0) :
    SlotPending n e none :=
  ⟨h.rate_lt, fun _ => hr, nofun, nofun, nofun, nofun, nofun⟩

theorem timingReaper_repeatRate (t : Timing) (i : ℕ) :
    ((timingReaper t).handlers i).repeatRate = (t.handlers i).repeatRate ∨
      ((timingReaper t).handlers i).repeatRate = 0 := by
  rw [timingReaper]
  dsimp only
  split_ifs
  · exact .inr rfl
  · exact .inl rfl

/-- The reaper does not clear its own slot. -/
theorem timingReaper_of_due {t : Timing} (hd : (t.handlers i).due t.timerHi = true) :
    (timingReaper t).handlers i = t.handlers i := by
  refine (timingReaper_cases t i).resolve_right fun hc => ?_
  have hslt := hc.1
  rw [(of_decide_eq_true hd).2, slt_irrefl] at hslt
  cases hslt

/-- The slot of the reaper, after it has run. -/
theorem PendingInv.reaper_slot (h : PendingInv s)
    (hd : (s.run.timing.handlers 0).due s.run.timing.timerHi = true)
    (hfits : (s.run.timing.handlers 0).repeatRate ≠ 0 →
      s.run.timing.timerHi + (s.run.timing.handlers 0).repeatRate ≠ 0) :
    SlotPending s.now ((rearm (timingReaper s.run.timing) 0).handlers 0)
        ((s.due 0).bind (Pending.after s.now)) ∧
      ((rearm (timingReaper s.run.timing) 0).handlers 0).fireTick ≠ 0 ∧
      ∀ p, (s.due 0).bind (Pending.after s.now) = some p → s.now < p.next := by
  have hpos : 0 < slots := by decide
  have hslot := h.slot 0 hpos
  have hself := timingReaper_of_due hd
  by_cases hr : (s.run.timing.handlers 0).repeatRate = 0
  · have hnone : (s.due 0).bind (Pending.after s.now) = none := by
      cases hp : s.due 0 with
      | none => rfl
      | some p =>
        have hrate : p.rate = 0 := by
          rw [← hslot.rate p hp, hr]
          rfl
        rw [Option.bind_some, Pending.after, if_pos ((h.due_iff hpos hp).1 hd), if_pos hrate]
    rw [rearm_of_not_repeat (hself ▸ hr), hself, hnone]
    exact ⟨hslot.cleared hr, h.fire_zero, nofun⟩
  · obtain ⟨p, hp, hrate, hne⟩ := hslot.exists_due hr
    have hset : (rearm (timingReaper s.run.timing) 0).handlers 0 =
        { s.run.timing.handlers 0 with
          fireTick := s.run.timing.timerHi + (s.run.timing.handlers 0).repeatRate } := by
      rw [rearm_self (hself ▸ hr), hself]
      rfl
    rw [hset, hp, Option.bind_some, Pending.after, if_pos ((h.due_iff hpos hp).1 hd), if_neg hne,
      hrate]
    refine ⟨hslot.rearmed h.hi (hfits hr), hfits hr, ?_⟩
    rintro p' hp'
    obtain rfl := Option.some.inj hp'
    exact Nat.lt_add_of_pos_right (Nat.pos_of_ne_zero (hrate ▸ hne))

/-- The visit of the reaper, when it is due. -/
theorem PendingInv.reaped {calls : List HandlerCall} (h : PendingInv s)
    (hplace : s.run.place = .loop 0)
    (hd : (s.run.timing.handlers 0).due s.run.timing.timerHi = true)
    (hfits : (s.run.timing.handlers 0).repeatRate ≠ 0 →
      s.run.timing.timerHi + (s.run.timing.handlers 0).repeatRate ≠ 0) :
    PendingInv ⟨⟨rearm (timingReaper s.run.timing) 0, nextPlace 0, calls⟩, s.now,
      Function.update s.due 0 ((s.due 0).bind (Pending.after s.now))⟩ := by
  have hfire := (of_decide_eq_true hd).2
  have hself := timingReaper_of_due hd
  have hzero : s.now % 2 ^ 32 = (s.run.timing.handlers 0).fireTick.toNat := by
    rw [hfire, h.hi]
  have hother {j : ℕ} (hj : j ≠ 0) : (rearm (timingReaper s.run.timing) 0).handlers j =
      (timingReaper s.run.timing).handlers j := rearm_of_ne hj
  obtain ⟨hslot, hne, hnext⟩ := h.reaper_slot hd hfits
  generalize (s.due 0).bind (Pending.after s.now) = q at *
  refine ⟨?_, placed_nextPlace (i := 0) rfl, fun j hj => ?_, fun j hj p hp heq => ?_,
    fun j hj p hp hover hreaper => ?_, ?_, ?_, nextPlace_ne_handler 0, fun j hj hj₀ => ?_⟩
  · exact (congrArg BitVec.toNat rearm_timerHi).trans h.hi
  · dsimp only
    by_cases hj₀ : j = 0
    · rw [hj₀, Function.update_self]
      exact hslot
    · rw [Function.update_of_ne hj₀, hother hj₀]
      cases hp : s.due j with
      | none =>
        have hrate : ((timingReaper s.run.timing).handlers j).repeatRate = 0 :=
          (timingReaper_repeatRate s.run.timing j).elim
            (fun heq => heq.trans ((h.slot j hj).idle hp)) id
        exact ⟨hrate ▸ (by decide), fun _ => hrate, nofun, nofun, nofun, nofun, nofun⟩
      | some p =>
        rw [h.timingReaper_pending hplace hd hj hp, ← hp]
        exact h.slot j hj
  · change Function.update s.due 0 q j = some p at hp
    change Place.Ahead j (nextPlace 0)
    by_cases hj₀ : j = 0
    · rw [hj₀, Function.update_self] at hp
      exact absurd heq (hnext p hp).ne'
    · rw [Function.update_of_ne hj₀] at hp
      exact ahead_nextPlace hj (Nat.zero_le j) hj₀
  · obtain ⟨h₁, h₂⟩ : Overflows s.now p := hover
    change Function.update s.due 0 q j = some p at hp
    by_cases hj₀ : j = 0
    · -- the new deadline of the reaper itself
      rw [hj₀, Function.update_self] at hp
      have hfire' := hslot.fire p hp
      have hlt := hslot.lt p hp
      have hlt' := hnext p hp
      have hreaper' := hreaper.2
      dsimp only at hreaper'
      omega
    · rw [Function.update_of_ne hj₀] at hp
      exact h.overflow j hj p hp ⟨h₁, h₂⟩ ⟨.inr ⟨hzero, hplace⟩, hzero ▸ h₁⟩
  · exact hne
  · dsimp only
    rw [rearm_handler, hself]
    exact h.reaper_zero
  · dsimp only
    rw [rearm_handler]
    rcases timingReaper_cases s.run.timing j with heq | ⟨-, hnull, -⟩
    · rw [heq]
      exact h.fn j hj hj₀
    · rw [hnull]
      exact Handler.noConfusion

theorem dueAfter_visit {run : HandlerRun} (hplace : s.run.place = .loop i)
    (hrun : run.place = nextPlace i) : s.dueAfter run .visit =
      Function.update s.due i ((s.due i).bind (Pending.after s.now)) := by
  rcases nextPlace_cases i with hnext | ⟨-, hnext⟩ <;>
    simp only [PendingRun.dueAfter, hplace, hrun, hnext]

/-- What does not fire at a tick is left as it is. -/
theorem bind_after_eq (hne : ∀ p, q = some p → p.next ≠ n) : q.bind (Pending.after n) = q := by
  cases q with
  | none => rfl
  | some p => exact if_neg (hne p rfl)

/-- The visit of a slot. -/
theorem PendingInv.visited {run : HandlerRun} (h : PendingInv s) (hplace : s.run.place = .loop i)
    (hfits : s.Fits .visit) (hvisit : s.run.visit i = some run) :
    PendingInv ⟨run, s.now, s.dueAfter run .visit⟩ := by
  have hi : i < slots := h.placed i (.inl hplace)
  cases hd : (s.run.timing.handlers i).due s.run.timing.timerHi with
  | false =>
    obtain rfl := Option.some.inj ((visit_not_due hd).symm.trans hvisit)
    have hnext (p : Pending) (hp : s.due i = some p) : p.next ≠ s.now := fun heq => by
      rw [(h.due_iff hi hp).2 heq] at hd
      cases hd
    rw [dueAfter_visit hplace rfl, bind_after_eq hnext, Function.update_eq_self]
    exact h.move (placed_nextPlace (i := i) rfl) (h.ahead_next hplace hnext)
      (nextPlace_ne_handler i) nextPlace_ne_loop_zero
  | true =>
    rw [visit_due hd] at hvisit
    obtain ⟨timing, place, calls⟩ := run
    obtain ⟨-, ⟨hreaper, htiming, hnext⟩ | ⟨⟨f, hf⟩, htiming, hnext⟩⟩ := callSlot_cases hvisit
    · have h₀ : i = 0 := by
        by_contra h₀
        exact h.fn i hi h₀ hreaper
      rw [dueAfter_visit hplace hnext]
      dsimp only at htiming hnext
      subst h₀ htiming hnext
      exact h.reaped hplace hd fun hr => hfits 0 hplace hd hreaper hr
    · have h₀ : i ≠ 0 := by
        rintro rfl
        cases hf.symm.trans h.reaper_zero
      have hdue : s.dueAfter ⟨timing, place, calls⟩ .visit = s.due := by
        dsimp only at hnext
        simp only [PendingRun.dueAfter, hplace, hnext]
      rw [hdue]
      dsimp only at htiming hnext
      subst htiming hnext
      refine h.move (fun j hj => ?_) (fun j hj p hp heq => ?_) (fun hc => ?_) Place.noConfusion
      · rcases hj with hj | hj <;> cases hj
        exact hi
      · have hahead := h.ahead j hj p hp heq
        rwa [hplace] at hahead
      · cases hc
        exact h₀ rfl

/-- Setting a slot again, as a store into it. -/
theorem rearm_eq_set (t : Timing) (i : ℕ) : rearm t i = t.set i ((rearm t i).handlers i) := by
  by_cases hr : (t.handlers i).repeatRate = 0
  · rw [rearm_of_not_repeat hr, Timing.set, Function.update_eq_self]
  · rw [rearm_self hr, rearm]
    exact if_pos hr

/-- The slot of a handler that returns, set again if it repeats. -/
theorem PendingInv.returned_slot (h : PendingInv s) (hplace : s.run.place = .handler i)
    (hfits : s.Fits .ret) :
    SlotPending s.now ((rearm s.run.timing i).handlers i)
        ((s.due i).bind (Pending.returned s.now)) ∧
      (∀ p, (s.due i).bind (Pending.returned s.now) = some p → p.next ≠ s.now) ∧
      ∀ p, (s.due i).bind (Pending.returned s.now) = some p → Overflows s.now p →
        ¬(s.now % 2 ^ 32 < (s.run.timing.handlers 0).fireTick.toNat ∧
          (s.run.timing.handlers 0).fireTick.toNat < 2 ^ 31) := by
  have hi : i < slots := h.placed i (.inr hplace)
  have hslot := h.slot i hi
  by_cases hr : (s.run.timing.handlers i).repeatRate = 0
  · rw [rearm_of_not_repeat hr]
    cases hp : s.due i with
    | none => exact ⟨hslot.cleared hr, nofun, nofun⟩
    | some p =>
      have hrate : p.rate = 0 := by
        rw [← hslot.rate p hp, hr]
        rfl
      rw [Option.bind_some, Pending.returned, if_pos hrate, Pending.after]
      split_ifs with heq
      · exact ⟨hslot.cleared hr, nofun, nofun⟩
      · refine ⟨hp ▸ hslot, ?_, ?_⟩
        · rintro p' hp'
          obtain rfl := Option.some.inj hp'
          exact heq
        · rintro p' hp' hover ⟨hlt, hlt'⟩
          obtain rfl := Option.some.inj hp'
          exact h.overflow i hi p hp hover ⟨.inl hlt, hlt'⟩
  · obtain ⟨p, hp, hrate, hne⟩ := hslot.exists_due hr
    obtain ⟨hfit, hfit'⟩ := hfits i hplace hr
    rw [rearm_self hr, hp, Option.bind_some, Pending.returned, if_neg hne, hrate]
    refine ⟨hslot.rearmed h.hi hfit, ?_, ?_⟩
    · rintro p' hp'
      obtain rfl := Option.some.inj hp'
      exact (Nat.lt_add_of_pos_right (Nat.pos_of_ne_zero (hrate ▸ hne))).ne'
    · rintro p' hp' ⟨h₁, h₂⟩
      obtain rfl := Option.some.inj hp'
      dsimp only at h₂
      rw [← h.hi] at h₁ h₂ ⊢
      exact hfit' h₁ (by omega)

/-- A handler returns. -/
theorem PendingInv.returned (h : PendingInv s) (hplace : s.run.place = .handler i)
    (hfits : s.Fits .ret) :
    PendingInv ⟨{ s.run with timing := rearm s.run.timing i, place := nextPlace i }, s.now,
      Function.update s.due i ((s.due i).bind (Pending.returned s.now))⟩ := by
  have hi : i < slots := h.placed i (.inr hplace)
  have h₀ : i ≠ 0 := by
    rintro rfl
    exact h.place_zero hplace
  obtain ⟨hslot, hnext, hoverflow⟩ := h.returned_slot hplace hfits
  have hset := h.set (i := i) (by rw [hplace]; exact Place.noConfusion) hslot
    (fun p hp heq => absurd heq (hnext p hp)) hoverflow (fun hi₀ => absurd hi₀ h₀) fun _ => by
      rw [rearm_handler]
      exact h.fn i hi h₀
  rw [rearm_eq_set]
  refine hset.move (placed_nextPlace (i := i) rfl) (fun j hj p hp heq => ?_)
    (nextPlace_ne_handler i) nextPlace_ne_loop_zero
  change Function.update s.due i _ j = some p at hp
  have hji : j ≠ i := by
    rintro rfl
    rw [Function.update_self] at hp
    exact hnext p hp heq
  have hle : i ≤ j := by
    have hahead := hset.ahead j hj p hp heq
    change Place.Ahead j s.run.place at hahead
    rwa [hplace] at hahead
  exact ahead_nextPlace hj hle hji

/-! ## The functions of the table -/

/-- A registration whose deadline fits keeps the invariant. -/
theorem PendingInv.inserted (h : PendingInv s) (hloop : s.run.place ≠ .loop 0) {name f : ℕ}
    {d r : BitVec 32} (hfree : (s.run.timing.handlers i).fireTick = 0) (hd : 1 ≤ d.toInt)
    (hr : 0 ≤ r.toInt)
    (hfits : DeadlineFits s.run.timing.timerHi (s.run.timing.handlers 0).fireTick d) :
    PendingInv (s.set i ⟨name, d + s.run.timing.timerHi, r, i, .fn f⟩
      (some ⟨s.now + d.toNat, r.toNat⟩)) := by
  have hd' := toNat_of_one_le hd
  have hr' := toNat_lt_of_nonneg hr
  have hhi := h.hi
  have hsum : (d + s.run.timing.timerHi).toNat = (s.now + d.toNat) % 2 ^ 32 := by
    rw [BitVec.toNat_add, hhi]
    omega
  have hne : d + s.run.timing.timerHi ≠ 0 := by
    rw [BitVec.add_comm]
    exact hfits.1
  refine h.set hloop ⟨hr', nofun, ?_, ?_, ?_, ?_, fun _ _ => hne⟩ ?_ ?_
    (fun h₀ => absurd (h₀ ▸ hfree) h.fire_zero) fun _ => Handler.noConfusion
  all_goals
    rintro p hp
    obtain rfl := Option.some.inj hp
  · exact hsum
  · rfl
  · exact Nat.le_add_right _ _
  · exact Nat.add_lt_add_left hd'.2 _
  · exact fun heq => absurd heq (Nat.lt_add_of_pos_right hd'.1).ne'
  · rintro ⟨h₁, h₂⟩
    dsimp only at h₂
    rw [← hhi] at h₁ h₂ ⊢
    exact hfits.2 h₁ (by omega)

/-- A timer that stops to repeat keeps the invariant. -/
theorem PendingInv.removed (h : PendingInv s) (hloop : s.run.place ≠ .loop 0) (hi : i < slots) :
    PendingInv (s.set i { s.run.timing.handlers i with repeatRate := 0 }
      ((s.due i).map fun p => ⟨p.next, 0⟩)) := by
  have hslot := h.slot i hi
  refine h.set hloop ⟨show (0 : BitVec 32).toNat < 2 ^ 31 by decide, fun _ => rfl, ?_, ?_, ?_, ?_,
    ?_⟩ ?_ ?_ ?_ fun h₀ => h.fn i hi h₀
  case refine_8 =>
    rintro rfl
    exact ⟨rfl, h.reaper_zero⟩
  all_goals
    rintro p hp
    obtain ⟨p', hp', rfl⟩ := Option.map_eq_some_iff.1 hp
  · exact hslot.fire p' hp'
  · rfl
  · exact hslot.le p' hp'
  · exact hslot.lt p' hp'
  · exact hslot.ne p' hp'
  · exact h.ahead i hi p' hp'
  · exact fun hover ⟨hlt, hlt'⟩ => h.overflow i hi p' hp' hover ⟨.inl hlt, hlt'⟩

/-- A free slot keeps the invariant. -/
theorem PendingInv.freed (h : PendingInv s) (hloop : s.run.place ≠ .loop 0) (h₀ : i ≠ 0)
    (hrate : e.repeatRate = 0) (hnull : e.handler = .null) : PendingInv (s.set i e none) := by
  have hslot : SlotPending s.now e none :=
    ⟨hrate ▸ (by decide), fun _ => hrate, nofun, nofun, nofun, nofun, nofun⟩
  refine h.set hloop hslot nofun nofun (fun hi => absurd hi h₀) fun _ => ?_
  rw [hnull]
  exact Handler.noConfusion

/-- The step of a registration. -/
theorem register_step (s : PendingRun) (name : ℕ) (d r : BitVec 32) (f : ℕ) :
    (∃ i < slots, (s.run.timing.handlers i).fireTick = 0 ∧
      s.step (.table (.register name d (.fn f) r)) =
        some (s.set i ⟨name, d + s.run.timing.timerHi, r, i, .fn f⟩
          (some ⟨s.now + d.toNat, r.toNat⟩))) ∨
    (∀ i < slots, (s.run.timing.handlers i).fireTick ≠ 0) ∧
      s.step (.table (.register name d (.fn f) r)) = some s := by
  change (∃ i < slots, _ ∧ some (PendingRun.mk { s.run with
      timing := (timingRegisterTimer s.run.timing name d (.fn f) r).1 } s.now (if
      (timingRegisterTimer s.run.timing name d (.fn f) r).2 = 0xFF then s.due else _)) = _) ∨
    _ ∧ some (PendingRun.mk { s.run with
      timing := (timingRegisterTimer s.run.timing name d (.fn f) r).1 } s.now (if
      (timingRegisterTimer s.run.timing name d (.fn f) r).2 = 0xFF then s.due else _)) = _
  rcases timingRegisterTimer_cases s.run.timing name d r (.fn f) with ⟨i, hi, hfree, hne, heq⟩ |
    ⟨hfull, heq⟩
  · refine .inl ⟨i, hi, hfree, ?_⟩
    rw [heq, if_neg hne]
    rfl
  · rw [heq, if_pos rfl]
    exact .inr ⟨hfull, rfl⟩

/-- The step of a deregistration. -/
theorem deregister_step (s : PendingRun) (f : ℕ) :
    (∃ i < slots, (s.run.timing.handlers i).handler = .fn f ∧
      s.step (.table (.deregister (.fn f))) = some (s.set i { s.run.timing.handlers i with
        handler := .null, repeatRate := 0, fireTick := 0 } none)) ∨
    s.step (.table (.deregister (.fn f))) = some s := by
  rw [PendingRun.step, HandlerRun.step, Option.map_some, PendingRun.dueAfter, TableOp.apply,
    timingDeregisterTimer]
  cases hf : firstFrom (fun index => if (s.run.timing.handlers index).handler ≠ .null ∧
      (s.run.timing.handlers index).handler = .fn f then some index else none) slots 0 with
  | none => exact .inr rfl
  | some i =>
    obtain ⟨k, -, hk, ha, -⟩ := firstFrom_eq_some hf
    split_ifs at ha with hc
    obtain rfl := Option.some.inj ha
    exact .inl ⟨k, by omega, hc.2, rfl⟩

/-! ## Runs whose deadlines fit -/

/-- Every operation whose deadlines fit keeps the invariant. -/
theorem PendingInv.step (h : PendingInv s) (hg : pendingSystem.guard s op) (hfits : s.Fits op)
    (hstep : s.step op = some s') : PendingInv s' := by
  obtain ⟨hplace, hvalid⟩ := hg
  have hloop (hidle : s.run.place = .idle ∨ ∃ i, s.run.place = .handler i) :
      s.run.place ≠ .loop 0 := by
    rintro hc
    rw [hc] at hidle
    rcases hidle with hidle | ⟨i, hidle⟩ <;> cases hidle
  cases op with
  | tick deviceId =>
    obtain rfl := Option.some.inj hstep
    rw [PendingRun.nowAfter, HandlerRun.tick]
    split_ifs
    · exact h.ticked hplace rfl rfl rfl
    · exact h
  | visit =>
    obtain ⟨i, hi⟩ := hplace
    obtain ⟨run, hrun, rfl⟩ := Option.map_eq_some_iff.1 hstep
    simp only [HandlerRun.step, hi] at hrun
    exact h.visited hi hfits hrun
  | ret =>
    obtain ⟨i, hi⟩ := hplace
    obtain ⟨run, hrun, rfl⟩ := Option.map_eq_some_iff.1 hstep
    simp only [HandlerRun.step, hi] at hrun
    obtain rfl := Option.some.inj hrun
    simp only [PendingRun.dueAfter, hi]
    exact h.returned hi hfits
  | table o =>
    have hloop := hloop hplace.1
    cases o with
    | register name d f r =>
      obtain ⟨⟨f, rfl⟩, hd, hr⟩ := hvalid
      rcases register_step s name d r f with ⟨i, hi, hfree, heq⟩ | ⟨-, heq⟩
      · rw [← Option.some.inj (heq.symm.trans hstep)]
        exact h.inserted hloop hfree hd hr (hfits ⟨i, hi, hfree⟩)
      · rw [← Option.some.inj (heq.symm.trans hstep)]
        exact h
    | deregister f =>
      obtain ⟨f, rfl⟩ := hvalid
      rcases deregister_step s f with ⟨i, hi, hf, heq⟩ | heq
      · rw [← Option.some.inj (heq.symm.trans hstep)]
        refine h.freed hloop (fun h₀ => ?_) rfl rfl
        rw [h₀, h.reaper_zero] at hf
        cases hf
      · rw [← Option.some.inj (heq.symm.trans hstep)]
        exact h
    | removeIndex i =>
      rw [← Option.some.inj hstep]
      exact h.removed hloop (hplace.2 i rfl)

/-- The runs whose deadlines fit, that of the reaper among them. -/
def fittingSystem : System PendingRun HandlerOp :=
  { pendingSystem.restrict PendingRun.Fits with
    init := fun s => ∃ t : Timing, t.timerHi + 100 ≠ 0 ∧ s = .start t }

theorem pendingInv_start {t : Timing} (ht : t.timerHi + 100 ≠ 0) : PendingInv (.start t) := by
  have hzero : (PendingRun.start t).run.timing.handlers 0 =
      ⟨timerReaperName, 100 + t.timerHi, 100, 0, .reaper⟩ := by
    rw [PendingRun.start, timingInit_handlers, Function.update_self]
  have hother {j : ℕ} (hj : j < slots) (h₀ : j ≠ 0) :
      (PendingRun.start t).run.timing.handlers j = ⟨0, 0, 0, 0, .null⟩ := by
    rw [PendingRun.start, timingInit_handlers, Function.update_of_ne h₀, if_pos hj]
  have hhi : (PendingRun.start t).run.timing.timerHi = t.timerHi := by
    rw [PendingRun.start, timingInit, register_zero rfl]
    rfl
  -- only the reaper has a firing to come
  have hdue {j : ℕ} {p : Pending} (hp : (PendingRun.start t).due j = some p) :
      j = 0 ∧ p = ⟨t.timerHi.toNat + 100, 100⟩ := by
    rw [PendingRun.start] at hp
    dsimp only at hp
    split_ifs at hp with h₀
    exact ⟨h₀, (Option.some.inj hp).symm⟩
  have hlt : t.timerHi.toNat < 2 ^ 32 := t.timerHi.isLt
  have hsum : (100 + t.timerHi).toNat = (t.timerHi.toNat + 100) % 2 ^ 32 := by
    rw [BitVec.toNat_add, Nat.add_comm]
    rfl
  have hne : 100 + t.timerHi ≠ 0 := by
    rw [BitVec.add_comm]
    exact ht
  refine ⟨?_, fun i hi => ?_, fun j hj => ?_, fun j hj p hp heq => ?_,
    fun j hj p hp hover hreaper => ?_, ?_, ?_, Place.noConfusion, fun j hj h₀ => ?_⟩
  · rw [hhi]
    exact (Nat.mod_eq_of_lt hlt).symm
  · rcases hi with hi | hi <;> cases hi
  · by_cases h₀ : j = 0
    · subst h₀
      rw [hzero]
      refine ⟨show (100 : BitVec 32).toNat < 2 ^ 31 by decide,
        fun hq => absurd hq (Option.some_ne_none _), ?_, ?_, ?_, ?_, fun _ _ => hne⟩ <;>
        rintro p hp <;> obtain ⟨-, rfl⟩ := hdue hp
      · exact hsum
      · rfl
      · exact Nat.le_add_right _ _
      · exact Nat.add_lt_add_left (by decide) _
    · rw [hother hj h₀]
      have hnone (p : Pending) (hp : (PendingRun.start t).due j = some p) : False := h₀ (hdue hp).1
      exact ⟨show (0 : BitVec 32).toNat < 2 ^ 31 by decide, fun _ => rfl,
        fun p hp => (hnone p hp).elim, fun p hp => (hnone p hp).elim,
        fun p hp => (hnone p hp).elim, fun p hp => (hnone p hp).elim,
        fun p hp => (hnone p hp).elim⟩
  · obtain ⟨-, rfl⟩ := hdue hp
    exact absurd heq (Nat.lt_add_of_pos_right (by decide)).ne'
  · obtain ⟨-, rfl⟩ := hdue hp
    obtain ⟨h₁, h₂⟩ := hover
    change t.timerHi.toNat % 2 ^ 32 < 2 ^ 31 at h₁
    change 2 ^ 31 ≤ t.timerHi.toNat % 2 ^ 32 + (t.timerHi.toNat + 100 - t.timerHi.toNat) at h₂
    have hlt' := hreaper.2
    rw [hzero] at hlt'
    dsimp only at hlt'
    omega
  · rw [hzero]
    exact hne
  · rw [hzero]
  · rw [hother hj h₀]
    exact Handler.noConfusion

/-- The invariant of the runs whose deadlines fit. -/
theorem pendingInv (hs : fittingSystem.Reachable s) : PendingInv s := by
  refine hs.of_step ?_ ?_
  · rintro s ⟨t, ht, rfl⟩
    exact pendingInv_start ht
  · intro s op s' h hg hstep
    exact h.step hg.1 hg.2 hstep

/-- A slot with a firing to come stays in use when a slot is visited. -/
theorem PendingInv.visit_ne {run : HandlerRun} (h : PendingInv s) (h' : PendingInv s')
    (hs' : s'.run = run) (hplace : s.run.place = .loop i) (hvisit : s.run.visit i = some run)
    (hj : j < slots) (hp : s.due j = some p)
    (hne : (s.run.timing.handlers j).fireTick ≠ 0) : (run.timing.handlers j).fireTick ≠ 0 := by
  cases hd : (s.run.timing.handlers i).due s.run.timing.timerHi with
  | false =>
    obtain rfl := Option.some.inj ((visit_not_due hd).symm.trans hvisit)
    exact hne
  | true =>
    rw [visit_due hd] at hvisit
    obtain ⟨-, ⟨hreaper, htiming, -⟩ | ⟨-, htiming, -⟩⟩ := callSlot_cases hvisit
    · have h₀ : i = 0 := by
        by_contra h₀
        exact h.fn i (h.placed i (.inl hplace)) h₀ hreaper
      subst h₀
      by_cases hj₀ : j = 0
      · rw [hj₀, ← hs']
        exact h'.fire_zero
      · rw [htiming, rearm_of_ne hj₀, h.timingReaper_pending hplace hd hj hp]
        exact hne
    · rw [htiming]
      exact hne

/-- No timer with a firing to come is dropped, in every run whose deadlines fit: the reaper
    clears no slot of one, and no registration takes its slot. -/
theorem no_pending_dropped (hs : fittingSystem.Reachable s) (hg : fittingSystem.guard s op)
    (hstep : fittingSystem.step s op = some s') : NothingDropped s op s' := by
  have h := pendingInv hs
  have h' := h.step hg.1 hg.2 hstep
  refine ⟨?_, ?_, ?_⟩
  · rintro rfl j hj hne hcleared
    rw [Option.eq_none_iff_forall_ne_some]
    intro p hp
    obtain ⟨i, hi⟩ := hg.1.1
    obtain ⟨run, hrun, rfl⟩ := Option.map_eq_some_iff.1 hstep
    simp only [HandlerRun.step, hi] at hrun
    exact h.visit_ne h' rfl hi hrun hj hp hne hcleared
  · rintro name d f r rfl j hj hstored
    rw [Option.eq_none_iff_forall_ne_some]
    intro p hp
    obtain ⟨⟨f, rfl⟩, -⟩ := hg.1.2
    rcases register_step s name d r f with ⟨i, hi, hfree, heq⟩ | ⟨-, heq⟩
    · -- the slot that is taken is a free one
      obtain rfl := Option.some.inj (heq.symm.trans hstep)
      have hji : j ≠ i := fun hji => (h.slot j hj).ne p hp (hji ▸ hfree)
      exact hstored (Function.update_of_ne hji _ _)
    · obtain rfl := Option.some.inj (heq.symm.trans hstep)
      exact hstored rfl
  · intro j hj p hp
    have hslot := h'.slot j hj
    refine ⟨BitVec.eq_of_toNat_eq ?_, hslot.ne p hp⟩
    rw [hslot.fire p hp, BitVec.toNat_ofNat]

/-- A timer with the delay 1 and the rate 5 is called in the first tick, and then set again. -/
theorem no_pending_dropped_first : ∃ s s', fittingSystem.Run (.start bootTiming)
    [.table (.register 0 1 (.fn 0) 5), .tick 0, .visit, .visit] s ∧ s.run.place = .handler 1 ∧
    fittingSystem.step s .ret = some s' ∧ (∃ p, s'.due 1 = some p ∧ p.next = 6) ∧
    NothingDropped s .ret s' := by
  have hinit : fittingSystem.init (.start bootTiming) := ⟨bootTiming, by decide, rfl⟩
  have hrun : fittingSystem.Run (.start bootTiming)
      [.table (.register 0 1 (.fn 0) 5), .tick 0, .visit, .visit] _ :=
    .cons ⟨⟨⟨.inl rfl, nofun⟩, ⟨0, rfl⟩, by decide, by decide⟩,
        fun _ => ⟨by decide, fun _ h => absurd h (by decide)⟩⟩ rfl
      (.cons ⟨⟨rfl, trivial⟩, trivial⟩ rfl
        (.cons ⟨⟨⟨0, rfl⟩, trivial⟩, fun i hi hd => by cases hi; exact absurd hd (by decide)⟩ rfl
          (.cons ⟨⟨⟨1, rfl⟩, trivial⟩, fun i hi _ hreaper => by cases hi; cases hreaper⟩ rfl
            (.nil _))))
  refine ⟨_, _, hrun, rfl, rfl, ⟨_, rfl, rfl⟩,
    no_pending_dropped ⟨_, _, hinit, hrun⟩ ⟨⟨⟨1, rfl⟩, trivial⟩, fun i hi _ => ?_⟩ rfl⟩
  cases hi
  exact ⟨by decide, fun _ h => absurd h (by decide)⟩

/-! ## A deadline that overflows -/

variable {t : Timing} {c : List HandlerCall} {due : ℕ → Option Pending} {k : ℕ}

/-- The visit of a slot that is not due. -/
theorem quiet_visit (hd : (t.handlers i).due t.timerHi = false)
    (hdue : ∀ p, due i = some p → p.next ≠ n) :
    pendingSystem.step ⟨⟨t, .loop i, c⟩, n, due⟩ .visit = some ⟨⟨t, nextPlace i, c⟩, n, due⟩ := by
  change (HandlerRun.visit ⟨t, .loop i, c⟩ i).map _ = _
  rw [visit_not_due hd, Option.map_some, dueAfter_visit (i := i) rfl rfl]
  dsimp only
  rw [bind_after_eq hdue, Function.update_eq_self]
  rfl

/-- The loop of a tick at which nothing is due. -/
theorem quiet_loop (hi : i + (k + 1) = slots)
    (hd : ∀ j < slots, (t.handlers j).due t.timerHi = false)
    (hdue : ∀ j p, due j = some p → p.next ≠ n) :
    pendingSystem.Run ⟨⟨t, .loop i, c⟩, n, due⟩ (List.replicate (k + 1) .visit)
      ⟨⟨t, .idle, c⟩, n, due⟩ := by
  induction k generalizing i with
  | zero =>
    have hstep := @quiet_visit _ _ t c due (hd i (by omega)) (hdue i)
    rw [nextPlace, if_neg (by omega)] at hstep
    exact .cons ⟨⟨i, rfl⟩, trivial⟩ hstep (.nil _)
  | succ k ih =>
    have hstep := @quiet_visit _ _ t c due (hd i (by omega)) (hdue i)
    rw [nextPlace, if_pos (by omega)] at hstep
    exact .cons ⟨⟨i, rfl⟩, trivial⟩ hstep (ih (by omega))

/-- The beginning of a tick. -/
theorem tick_step (t : Timing) (c : List HandlerCall) (n : ℕ) (due : ℕ → Option Pending) :
    ∃ low, pendingSystem.step ⟨⟨t, .idle, c⟩, n, due⟩ (.tick t.device) =
      some ⟨⟨{ t with timerHi := t.timerHi + 1, timerLow := low }, .loop 0, c⟩, n + 1, due⟩ := by
  refine ⟨if (t.timerHi + 1) % (t.deviceResoulution * 1000) = 0 then t.timerLow + 1
    else t.timerLow, ?_⟩
  change some (PendingRun.mk (HandlerRun.tick ⟨t, .idle, c⟩ t.device)
    (if t.device = t.device then n + 1 else n) due) = _
  rw [HandlerRun.tick, if_pos rfl, if_pos rfl]

/-- Ticks at which nothing is due only count. -/
theorem run_later (k : ℕ) (hk : t.timerHi.toNat + k < 2 ^ 32)
    (hfire : ∀ j < slots, (t.handlers j).fireTick ≠ 0 →
      t.timerHi.toNat + k < (t.handlers j).fireTick.toNat)
    (hdue : ∀ j p, due j = some p → n + k < p.next) :
    ∃ ops low, pendingSystem.Run ⟨⟨t, .idle, c⟩, n, due⟩ ops
      ⟨⟨{ t with timerHi := t.timerHi + BitVec.ofNat 32 k, timerLow := low }, .idle, c⟩,
        n + k, due⟩ := by
  induction k with
  | zero =>
    refine ⟨[], t.timerLow, ?_⟩
    rw [BitVec.add_zero]
    exact .nil _
  | succ k ih =>
    obtain ⟨ops, low, hrun⟩ := ih (by omega)
      (fun j hj hne => by have := hfire j hj hne; omega)
      fun j p hp => by have := hdue j p hp; omega
    obtain ⟨low', hstep⟩ := tick_step
      { t with timerHi := t.timerHi + BitVec.ofNat 32 k, timerLow := low } c (n + k) due
    have hhi : t.timerHi + BitVec.ofNat 32 k + 1 = t.timerHi + BitVec.ofNat 32 (k + 1) := by
      rw [BitVec.add_assoc, BitVec.ofNat_add]
      rfl
    rw [hhi] at hstep
    -- the next tick is before every firing
    have hquiet (j : ℕ) (hj : j < slots) :
        (t.handlers j).due (t.timerHi + BitVec.ofNat 32 (k + 1)) = false := by
      rw [Timer.due, decide_eq_false_iff_not]
      rintro ⟨hne, heq⟩
      have hlt := hfire j hj hne
      rw [heq, BitVec.toNat_add, BitVec.toNat_ofNat] at hlt
      omega
    have hloop := @quiet_loop 0 (n + k + 1) { t with
        timerHi := t.timerHi + BitVec.ofNat 32 (k + 1)
        timerLow := low' } c due 254 rfl hquiet
      fun j p hp => by have := hdue j p hp; omega
    refine ⟨_, low', (hrun.snoc ?_ hstep).append hloop⟩
    exact ⟨rfl, trivial⟩

/-- The longest delay of a C `int`. -/
def intMax : BitVec 32 := 0x7fffffff

/-- The table of the reaper alone. -/
def reaperTable : ℕ → Timer :=
  Function.update bootTiming.handlers 0 ⟨timerReaperName, 100, 100, 0, .reaper⟩

theorem reaperTable_zero : reaperTable 0 = ⟨timerReaperName, 100, 100, 0, .reaper⟩ :=
  Function.update_self _ _ _

theorem reaperTable_of_ne (h₀ : j ≠ 0) : reaperTable j = ⟨0, 0, 0, 0, .null⟩ :=
  Function.update_of_ne h₀ _ _

/-- The reaper's firing alone. -/
def reaperDue : ℕ → Option Pending := fun j => if j = 0 then some ⟨100, 100⟩ else none

theorem start_bootTiming : PendingRun.start bootTiming =
    ⟨⟨⟨reaperTable, 0, 0, 0, 1⟩, .idle, []⟩, 0, reaperDue⟩ := by
  have htable : (timingInit bootTiming).handlers = reaperTable := by
    rw [timingInit_handlers, reaperTable]
    congr 1
    funext i
    exact ite_self _
  have htiming : timingInit bootTiming =
      { timingInit bootTiming with handlers := reaperTable } := by
    rw [← htable]
  rw [PendingRun.start, htiming, timingInit, register_zero rfl]
  rfl

/-- The table with a timer whose deadline overflows, and its firings. -/
def lateTable (i : ℕ) : ℕ → Timer := Function.update reaperTable i ⟨0, intMax + 1, 0, i, .fn 0⟩

def lateDue (i : ℕ) : ℕ → Option Pending :=
  Function.update reaperDue i (some ⟨1 + intMax.toNat, 0⟩)

/-- The run after the first tick, and the registration. -/
theorem run_late : ∃ ops i low, i ≠ 0 ∧ i < slots ∧ pendingSystem.Run (.start bootTiming) ops
    ⟨⟨⟨lateTable i, 1, low, 0, 1⟩, .idle, []⟩, 1, lateDue i⟩ := by
  rw [start_bootTiming]
  obtain ⟨ops, low, hrun⟩ := @run_later 0 ⟨reaperTable, 0, 0, 0, 1⟩ [] reaperDue 1 (by decide)
    (fun j _ hne => by
      dsimp only at hne ⊢
      by_cases h₀ : j = 0
      · rw [h₀, reaperTable_zero]
        decide
      · rw [reaperTable_of_ne h₀] at hne
        exact absurd rfl hne)
    fun j p hp => by
      rw [reaperDue] at hp
      split_ifs at hp
      rw [← Option.some.inj hp]
      decide
  rcases register_step ⟨⟨⟨reaperTable, 1, low, 0, 1⟩, .idle, []⟩, 1, reaperDue⟩ 0 intMax 0 0
    with ⟨i, hi, hfree, heq⟩ | ⟨hfull, -⟩
  · have hreg : pendingSystem.step ⟨⟨⟨reaperTable, 1, low, 0, 1⟩, .idle, []⟩, 1, reaperDue⟩
        (.table (.register 0 intMax (.fn 0) 0)) =
        some ⟨⟨⟨lateTable i, 1, low, 0, 1⟩, .idle, []⟩, 1, lateDue i⟩ := heq
    refine ⟨_, i, low, ?_, hi, hrun.snoc ?_ hreg⟩
    · rintro rfl
      exact absurd (congrArg Timer.fireTick reaperTable_zero ▸ hfree) (by decide)
    · exact ⟨⟨.inl rfl, nofun⟩, ⟨0, rfl⟩, by decide, by decide⟩
  · exact absurd (congrArg Timer.fireTick (reaperTable_of_ne one_ne_zero)) (hfull 1 (by decide))

/-- The slots of the run: the reaper, the timer, and free ones. -/
theorem lateTable_cases (i j : ℕ) :
    j = i ∨ j = 0 ∧ lateTable i j = ⟨timerReaperName, 100, 100, 0, .reaper⟩ ∧
        lateDue i j = some ⟨100, 100⟩ ∨
      (lateTable i j).fireTick = 0 ∧ lateDue i j = none := by
  by_cases hji : j = i
  · exact .inl hji
  · rw [lateTable, lateDue, Function.update_of_ne hji, Function.update_of_ne hji]
    by_cases hj₀ : j = 0
    · rw [hj₀, reaperTable_zero]
      exact .inr (.inl ⟨rfl, rfl, rfl⟩)
    · rw [reaperTable_of_ne hj₀, reaperDue, if_neg hj₀]
      exact .inr (.inr ⟨rfl, rfl⟩)

theorem lateTable_self : lateTable i i = ⟨0, intMax + 1, 0, i, .fn 0⟩ := Function.update_self ..

theorem lateDue_self : lateDue i i = some ⟨1 + intMax.toNat, 0⟩ := Function.update_self ..

/-- The run at the beginning of the tick 100. -/
theorem run_hundred (low : BitVec 32) (i : ℕ) : ∃ ops low', pendingSystem.Run
    ⟨⟨⟨lateTable i, 1, low, 0, 1⟩, .idle, []⟩, 1, lateDue i⟩ ops
    ⟨⟨⟨lateTable i, 100, low', 0, 1⟩, .loop 0, []⟩, 100, lateDue i⟩ := by
  obtain ⟨ops, low', hrun⟩ := @run_later 1 ⟨lateTable i, 1, low, 0, 1⟩ [] (lateDue i) 98
    (show 1 + 98 < 2 ^ 32 by decide)
    (fun j _ hne => by
      change 1 + 98 < (lateTable i j).fireTick.toNat
      change (lateTable i j).fireTick ≠ 0 at hne
      rcases lateTable_cases i j with rfl | ⟨-, hj, -⟩ | ⟨hj, -⟩
      · rw [lateTable_self]
        exact (by decide : 1 + 98 < (intMax + 1).toNat)
      · rw [hj]
        decide
      · exact absurd hj hne)
    fun j p hp => by
      rcases lateTable_cases i j with rfl | ⟨-, -, hj⟩ | ⟨-, hj⟩
      · rw [lateDue_self] at hp
        rw [← Option.some.inj hp]
        decide
      · rw [hj] at hp
        rw [← Option.some.inj hp]
        decide
      · rw [hj] at hp
        cases hp
  obtain ⟨low'', hstep⟩ := tick_step ⟨lateTable i, 99, low', 0, 1⟩ [] 99 (lateDue i)
  refine ⟨_, low'', hrun.snoc ?_ hstep⟩
  exact ⟨rfl, trivial⟩

/-- The visit of the reaper takes the deadline, a negative number, for one that has passed. -/
theorem late_visit (low : BitVec 32) (h₀ : i ≠ 0) (hi : i < slots) : ∃ s',
    pendingSystem.step ⟨⟨⟨lateTable i, 100, low, 0, 1⟩, .loop 0, []⟩, 100, lateDue i⟩ .visit =
      some s' ∧ (s'.run.timing.handlers i).fireTick = 0 := by
  set t : Timing := ⟨lateTable i, 100, low, 0, 1⟩
  have hzero : t.handlers 0 = ⟨timerReaperName, 100, 100, 0, .reaper⟩ :=
    (Function.update_of_ne h₀.symm ..).trans reaperTable_zero
  have hself : t.handlers i = ⟨0, intMax + 1, 0, i, .fn 0⟩ := lateTable_self
  have hd : (t.handlers 0).due t.timerHi = true := by
    rw [hzero]
    rfl
  have hvisit : HandlerRun.visit ⟨t, .loop 0, []⟩ 0 =
      some ⟨rearm (timingReaper t) 0, nextPlace 0, [⟨100, 0, .reaper⟩]⟩ := by
    rw [visit_due hd, HandlerRun.callSlot]
    dsimp only
    rw [hzero]
    rfl
  have hne : (t.handlers i).fireTick ≠ 0 := by
    rw [hself]
    exact (by decide : intMax + 1 ≠ 0)
  have hslt : (t.handlers i).fireTick.slt t.timerHi = true := by
    rw [hself]
    exact (by decide : (intMax + 1).slt 100 = true)
  refine ⟨_, congrArg (Option.map _) hvisit, ?_⟩
  change ((rearm (timingReaper t) 0).handlers i).fireTick = 0
  rw [rearm_of_ne h₀]
  exact congrArg Timer.fireTick (if_pos ⟨hi, hne, hslt⟩)

/-- A timer of a delay of `2^31 - 1` is cleared by the reaper long before it is due. -/
theorem late_timer_dropped : ¬∀ s op s', pendingSystem.Reachable s → pendingSystem.guard s op →
    pendingSystem.step s op = some s' → NothingDropped s op s' := by
  intro h
  obtain ⟨ops, i, low, h₀, hi, hrun⟩ := run_late
  obtain ⟨ops', low', hrun'⟩ := run_hundred low i
  obtain ⟨s', hstep, hcleared⟩ := late_visit low' h₀ hi
  have hreach : pendingSystem.Reachable _ := ⟨_, _, ⟨bootTiming, rfl⟩, hrun.append hrun'⟩
  have hguard : pendingSystem.guard
      ⟨⟨⟨lateTable i, 100, low', 0, 1⟩, .loop 0, []⟩, 100, lateDue i⟩ .visit :=
    ⟨⟨0, rfl⟩, trivial⟩
  have hne : (lateTable i i).fireTick ≠ 0 := by
    rw [lateTable_self]
    exact (by decide : intMax + 1 ≠ 0)
  have hnone := (h _ _ _ hreach hguard hstep).reaper rfl i hi hne hcleared
  exact Option.some_ne_none _ (lateDue_self.symm.trans hnone)

end Beryllium

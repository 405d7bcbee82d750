import Beryllium.Machine.System
import Beryllium.Timing.Tick

/-!
# Handlers that use the table

`cyclic_tasks` one step after the other: a visit of a slot, which may call its handler, and the
return of the handler, after which the slot is read again, and set again if it repeats. While it
runs, a handler may call the functions of `timing.h`, as may others between two ticks
(`handlerSystem`).

If the handlers leave the table alone, the steps are those of `cyclicTasks`
(`run_cyclicTasks`).
-/

namespace Beryllium

open Machine

/-- A call of a function of `timing.h`. -/
inductive TableOp
  | register (name : ℕ) (tick : BitVec 32) (handler : Handler) (reschedule : BitVec 32)
  | deregister (handler : Handler)
  | removeIndex (index : ℕ)

/-- What the call does to the table. -/
def TableOp.apply (s : Timing) : TableOp → Timing
  | .register name tick handler reschedule => (timingRegisterTimer s name tick handler reschedule).1
  | .deregister handler => timingDeregisterTimer s handler
  | .removeIndex index => timingRemoveIndex s index

/-- Where the timers are: between two ticks, before the visit of a slot, or in a call of its
    handler. -/
inductive Place
  | idle
  | loop (i : ℕ)
  | handler (i : ℕ)

/-- The place after a slot is visited. -/
def nextPlace (i : ℕ) : Place := if i + 1 < slots then .loop (i + 1) else .idle

/-- A call of the handler of a slot. -/
structure HandlerCall where
  tick : BitVec 32
  slot : ℕ
  handler : Handler
  deriving DecidableEq

/-- A call without its tick. -/
def HandlerCall.call (c : HandlerCall) : ℕ × Handler := (c.slot, c.handler)

/-- The timers, where they are, and the calls of handlers so far. -/
structure HandlerRun where
  timing : Timing
  place : Place
  calls : List HandlerCall

/-- The operations: a tick of a device, the visit of a slot, the return of its handler, and a
    function of `timing.h`. -/
inductive HandlerOp
  | tick (deviceId : BitVec 32)
  | visit
  | ret
  | table (op : TableOp)

/-- The end of an iteration of `cyclic_tasks`: the slot is set again, if it repeats. -/
def rearm (s : Timing) (i : ℕ) : Timing :=
  let h := s.handlers i
  if h.repeatRate ≠ 0 then s.set i { h with fireTick := s.timerHi + h.repeatRate } else s

namespace HandlerRun

variable (s : HandlerRun)

/-- The beginning of `timer_recieveTick`, up to the first slot. -/
def tick (deviceId : BitVec 32) : HandlerRun :=
  if deviceId = s.timing.device then
    let hi := s.timing.timerHi + 1
    let low := if hi % (s.timing.deviceResoulution * 1000) = 0 then s.timing.timerLow + 1
      else s.timing.timerLow
    { s with timing := { s.timing with timerHi := hi, timerLow := low }, place := .loop 0 }
  else s

/-- The call of the handler of the slot `i`. The reaper is called at once, up to the end of the
    iteration, and a call of `NULL` gets stuck. -/
def callSlot (i : ℕ) : Option HandlerRun :=
  let h := s.timing.handlers i
  let calls := s.calls ++ [⟨s.timing.timerHi, i, h.handler⟩]
  match h.handler with
  | .null => none
  | .reaper => some ⟨rearm (timingReaper s.timing) i, nextPlace i, calls⟩
  | .fn _ => some ⟨s.timing, .handler i, calls⟩

/-- The iteration of the loop of `cyclic_tasks` for the slot `i`, up to the call of its handler. -/
def visit (i : ℕ) : Option HandlerRun :=
  let h := s.timing.handlers i
  if h.fireTick = 0 then some { s with place := nextPlace i }
  else if h.fireTick = s.timing.timerHi then s.callSlot i
  else some { s with place := nextPlace i }

/-- What an operation does. -/
def step : HandlerOp → Option HandlerRun
  | .tick deviceId => some (s.tick deviceId)
  | .visit =>
    match s.place with
    | .loop i => s.visit i
    | _ => none
  | .ret =>
    match s.place with
    | .handler i => some { s with timing := rearm s.timing i, place := nextPlace i }
    | _ => none
  | .table op => some { s with timing := op.apply s.timing }

/-- The current tick. -/
def now : ℕ := s.timing.timerHi.toNat

end HandlerRun

/-- The runs of the timers, from any table that `timing_init` leaves. -/
def handlerSystem : System HandlerRun HandlerOp where
  init s := ∃ t : Timing, s = ⟨timingInit t, .idle, []⟩
  guard s op := match op with
    | .tick _ => s.place = .idle
    | .visit => ∃ i, s.place = .loop i
    | .ret => ∃ i, s.place = .handler i
    | .table op => (s.place = .idle ∨ ∃ i, s.place = .handler i) ∧
      ∀ index, op = .removeIndex index → index < slots
  step := HandlerRun.step

variable {s s' : HandlerRun} {t : Timing} {h : Handler} {deviceId : BitVec 32} {i j k : ℕ}

/-! ## One step -/

/-- A visit of a slot that is not due goes on to the next one. -/
theorem visit_not_due (hd : (s.timing.handlers i).due s.timing.timerHi = false) :
    s.visit i = some { s with place := nextPlace i } := by
  have hne : ¬((s.timing.handlers i).fireTick ≠ 0 ∧
      (s.timing.handlers i).fireTick = s.timing.timerHi) :=
    of_decide_eq_false hd
  rw [HandlerRun.visit]
  split_ifs with h₀ h₁
  · rfl
  · exact absurd ⟨h₀, h₁⟩ hne
  · rfl

/-- A visit of a slot that is due calls its handler. -/
theorem visit_due (hd : (s.timing.handlers i).due s.timing.timerHi = true) :
    s.visit i = s.callSlot i := by
  obtain ⟨h₀, h₁⟩ := of_decide_eq_true hd
  rw [HandlerRun.visit, if_neg h₀, if_pos h₁]

/-- What the call of a handler does. -/
theorem callSlot_cases (hc : s.callSlot i = some s') :
    s'.calls = s.calls ++ [⟨s.timing.timerHi, i, (s.timing.handlers i).handler⟩] ∧
    (((s.timing.handlers i).handler = .reaper ∧ s'.timing = rearm (timingReaper s.timing) i ∧
        s'.place = nextPlace i) ∨
      ((∃ f, (s.timing.handlers i).handler = .fn f) ∧ s'.timing = s.timing ∧
        s'.place = .handler i)) := by
  rw [HandlerRun.callSlot] at hc
  cases hh : (s.timing.handlers i).handler with
  | null =>
    rw [hh] at hc
    cases hc
  | reaper =>
    rw [hh] at hc
    obtain rfl := Option.some.inj hc
    exact ⟨rfl, .inl ⟨rfl, rfl, rfl⟩⟩
  | fn f =>
    rw [hh] at hc
    obtain rfl := Option.some.inj hc
    exact ⟨rfl, .inr ⟨⟨f, rfl⟩, rfl, rfl⟩⟩

theorem rearm_timerHi : (rearm t i).timerHi = t.timerHi := by
  rw [rearm]
  split_ifs <;> rfl

theorem rearm_of_ne (hne : j ≠ i) : (rearm t i).handlers j = t.handlers j := by
  rw [rearm]
  split_ifs
  · exact t.set_of_ne _ hne
  · rfl

theorem rearm_self (hr : (t.handlers i).repeatRate ≠ 0) : (rearm t i).handlers i =
    { t.handlers i with fireTick := t.timerHi + (t.handlers i).repeatRate } := by
  rw [rearm]
  dsimp only
  rw [if_pos hr, Timing.set_self]

theorem rearm_of_not_repeat (hr : (t.handlers i).repeatRate = 0) : rearm t i = t := by
  rw [rearm]
  exact if_neg (not_not.2 hr)

/-- Setting a slot again only depends on the slot. -/
theorem rearm_congr {t' : Timing} (hi : t'.handlers i = t.handlers i)
    (htick : t'.timerHi = t.timerHi) : (rearm t' i).handlers i = (rearm t i).handlers i := by
  by_cases hr : (t.handlers i).repeatRate = 0
  · rw [rearm_of_not_repeat hr, rearm_of_not_repeat (hi ▸ hr), hi]
  · rw [rearm_self hr, rearm_self (hi ▸ hr), hi, htick]

/-- Setting a slot again changes its tick only. -/
theorem rearm_handler : ((rearm t i).handlers j).handler = (t.handlers j).handler := by
  by_cases hj : j = i
  · subst hj
    by_cases hr : (t.handlers j).repeatRate = 0
    · rw [rearm_of_not_repeat hr]
    · rw [rearm_self hr]
  · rw [rearm_of_ne hj]

/-- The reaper leaves a slot alone, or clears it. -/
theorem timingReaper_cases (t : Timing) (i : ℕ) : (timingReaper t).handlers i = t.handlers i ∨
    (t.handlers i).fireTick.slt t.timerHi = true ∧
      ((timingReaper t).handlers i).handler = .null ∧
      ((timingReaper t).handlers i).fireTick = 0 := by
  rw [timingReaper]
  dsimp only
  split_ifs with hc
  · exact .inr ⟨hc.2.2, rfl, rfl⟩
  · exact .inl rfl

theorem TableOp.apply_timerHi (op : TableOp) (t : Timing) : (op.apply t).timerHi = t.timerHi := by
  cases op with
  | register name d h r =>
    rcases timingRegisterTimer_cases t name d r h with ⟨i, -, -, -, heq⟩ | ⟨-, heq⟩
    · rw [apply, heq]
      rfl
    · rw [apply, heq]
  | deregister h =>
    rcases timingDeregisterTimer_cases t h with ⟨i, -, -, -, heq⟩ | ⟨-, heq⟩
    · rw [apply, heq]
      rfl
    · rw [apply, heq]
  | removeIndex i => rfl

/-- The place after the slot `i` is idle, or a slot behind it. -/
theorem nextPlace_cases (i : ℕ) :
    nextPlace i = .idle ∨ i + 1 < slots ∧ nextPlace i = .loop (i + 1) := by
  rw [nextPlace]
  split_ifs with hi
  · exact .inr ⟨hi, rfl⟩
  · exact .inl rfl

/-- No handler runs at the place after a slot. -/
theorem nextPlace_ne_handler (i : ℕ) : nextPlace i ≠ .handler j := by
  intro hc
  rcases nextPlace_cases i with heq | ⟨-, heq⟩
  · cases heq.symm.trans hc
  · cases heq.symm.trans hc

/-- The slot that is visited, or whose handler runs, is one of the table. -/
def HandlerRun.Placed (s : HandlerRun) : Prop :=
  ∀ i, s.place = .loop i ∨ s.place = .handler i → i < slots

theorem placed_nextPlace (hs : s.place = nextPlace i) : s.Placed := by
  intro j hj
  rw [hs] at hj
  rcases nextPlace_cases i with heq | ⟨hi, heq⟩
  · rw [heq] at hj
    rcases hj with hj | hj <;> cases hj
  · rw [heq] at hj
    rcases hj with hj | hj
    · cases hj
      exact hi
    · cases hj

/-- The tick of another device does nothing. -/
theorem tick_cases (s : HandlerRun) (deviceId : BitVec 32) : s.tick deviceId = s ∨
    (s.tick deviceId).timing.timerHi = s.timing.timerHi + 1 ∧
      (s.tick deviceId).timing.handlers = s.timing.handlers ∧ (s.tick deviceId).place = .loop 0 ∧
      (s.tick deviceId).calls = s.calls := by
  rw [HandlerRun.tick]
  split_ifs
  · exact .inr ⟨rfl, rfl, rfl, rfl⟩
  · exact .inl rfl

/-- What a step does. -/
theorem handler_step_cases {op : HandlerOp} (hs : handlerSystem.step s op = some s') :
    (∃ deviceId, op = .tick deviceId ∧ s' = s.tick deviceId) ∨
    (∃ i, op = .visit ∧ s.place = .loop i ∧ s.visit i = some s') ∨
    (∃ i, op = .ret ∧ s.place = .handler i ∧
      s' = { s with timing := rearm s.timing i, place := nextPlace i }) ∨
    (∃ o, op = .table o ∧ s' = { s with timing := TableOp.apply s.timing o }) := by
  cases op with
  | tick deviceId => exact .inl ⟨deviceId, rfl, (Option.some.inj hs).symm⟩
  | visit =>
    cases hplace : s.place with
    | loop i =>
      refine .inr (.inl ⟨i, rfl, rfl, ?_⟩)
      rw [← hs]
      simp only [handlerSystem, HandlerRun.step, hplace]
    | _ =>
      simp only [handlerSystem, HandlerRun.step, hplace] at hs
      cases hs
  | ret =>
    cases hplace : s.place with
    | handler i =>
      refine .inr (.inr (.inl ⟨i, rfl, rfl, ?_⟩))
      simp only [handlerSystem, HandlerRun.step, hplace] at hs
      exact (Option.some.inj hs).symm
    | _ =>
      simp only [handlerSystem, HandlerRun.step, hplace] at hs
      cases hs
  | table o => exact .inr (.inr (.inr ⟨o, rfl, (Option.some.inj hs).symm⟩))

/-- The place stays one of the table. -/
theorem HandlerRun.Placed.step {op : HandlerOp} (hp : s.Placed)
    (hs : handlerSystem.step s op = some s') : s'.Placed := by
  rcases handler_step_cases hs with ⟨deviceId, rfl, rfl⟩ | ⟨i, rfl, hplace, hvisit⟩ |
    ⟨i, rfl, -, rfl⟩ | ⟨o, rfl, rfl⟩
  · rcases tick_cases s deviceId with heq | ⟨-, -, hplace, -⟩
    · rw [heq]
      exact hp
    · intro i hi
      rw [hplace] at hi
      rcases hi with hi | hi <;> cases hi
      decide
  · cases hd : (s.timing.handlers i).due s.timing.timerHi with
    | false =>
      obtain rfl := Option.some.inj ((visit_not_due hd).symm.trans hvisit)
      exact placed_nextPlace rfl
    | true =>
      rw [visit_due hd] at hvisit
      obtain ⟨-, ⟨-, -, hnext⟩ | ⟨-, -, hnext⟩⟩ := callSlot_cases hvisit
      · exact placed_nextPlace hnext
      · intro j hj
        rw [hnext] at hj
        rcases hj with hj | hj <;> cases hj
        exact hp i (.inl hplace)
  · exact placed_nextPlace rfl
  · exact hp

theorem placed_of_reachable (hs : handlerSystem.Reachable s) : s.Placed := by
  refine hs.of_step ?_ fun s op s' hp _ hst => hp.step hst
  rintro s ⟨t, rfl⟩ i hi
  rcases hi with hi | hi <;> cases hi

/-! ## Handlers that leave the table alone -/

/-- The steps of `cyclic_tasks` itself. -/
def HandlerOp.InTick : HandlerOp → Prop
  | .visit => True
  | .ret => True
  | _ => False

/-- The steps of one iteration of `cyclic_tasks`. -/
theorem run_cyclicStep {t' : Timing} {cs cs' : List (ℕ × Handler)}
    (h : cyclicStep t.timerHi (t, cs) i = some (t', cs')) (c : List HandlerCall) :
    ∃ ops new, (∀ op ∈ ops, op.InTick) ∧
    handlerSystem.Run ⟨t, .loop i, c⟩ ops ⟨t', nextPlace i, c ++ new⟩ ∧
      cs' = cs ++ new.map HandlerCall.call ∧ t'.timerHi = t.timerHi := by
  have hvisit (s' : HandlerRun) (hs : HandlerRun.visit ⟨t, .loop i, c⟩ i = some s') :
      handlerSystem.Run ⟨t, .loop i, c⟩ [.visit] s' := .cons ⟨i, rfl⟩ hs (.nil _)
  have hin : ∀ op ∈ [HandlerOp.visit], op.InTick := by simp [HandlerOp.InTick]
  cases hd : (t.handlers i).due t.timerHi with
  | false =>
    have hne : ¬((t.handlers i).fireTick ≠ 0 ∧ (t.handlers i).fireTick = t.timerHi) :=
      of_decide_eq_false hd
    have hsame : (t, cs) = (t', cs') := by
      rw [cyclicStep] at h
      split_ifs at h with h₀ h₁
      · exact Option.some.inj h
      · exact absurd ⟨h₀, h₁⟩ hne
      · exact Option.some.inj h
    obtain ⟨rfl, rfl⟩ := Prod.mk.inj hsame
    refine ⟨[.visit], [], hin, ?_, (List.append_nil _).symm, rfl⟩
    rw [List.append_nil]
    exact hvisit _ (visit_not_due hd)
  | true =>
    obtain ⟨h₀, h₁⟩ := of_decide_eq_true hd
    rw [cyclicStep, if_neg h₀, if_pos h₁] at h
    cases hh : (t.handlers i).handler with
    | null =>
      rw [hh] at h
      cases h
    | reaper =>
      have hcall : HandlerRun.visit ⟨t, .loop i, c⟩ i =
          some ⟨rearm (timingReaper t) i, nextPlace i, c ++ [⟨t.timerHi, i, .reaper⟩]⟩ := by
        rw [visit_due hd, HandlerRun.callSlot]
        dsimp only
        rw [hh]
      rw [hh] at h
      have heq : (rearm (timingReaper t) i, cs ++ [(i, .reaper)]) = (t', cs') := Option.some.inj h
      obtain ⟨rfl, rfl⟩ := Prod.mk.inj heq
      exact ⟨_, [_], hin, hvisit _ hcall, rfl, rearm_timerHi⟩
    | fn f =>
      have hcall : HandlerRun.visit ⟨t, .loop i, c⟩ i =
          some ⟨t, .handler i, c ++ [⟨t.timerHi, i, .fn f⟩]⟩ := by
        rw [visit_due hd, HandlerRun.callSlot]
        dsimp only
        rw [hh]
      rw [hh] at h
      have heq : (rearm t i, cs ++ [(i, .fn f)]) = (t', cs') := Option.some.inj h
      obtain ⟨rfl, rfl⟩ := Prod.mk.inj heq
      refine ⟨[.visit, .ret], [_], ?_, (hvisit _ hcall).snoc ⟨i, rfl⟩ rfl, rfl, rearm_timerHi⟩
      simp [HandlerOp.InTick]

/-- The steps of the rest of the loop of `cyclic_tasks`. -/
theorem run_foldlM {t' : Timing} {cs cs' : List (ℕ × Handler)} {n : ℕ} (hn : i + (n + 1) = slots)
    (h : (List.range' i (n + 1)).foldlM (cyclicStep t.timerHi) (t, cs) = some (t', cs'))
    (c : List HandlerCall) :
    ∃ ops new, (∀ op ∈ ops, op.InTick) ∧
    handlerSystem.Run ⟨t, .loop i, c⟩ ops ⟨t', .idle, c ++ new⟩ ∧
      cs' = cs ++ new.map HandlerCall.call ∧ t'.timerHi = t.timerHi := by
  induction n generalizing i t cs c with
  | zero =>
    rw [List.range'_one, List.foldlM_cons, Option.bind_eq_bind, Option.bind_eq_some_iff] at h
    obtain ⟨u, hu, hend⟩ := h
    obtain rfl : u = (t', cs') := Option.some.inj hend
    obtain ⟨ops, new, hin, hrun, hcs, htick⟩ := run_cyclicStep hu c
    rw [nextPlace, if_neg (by omega)] at hrun
    exact ⟨ops, new, hin, hrun, hcs, htick⟩
  | succ n ih =>
    rw [List.range'_succ, List.foldlM_cons, Option.bind_eq_bind, Option.bind_eq_some_iff] at h
    obtain ⟨⟨u, ds⟩, hu, hrest⟩ := h
    obtain ⟨ops, new, hin, hrun, rfl, htick⟩ := run_cyclicStep hu c
    rw [nextPlace, if_pos (by omega)] at hrun
    rw [← htick] at hrest
    obtain ⟨ops', new', hin', hrun', rfl, htick'⟩ := ih (by omega) hrest (c ++ new)
    refine ⟨ops ++ ops', new ++ new', List.forall_mem_append.2 ⟨hin, hin'⟩, ?_, ?_,
      htick'.trans htick⟩
    · rw [← List.append_assoc]
      exact hrun.append hrun'
    · rw [List.map_append, List.append_assoc]

/-- The steps of `cyclic_tasks`, if the handlers leave the table alone. -/
theorem run_cyclicTasks {t' : Timing} {cs : List (ℕ × Handler)}
    (h : cyclicTasks t.timerHi t = some (t', cs)) (c : List HandlerCall) :
    ∃ ops new, (∀ op ∈ ops, op.InTick) ∧
    handlerSystem.Run ⟨t, .loop 0, c⟩ ops ⟨t', .idle, c ++ new⟩ ∧
      new.map HandlerCall.call = cs := by
  rw [cyclicTasks, List.range_eq_range'] at h
  obtain ⟨ops, new, hin, hrun, hcs, -⟩ := run_foldlM (show 0 + (254 + 1) = slots from rfl) h c
  exact ⟨ops, new, hin, hrun, hcs.symm⟩

/-- No timer in use has a null handler. -/
def NoNullHandler (t : Timing) : Prop :=
  ∀ i < slots, (t.handlers i).handler = .null → (t.handlers i).fireTick = 0

/-- Without a null handler, an iteration does not get stuck. -/
theorem NoNullHandler.cyclicStep (hnull : NoNullHandler t) (hi : i < slots)
    (cs : List (ℕ × Handler)) :
    ∃ t' cs', cyclicStep t.timerHi (t, cs) i = some (t', cs') ∧ NoNullHandler t' ∧
    t'.timerHi = t.timerHi := by
  have hdue : (t.handlers i).due t.timerHi = true → (t.handlers i).handler ≠ .null :=
    fun hd hh => (of_decide_eq_true hd).1 (hnull i hi hh)
  refine ⟨_, _, cyclicStep_eq rfl hi hdue cs, fun j hj hh => ?_, rfl⟩
  rw [Timing.set, reapSlots] at hh ⊢
  dsimp only at hh ⊢
  by_cases hji : j = i
  · subst hji
    rw [Function.update_self, setSlot_handler] at hh
    rw [Function.update_self, setSlot_not_due]
    · exact hnull j hj hh
    · cases hd : (t.handlers j).due t.timerHi with
      | false => rfl
      | true => exact absurd hh (hdue hd)
  · rw [Function.update_of_ne hji, if_pos hj] at hh ⊢
    rcases clearSlot_cases t.timerHi ((t.handlers i).reaps t.timerHi) (t.handlers j) with heq |
      ⟨-, -, hzero⟩
    · rw [heq] at hh ⊢
      exact hnull j hj hh
    · exact hzero

/-- A tick can end without a call of `timing.h` in it. -/
theorem NoNullHandler.run_to_idle (hnull : NoNullHandler t) {n : ℕ} (hn : i + (n + 1) = slots)
    (c : List HandlerCall) :
    ∃ ops t' new, (∀ op ∈ ops, op.InTick) ∧
    handlerSystem.Run ⟨t, .loop i, c⟩ ops ⟨t', .idle, c ++ new⟩ ∧
      NoNullHandler t' ∧ t'.timerHi = t.timerHi := by
  have hloop : ∀ n i t cs, NoNullHandler t → i + n = slots → ∃ t' cs',
      (List.range' i n).foldlM (Beryllium.cyclicStep t.timerHi) (t, cs) = some (t', cs') ∧
        NoNullHandler t' ∧ t'.timerHi = t.timerHi := by
    intro n
    induction n with
    | zero => exact fun i t cs hnull _ => ⟨t, cs, rfl, hnull, rfl⟩
    | succ n ih =>
      intro i t cs hnull hn
      obtain ⟨u, ds, hu, hnull', htick⟩ := hnull.cyclicStep (show i < slots by omega) cs
      obtain ⟨t', cs', hrest, hnull'', htick'⟩ := ih (i + 1) u ds hnull' (by omega)
      rw [htick] at hrest htick'
      refine ⟨t', cs', ?_, hnull'', htick'⟩
      rw [List.range'_succ, List.foldlM_cons, hu]
      exact hrest
  obtain ⟨t', cs', hfold, hnull', htick⟩ := hloop (n + 1) i t [] hnull hn
  obtain ⟨ops, new, hin, hrun, -⟩ := run_foldlM hn hfold c
  exact ⟨ops, t', new, hin, hrun, hnull', htick⟩

end Beryllium

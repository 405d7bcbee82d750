import Beryllium.Kernel.Scheduler
import Beryllium.Kernel.Watchdog
import Beryllium.Timing.Periodic

/-!
# The watchdog and the scheduler on the timers

`wd_init` and `scheduler_init` register functions with the timers, at any time that a slot is free,
and everything else may register functions too. The main loop notifies the watchdog between the
ticks, and threads are added.

* `hangup_panics`: the kernel panics when there have been 201 windows of 25 ticks in which the main
  loop did not notify the watchdog, and not before;
* `scheduler_slices`: the current thread is the next one after every five ticks.
-/

namespace Beryllium

open Machine

/-! ## The watchdog -/

/-- The function `wd_evaluate`, and its name `"kernel_wd"`. -/
def wdEvaluateFn : ℕ := 0
def kernelWdName : ℕ := 1

/-- The watchdog after `wd_init`. -/
def wdTimed : System (Timed Watchdog) (TimedOp WdOp) :=
  timedSystem wdSystem .evaluate wdEvaluateFn kernelWdName 25 25

/-- The calls of the main loop of `kmain`. -/
def KmainCalls (ops : List (TimedOp WdOp)) : Prop :=
  ∀ op, .call op ∈ ops → op = .notify wdNotifyKmain

/-- The windows of 25 ticks in which there are calls, after `c` ticks. -/
def callWindows : ℕ → List (TimedOp WdOp) → List ℕ
  | _, [] => []
  | c, .tick :: ops => callWindows (c + 1) ops
  | c, .register .. :: ops => callWindows c ops
  | c, .call _ :: ops => c / 25 :: callWindows c ops

/-- The windows of 25 ticks that have ended without a call. -/
def idleWindows (ops : List (TimedOp WdOp)) : ℕ :=
  ((List.range (ticks ops / 25)).filter fun k => k ∉ callWindows 0 ops).length

/-- In each window there are fewer than `2 ^ 32` calls. -/
def FewInWindows (ops : List (TimedOp WdOp)) : Prop := ∀ k, (callWindows 0 ops).count k < 4294967296

variable {ops xs ys : List (TimedOp WdOp)} {op : TimedOp WdOp} {c now : ℕ}

theorem callWindows_append (c : ℕ) (xs ys : List (TimedOp WdOp)) :
    callWindows c (xs ++ ys) = callWindows c xs ++ callWindows (c + ticks xs) ys := by
  induction xs generalizing c with
  | nil => rfl
  | cons op xs ih =>
    cases op with
    | tick =>
      exact (ih (c + 1)).trans (by rw [callWindows, ticks, Nat.add_right_comm, Nat.add_assoc])
    | register => exact ih c
    | call op => exact congrArg (c / 25 :: ·) (ih c)

theorem KmainCalls.of_append (h : KmainCalls (xs ++ ys)) : KmainCalls xs :=
  fun op hop => h op (List.mem_append_left _ hop)

theorem FewInWindows.of_append (h : FewInWindows (xs ++ ys)) : FewInWindows xs := fun k => by
  have hk := h k
  rw [callWindows_append, List.count_append] at hk
  omega

theorem le_of_mem_callWindows {k : ℕ} (hk : k ∈ callWindows c ops) : k ≤ (c + ticks ops) / 25 := by
  induction ops generalizing c with
  | nil => exact absurd hk List.not_mem_nil
  | cons op ops ih =>
    cases op with
    | tick =>
      have := ih hk
      rw [ticks]
      omega
    | register => exact ih hk
    | call op =>
      rcases List.mem_cons.1 hk with rfl | hk
      · exact Nat.div_le_div_right (Nat.le_add_right _ _)
      · exact ih hk

/-- The registration of `wd_evaluate` at the tick `now`. -/
def wdRegistration (now : ℕ) : Registration := ⟨now, 25, 25, .fn wdEvaluateFn⟩

theorem wdRegistration_firesAt :
    (wdRegistration now).firesAt (now + c + 1) ↔ (c + 1) / 25 = c / 25 + 1 := by
  constructor
  · rintro ⟨k, hk⟩
    have hk : now + c + 1 = now + 25 + k * 25 := hk
    omega
  · intro h
    refine ⟨c / 25, ?_⟩
    change now + c + 1 = now + 25 + c / 25 * 25
    omega

/-- The calls of the watchdog. -/
def wdCalls (now : ℕ) (ops : List (TimedOp WdOp)) : List WdOp :=
  timedCalls (wdRegistration now) .evaluate now ops

theorem wdCalls_snoc (now : ℕ) (ops : List (TimedOp WdOp)) (op : TimedOp WdOp) :
    wdCalls now (ops ++ [op]) = wdCalls now ops ++ match op with
      | .tick => if (ticks ops + 1) / 25 = ticks ops / 25 + 1 then [.evaluate] else []
      | .register .. => []
      | .call op => [op] := by
  rw [wdCalls, wdCalls, timedCalls_append]
  cases op with
  | tick => simp only [timedCalls, wdRegistration_firesAt]
  | register => rfl
  | call => rfl

/-- What the calls of the watchdog amount to: it is enabled, has counted the calls in the current
    window, and has found the idle windows idle. -/
structure Watches (now : ℕ) (ops : List (TimedOp WdOp)) : Prop where
  enabled : (WdHistory.of (wdCalls now ops)).enabled = true
  counted : (WdHistory.of (wdCalls now ops)).counted = (callWindows 0 ops).count (ticks ops / 25)
  idle : idleEvaluations (wdCalls now ops) = idleWindows ops
  calls : EnabledCalls (wdCalls now ops)
  few : FewInWindows ops → FewNotifications (wdCalls now ops)

theorem fewNotifications_snoc {ops : List WdOp} {op : WdOp} (h : FewNotifications ops)
    (hop : op = .evaluate → (WdHistory.of ops).counted < 4294967296) :
    FewNotifications (ops ++ [op]) := by
  rintro pre post heq
  rcases List.eq_nil_or_concat post with rfl | ⟨post, x, rfl⟩
  · obtain ⟨rfl, hx⟩ := List.append_inj' heq rfl
    exact hop (List.singleton_inj.1 hx)
  · rw [List.concat_eq_append, ← List.cons_append, ← List.append_assoc] at heq
    exact h pre post (List.append_inj' heq rfl).1

theorem enabledCalls_snoc {ops : List WdOp} {op : WdOp} (h : EnabledCalls ops)
    (hop : op = .notify wdNotifyKmain ∨ op = .evaluate) : EnabledCalls (ops ++ [op]) := by
  intro x hx
  rcases List.mem_append.1 hx with hx | hx
  · exact h x hx
  · exact List.mem_singleton.1 hx ▸ hop

theorem callWindows_tick (ops : List (TimedOp WdOp)) :
    callWindows 0 (ops ++ [.tick]) = callWindows 0 ops := by
  rw [callWindows_append]
  exact List.append_nil _

theorem ticks_tick (ops : List (TimedOp WdOp)) : ticks (ops ++ [.tick]) = ticks ops + 1 :=
  ticks_append ..

theorem ticks_call (ops : List (TimedOp WdOp)) (op : WdOp) :
    ticks (ops ++ [.call op]) = ticks ops := ticks_append ..

theorem callWindows_call (ops : List (TimedOp WdOp)) (op : WdOp) :
    callWindows 0 (ops ++ [.call op]) = callWindows 0 ops ++ [ticks ops / 25] := by
  rw [callWindows_append, Nat.zero_add]
  rfl

/-- The end of a window: it was idle if no call is counted. -/
theorem idleWindows_tick (ops : List (TimedOp WdOp)) :
    idleWindows (ops ++ [.tick]) = idleWindows ops +
    if (ticks ops + 1) / 25 = ticks ops / 25 + 1 ∧ (callWindows 0 ops).count (ticks ops / 25) = 0
      then 1 else 0 := by
  simp only [idleWindows, ticks_tick, callWindows_tick, List.count_eq_zero]
  by_cases hend : (ticks ops + 1) / 25 = ticks ops / 25 + 1
  · rw [hend, List.range_succ, List.filter_append, List.length_append, List.filter_singleton]
    congr 1
    by_cases hmem : ticks ops / 25 ∈ callWindows 0 ops
    · simp [hmem]
    · simp [hmem]
  · rw [if_neg fun hc => hend hc.1, show (ticks ops + 1) / 25 =
      ticks ops / 25 by omega, Nat.add_zero]

/-- A call is in a window that has not ended. -/
theorem idleWindows_call (ops : List (TimedOp WdOp)) (op : WdOp) :
    idleWindows (ops ++ [.call op]) = idleWindows ops := by
  rw [idleWindows, idleWindows, ticks_call, callWindows_call]
  refine congrArg List.length (List.filter_congr fun k hk => decide_eq_decide.2 (not_congr ?_))
  have hk := List.mem_range.1 hk
  rw [List.mem_append, List.mem_singleton]
  exact or_iff_left hk.ne

/-- A tick, with the evaluation if it ends a window. -/
theorem Watches.tick (h : Watches now ops) : Watches now (ops ++ [.tick]) := by
  have hwd := wdCalls_snoc now ops .tick
  dsimp only at hwd
  split_ifs at hwd with hend
  · have hnone : (callWindows 0 ops).count ((ticks ops + 1) / 25) = 0 := by
      rw [List.count_eq_zero]
      intro hmem
      have := le_of_mem_callWindows hmem
      omega
    constructor
    · rw [hwd, WdHistory.of_snoc]
      exact h.enabled
    · rw [hwd, WdHistory.of_snoc, callWindows_tick, ticks_tick, hnone]
      rfl
    · rw [hwd, idleEvaluations_snoc, idleWindows_tick, h.idle, h.counted]
      simp only [hend, true_and]
    · rw [hwd]
      exact enabledCalls_snoc h.calls (.inr rfl)
    · intro hfew
      rw [hwd]
      refine fewNotifications_snoc (h.few hfew.of_append) fun _ => ?_
      rw [h.counted]
      exact hfew.of_append _
  · have hsame : (ticks ops + 1) / 25 = ticks ops / 25 := by omega
    rw [List.append_nil] at hwd
    constructor
    · rw [hwd]
      exact h.enabled
    · rw [hwd, callWindows_tick, ticks_tick, hsame]
      exact h.counted
    · rw [hwd, idleWindows_tick, if_neg fun hc => hend hc.1]
      exact h.idle
    · rw [hwd]
      exact h.calls
    · intro hfew
      rw [hwd]
      exact h.few hfew.of_append

/-- A notification. -/
theorem Watches.notify (h : Watches now ops) :
    Watches now (ops ++ [.call (.notify wdNotifyKmain)]) := by
  have hwd := wdCalls_snoc now ops (.call (.notify wdNotifyKmain))
  have hhist : WdHistory.of (wdCalls now ops ++ [.notify wdNotifyKmain]) =
      { WdHistory.of (wdCalls now ops) with
        counted := (WdHistory.of (wdCalls now ops)).counted + 1 } := by
    rw [WdHistory.of_snoc]
    exact if_pos ⟨h.enabled, rfl⟩
  constructor
  · rw [hwd, hhist]
    exact h.enabled
  · rw [hwd, hhist, callWindows_call, ticks_call, List.count_append, List.count_singleton_self,
      ← h.counted]
  · rw [hwd, idleEvaluations_snoc, idleWindows_call, if_neg fun hc => WdOp.noConfusion hc.1]
    exact h.idle
  · rw [hwd]
    exact enabledCalls_snoc h.calls (.inl rfl)
  · intro hfew
    rw [hwd]
    exact fewNotifications_snoc (h.few hfew.of_append) WdOp.noConfusion

theorem Watches.register (h : Watches now ops) (name : ℕ) (d : BitVec 32) (hd : Handler)
    (r : BitVec 32) : Watches now (ops ++ [.register name d hd r]) := by
  have hwd := wdCalls_snoc now ops (.register name d hd r)
  have hticks : ticks (ops ++ [.register name d hd r]) = ticks ops := ticks_append ..
  have hwindows : callWindows 0 (ops ++ [.register name d hd r]) = callWindows 0 ops := by
    rw [callWindows_append]
    exact List.append_nil _
  rw [List.append_nil] at hwd
  constructor
  · rw [hwd]
    exact h.enabled
  · rw [hwd, hwindows, hticks]
    exact h.counted
  · rw [hwd, idleWindows, hwindows, hticks]
    exact h.idle
  · rw [hwd]
    exact h.calls
  · intro hfew
    rw [hwd]
    exact h.few hfew.of_append

theorem watches (now : ℕ) (h : KmainCalls ops) : Watches now ops := by
  induction ops using List.reverseRecOn with
  | nil =>
    refine ⟨rfl, rfl, rfl, fun _ hop => absurd hop List.not_mem_nil, fun _ => ?_⟩
    exact fewNotifications_of_length (Nat.zero_le _)
  | append_singleton ops op ih =>
    have hops := ih h.of_append
    cases op with
    | tick => exact hops.tick
    | register name d hd r => exact hops.register name d hd r
    | call op =>
      rw [h op (List.mem_append_right _ (List.mem_singleton_self _))]
      exact hops.notify

/-- In every order of ticks, notifications of the main loop and registrations of other functions,
    the kernel runs on as long as at most 200 windows of 25 ticks from `wd_init` on have ended
    without a notification, and it has counted these. -/
theorem hangup_panics (s : Timed Watchdog) (hs : wdTimed.init s) (ops : List (TimedOp WdOp))
    (hcalls : KmainCalls ops) (hvalid : ∀ op ∈ ops, op.Valid wdEvaluateFn) (hfew : FewInWindows ops)
    (hnow : s.timing.timerHi.toNat + ticks ops < 2 ^ 31) :
    ((∃ s', wdTimed.Run s ops s') ↔ idleWindows ops ≤ 200) ∧
      ∀ s', wdTimed.Run s ops s' → s'.rest.kmainHangups = idleWindows ops := by
  have hw := watches s.timing.timerHi.toNat hcalls
  have hinit : s.rest = wdStart := hs.choose_spec.2.2.2.1
  have hrun (x : Watchdog) : (∃ t, wdTimed.Run s ops ⟨t, x⟩) ↔
      wdSystem.Run wdStart (wdCalls s.timing.timerHi.toNat ops) x := by
    rw [wdTimed, timedRun_iff (fun _ => trivial) (by decide) (by decide) hs, hinit]
    exact (and_iff_right hnow).trans (and_iff_right hvalid)
  rw [← hw.idle]
  refine ⟨?_, fun s' hs' => ?_⟩
  · rw [← exists_enabledRun_iff hw.calls (hw.few hfew)]
    constructor
    · rintro ⟨⟨t, x⟩, h⟩
      exact ⟨x, (hrun x).1 ⟨t, h⟩⟩
    · rintro ⟨x, h⟩
      obtain ⟨t, ht⟩ := (hrun x).2 h
      exact ⟨⟨t, x⟩, ht⟩
  · exact (hangups_of_run hw.calls (hw.few hfew) ((hrun s'.rest).1 ⟨s'.timing, hs'⟩)).1

/-- The timers and the watchdog after `kmain` has called `timing_init` and `wd_init`. -/
def bootTimed : Timed Watchdog where
  timing := (timingRegisterTimer (timingInit bootTiming) kernelWdName 25 (.fn wdEvaluateFn) 25).1
  rest := wdStart

theorem bootTimed_init : wdTimed.init bootTimed := by
  refine ⟨.start bootTiming, ⟨_, [], ⟨bootTiming, by decide, rfl⟩, .nil _⟩, ?_, ⟨1, by decide, ?_⟩,
    rfl, rfl⟩
  · exact fun g hg => List.mem_singleton.1 hg ▸ Handler.noConfusion
  · exact congrArg Timer.fireTick (congrFun (timingInit_handlers bootTiming) 1)

theorem ticks_replicate (n : ℕ) : ticks (List.replicate n (.tick : TimedOp WdOp)) = n := by
  induction n with
  | zero => rfl
  | succ n ih => exact congrArg (· + 1) ih

theorem callWindows_replicate (c n : ℕ) : callWindows c (List.replicate n .tick) = [] := by
  induction n generalizing c with
  | zero => rfl
  | succ n ih => exact ih (c + 1)

/-- A main loop that hangs from the start: the tick 5025 panics. -/
theorem hangup_panics_at : (∃ s', wdTimed.Run bootTimed (List.replicate 5024 .tick) s') ∧
    ¬∃ s', wdTimed.Run bootTimed (List.replicate 5025 .tick) s' := by
  have hmem {n : ℕ} {op : TimedOp WdOp} (hop : op ∈ List.replicate n .tick) : op = .tick :=
    List.eq_of_mem_replicate hop
  have h (n : ℕ) (hn : n < 2 ^ 31) :
      (∃ s', wdTimed.Run bootTimed (List.replicate n .tick) s') ↔ n / 25 ≤ 200 := by
    rw [(hangup_panics bootTimed bootTimed_init (List.replicate n .tick)
      (fun op hop => nomatch hmem hop)
      (fun op hop => hmem hop ▸ trivial)
        (fun k => by rw [callWindows_replicate]; exact Nat.succ_pos _)
      (by rw [ticks_replicate]; exact (Nat.zero_add n).trans_lt hn)).1,
      idleWindows, callWindows_replicate, ticks_replicate]
    simp
  exact ⟨(h 5024 (by decide)).2 (by decide),
    fun hrun => absurd ((h 5025 (by decide)).1 hrun) (by decide)⟩

/-! ## The scheduler -/

/-- The function `scheduler_update`, and its name. -/
def schedulerUpdateFn : ℕ := 1
def schedulerUpdateName : ℕ := 2

/-- The scheduler after `scheduler_init`. -/
def schedulerTimed : System (Timed SchedulerRun) (TimedOp SchedulerOp) :=
  timedSystem schedulerSystem .update schedulerUpdateFn schedulerUpdateName 5 5

/-- No call of the scheduler between the ticks. -/
def NoCalls (ops : List (TimedOp SchedulerOp)) : Prop := ∀ op, .call op ∉ ops

/-- The place of the current item in the queue. -/
def SchedulerRun.place (s : SchedulerRun) : ℕ := s.items.idxOf s.sched.tcurrent

/-- The registration of `scheduler_update` at the tick `now`. -/
def schedulerRegistration (now : ℕ) : Registration := ⟨now, 5, 5, .fn schedulerUpdateFn⟩

theorem schedulerRegistration_firesAt {now c : ℕ} :
    (schedulerRegistration now).firesAt (now + c + 1) ↔ (c + 1) / 5 = c / 5 + 1 := by
  constructor
  · rintro ⟨k, hk⟩
    have hk : now + c + 1 = now + 5 + k * 5 := hk
    omega
  · intro h
    refine ⟨c / 5, ?_⟩
    change now + c + 1 = now + 5 + c / 5 * 5
    omega

/-- Without calls in between, there is an update every five ticks. -/
theorem timedCalls_noCalls {now c : ℕ} {ops : List (TimedOp SchedulerOp)} (h : NoCalls ops) :
    timedCalls (schedulerRegistration now) .update (now + c) ops =
      List.replicate ((c + ticks ops) / 5 - c / 5) .update := by
  induction ops generalizing c with
  | nil => rw [ticks, Nat.add_zero, Nat.sub_self, timedCalls, List.replicate_zero]
  | cons op ops ih =>
    have hrest : NoCalls ops := fun op hop => h op (List.mem_cons_of_mem _ hop)
    cases op with
    | tick =>
      have hnext := @ih (c + 1) hrest
      rw [← Nat.add_assoc] at hnext
      rw [timedCalls, ticks, hnext, Nat.add_right_comm c 1]
      simp only [schedulerRegistration_firesAt]
      split_ifs with hf
      · rw [← List.replicate_succ]
        congr 1
        omega
      · congr 1
        omega
    | register => exact ih hrest
    | call op => exact absurd List.mem_cons_self (h op)

variable {u v : SchedulerRun} {r : Rotation ℕ}

/-- An update goes on to the next place. -/
theorem Schedules.place_next (h : Schedules u r) (hstate : u.sched.schedulerState ≠ 0)
    (hs : schedulerSystem.step u .update = some v) : Schedules v r.next ∧ v.items = u.items ∧
      v.sched.schedulerState ≠ 0 ∧ v.place = (u.place + 1) % u.items.length := by
  have hv := Option.some.inj hs
  rw [schedulerUpdate_eq hstate h, if_neg hstate] at hv
  subst hv
  refine ⟨h.update, rfl, hstate, ?_⟩
  have hmem : u.sched.tcurrent ∈ u.items := by
    rw [h.current, ← h.queue]
    exact Rotation.current_mem_queue
  have hnext : r.next.current = u.items.next u.sched.tcurrent hmem := by
    rw [Rotation.current_next (h.queue ▸ h.nodup)]
    simp only [h.queue, h.current]
  rw [SchedulerRun.place, SchedulerRun.place]
  dsimp only
  rw [hnext, List.next_eq_getElem, h.nodup.idxOf_getElem]

theorem Schedules.place_run {m : ℕ} (h : Schedules u r) (hstate : u.sched.schedulerState ≠ 0)
    (hr : schedulerSystem.Run u (List.replicate m .update) v) :
    v.items = u.items ∧ v.place = (u.place + m) % u.items.length := by
  induction m generalizing u r with
  | zero =>
    obtain rfl := System.run_nil.1 hr
    have hmem : v.sched.tcurrent ∈ v.items := by
      rw [h.current, ← h.queue]
      exact Rotation.current_mem_queue
    exact ⟨rfl, (Nat.mod_eq_of_lt (List.idxOf_lt_length_of_mem hmem)).symm⟩
  | succ m ih =>
    rw [List.replicate_succ] at hr
    obtain ⟨-, w, hw, hr⟩ := System.run_cons.1 hr
    obtain ⟨h', hitems, hstate', hplace⟩ := h.place_next hstate hw
    obtain ⟨hitems', hplace'⟩ := ih h' hstate' hr
    refine ⟨hitems'.trans hitems, ?_⟩
    rw [hplace', hplace, hitems, Nat.mod_add_mod, Nat.add_right_comm, Nat.add_assoc]

/-- With two threads at least, and as long as none is added, the current thread is the next one in
    the queue, after the last the first one, at every fifth tick from `scheduler_init` on and at no
    other. -/
theorem scheduler_slices (s u v : Timed SchedulerRun) (xs ys : List (TimedOp SchedulerOp))
    (hs : schedulerTimed.init s) (hu : schedulerTimed.Run s xs u) (hv : schedulerTimed.Run u ys v)
    (hcalls : NoCalls ys) (htwo : 2 ≤ u.rest.items.length) :
    v.rest.items = u.rest.items ∧ v.rest.place =
      (u.rest.place + ((ticks xs + ticks ys) / 5 - ticks xs / 5)) % u.rest.items.length := by
  have hrun {ops : List (TimedOp SchedulerOp)} {w : Timed SchedulerRun}
      (h : schedulerTimed.Run s ops w) :
      schedulerSystem.Run s.rest (timedCalls (schedulerRegistration s.timing.timerHi.toNat) .update
        s.timing.timerHi.toNat ops) w.rest :=
    ((timedRun_iff (fun _ => trivial) (by decide) (by decide) hs ops w.rest).1 ⟨w.timing, h⟩).2.2
  have hxs := hrun hu
  have hys := hrun (hu.append hv)
  rw [timedCalls_append, timedCalls_noCalls hcalls] at hys
  obtain ⟨u', hu', hys⟩ := hys.of_append
  obtain rfl := hu'.unique hxs
  obtain ⟨s₀, item, first, hstate, hi, hstart⟩ := hs.choose_spec.2.2.2.1
  rw [hstart] at hxs
  obtain ⟨r, -, h, -, -⟩ := (schedules_start hstate hi first).run hxs
  refine h.place_run (fun h₀ => ?_) hys
  have hone := h.state.1 h₀
  rw [← h.threads, List.length_map] at hone
  omega

/-- The timers and the scheduler after `timing_init` and `scheduler_init`. -/
def someTimed : Timed SchedulerRun where
  timing := (timingRegisterTimer (timingInit bootTiming) schedulerUpdateName 5
    (.fn schedulerUpdateFn) 5).1
  rest := .start ⟨fun _ => ⟨0, 0⟩, 0, 0, 0⟩ 8 1

theorem someTimed_init : schedulerTimed.init someTimed := by
  refine ⟨.start bootTiming, ⟨_, [], ⟨bootTiming, by decide, rfl⟩, .nil _⟩, ?_,
    ⟨1, by decide, ?_⟩, ?_, rfl⟩
  · exact fun g hg => List.mem_singleton.1 hg ▸ Handler.noConfusion
  · exact congrArg Timer.fireTick (congrFun (timingInit_handlers bootTiming) 1)
  · exact ⟨_, 8, 1, rfl, ⟨by decide, by decide, List.not_mem_nil⟩, rfl⟩

/-- A second thread, and seven ticks. -/
theorem scheduler_slices_two :
    ∃ v, schedulerTimed.Run someTimed (.call (.add 16 2) :: List.replicate 7 .tick) v ∧
    v.rest.items = [8, 16] ∧ v.rest.place = 1 := by
  have hi : FreshItem [8] 16 := ⟨by decide, by decide, by decide⟩
  have hr : schedulerSystem.Run someTimed.rest [.add 16 2, .update] _ :=
    .cons ⟨hi, by decide⟩ rfl (.cons trivial rfl (.nil _))
  have hcalls : NoCalls (List.replicate 7 .tick) :=
    fun op hop => nomatch List.eq_of_mem_replicate hop
  have hops : timedCalls (schedulerRegistration 0) SchedulerOp.update 0
      ([.call (.add 16 2)] ++ List.replicate 7 .tick) = [.add 16 2, .update] :=
        congrArg (SchedulerOp.add 16 2 :: ·) (timedCalls_noCalls (c := 0) hcalls)
  obtain ⟨t, ht⟩ := (timedRun_iff (fun _ => trivial) (by decide) (by decide) someTimed_init
    ([.call (.add 16 2)] ++ List.replicate 7 .tick) _).2
      ⟨by decide, by simp [TimedOp.Valid], hops ▸ hr⟩
  obtain ⟨u, hu, hv⟩ := System.Run.of_append ht
  obtain ⟨-, w, hw, hnil⟩ := System.run_cons.1 hu
  obtain rfl := System.run_nil.1 hnil
  obtain rfl := Option.some.inj hw
  have hslices := scheduler_slices someTimed _ _ [.call (.add 16 2)] (List.replicate 7 .tick)
    someTimed_init hu hv hcalls (by decide)
  exact ⟨_, ht, hslices.1.trans rfl, hslices.2.trans rfl⟩


end Beryllium

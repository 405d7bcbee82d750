import Beryllium.Lib.Lock
import Mathlib.Data.BitVec
import Mathlib.Data.List.Chain

/-!
# Starting and stopping devices

`device_start` and `device_stop` of `kernel/device.c`. They call back the driver of the device,
which answers with an `int`, 0 for success. The messages they log are left out.

* `device_start_cases`, `device_stop_cases`: what the calls do;
* `device_life_cycle`: starts that succeed and stops that succeed alternate, and the device is
  online between the first and the second.
-/

namespace Beryllium

open Machine

/-! ## The functions -/

/-- `DEVICE_STATUS_*`, those that are read or set here. -/
def deviceStatusUnset : ℕ := 0x0
def deviceStatusHalted : ℕ := 0x1
def deviceStatusOnline : ℕ := 0x3
def deviceStatusAborted : ℕ := 0x5

/-- `driver_t`, the addresses of the callbacks. -/
structure Driver where
  start : ℕ
  stop : ℕ

/-- `device_t`, as far as it is read here; `driver` is `none` for a null pointer. -/
structure Device where
  status : ℕ
  mutex : ℕ
  driver : Option Driver

/-- The callbacks. -/
inductive Callback
  | start
  | stop
  deriving DecidableEq

/-- What a call returns, the device and the memory after it, and the callback that it made, with
    what that one returned. -/
structure DeviceCall where
  mem : Mem
  dev : Option Device
  result : ℕ
  called : Option (Callback × BitVec 32)

/-- A callback that would return `ret`; a call of a null pointer gets stuck. -/
def callDriver (f : ℕ) (ret : BitVec 32) : Option (BitVec 32) := if f = 0 then none else some ret

/-- `device_stop`, the callback returning `ret`. -/
def deviceStop (m : Mem) (dev : Option Device) (ret : BitVec 32) : Option DeviceCall :=
  match dev with
  | none => some ⟨m, dev, 0xFFFFFFFF, none⟩
  | some d =>
    if d.status ≠ deviceStatusOnline then some ⟨m, dev, d.status, none⟩
    else match d.driver with
      | none => some ⟨m, dev, 0xFFFFFFFE, none⟩
      | some driver => do
        let (m, _) ← mutexLock m d.mutex
        let ret ← callDriver driver.stop ret
        let d := { d with status := if ret = 0 then deviceStatusHalted else deviceStatusOnline }
        let (m, _) := mutexUnlock m d.mutex
        some ⟨m, some d, d.status, some (.stop, ret)⟩

/-- `device_start`, the callback returning `ret`. -/
def deviceStart (m : Mem) (dev : Option Device) (ret : BitVec 32) : Option DeviceCall :=
  match dev with
  | none => some ⟨m, dev, 0xFFFFFFFF, none⟩
  | some d =>
    if d.status = deviceStatusOnline then some ⟨m, dev, deviceStatusOnline, none⟩
    else match d.driver with
      | none => some ⟨m, dev, 0xFFFFFFFE, none⟩
      | some driver => do
        let ret ← callDriver driver.start ret
        let d := { d with status := if ret = 0 then deviceStatusOnline else deviceStatusAborted }
        some ⟨m, some d, d.status, some (.start, ret)⟩

/-! ## Runs -/

/-- A device, with the memory and the callbacks that were made. -/
structure DeviceRun where
  mem : Mem
  dev : Device
  calls : List (Callback × BitVec 32)

/-- The operations: a start and a stop, and what the callback returns if it is made. -/
inductive DeviceOp
  | start (ret : BitVec 32)
  | stop (ret : BitVec 32)

/-- The call of an operation. -/
def DeviceRun.call (s : DeviceRun) : DeviceOp → Option DeviceCall
  | .start ret => deviceStart s.mem (some s.dev) ret
  | .stop ret => deviceStop s.mem (some s.dev) ret

/-- What an operation does. -/
def DeviceRun.step (s : DeviceRun) (op : DeviceOp) : Option DeviceRun := do
  let c ← s.call op
  let d ← c.dev
  some ⟨c.mem, d, s.calls ++ c.called.toList⟩

/-- The runs of a device: its driver has both callbacks, its mutex is null, and it is not
    online initially. -/
def deviceSystem : System DeviceRun DeviceOp where
  init s := (∃ d, s.dev.driver = some d ∧ d.start ≠ 0 ∧ d.stop ≠ 0) ∧ s.dev.mutex = 0 ∧
    s.dev.status ≠ deviceStatusOnline ∧ s.calls = []
  guard _ _ := True
  step := DeviceRun.step

/-- The callbacks that succeeded. -/
def DeviceRun.successes (s : DeviceRun) : List Callback :=
  (s.calls.filter fun c => c.2 = 0).map Prod.fst

/-- Starts and stops in turn, the first one a start. -/
def Alternating (l : List Callback) : Prop := l.head? ≠ some .stop ∧ l.IsChain (· ≠ ·)

variable {s s' s₀ : DeviceRun} {op : DeviceOp} {ops : List DeviceOp} {ret : BitVec 32}
  {l : List Callback} {k : Callback}

theorem Alternating.concat (h : Alternating l) (hlast : l.getLast? ≠ some k)
    (hfirst : l = [] → k = .start) : Alternating (l ++ [k]) := by
  constructor
  · rcases l with _ | ⟨x, l⟩
    · rw [hfirst rfl]
      exact fun h => by cases h
    · exact h.1
  · refine List.isChain_append.2 ⟨h.2, List.isChain_singleton k, ?_⟩
    rintro x hx y hy rfl
    cases hy
    exact hlast hx

/-- The life of a device so far. -/
structure DeviceRun.Tidy (s : DeviceRun) : Prop where
  driver : ∃ d, s.dev.driver = some d ∧ d.start ≠ 0 ∧ d.stop ≠ 0
  mutex : s.dev.mutex = 0
  alternating : Alternating s.successes
  online : s.dev.status = deviceStatusOnline ↔ s.successes.getLast? = some .start

/-- The status after a start that called back the driver. -/
def startedStatus (ret : BitVec 32) : ℕ :=
  if ret = 0 then deviceStatusOnline else deviceStatusAborted

/-- The status after a stop that called back the driver. -/
def stoppedStatus (ret : BitVec 32) : ℕ :=
  if ret = 0 then deviceStatusHalted else deviceStatusOnline

/-- A start calls back the driver of a device that is not online. -/
theorem device_start_cases (h : s.Tidy) (ret : BitVec 32) :
    s.dev.status = deviceStatusOnline ∧
        s.call (.start ret) = some ⟨s.mem, some s.dev, deviceStatusOnline, none⟩ ∨
      s.dev.status ≠ deviceStatusOnline ∧ s.call (.start ret) =
        some ⟨s.mem, some { s.dev with status := startedStatus ret }, startedStatus ret,
          some (.start, ret)⟩ := by
  obtain ⟨m, ⟨status, mutex, driver⟩, calls⟩ := s
  obtain ⟨d, rfl, hstart, -⟩ := h.driver
  rw [DeviceRun.call, deviceStart]
  by_cases hon : status = deviceStatusOnline
  · rw [if_pos hon]
    exact .inl ⟨hon, rfl⟩
  · refine .inr ⟨hon, ?_⟩
    rw [if_neg hon]
    simp only [callDriver, if_neg hstart]
    rfl

/-- A stop calls back the driver of a device that is online. -/
theorem device_stop_cases (h : s.Tidy) (ret : BitVec 32) :
    s.dev.status ≠ deviceStatusOnline ∧
        s.call (.stop ret) = some ⟨s.mem, some s.dev, s.dev.status, none⟩ ∨
      s.dev.status = deviceStatusOnline ∧ s.call (.stop ret) =
        some ⟨s.mem, some { s.dev with status := stoppedStatus ret }, stoppedStatus ret,
          some (.stop, ret)⟩ := by
  obtain ⟨m, ⟨status, mutex, driver⟩, calls⟩ := s
  obtain ⟨d, rfl, -, hstop⟩ := h.driver
  obtain rfl : mutex = 0 := h.mutex
  rw [DeviceRun.call, deviceStop]
  by_cases hon : status = deviceStatusOnline
  · refine .inr ⟨hon, ?_⟩
    rw [if_neg (not_not.2 hon)]
    simp only [callDriver, if_neg hstop]
    rfl
  · rw [if_pos hon]
    exact .inl ⟨hon, rfl⟩

theorem successes_concat (calls : List (Callback × BitVec 32)) (m : Mem) (d : Device)
    (k : Callback) : (DeviceRun.mk m d (calls ++ [(k, ret)])).successes =
      (calls.filter fun c => c.2 = 0).map Prod.fst ++ if ret = 0 then [k] else [] := by
  rw [DeviceRun.successes, List.filter_append, List.map_append, List.filter_singleton]
  split_ifs with hr
  · rw [decide_eq_true hr]
    rfl
  · rw [decide_eq_false hr]
    rfl

/-- A callback that fails does not count, and one that succeeds is the last one to do so. -/
theorem DeviceRun.Tidy.called (h : s.Tidy) {status : ℕ} (hturn : s.successes.getLast? ≠ some k)
    (hfirst : s.successes = [] → k = .start)
    (hgood : ret = 0 → (status = deviceStatusOnline ↔ k = .start))
    (hbad : ret ≠ 0 → (status = deviceStatusOnline ↔ s.dev.status = deviceStatusOnline)) :
    DeviceRun.Tidy ⟨s.mem, { s.dev with status := status }, s.calls ++ [(k, ret)]⟩ := by
  refine ⟨h.driver, h.mutex, ?_, ?_⟩
  · rw [successes_concat]
    split_ifs with hr
    · exact h.alternating.concat hturn hfirst
    · rw [List.append_nil]
      exact h.alternating
  · rw [successes_concat]
    split_ifs with hr
    · rw [List.getLast?_concat, Option.some_inj]
      exact hgood hr
    · rw [List.append_nil]
      exact (hbad hr).trans h.online

theorem step_of_call {c : DeviceCall} {d : Device} (hc : s.call op = some c) (hd : c.dev = some d) :
    deviceSystem.step s op = some ⟨c.mem, d, s.calls ++ c.called.toList⟩ :=
  Option.bind_eq_some_iff.2 ⟨c, hc, Option.bind_eq_some_iff.2 ⟨d, hd, rfl⟩⟩

/-- A call that calls back no driver changes nothing. -/
theorem step_silent {status : ℕ} (hcall : s.call op = some ⟨s.mem, some s.dev, status, none⟩)
    (hs : deviceSystem.step s op = some s') : s' = s := by
  have hstep := (step_of_call hcall rfl).symm.trans hs
  rw [Option.toList_none, List.append_nil] at hstep
  exact (Option.some.inj hstep).symm

theorem tidy_step (h : s.Tidy) (hs : deviceSystem.step s op = some s') : s'.Tidy := by
  cases op with
  | start ret =>
    rcases device_start_cases h ret with ⟨-, hcall⟩ | ⟨hoff, hcall⟩
    · rwa [step_silent hcall hs]
    · cases (step_of_call hcall rfl).symm.trans hs
      -- the last success was no start, as the device is not online
      refine h.called (fun hl => hoff (h.online.2 hl)) (fun _ => rfl) (fun hr => ?_) fun hr => ?_
      · exact iff_of_true (if_pos hr) rfl
      · refine iff_of_false ?_ hoff
        rw [startedStatus, if_neg hr]
        decide
  | stop ret =>
    rcases device_stop_cases h ret with ⟨-, hcall⟩ | ⟨hon, hcall⟩
    · rwa [step_silent hcall hs]
    · cases (step_of_call hcall rfl).symm.trans hs
      -- the device is online, so the last success was a start
      have hlast := h.online.1 hon
      refine h.called ?_ (fun hnil => ?_) (fun hr => ?_) fun hr => ?_
      · rw [hlast]
        decide
      · rw [hnil] at hlast
        cases hlast
      · refine iff_of_false ?_ (by decide)
        rw [stoppedStatus, if_pos hr]
        decide
      · exact iff_of_true (if_neg hr) hon

/-- In every run of starts and stops, whatever the callbacks return: starts that succeed and stops
    that succeed alternate, beginning with a start, and the device is online exactly if the last
    of them was a start; a start is called back exactly if the device is not online, a stop
    exactly if it is; a stop that fails leaves it online, a start that fails makes it
    aborted; and every call returns the status it leaves. -/
theorem device_life_cycle (s₀ s : DeviceRun) (ops : List DeviceOp) (h₀ : deviceSystem.init s₀)
    (hr : deviceSystem.Run s₀ ops s) :
    Alternating s.successes ∧
      (s.dev.status = deviceStatusOnline ↔ s.successes.getLast? = some .start) ∧
      (∀ op, ∃ c d, s.call op = some c ∧ c.dev = some d ∧ c.result = d.status ∧
        deviceSystem.step s op = some ⟨c.mem, d, s.calls ++ c.called.toList⟩) ∧
      (∀ ret c, s.call (.start ret) = some c →
        if s.dev.status = deviceStatusOnline then c.called = none ∧ c.result = deviceStatusOnline
        else c.called = some (.start, ret) ∧ c.result = startedStatus ret) ∧
      ∀ ret c, s.call (.stop ret) = some c →
        if s.dev.status = deviceStatusOnline then
          c.called = some (.stop, ret) ∧ c.result = stoppedStatus ret
        else c.called = none ∧ c.result = s.dev.status := by
  obtain ⟨hdriver, hmutex, hoff, hcalls⟩ := h₀
  have hs₀ : s₀.successes = [] := by
    rw [DeviceRun.successes, hcalls]
    rfl
  have htidy₀ : s₀.Tidy := by
    refine ⟨hdriver, hmutex, ?_, iff_of_false hoff ?_⟩
    · rw [hs₀]
      exact ⟨by decide, .nil⟩
    · rw [hs₀]
      decide
  have h : s.Tidy := hr.of_step (fun _ _ _ ht _ hst => tidy_step ht hst) htidy₀
  refine ⟨h.alternating, h.online, ?_, fun ret c hc => ?_, fun ret c hc => ?_⟩
  · -- no call gets stuck, and each returns the status that it leaves
    rintro (ret | ret)
    · rcases device_start_cases h ret with ⟨hon, hcall⟩ | ⟨-, hcall⟩
      · exact ⟨_, _, hcall, rfl, hon.symm, step_of_call hcall rfl⟩
      · exact ⟨_, _, hcall, rfl, rfl, step_of_call hcall rfl⟩
    · rcases device_stop_cases h ret with ⟨-, hcall⟩ | ⟨-, hcall⟩
      · exact ⟨_, _, hcall, rfl, rfl, step_of_call hcall rfl⟩
      · exact ⟨_, _, hcall, rfl, rfl, step_of_call hcall rfl⟩
  · rcases device_start_cases h ret with ⟨hon, hcall⟩ | ⟨hon, hcall⟩
    · cases hcall.symm.trans hc
      rw [if_pos hon]
      exact ⟨rfl, rfl⟩
    · cases hcall.symm.trans hc
      rw [if_neg hon]
      exact ⟨rfl, rfl⟩
  · rcases device_stop_cases h ret with ⟨hon, hcall⟩ | ⟨hon, hcall⟩
    · cases hcall.symm.trans hc
      rw [if_neg hon]
      exact ⟨rfl, rfl⟩
    · cases hcall.symm.trans hc
      rw [if_pos hon]
      exact ⟨rfl, rfl⟩

/-- A device is started, stopped without success, and stopped. -/
theorem device_life_cycle_stop : ∃ s, deviceSystem.Run
      ⟨fun _ => 0, ⟨deviceStatusUnset, 0, some ⟨0x1000, 0x2000⟩⟩, []⟩
      [.start 0, .stop 1, .stop 0] s ∧ s.successes = [.start, .stop] ∧ Alternating s.successes := by
  have h₀ : deviceSystem.init ⟨fun _ => 0, ⟨deviceStatusUnset, 0, some ⟨0x1000, 0x2000⟩⟩, []⟩ :=
    ⟨⟨_, rfl, by decide, by decide⟩, rfl, by decide, rfl⟩
  have hr : deviceSystem.Run ⟨fun _ => 0, ⟨deviceStatusUnset, 0, some ⟨0x1000, 0x2000⟩⟩, []⟩
      [.start 0, .stop 1, .stop 0] _ :=
    .cons trivial rfl (.cons trivial rfl (.cons trivial rfl (.nil _)))
  exact ⟨_, hr, by decide, (device_life_cycle _ _ _ h₀ hr).1⟩

end Beryllium

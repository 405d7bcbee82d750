import Beryllium.Machine.Search
import Mathlib.Data.BitVec
import Mathlib.Logic.Function.Basic

/-!
# Timers

The tick counter of `kernel/timer.c`, and the table of timers of `kernel/timing.c`. An `int` is
its 32 bits, and compared as a signed number. The handlers are `timing_reaper`, which
clears slots of the table, and functions that do not touch the table.

A tick answers with the handlers that it calls and their slots, in their order.
-/

namespace Beryllium

open Machine

/-- A handler: `NULL`, `timing_reaper` or another function. -/
inductive Handler
  | null
  | reaper
  | fn (h : ℕ)
  deriving DecidableEq

/-- `timer_t` -/
structure Timer where
  name : ℕ
  fireTick : BitVec 32
  repeatRate : BitVec 32
  no : ℕ
  handler : Handler

/-- The globals of `timer.c`, and the table `handlers` of `timing.c`. -/
structure Timing where
  handlers : ℕ → Timer
  timerHi : BitVec 32
  timerLow : BitVec 32
  device : BitVec 32
  deviceResoulution : BitVec 32

/-- The number of slots. -/
def slots : ℕ := 0xFF

/-- An assignment to a slot of the table. -/
def Timing.set (s : Timing) (index : ℕ) (h : Timer) : Timing :=
  { s with handlers := Function.update s.handlers index h }

theorem Timing.set_self (s : Timing) (i : ℕ) (e : Timer) : (s.set i e).handlers i = e :=
  Function.update_self ..

theorem Timing.set_of_ne {i j : ℕ} (s : Timing) (e : Timer) (h : j ≠ i) :
    (s.set i e).handlers j = s.handlers j := Function.update_of_ne h ..

/-- `timing_register_timer` -/
def timingRegisterTimer (s : Timing) (name : ℕ) (tick : BitVec 32) (handler : Handler)
    (reschedule : BitVec 32) : Timing × ℕ :=
  match firstFrom (fun index => if (s.handlers index).fireTick = 0 then some index
    else none) slots 0 with
  | none => (s, 0xFF)
  | some index =>
    let builder : Timer := ⟨name, tick + s.timerHi, reschedule, index, handler⟩
    (s.set index builder, index)

/-- `timing_deregister_timer` -/
def timingDeregisterTimer (s : Timing) (handler : Handler) : Timing :=
  match firstFrom (fun index => if (s.handlers index).handler ≠ .null ∧
      (s.handlers index).handler = handler then some index else none) slots 0 with
  | none => s
  | some index => s.set index
    { s.handlers index with handler := .null, repeatRate := 0, fireTick := 0 }

/-- `timing_remove_index` -/
def timingRemoveIndex (s : Timing) (index : ℕ) : Timing :=
  s.set index { s.handlers index with repeatRate := 0 }

/-- `timing_reaper`: its loop does the same to every slot. -/
def timingReaper (s : Timing) : Timing :=
  let tick := s.timerHi
  { s with handlers := fun i =>
      let h := s.handlers i
      if i < slots ∧ h.fireTick ≠ 0 ∧ h.fireTick.slt tick then
        { h with fireTick := 0, repeatRate := 0, handler := .null }
      else h }

/-- `"timer_reaper"` -/
def timerReaperName : ℕ := 0

/-- `timing_init` -/
def timingInit (s : Timing) : Timing :=
  let s := { s with handlers := fun i => if i < slots then ⟨0, 0, 0, 0, .null⟩ else s.handlers i }
  (timingRegisterTimer s timerReaperName 100 .reaper 100).1

/-- The call of a handler. -/
def callHandler (s : Timing) : Handler → Option Timing
  | .null => none
  | .reaper => some (timingReaper s)
  | .fn _ => some s

/-- One iteration of the loop of `cyclic_tasks`. -/
def cyclicStep (tick : BitVec 32) (s : Timing × List (ℕ × Handler)) (i : ℕ) :
    Option (Timing × List (ℕ × Handler)) :=
  let h := s.1.handlers i
  if h.fireTick = 0 then some s
  else if h.fireTick = tick then do
    let t ← callHandler s.1 h.handler
    let call := (i, h.handler)
    let h := t.handlers i
    let t := if h.repeatRate ≠ 0 then t.set i { h with fireTick := tick + h.repeatRate } else t
    return (t, s.2 ++ [call])
  else some s

/-- `cyclic_tasks` -/
def cyclicTasks (tick : BitVec 32) (s : Timing) : Option (Timing × List (ℕ × Handler)) :=
  (List.range slots).foldlM (cyclicStep tick) (s, [])

/-- `timer_recieveTick` -/
def timerRecieveTick (s : Timing) (deviceId : BitVec 32) :
    Option (Timing × List (ℕ × Handler)) :=
  if deviceId = s.device then
    let hi := s.timerHi + 1
    let low := if hi % (s.deviceResoulution * 1000) = 0 then s.timerLow + 1 else s.timerLow
    cyclicTasks hi { s with timerHi := hi, timerLow := low }
  else some (s, [])

/-- The timers before the first tick. -/
def bootTiming : Timing := ⟨fun _ => ⟨0, 0, 0, 0, .null⟩, 0, 0, 0, 1⟩

/-! ## Registering -/

variable {s : Timing} {name : ℕ} {d r : BitVec 32} {h : Handler} {j : ℕ}

/-- A delay that is positive as an `int`. -/
theorem toNat_of_one_le (hd : 1 ≤ d.toInt) : 1 ≤ d.toNat ∧ d.toNat < 2 ^ 31 := by
  rw [BitVec.toInt_eq_toNat_cond] at hd
  split_ifs at hd <;> omega

theorem toNat_lt_of_nonneg (hr : 0 ≤ r.toInt) : r.toNat < 2 ^ 31 := by
  have := BitVec.toInt_pos_iff.1 hr
  omega

/-- A timer is stored in the first free slot, if there is one. -/
theorem register_first (hfree : ∃ i < slots, (s.handlers i).fireTick = 0) :
    ∃ i < slots, (s.handlers i).fireTick = 0 ∧ (∀ k < i, (s.handlers k).fireTick ≠ 0) ∧
      timingRegisterTimer s name d h r = (s.set i ⟨name, d + s.timerHi, r, i, h⟩, i) := by
  obtain ⟨k, hk, hk₀⟩ := hfree
  rw [timingRegisterTimer]
  cases hf : firstFrom (fun index => if (s.handlers index).fireTick = 0 then some index
    else none) slots 0 with
  | none =>
    have := firstFrom_eq_none.1 hf k (Nat.zero_le k) (by omega)
    rw [if_pos hk₀] at this
    cases this
  | some i =>
    obtain ⟨m, -, hm, ha, hmin⟩ := firstFrom_eq_some hf
    split_ifs at ha with h₀
    obtain rfl := Option.some.inj ha
    refine ⟨m, by omega, h₀, fun k hk hk₀ => ?_, rfl⟩
    have hnone := hmin k (Nat.zero_le k) hk
    rw [if_pos hk₀] at hnone
    cases hnone

/-- Nothing is stored if all slots are occupied. -/
theorem register_none (hfull : ∀ i < slots, (s.handlers i).fireTick ≠ 0) :
    timingRegisterTimer s name d h r = (s, 0xFF) := by
  have hf : firstFrom (fun index => if (s.handlers index).fireTick = 0 then some index else none)
      slots 0 = none :=
    firstFrom_eq_none.2 fun k _ hk => if_neg (hfull k (by omega))
  rw [timingRegisterTimer, hf]

/-- A registration stores the timer in a free slot and returns it, or there is none and it
    returns 0xFF. -/
theorem timingRegisterTimer_cases (s : Timing) (name : ℕ) (d r : BitVec 32) (h : Handler) :
    (∃ i < slots, (s.handlers i).fireTick = 0 ∧ i ≠ 0xFF ∧ timingRegisterTimer s name d h r =
      (s.set i ⟨name, d + s.timerHi, r, i, h⟩, i)) ∨
    (∀ i < slots, (s.handlers i).fireTick ≠ 0) ∧ timingRegisterTimer s name d h r = (s, 0xFF) := by
  by_cases hfree : ∃ i < slots, (s.handlers i).fireTick = 0
  · obtain ⟨i, hi, h₀, -, heq⟩ := @register_first s name d r h hfree
    rw [slots] at hi
    exact .inl ⟨i, hi, h₀, hi.ne, heq⟩
  · push Not at hfree
    exact .inr ⟨hfree, register_none hfree⟩

/-- A deregistration clears the first slot that holds the handler, if there is one. -/
theorem timingDeregisterTimer_cases (s : Timing) (h : Handler) :
    (∃ i < slots, (s.handlers i).handler = h ∧ (∀ k < i, (s.handlers k).handler ≠ h) ∧
      timingDeregisterTimer s h =
        s.set i { s.handlers i with handler := .null, repeatRate := 0, fireTick := 0 }) ∨
    (h ≠ .null → ∀ i < slots, (s.handlers i).handler ≠ h) ∧ timingDeregisterTimer s h = s := by
  rw [timingDeregisterTimer]
  cases hf : firstFrom (fun index => if (s.handlers index).handler ≠ .null ∧
      (s.handlers index).handler = h then some index else none) slots 0 with
  | none =>
    refine .inr ⟨fun hne i hi heq => ?_, rfl⟩
    have hnone := firstFrom_eq_none.1 hf i (Nat.zero_le i) (by omega)
    rw [if_pos ⟨heq ▸ hne, heq⟩] at hnone
    cases hnone
  | some i =>
    obtain ⟨m, -, hm, ha, hmin⟩ := firstFrom_eq_some hf
    split_ifs at ha with hc
    obtain rfl := Option.some.inj ha
    refine .inl ⟨m, by omega, hc.2, fun k hk heq => ?_, rfl⟩
    have hnone := hmin k (Nat.zero_le k) hk
    rw [if_pos ⟨heq.trans_ne (hc.2 ▸ hc.1), heq⟩] at hnone
    cases hnone

/-- The first slot is taken if it is free. -/
theorem register_zero (hfree : (s.handlers 0).fireTick = 0) :
    timingRegisterTimer s name d h r = (s.set 0 ⟨name, d + s.timerHi, r, 0, h⟩, 0) := by
  have hf : firstFrom (fun index => if (s.handlers index).fireTick = 0 then some index else none)
      slots 0 = some 0 := by
    rw [show slots = 254 + 1 from rfl, firstFrom, if_pos hfree, Option.some_or]
  rw [timingRegisterTimer, hf]

/-- The table after `timing_init`. -/
theorem timingInit_handlers (s : Timing) : (timingInit s).handlers =
    Function.update (fun i => if i < slots then ⟨0, 0, 0, 0, .null⟩ else s.handlers i) 0
      ⟨timerReaperName, 100 + s.timerHi, 100, 0, .reaper⟩ := by
  rw [timingInit, register_zero rfl]
  rfl

end Beryllium

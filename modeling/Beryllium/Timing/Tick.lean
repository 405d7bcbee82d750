import Beryllium.Timing.Timer

/-!
# Ticks

What a tick does to the table: it calls the handlers of the timers that are due, sets
those again that repeat, and clears what a reaper among them finds (`cyclicTasks_eq`).

* `tickSlot_due`: a timer that is due may only be cleared after it is set again;
* `tickSlot_not_due`: another one is cleared if a reaper runs and it is overdue.
-/

namespace Beryllium

variable {s t : Timing} {tick : BitVec 32} {h : Timer} {reap : Bool} {i k n a b : ℕ}

/-! ## One slot -/

/-- A timer is due. -/
def Timer.due (tick : BitVec 32) (h : Timer) : Bool := h.fireTick ≠ 0 ∧ h.fireTick = tick

/-- A timer is due that runs the reaper. -/
def Timer.reaps (tick : BitVec 32) (h : Timer) : Bool := h.due tick ∧ h.handler = .reaper

/-- What the reaper leaves in a slot. -/
def clearSlot (tick : BitVec 32) (reap : Bool) (h : Timer) : Timer :=
  if reap ∧ h.fireTick ≠ 0 ∧ h.fireTick.slt tick then
    { h with fireTick := 0, repeatRate := 0, handler := .null }
  else h

/-- A timer that is due is set again if it repeats. -/
def setSlot (tick : BitVec 32) (h : Timer) : Timer :=
  if h.due tick ∧ h.repeatRate ≠ 0 then { h with fireTick := tick + h.repeatRate } else h

theorem slt_irrefl (t : BitVec 32) : t.slt t = false := by
  rw [BitVec.slt, decide_eq_false_iff_not]
  exact lt_irrefl _

theorem clearSlot_false : clearSlot tick false h = h :=
  if_neg fun hc => Bool.false_ne_true hc.1

theorem clearSlot_clearSlot (b c : Bool) :
    clearSlot tick c (clearSlot tick b h) = clearSlot tick (b || c) h := by
  cases b with
  | false => rw [clearSlot_false, Bool.false_or]
  | true =>
    rw [Bool.true_or]
    by_cases hc : h.fireTick ≠ 0 ∧ h.fireTick.slt tick = true
    · rw [clearSlot, if_neg]
      rintro ⟨-, hne, -⟩
      rw [clearSlot, if_pos ⟨rfl, hc⟩] at hne
      exact hne rfl
    · have hsame (b : Bool) : clearSlot tick b h = h := if_neg fun h' => hc h'.2
      rw [hsame, hsame]

/-- A timer that is due is not overdue. -/
theorem clearSlot_due (hd : h.due tick = true) : clearSlot tick reap h = h := by
  obtain ⟨-, heq⟩ := of_decide_eq_true hd
  rw [clearSlot, if_neg]
  rintro ⟨-, -, hlt⟩
  rw [heq, slt_irrefl] at hlt
  cases hlt

theorem due_clearSlot : (clearSlot tick reap h).due tick = h.due tick := by
  by_cases hd : h.due tick = true
  · rw [clearSlot_due hd]
  · rw [clearSlot]
    split_ifs
    · exact (Bool.not_eq_true _ ▸ hd : h.due tick = false).symm
    · rfl

theorem reaps_eq_false (hd : h.due tick = false) : h.reaps tick = false := by
  rw [Timer.reaps, hd, decide_eq_false_iff_not]
  exact fun hc => Bool.false_ne_true hc.1

theorem reaps_clearSlot : (clearSlot tick reap h).reaps tick = h.reaps tick := by
  cases hd : h.due tick with
  | true => rw [clearSlot_due hd]
  | false => rw [reaps_eq_false hd, reaps_eq_false (due_clearSlot.trans hd)]

theorem setSlot_not_due (hd : h.due tick = false) : setSlot tick h = h :=
  if_neg fun hc => by rw [hd] at hc; exact Bool.false_ne_true hc.1

theorem setSlot_handler (h : Timer) : (setSlot tick h).handler = h.handler := by
  rw [setSlot]
  split_ifs <;> rfl

/-! ## The reapers of a tick -/

/-- A reaper is due in one of the slots `a, …, b - 1`. -/
def reapsIn (tick : BitVec 32) (s : Timing) (a b : ℕ) : Bool :=
  (List.range b).any fun k => a ≤ k ∧ (s.handlers k).reaps tick

theorem reapsIn_eq_true :
    reapsIn tick s a b = true ↔ ∃ k, a ≤ k ∧ k < b ∧ (s.handlers k).reaps tick = true := by
  rw [reapsIn, List.any_eq_true]
  refine exists_congr fun k => ?_
  rw [List.mem_range, decide_eq_true_iff]
  exact ⟨fun ⟨h₁, h₂, h₃⟩ => ⟨h₂, h₁, h₃⟩, fun ⟨h₁, h₂, h₃⟩ => ⟨h₂, h₁, h₃⟩⟩

theorem reapsIn_self : reapsIn tick s a a = false := by
  rw [← Bool.not_eq_true, reapsIn_eq_true]
  rintro ⟨k, hk, hk', -⟩
  exact absurd hk' hk.not_gt

theorem reapsIn_succ (h : a ≤ n) :
    reapsIn tick s a (n + 1) = (reapsIn tick s a n || (s.handlers n).reaps tick) := by
  rw [reapsIn, List.range_succ, List.any_append, reapsIn]
  simp only [List.any_cons, List.any_nil, h, true_and, Bool.decide_eq_true, Bool.or_false]

/-- Leaving a slot out that does not run the reaper. -/
theorem reapsIn_or (hk : k < b) (hr : (s.handlers k).reaps tick = false) :
    (reapsIn tick s 0 k || reapsIn tick s (k + 1) b) = reapsIn tick s 0 b := by
  rw [Bool.eq_iff_iff, Bool.or_eq_true, reapsIn_eq_true, reapsIn_eq_true, reapsIn_eq_true]
  constructor
  · rintro (⟨j, h₁, h₂, h₃⟩ | ⟨j, h₁, h₂, h₃⟩)
    · exact ⟨j, h₁, h₂.trans hk, h₃⟩
    · exact ⟨j, Nat.zero_le j, h₂, h₃⟩
  · rintro ⟨j, h₁, h₂, h₃⟩
    rcases Nat.lt_trichotomy j k with hj | rfl | hj
    · exact .inl ⟨j, h₁, hj, h₃⟩
    · rw [hr] at h₃
      cases h₃
    · exact .inr ⟨j, hj, h₂, h₃⟩

/-! ## The loop -/

/-- The table after `timing_reaper`, if it is called. -/
def reapSlots (tick : BitVec 32) (reap : Bool) (s : Timing) : Timing :=
  { s with
    handlers := fun i => if i < slots then clearSlot tick reap (s.handlers i) else s.handlers i }

theorem reapSlots_false : reapSlots tick false s = s := by
  rw [reapSlots]
  congr 1
  funext i
  rw [clearSlot_false, ite_self]

theorem timingReaper_eq (htick : s.timerHi = tick) : timingReaper s = reapSlots tick true s := by
  rw [timingReaper, reapSlots, htick]
  congr 1
  funext i
  rw [clearSlot]
  dsimp only
  by_cases hi : i < slots
  · simp only [hi, true_and, if_true]
  · rw [if_neg hi, if_neg fun hc => hi hc.1]

/-- One iteration of the loop: the handler of a timer that is due is called, and the timer
    is set again. -/
theorem cyclicStep_eq (htick : t.timerHi = tick) (hn : n < slots)
    (hnull : (t.handlers n).due tick = true → (t.handlers n).handler ≠ .null)
    (cs : List (ℕ × Handler)) :
    cyclicStep tick (t, cs) n =
      some ((reapSlots tick ((t.handlers n).reaps tick) t).set n (setSlot tick (t.handlers n)),
        cs ++ if (t.handlers n).due tick then [(n, (t.handlers n).handler)] else []) := by
  cases hd : (t.handlers n).due tick with
  | false =>
    have hne : ¬((t.handlers n).fireTick ≠ 0 ∧ (t.handlers n).fireTick = tick) :=
      of_decide_eq_false hd
    have hstep : cyclicStep tick (t, cs) n = some (t, cs) := by
      rw [cyclicStep]
      split_ifs with h₀ h₁
      · rfl
      · exact absurd ⟨h₀, h₁⟩ hne
      · rfl
    rw [hstep, reaps_eq_false hd, reapSlots_false, setSlot_not_due hd, Timing.set,
      Function.update_eq_self, if_neg Bool.false_ne_true, List.append_nil]
  | true =>
    obtain ⟨h₀, h₁⟩ := of_decide_eq_true hd
    have hcall : callHandler t (t.handlers n).handler =
        some (reapSlots tick ((t.handlers n).reaps tick) t) := by
      rw [Timer.reaps, hd]
      cases hh : (t.handlers n).handler with
      | null => exact absurd hh (hnull hd)
      | reaper => exact congrArg some (timingReaper_eq htick)
      | fn f => exact congrArg some reapSlots_false.symm
    -- the slot itself is not overdue, and so left alone by the reaper
    have hsame : (reapSlots tick ((t.handlers n).reaps tick) t).handlers n = t.handlers n := by
      rw [reapSlots]
      dsimp only
      rw [if_pos hn, clearSlot_due hd]
    rw [cyclicStep, if_neg h₀, if_pos h₁, hcall, Option.bind_eq_bind, Option.bind_some,
      hsame, setSlot, if_pos rfl]
    dsimp only
    by_cases hr : (t.handlers n).repeatRate ≠ 0
    · rw [if_pos hr, if_pos ⟨hd, hr⟩]
      rfl
    · have hupd : Function.update (reapSlots tick ((t.handlers n).reaps tick) t).handlers n
          (t.handlers n) = (reapSlots tick ((t.handlers n).reaps tick) t).handlers :=
        (congrArg _ hsame.symm).trans (Function.update_eq_self _ _)
      rw [if_neg hr, if_neg fun hc => hr hc.2, Timing.set, hupd]
      rfl

/-- What a tick leaves in the slot `i` after `n` slots are visited. -/
def tickSlot (tick : BitVec 32) (s : Timing) (n i : ℕ) : Timer :=
  if i < n then
    clearSlot tick (reapsIn tick s (i + 1) n)
      (setSlot tick (clearSlot tick (reapsIn tick s 0 i) (s.handlers i)))
  else if i < slots then clearSlot tick (reapsIn tick s 0 n) (s.handlers i)
  else s.handlers i

/-- The table after `n` slots are visited. -/
def afterSlots (tick : BitVec 32) (s : Timing) (n : ℕ) : Timing :=
  { s with handlers := tickSlot tick s n }

theorem tickSlot_self (hn : n < slots) :
    tickSlot tick s n n = clearSlot tick (reapsIn tick s 0 n) (s.handlers n) := by
  rw [tickSlot, if_neg (Nat.lt_irrefl n), if_pos hn]

theorem afterSlots_zero : afterSlots tick s 0 = s := by
  rw [afterSlots]
  congr 1
  funext i
  rw [tickSlot, if_neg (Nat.not_lt_zero i), reapsIn_self, clearSlot_false, ite_self]

theorem afterSlots_succ (hn : n < slots) :
    (reapSlots tick ((s.handlers n).reaps tick) (afterSlots tick s n)).set n
      (setSlot tick (tickSlot tick s n n)) = afterSlots tick s (n + 1) := by
  rw [Timing.set, afterSlots, afterSlots, reapSlots]
  congr 1
  funext i
  rw [Function.update_apply]
  dsimp only
  rcases Nat.lt_trichotomy i n with hi | rfl | hi
  · rw [if_neg hi.ne, if_pos (hi.trans hn), tickSlot, tickSlot, if_pos hi,
      if_pos (Nat.lt_succ_of_lt hi), clearSlot_clearSlot, ← reapsIn_succ hi]
  · rw [if_pos rfl, tickSlot_self hn, tickSlot, if_pos (Nat.lt_succ_self i), reapsIn_self,
      clearSlot_false]
  · rw [if_neg hi.ne', tickSlot, tickSlot, if_neg hi.le.not_gt, if_neg (Nat.not_lt.2 hi)]
    split_ifs
    · rw [clearSlot_clearSlot, ← reapsIn_succ (Nat.zero_le n)]
    · rfl

/-- The handlers of the timers that are due, of the first `n` slots. -/
def dueCalls (tick : BitVec 32) (s : Timing) (n : ℕ) : List (ℕ × Handler) :=
  ((List.range n).filter fun i => (s.handlers i).due tick).map fun i => (i, (s.handlers i).handler)

theorem dueCalls_succ : dueCalls tick s (n + 1) = dueCalls tick s n ++
    if (s.handlers n).due tick then [(n, (s.handlers n).handler)] else [] := by
  rw [dueCalls, List.range_succ, List.filter_append, List.map_append, List.filter_cons, dueCalls]
  split_ifs <;> rfl

/-- The loop of `cyclic_tasks`: every slot is left as `tickSlot` says, and the handlers of the
    timers that are due are called, in the order of their slots. -/
theorem cyclicTasks_eq (htick : s.timerHi = tick)
    (hnull : ∀ i < slots, (s.handlers i).due tick = true → (s.handlers i).handler ≠ .null) :
    cyclicTasks tick s = some (afterSlots tick s slots, dueCalls tick s slots) := by
  have hloop : ∀ n ≤ slots, (List.range n).foldlM (cyclicStep tick) (s, []) =
      some (afterSlots tick s n, dueCalls tick s n) := by
    intro n hn
    induction n with
    | zero => rw [afterSlots_zero]; rfl
    | succ n ih =>
      have hslot : (afterSlots tick s n).handlers n =
          clearSlot tick (reapsIn tick s 0 n) (s.handlers n) :=
        tickSlot_self hn
      have hdue : ((afterSlots tick s n).handlers n).due tick = (s.handlers n).due tick := by
        rw [hslot, due_clearSlot]
      have hnull' : ((afterSlots tick s n).handlers n).due tick = true →
          ((afterSlots tick s n).handlers n).handler ≠ .null := by
        intro hd
        rw [hslot, clearSlot_due (hdue ▸ hd)]
        exact hnull n hn (hdue ▸ hd)
      -- the handler of a timer that is due has not changed
      have hcall : (if ((afterSlots tick s n).handlers n).due tick then
            [(n, ((afterSlots tick s n).handlers n).handler)] else []) =
          if (s.handlers n).due tick then [(n, (s.handlers n).handler)] else [] := by
        rw [hdue]
        split_ifs with hd
        · rw [hslot, clearSlot_due hd]
        · rfl
      rw [List.range_succ, List.foldlM_append, ih (Nat.le_of_succ_le hn), Option.bind_eq_bind,
        Option.bind_some, List.foldlM_cons,
        cyclicStep_eq (t := afterSlots tick s n) htick hn hnull', hcall, ← dueCalls_succ, hslot,
        reaps_clearSlot, ← tickSlot_self hn, afterSlots_succ hn]
      rfl
  exact hloop slots le_rfl

/-- A tick of the selected device. -/
theorem timerRecieveTick_eq (s : Timing)
    (hnull : ∀ i < slots, (s.handlers i).due (s.timerHi + 1) = true →
    (s.handlers i).handler ≠ .null) :
    ∃ low, timerRecieveTick s s.device = some
      ({ s with
          handlers := tickSlot (s.timerHi + 1) s slots
          timerHi := s.timerHi + 1
          timerLow := low },
        dueCalls (s.timerHi + 1) s slots) := by
  refine ⟨if (s.timerHi + 1) % (s.deviceResoulution * 1000) = 0 then s.timerLow + 1
    else s.timerLow, ?_⟩
  rw [timerRecieveTick, if_pos rfl]
  exact cyclicTasks_eq rfl hnull

/-! ## What a tick leaves -/

/-- A timer that is due is set again; a reaper behind it may clear it then. -/
theorem tickSlot_due (hi : i < slots) (hd : (s.handlers i).due tick = true) :
    tickSlot tick s slots i = clearSlot tick (reapsIn tick s (i + 1) slots)
    (setSlot tick (s.handlers i)) := by
  rw [tickSlot, if_pos hi, clearSlot_due hd]

/-- A timer that fires once keeps its slot. -/
theorem tickSlot_once (hi : i < slots) (hd : (s.handlers i).due tick = true)
    (hr : (s.handlers i).repeatRate = 0) : tickSlot tick s slots i = s.handlers i := by
  rw [tickSlot_due hi hd, setSlot, if_neg fun hc => hc.2 hr, clearSlot_due hd]

/-- A timer that is not due is cleared if a reaper is. -/
theorem tickSlot_not_due (hi : i < slots) (hd : (s.handlers i).due tick = false) :
    tickSlot tick s slots i = clearSlot tick (reapsIn tick s 0 slots) (s.handlers i) := by
  rw [tickSlot, if_pos hi, setSlot_not_due (due_clearSlot.trans hd), clearSlot_clearSlot,
    reapsIn_or hi (reaps_eq_false hd)]

/-- A slot is left alone by the reaper, or was overdue and is free. -/
theorem clearSlot_cases (tick : BitVec 32) (reap : Bool) (h : Timer) :
    clearSlot tick reap h = h ∨ reap = true ∧ h.fireTick.slt tick = true ∧
    (clearSlot tick reap h).fireTick = 0 := by
  rw [clearSlot]
  split_ifs with hc
  · exact .inr ⟨hc.1, hc.2.2, rfl⟩
  · exact .inl rfl

/-- A tick sets the slot, and clears it if it is overdue then. -/
theorem tickSlot_eq (tick : BitVec 32) (s : Timing) (hi : i < slots) :
    ∃ reap, tickSlot tick s slots i = clearSlot tick reap (setSlot tick (s.handlers i)) := by
  cases hd : (s.handlers i).due tick with
  | true => exact ⟨_, tickSlot_due hi hd⟩
  | false => exact ⟨_, by rw [tickSlot_not_due hi hd, setSlot_not_due hd]⟩

/-- A slot that is in use after a tick was in use before. -/
theorem occupied_of_tick (hi : i < slots) (hne : (tickSlot tick s slots i).fireTick ≠ 0) :
    (s.handlers i).fireTick ≠ 0 ∧ tickSlot tick s slots i = setSlot tick (s.handlers i) := by
  obtain ⟨reap, heq⟩ := tickSlot_eq tick s hi
  rcases clearSlot_cases tick reap (setSlot tick (s.handlers i)) with hc | ⟨-, -, hc⟩
  · rw [heq, hc] at hne ⊢
    refine ⟨fun h₀ => hne ?_, rfl⟩
    rw [setSlot_not_due, h₀]
    rw [Timer.due, decide_eq_false_iff_not]
    exact fun hd => hd.1 h₀
  · exact absurd (heq ▸ hc) hne

end Beryllium

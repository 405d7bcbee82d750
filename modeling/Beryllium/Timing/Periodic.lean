import Beryllium.Timing.Firing

/-!
# A function that a timer calls

`cyclic_tasks` with what its handlers do to the rest of the kernel. A component of the kernel has
operations, of which a timer does one, `p`: its function `f` is registered. The others are called
between two ticks, as are registrations of other functions, which leave the component alone
(`timedSystem`).

* `Follows.recieveTick`: a tick does `p` if the registration is due;
* `timedRun_iff`: the runs are those of the component in which `p` is done at the ticks at which the
  registration is due (`timedCalls`).
-/

namespace Beryllium

open Machine

variable {σ O : Type*}

/-! ## The code -/

/-- The timers, and a component of the kernel. -/
structure Timed (σ : Type*) where
  timing : Timing
  rest : σ

section

variable (f : ℕ) (call : σ → Option σ) (tick : BitVec 32) (s : Timed σ)

/-- The call of a handler. -/
def Timed.callHandler (h : Handler) : Option (Timed σ) :=
  if h = .fn f then (call s.rest).map fun x => { s with rest := x }
  else (Beryllium.callHandler s.timing h).map fun t => { s with timing := t }

/-- One iteration of the loop of `cyclic_tasks`. -/
def Timed.cyclicStep (i : ℕ) : Option (Timed σ) :=
  let h := s.timing.handlers i
  if h.fireTick = 0 then some s
  else if h.fireTick = tick then do
    let t ← s.callHandler f call h.handler
    let h := t.timing.handlers i
    return if h.repeatRate ≠ 0 then
      { t with timing := t.timing.set i { h with fireTick := tick + h.repeatRate } } else t
  else some s

/-- `cyclic_tasks` -/
def Timed.cyclicTasks : Option (Timed σ) :=
  (List.range slots).foldlM (fun s i => s.cyclicStep f call tick i) s

/-- `timer_recieveTick` -/
def Timed.recieveTick (deviceId : BitVec 32) : Option (Timed σ) :=
  let t := s.timing
  if deviceId = t.device then
    let hi := t.timerHi + 1
    let low := if hi % (t.deviceResoulution * 1000) = 0 then t.timerLow + 1 else t.timerLow
    Timed.cyclicTasks f call hi { s with timing := { t with timerHi := hi, timerLow := low } }
  else some s

end

/-- The operations: a tick, a registration of another function, and a call of the component. -/
inductive TimedOp (O : Type*)
  | tick
  | register (name : ℕ) (d : BitVec 32) (h : Handler) (r : BitVec 32)
  | call (op : O)

/-- The runs of the timers and of the component `sys`, from the registration of `f` on. -/
def timedSystem (sys : System σ O) (p : O) (f name : ℕ) (d r : BitVec 32) :
    System (Timed σ) (TimedOp O) where
  init s := ∃ t : TimerRun, timerSystem.Reachable t ∧ (∀ g ∈ t.regs, g.handler ≠ .fn f) ∧
    (∃ i < slots, (t.timing.handlers i).fireTick = 0) ∧ sys.init s.rest ∧
    s.timing = (timingRegisterTimer t.timing name d (.fn f) r).1
  guard s
    | .tick => s.timing.timerHi.toNat + 1 < 2 ^ 31
    | .register _ d h r => 1 ≤ d.toInt ∧ 0 ≤ r.toInt ∧ h ≠ .null ∧ h ≠ .fn f
    | .call op => sys.guard s.rest op
  step s
    | .tick => s.recieveTick f (fun x => sys.step x p) s.timing.device
    | .register name d h r => some { s with timing := (timingRegisterTimer s.timing name d h r).1 }
    | .call op => (sys.step s.rest op).map fun x => { s with rest := x }

/-! ## One tick -/

variable {f : ℕ} {call : σ → Option σ} {tick : BitVec 32} {s : Timed σ} {n i k : ℕ}

/-- What the visit of a slot does to the component. -/
def visitSlot (f : ℕ) (call : σ → Option σ) (tick : BitVec 32) (h : Timer) (x : σ) : Option σ :=
  if h.due tick = true ∧ h.handler = .fn f then call x else some x

theorem visitSlot_clearSlot (reap : Bool) (h : Timer) (x : σ) :
    visitSlot f call tick (clearSlot tick reap h) x = visitSlot f call tick h x := by
  rw [visitSlot, visitSlot, due_clearSlot]
  by_cases hd : h.due tick = true
  · rw [clearSlot_due hd]
  · rw [if_neg fun hc => hd hc.1, if_neg fun hc => hd hc.1]

/-- An iteration of the loop does to the timers what it does without the component. -/
theorem Timed.cyclicStep_eq (cs : List (ℕ × Handler)) :
    s.cyclicStep f call tick i =
    (visitSlot f call tick (s.timing.handlers i) s.rest).bind fun x =>
      (Beryllium.cyclicStep tick (s.timing, cs) i).map fun u => ⟨u.1, x⟩ := by
  rw [Timed.cyclicStep, Beryllium.cyclicStep, visitSlot]
  cases hd : (s.timing.handlers i).due tick with
  | false =>
    have hne : ¬((s.timing.handlers i).fireTick ≠ 0 ∧ (s.timing.handlers i).fireTick = tick) :=
      of_decide_eq_false hd
    have hvisit : ¬(false = true ∧ (s.timing.handlers i).handler = .fn f) :=
      fun hc => Bool.false_ne_true hc.1
    rw [if_neg hvisit, Option.bind_some]
    dsimp only
    split_ifs with h₀ h₁
    · rfl
    · exact absurd ⟨h₀, h₁⟩ hne
    · rfl
  | true =>
    obtain ⟨h₀, h₁⟩ := of_decide_eq_true hd
    dsimp only
    rw [if_neg h₀, if_pos h₁, if_neg h₀, if_pos h₁, Timed.callHandler]
    by_cases hf : (s.timing.handlers i).handler = .fn f
    · rw [if_pos hf, if_pos ⟨rfl, hf⟩, hf, Beryllium.callHandler]
      cases call s.rest with
      | none => rfl
      | some x =>
        simp only [Option.map_some, Option.bind_eq_bind, Option.bind_some, Option.pure_def]
        split_ifs <;> rfl
    · rw [if_neg hf, if_neg (show ¬(true = true ∧ _) from fun hc => hf hc.2)]
      cases Beryllium.callHandler s.timing (s.timing.handlers i).handler with
      | none => rfl
      | some u =>
        simp only [Option.map_some, Option.bind_eq_bind, Option.bind_some, Option.pure_def]
        split_ifs <;> rfl

/-- The loop of `cyclic_tasks` does to the timers what it does without the component. -/
theorem Timed.cyclicTasks_eq (htick : s.timing.timerHi = tick)
    (hnull : ∀ i < slots, (s.timing.handlers i).due tick = true →
      (s.timing.handlers i).handler ≠ .null) : s.cyclicTasks f call tick =
      ((List.range slots).foldlM (fun x i => visitSlot f call tick (s.timing.handlers i) x)
        s.rest).map
        fun x => ⟨afterSlots tick s.timing slots, x⟩ := by
  have hloop : ∀ n ≤ slots, (List.range n).foldlM (fun s i => s.cyclicStep f call tick i) s =
      ((List.range n).foldlM (fun x i => visitSlot f call tick (s.timing.handlers i) x) s.rest).map
        fun x => ⟨afterSlots tick s.timing n, x⟩ := by
    intro n hn
    induction n with
    | zero => rw [afterSlots_zero]; rfl
    | succ n ih =>
      have hslot : (afterSlots tick s.timing n).handlers n =
          clearSlot tick (reapsIn tick s.timing 0 n) (s.timing.handlers n) := tickSlot_self hn
      have hnull' : ((afterSlots tick s.timing n).handlers n).due tick = true →
          ((afterSlots tick s.timing n).handlers n).handler ≠ .null := by
        intro hd
        rw [hslot, due_clearSlot] at hd
        rw [hslot, clearSlot_due hd]
        exact hnull n hn hd
      rw [List.range_succ, List.foldlM_append, List.foldlM_append, ih (Nat.le_of_succ_le hn)]
      cases (List.range n).foldlM (fun x i => visitSlot f call tick (s.timing.handlers i) x)
        s.rest with
      | none => rfl
      | some x =>
        -- the slot has not changed, if it is due
        rw [Option.map_some, Option.bind_eq_bind, Option.bind_some, List.foldlM_cons,
          Timed.cyclicStep_eq [], Beryllium.cyclicStep_eq (t := afterSlots tick s.timing n) htick
            hn hnull']
        dsimp only
        rw [hslot, visitSlot_clearSlot, reaps_clearSlot, ← tickSlot_self hn, afterSlots_succ hn]
        change _ = Option.map _ ((visitSlot f call tick (s.timing.handlers n) x).bind some)
        cases visitSlot f call tick (s.timing.handlers n) x <;> rfl
  exact hloop slots le_rfl

/-- A tick of the selected device. -/
theorem Timed.recieveTick_eq (s : Timed σ) (hnull : ∀ i < slots,
    (s.timing.handlers i).due (s.timing.timerHi + 1) = true →
    (s.timing.handlers i).handler ≠ .null) : s.recieveTick f call s.timing.device =
      ((List.range slots).foldlM
        (fun x i => visitSlot f call (s.timing.timerHi + 1) (s.timing.handlers i) x) s.rest).bind
        fun x =>
          (timerRecieveTick s.timing s.timing.device).map fun u => ⟨u.1, x⟩ := by
  rw [Timed.recieveTick, timerRecieveTick]
  dsimp only
  rw [if_pos rfl, if_pos rfl]
  generalize (if (s.timing.timerHi + 1) % (s.timing.deviceResoulution * 1000) = 0
    then s.timing.timerLow + 1 else s.timing.timerLow) = low
  set t : Timing := { s.timing with timerHi := s.timing.timerHi + 1, timerLow := low } with ht
  rw [Beryllium.cyclicTasks_eq (s := t) rfl hnull,
    Timed.cyclicTasks_eq (s := ⟨t, s.rest⟩) rfl hnull]
  cases (List.range slots).foldlM
    (fun x i => visitSlot f call (s.timing.timerHi + 1) (s.timing.handlers i) x) s.rest <;> rfl

/-- If there is at most one slot to visit, the loop does what a visit of it does. -/
theorem foldlM_visit {P : ℕ → Prop} [DecidablePred P] {n : ℕ} (x : σ)
    (hunique : ∀ i < n, ∀ j < n, P i → P j → i = j) :
    (List.range n).foldlM (fun x i => if P i then call x else some x) x =
      if ∃ i < n, P i then call x else some x := by
  induction n with
  | zero => exact (if_neg fun ⟨i, hi, _⟩ => Nat.not_lt_zero i hi).symm
  | succ n ih =>
    rw [List.range_succ, List.foldlM_append,
      ih fun i hi j hj => hunique i (Nat.lt_succ_of_lt hi) j (Nat.lt_succ_of_lt hj)]
    by_cases hn : P n
    · have hnone : ¬∃ i < n, P i := fun ⟨i, hi, hp⟩ =>
        hi.ne (hunique i (Nat.lt_succ_of_lt hi) n (Nat.lt_succ_self n) hp hn)
      rw [if_neg hnone, if_pos ⟨n, Nat.lt_succ_self n, hn⟩]
      change ((if P n then call x else some x).bind some) = _
      rw [if_pos hn]
      cases call x <;> rfl
    · have hiff : (∃ i < n + 1, P i) ↔ ∃ i < n, P i := by
        refine ⟨fun ⟨i, hi, hp⟩ => ⟨i, ?_, hp⟩, fun ⟨i, hi, hp⟩ => ⟨i, Nat.lt_succ_of_lt hi, hp⟩⟩
        exact (Nat.lt_succ_iff_lt_or_eq.1 hi).resolve_right fun heq => hn (heq ▸ hp)
      simp only [hiff, List.foldlM_cons, if_neg hn]
      cases (if ∃ i < n, P i then call x else some x) <;> rfl

/-! ## The registration -/

/-- The timers are those of a run in which `g`, number `k`, is the only registration of `f`. -/
structure Follows (f k : ℕ) (g : Registration) (t : Timing) (r : TimerRun) : Prop where
  timing : r.timing = t
  inv : FiringInv r
  reg : r.regs[k]? = some g
  only : ∀ n g', r.regs[n]? = some g' → (g'.handler = .fn f ↔ n = k)

variable {g : Registration} {t : Timing} {r : TimerRun}

/-- A slot in use has the handler `f` if it is that of the registration. -/
theorem Follows.handler_iff (h : Follows f k g t r) (hocc : r.Occupied i) :
    (t.handlers i).handler = .fn f ↔ r.owner i = k := by
  obtain ⟨g', hg', hf⟩ := h.inv.slot i hocc
  rw [← h.timing, hf.handler, h.only _ _ hg']

/-- A slot with the handler `f` is due if the registration is. -/
theorem Follows.due_iff (h : Follows f k g t r) (htick : tick.toNat = r.now + 1)
    (hnow : r.now + 1 < 2 ^ 31) :
    (∃ i < slots, (t.handlers i).due tick = true ∧ (t.handlers i).handler = .fn f) ↔ g.firesAt
    (r.now + 1) := by
  rw [← h.timing]
  constructor
  · rintro ⟨i, hi, hd, hf⟩
    have hocc : r.Occupied i := ⟨hi, (Beryllium.due_iff.1 hd).1⟩
    obtain ⟨g', hg', hfires⟩ := h.inv.slot i hocc
    rw [h.timing, h.handler_iff hocc] at hf
    obtain rfl := Option.some.inj (h.reg.symm.trans (hf ▸ hg'))
    exact (hfires.due_iff htick hocc.2).1 hd
  · intro hfires
    rcases h.inv.stored k g h.reg with ⟨i, hocc, hown⟩ | hlate
    · obtain ⟨g', hg', hslot⟩ := h.inv.slot i hocc
      obtain rfl := Option.some.inj (h.reg.symm.trans (hown ▸ hg'))
      refine ⟨i, hocc.1, (hslot.due_iff htick hocc.2).2 hfires, ?_⟩
      rw [h.timing, h.handler_iff hocc]
      exact hown
    · exact absurd (hlate _ hfires (Nat.lt_succ_self _)) (by omega)

/-- There is one slot with the handler `f`. -/
theorem Follows.slot_unique (h : Follows f k g t r) {i j : ℕ} (hi : i < slots) (hj : j < slots)
    (hi' : (t.handlers i).due tick = true ∧ (t.handlers i).handler = .fn f)
    (hj' : (t.handlers j).due tick = true ∧ (t.handlers j).handler = .fn f) : i = j := by
  have hocc {i : ℕ} (hi : i < slots) (hd : (t.handlers i).due tick = true) : r.Occupied i :=
    ⟨hi, by rw [h.timing]; exact (Beryllium.due_iff.1 hd).1⟩
  have hiocc := hocc hi hi'.1
  have hjocc := hocc hj hj'.1
  refine h.inv.owner_inj i j hiocc hjocc ?_
  rw [(h.handler_iff hiocc).1 hi'.2, (h.handler_iff hjocc).1 hj'.2]

instance (g : Registration) (T : ℕ) : Decidable (g.firesAt T) :=
  decidable_of_iff (g.tick + g.delay ≤ T ∧ (T - (g.tick + g.delay)) % g.repeatRate = 0) <| by
    rw [← Nat.dvd_iff_mod_eq_zero]
    constructor
    · rintro ⟨hle, c, hc⟩
      exact ⟨c, by rw [Nat.mul_comm c, ← hc, Nat.add_sub_cancel' hle]⟩
    · rintro ⟨c, rfl⟩
      exact ⟨Nat.le_add_right _ _, c, by rw [Nat.add_sub_cancel_left, Nat.mul_comm]⟩

/-- A tick of the timers and the component: the component is called if the registration is due. -/
theorem Follows.recieveTick (h : Follows f k g s.timing r) (hnow : r.now + 1 < 2 ^ 31)
    (call : σ → Option σ) : ∃ r', Follows f k g r'.timing r' ∧ r'.now = r.now + 1 ∧
      s.recieveTick f call s.timing.device =
        (if g.firesAt (r.now + 1) then call s.rest else some s.rest).map fun x =>
        ⟨r'.timing, x⟩ := by
  obtain ⟨tick, low, htick, heq⟩ := h.inv.tick_eq hnow
  have htick' : s.timing.timerHi + 1 = tick := by
    refine BitVec.eq_of_toNat_eq ?_
    rw [htick, BitVec.toNat_add, TimerRun.now, h.timing]
    rw [TimerRun.now, h.timing] at hnow
    exact Nat.mod_eq_of_lt (hnow.trans (by decide))
  have hnull : ∀ i < slots, (s.timing.handlers i).due (s.timing.timerHi + 1) = true →
      (s.timing.handlers i).handler ≠ .null := by
    intro i hi hd
    rw [← h.timing] at hd ⊢
    obtain ⟨g', hg', hf⟩ := h.inv.slot i ⟨hi, (Beryllium.due_iff.1 hd).1⟩
    rw [hf.handler]
    exact (h.inv.regs g' (List.mem_of_getElem? hg')).1
  refine ⟨r.ticked tick low, ⟨rfl, h.inv.ticked hnow htick, h.reg, h.only⟩, htick, ?_⟩
  obtain ⟨u, hu, hticked⟩ := Option.map_eq_some_iff.1 heq
  rw [h.timing] at hu
  have htiming : u.1 = (r.ticked tick low).timing := congrArg TimerRun.timing hticked
  rw [Timed.recieveTick_eq s hnull, hu, htick']
  simp only [visitSlot, Option.map_some, htiming]
  rw [foldlM_visit s.rest fun i hi j hj => h.slot_unique hi hj]
  simp only [h.due_iff htick hnow]
  cases (if g.firesAt (r.now + 1) then call s.rest else some s.rest) <;> rfl

/-- The registration of another function. -/
theorem Follows.register (h : Follows f k g t r) (name : ℕ) {d rate : BitVec 32} {hd : Handler}
    (hd₁ : 1 ≤ d.toInt) (hr₀ : 0 ≤ rate.toInt) (hnull : hd ≠ .null) (hf : hd ≠ .fn f) :
    ∃ r', Follows f k g (timingRegisterTimer t name d hd rate).1 r' ∧ r'.now = r.now := by
  rcases timingRegisterTimer_cases r.timing name d rate hd with ⟨i, hi, hfree, -, heq⟩ | ⟨-, heq⟩
  · refine ⟨r.inserted i name d hd rate,
      ⟨?_, h.inv.inserted hi hfree hd₁ hr₀ hnull, ?_, fun n g' hn => ?_⟩, rfl⟩
    · rw [← h.timing, heq]
      rfl
    · exact getElem?_snoc.2 (.inl h.reg)
    · rcases getElem?_snoc.1 hn with hn | ⟨rfl, rfl⟩
      · exact h.only n g' hn
      · have hk := (List.getElem?_eq_some_iff.1 h.reg).1
        exact iff_of_false hf hk.ne'
  · exact ⟨r, ⟨by rw [← h.timing, heq], h.inv, h.reg, h.only⟩, rfl⟩

/-- The timers after the registration of `f`. -/
theorem follows_start (name : ℕ) {d rate : BitVec 32} (hr : timerSystem.Reachable r)
    (hnone : ∀ g ∈ r.regs, g.handler ≠ .fn f)
    (hfree : ∃ i < slots, (r.timing.handlers i).fireTick = 0)
    (hd₁ : 1 ≤ d.toInt) (hr₀ : 0 ≤ rate.toInt) :
    ∃ r', Follows f r.regs.length ⟨r.now, d.toNat, rate.toNat, .fn f⟩
      (timingRegisterTimer r.timing name d (.fn f) rate).1 r' ∧ r'.now = r.now := by
  obtain ⟨i, hi, hi₀, -, heq⟩ := @register_first r.timing name d rate (.fn f) hfree
  have hinv : FiringInv (r.inserted i name d (.fn f) rate) :=
    (firingInv hr).inserted hi hi₀ hd₁ hr₀ Handler.noConfusion
  refine ⟨r.inserted i name d (.fn f) rate, ⟨?_, hinv, ?_, fun n g' hn => ?_⟩, rfl⟩
  · rw [heq]
    rfl
  · exact getElem?_snoc.2 (.inr ⟨rfl, rfl⟩)
  · rcases getElem?_snoc.1 hn with hn | ⟨rfl, rfl⟩
    · exact iff_of_false (hnone g' (List.mem_of_getElem? hn)) (List.getElem?_eq_some_iff.1 hn).1.ne
    · exact iff_of_true rfl rfl

/-! ## Runs -/

/-- The ticks among the operations. -/
def ticks : List (TimedOp O) → ℕ
  | [] => 0
  | .tick :: ops => ticks ops + 1
  | .register .. :: ops | .call _ :: ops => ticks ops

/-- The operations of the component, with `p` at the ticks at which `g` is due. -/
def timedCalls (g : Registration) (p : O) : ℕ → List (TimedOp O) → List O
  | _, [] => []
  | now, .tick :: ops =>
    if g.firesAt (now + 1) then p :: timedCalls g p (now + 1) ops else timedCalls g p (now + 1) ops
  | now, .register .. :: ops => timedCalls g p now ops
  | now, .call op :: ops => op :: timedCalls g p now ops

/-- A registration of another function than `f`, with a delay and a rate that are valid. -/
def TimedOp.Valid (f : ℕ) : TimedOp O → Prop
  | .register _ d h r => 1 ≤ d.toInt ∧ 0 ≤ r.toInt ∧ h ≠ .null ∧ h ≠ .fn f
  | _ => True

variable {sys : System σ O} {p : O} {name : ℕ} {d rate : BitVec 32}

theorem ticks_append (xs ys : List (TimedOp O)) : ticks (xs ++ ys) = ticks xs + ticks ys := by
  induction xs with
  | nil => exact (Nat.zero_add _).symm
  | cons op xs ih =>
    cases op with
    | tick => rw [List.cons_append, ticks, ticks, ih, Nat.add_right_comm]
    | register => exact ih
    | call => exact ih

theorem timedCalls_append (now : ℕ) (xs ys : List (TimedOp O)) :
    timedCalls g p now (xs ++ ys) = timedCalls g p now xs ++ timedCalls g p
    (now + ticks xs) ys := by
  induction xs generalizing now with
  | nil => rfl
  | cons op xs ih =>
    cases op with
    | tick =>
      rw [List.cons_append, timedCalls, timedCalls, ticks, ih, Nat.add_right_comm, ← Nat.add_assoc]
      split_ifs <;> rfl
    | register => exact ih now
    | call op => exact congrArg (op :: ·) (ih now)

/-- The runs are those of the component in which `p` is done when the registration is due. -/
theorem Follows.run_iff (hp : ∀ x, sys.guard x p) {ops : List (TimedOp O)} {x : σ}
    (h : Follows f k g s.timing r) :
    (∃ t, (timedSystem sys p f name d rate).Run s ops ⟨t, x⟩) ↔
      r.now + ticks ops < 2 ^ 31 ∧ (∀ op ∈ ops, op.Valid f) ∧ sys.Run s.rest
      (timedCalls g p r.now ops) x := by
  induction ops generalizing s r with
  | nil =>
    simp only [System.run_nil, timedCalls, ticks]
    constructor
    · rintro ⟨t, rfl⟩
      exact ⟨h.inv.now_lt, fun _ hop => absurd hop List.not_mem_nil, rfl⟩
    · rintro ⟨-, -, rfl⟩
      exact ⟨s.timing, rfl⟩
  | cons op ops ih =>
    rw [List.forall_mem_cons]
    cases op with
    | tick =>
      rw [ticks, timedCalls]
      constructor
      · rintro ⟨t, _ | ⟨hg, hu, hrun⟩⟩
        replace hg : r.now + 1 < 2 ^ 31 := by
          rw [TimerRun.now, h.timing]
          exact hg
        obtain ⟨r', h', hnow', heq⟩ := h.recieveTick hg fun x => sys.step x p
        obtain ⟨y, hy, rfl⟩ := Option.map_eq_some_iff.1 (heq.symm.trans hu)
        obtain ⟨hbound, hvalid, hcalls⟩ := (ih h').1 ⟨t, hrun⟩
        rw [hnow'] at hbound hcalls
        refine ⟨by omega, ⟨trivial, hvalid⟩, ?_⟩
        split_ifs at hy ⊢
        · exact .cons (hp _) hy hcalls
        · cases hy
          exact hcalls
      · rintro ⟨hbound, ⟨-, hvalid⟩, hcalls⟩
        have hg : r.now + 1 < 2 ^ 31 := by omega
        obtain ⟨r', h', hnow', heq⟩ := h.recieveTick hg fun x => sys.step x p
        obtain ⟨y, hy, hcalls⟩ : ∃ y,
            (if g.firesAt (r.now + 1) then sys.step s.rest p else some s.rest) = some y ∧
            sys.Run y (timedCalls g p r'.now ops) x := by
          rw [hnow']
          split_ifs at hcalls ⊢
          · exact (System.run_cons.1 hcalls).2
          · exact ⟨_, rfl, hcalls⟩
        obtain ⟨t, hrun⟩ := (ih (s := ⟨r'.timing, y⟩) h').2 ⟨by omega, hvalid, hcalls⟩
        refine ⟨t, .cons ?_ (heq.trans (congrArg _ hy)) hrun⟩
        change s.timing.timerHi.toNat + 1 < _
        rw [← h.timing]
        exact hg
    | register name' d' hd rate' =>
      rw [ticks, timedCalls]
      constructor
      · rintro ⟨t, _ | ⟨hg, ⟨⟩, hrun⟩⟩
        obtain ⟨r', h', hnow'⟩ := h.register name' hg.1 hg.2.1 hg.2.2.1 hg.2.2.2
        obtain ⟨hbound, hvalid, hcalls⟩ := (ih h').1 ⟨t, hrun⟩
        rw [hnow'] at hbound hcalls
        exact ⟨hbound, ⟨hg, hvalid⟩, hcalls⟩
      · rintro ⟨hbound, ⟨hg, hvalid⟩, hcalls⟩
        obtain ⟨r', h', hnow'⟩ := h.register name' hg.1 hg.2.1 hg.2.2.1 hg.2.2.2
        rw [← hnow'] at hbound hcalls
        obtain ⟨t, hrun⟩ := (ih (s := { s with timing := _ }) h').2 ⟨hbound, hvalid, hcalls⟩
        exact ⟨t, .cons hg rfl hrun⟩
    | call op =>
      rw [ticks, timedCalls]
      constructor
      · rintro ⟨t, _ | ⟨hg, hu, hrun⟩⟩
        obtain ⟨y, hy, rfl⟩ := Option.map_eq_some_iff.1 hu
        obtain ⟨hbound, hvalid, hcalls⟩ := (ih (s := { s with rest := y }) h).1 ⟨t, hrun⟩
        exact ⟨hbound, ⟨trivial, hvalid⟩, .cons hg hy hcalls⟩
      · rintro ⟨hbound, ⟨-, hvalid⟩, hcalls⟩
        obtain ⟨hg, y, hy, hcalls⟩ := System.run_cons.1 hcalls
        obtain ⟨t, hrun⟩ := (ih (s := { s with rest := y }) h).2 ⟨hbound, hvalid, hcalls⟩
        have hs : (sys.step s.rest op).map (fun y => { s with rest := y }) =
          some { s with rest := y } := by rw [hy]; rfl
        exact ⟨t, .cons hg hs hrun⟩

/-- From the registration of `f` on, the runs are those of the component in which `p` is done at the
    ticks at which the registration is due. -/
theorem timedRun_iff (hp : ∀ x, sys.guard x p) (hd₁ : 1 ≤ d.toInt) (hr₀ : 0 ≤ rate.toInt)
    (hs : (timedSystem sys p f name d rate).init s) (ops : List (TimedOp O)) (x : σ) :
    (∃ t, (timedSystem sys p f name d rate).Run s ops ⟨t, x⟩) ↔
      s.timing.timerHi.toNat + ticks ops < 2 ^ 31 ∧ (∀ op ∈ ops, op.Valid f) ∧
        sys.Run s.rest (timedCalls ⟨s.timing.timerHi.toNat, d.toNat, rate.toNat, .fn f⟩ p
          s.timing.timerHi.toNat ops)
          x := by
  obtain ⟨r, hr, hnone, hfree, -, htiming⟩ := hs
  obtain ⟨r', h, hnow⟩ := follows_start name hr hnone hfree hd₁ hr₀
  rw [← htiming] at h
  rw [← hnow] at h
  rw [show s.timing.timerHi.toNat = r'.now by rw [TimerRun.now, h.timing]]
  exact h.run_iff hp

end Beryllium

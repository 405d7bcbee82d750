import Beryllium.Timing.Handlers

/-!
# Deregistering a handler

`timing_deregister_timer` clears the first slot that holds the handler, and stops. A timer that has
fired keeps its slot and its handler until the reaper comes, so the first slot need not be the
one that is still to fire: the handler is not called again exactly if the other slots that
hold it are free (`deregister_final_iff`).
-/

namespace Beryllium

open Machine

/-- An operation does not register the handler. -/
def DoesNotRegister (h : Handler) (_ : HandlerRun) (op : HandlerOp) : Prop :=
  ∀ name d r, op ≠ .table (.register name d h r)

/-- The timers after `timing_deregister_timer`. -/
def HandlerRun.deregister (s : HandlerRun) (h : Handler) : HandlerRun :=
  { s with timing := timingDeregisterTimer s.timing h }

/-- Deregistering the handler is final. -/
structure Final (s : HandlerRun) (h : Handler) : Prop where
  /-- It is not called again until it is registered again. -/
  silent : ∀ ops s', (handlerSystem.restrict (DoesNotRegister h)).Run (s.deregister h) ops s' →
    ∃ new, s'.calls = s.calls ++ new ∧ ∀ c ∈ new, c.handler ≠ h
  /-- No slot holds it until then, but free ones. -/
  free : ∀ ops s', (handlerSystem.restrict (DoesNotRegister h)).Run (s.deregister h) ops s' →
    ∀ k < slots, (s'.timing.handlers k).handler = h → (s'.timing.handlers k).fireTick = 0
  /-- The slots that held it are free. -/
  freed : ∀ k < slots, (s.timing.handlers k).handler = h →
    ((s.deregister h).timing.handlers k).fireTick = 0
  /-- The other timers are left as they are. -/
  others : ∀ k, (s.timing.handlers k).handler ≠ h →
    (s.deregister h).timing.handlers k = s.timing.handlers k

/-- Of the slots that hold the handler, all but the first are free, also after the handler that
    is running returns. -/
def OthersFree (s : HandlerRun) (h : Handler) : Prop :=
  ∀ j k, j < k → k < slots → (s.timing.handlers j).handler = h → (s.timing.handlers k).handler = h →
    (s.timing.handlers k).fireTick = 0 ∧
      (s.place = .handler k → ((rearm s.timing k).handlers k).fireTick = 0)

variable {s s' : HandlerRun} {t t' : Timing} {h : Handler} {op : HandlerOp} {k : ℕ}

/-! ## One step -/

/-- A slot after a call that does not register the handler: as before, without the handler, or
    no longer repeating. -/
theorem TableOp.apply_cases {op : TableOp} (hop : ∀ name d r, op ≠ .register name d h r)
    (hne : h ≠ .null) (t : Timing) (k : ℕ) :
    (op.apply t).handlers k = t.handlers k ∨ ((op.apply t).handlers k).handler ≠ h ∨
      (op.apply t).handlers k = { t.handlers k with repeatRate := 0 } := by
  have hset : ∀ i e, (t.set i e).handlers k = t.handlers k ∨ k = i ∧
    (t.set i e).handlers k = e := by
    intro i e
    by_cases hk : k = i
    · subst hk
      exact .inr ⟨rfl, t.set_self _ _⟩
    · exact .inl (t.set_of_ne _ hk)
  cases op with
  | register name d h' r =>
    have hne' : h' ≠ h := fun heq => hop name d r (heq ▸ rfl)
    rcases timingRegisterTimer_cases t name d r h' with ⟨i, -, -, -, heq⟩ | ⟨-, heq⟩
    · rw [apply, heq]
      refine (hset i ⟨name, d + t.timerHi, r, i, h'⟩).imp_right fun hk => .inl ?_
      rw [hk.2]
      exact hne'
    · rw [apply, heq]
      exact .inl rfl
  | deregister h' =>
    rcases timingDeregisterTimer_cases t h' with ⟨i, -, -, -, heq⟩ | ⟨-, heq⟩
    · rw [apply, heq]
      refine (hset i _).imp_right fun hk => .inl ?_
      rw [hk.2]
      exact hne.symm
    · rw [apply, heq]
      exact .inl rfl
  | removeIndex i =>
    rw [apply, timingRemoveIndex]
    refine (hset i _).imp_right fun hk => .inr ?_
    rw [hk.2, hk.1]

/-- No slot in use holds the handler, nor one that is set again when its handler returns. -/
structure Silent (h : Handler) (s : HandlerRun) : Prop where
  free : ∀ k < slots, (s.timing.handlers k).handler = h → (s.timing.handlers k).fireTick = 0
  running : ∀ k < slots, s.place = .handler k → (s.timing.handlers k).handler = h →
    ((rearm s.timing k).handlers k).fireTick = 0

/-- The slot of another handler that the loop visits. -/
theorem Silent.visit {i : ℕ} (h₀ : h ≠ .null) (hi : Silent h s) (hilt : i < slots)
    (hvisit : s.visit i = some s') :
    Silent h s' ∧ ∃ new, s'.calls = s.calls ++ new ∧ ∀ c ∈ new, c.handler ≠ h := by
  cases hd : (s.timing.handlers i).due s.timing.timerHi with
  | false =>
    obtain rfl := Option.some.inj ((visit_not_due hd).symm.trans hvisit)
    exact ⟨⟨hi.free, fun k _ hr => absurd hr (nextPlace_ne_handler i)⟩,
      [], (List.append_nil _).symm, List.forall_mem_nil _⟩
  | true =>
    -- a slot that is due is in use, so it does not hold the handler
    have hne : (s.timing.handlers i).handler ≠ h := fun heq =>
      (of_decide_eq_true hd).1 (hi.free i hilt heq)
    rw [visit_due hd] at hvisit
    obtain ⟨hcalls, ⟨-, htiming, hnext⟩ | ⟨-, htiming, hnext⟩⟩ := callSlot_cases hvisit
    · refine ⟨⟨fun k hk heq => ?_,
        fun k _ hr => absurd (hnext.symm.trans hr) (nextPlace_ne_handler i)⟩,
        _, hcalls, List.forall_mem_singleton.2 hne⟩
      rw [htiming] at heq ⊢
      rw [rearm_handler] at heq
      rcases timingReaper_cases s.timing k with hsame | ⟨-, hnull, -⟩
      · rw [hsame] at heq
        have hki : k ≠ i := by
          rintro rfl
          exact hne heq
        rw [rearm_of_ne hki, hsame]
        exact hi.free k hk heq
      · exact absurd (heq.symm.trans hnull) h₀
    · refine ⟨⟨fun k hk => ?_, fun k _ hr heq => ?_⟩, _, hcalls, List.forall_mem_singleton.2 hne⟩
      · rw [htiming]
        exact hi.free k hk
      · rw [htiming] at heq
        cases hnext.symm.trans hr
        exact absurd heq hne

/-- A call that does not register the handler. -/
theorem Silent.table (h₀ : h ≠ .null) (hi : Silent h s) {o : TableOp}
    (hop : ∀ name d r, o ≠ .register name d h r) :
    Silent h { s with timing := TableOp.apply s.timing o } := by
  refine ⟨fun k hk heq => ?_, fun k hk hr heq => ?_⟩
  · dsimp only at heq ⊢
    rcases TableOp.apply_cases hop h₀ s.timing k with hsame | hne | hsame
    · rw [hsame] at heq ⊢
      exact hi.free k hk heq
    · exact absurd heq hne
    · rw [hsame] at heq ⊢
      exact hi.free k hk heq
  · dsimp only at heq hr ⊢
    rcases TableOp.apply_cases hop h₀ s.timing k with hsame | hne | hsame
    · rw [rearm_congr hsame (o.apply_timerHi s.timing)]
      rw [hsame] at heq
      exact hi.running k hk hr heq
    · exact absurd heq hne
    · rw [rearm_of_not_repeat (by rw [hsame]), hsame]
      rw [hsame] at heq
      exact hi.free k hk heq

/-- No step that does not register the handler calls it. -/
theorem Silent.step (h₀ : h ≠ .null) (hi : Silent h s) (hp : s.Placed)
    (hop : DoesNotRegister h s op)
    (hg : handlerSystem.guard s op) (hs : handlerSystem.step s op = some s') :
    Silent h s' ∧ ∃ new, s'.calls = s.calls ++ new ∧ ∀ c ∈ new, c.handler ≠ h := by
  have hnone : ∃ new, s.calls = s.calls ++ new ∧ ∀ c ∈ new, c.handler ≠ h :=
    ⟨[], (List.append_nil _).symm, List.forall_mem_nil _⟩
  rcases handler_step_cases hs with
    ⟨deviceId, rfl, rfl⟩ | ⟨i, rfl, hplace, hvisit⟩ | ⟨i, rfl, hplace, rfl⟩ | ⟨o, rfl, rfl⟩
  · rcases tick_cases s deviceId with heq | ⟨-, hhandlers, hplace, hcalls⟩
    · rw [heq]
      exact ⟨hi, hnone⟩
    · rw [hcalls]
      refine ⟨⟨fun k hk => ?_, fun k _ hr => ?_⟩, hnone⟩
      · rw [hhandlers]
        exact hi.free k hk
      · cases hplace.symm.trans hr
  · exact hi.visit h₀ (hp i (.inl hplace)) hvisit
  · refine ⟨⟨fun k hk heq => ?_, fun k _ hr => absurd hr (nextPlace_ne_handler i)⟩, hnone⟩
    dsimp only at heq ⊢
    rw [rearm_handler] at heq
    by_cases hki : k = i
    · subst hki
      exact hi.running k hk hplace heq
    · rw [rearm_of_ne hki]
      exact hi.free k hk heq
  · exact ⟨hi.table h₀ fun name d r hc => hop name d r (hc ▸ rfl), hnone⟩

/-- Nor does a run. -/
theorem Silent.run (h₀ : h ≠ .null) (hi : Silent h s) (hp : s.Placed) {ops : List HandlerOp}
    (hr : (handlerSystem.restrict (DoesNotRegister h)).Run s ops s') :
    Silent h s' ∧ ∃ new, s'.calls = s.calls ++ new ∧ ∀ c ∈ new, c.handler ≠ h := by
  have hstep : ∀ u op v, (Silent h u ∧ u.Placed ∧ ∃ new, u.calls = s.calls ++ new ∧
      ∀ c ∈ new, c.handler ≠ h) → (handlerSystem.restrict (DoesNotRegister h)).guard u op →
      (handlerSystem.restrict (DoesNotRegister h)).step u op = some v →
      Silent h v ∧ v.Placed ∧ ∃ new, v.calls = s.calls ++ new ∧ ∀ c ∈ new, c.handler ≠ h := by
    rintro u op v ⟨hi, hp, new, hnew, hall⟩ ⟨hg, hop⟩ hs
    obtain ⟨hi', new', hnew', hall'⟩ := hi.step h₀ hp hop hg hs
    refine ⟨hi', hp.step hs, new ++ new', ?_, List.forall_mem_append.2 ⟨hall, hall'⟩⟩
    rw [hnew', hnew, List.append_assoc]
  obtain ⟨hi', -, hcalls⟩ :=
    hr.of_step hstep ⟨hi, hp, [], (List.append_nil _).symm, List.forall_mem_nil _⟩
  exact ⟨hi', hcalls⟩

/-! ## Every run -/

/-- A slot that holds the handler behind another one is left as it is. -/
theorem deregister_behind {j k : ℕ} (hjk : j < k) (hj : (s.timing.handlers j).handler = h) :
    (s.deregister h).timing.handlers k = s.timing.handlers k := by
  rw [HandlerRun.deregister]
  rcases timingDeregisterTimer_cases s.timing h with ⟨i, -, -, hfirst, heq⟩ | ⟨-, heq⟩
  · rw [heq]
    refine s.timing.set_of_ne _ fun hk => ?_
    exact hfirst j (hk ▸ hjk) hj
  · rw [heq]

/-- If the other slots that hold the handler are free, no slot in use holds it. -/
theorem OthersFree.silent (ho : OthersFree s h) (h₀ : h ≠ .null) : Silent h (s.deregister h) := by
  rcases timingDeregisterTimer_cases s.timing h with ⟨i, hi, hih, hfirst, heq⟩ | ⟨hnone, heq⟩
  · -- what holds the handler after that is behind the slot that is cleared
    have hbehind : ∀ k, ((s.deregister h).timing.handlers k).handler = h → i < k ∧
        (s.deregister h).timing.handlers k = s.timing.handlers k ∧
          (s.timing.handlers k).handler = h := by
      intro k hk
      rw [HandlerRun.deregister, heq] at hk ⊢
      dsimp only at hk ⊢
      have hki : k ≠ i := by
        rintro rfl
        rw [Timing.set_self] at hk
        exact h₀ hk.symm
      rw [s.timing.set_of_ne _ hki] at hk ⊢
      exact ⟨lt_of_le_of_ne (Nat.not_lt.1 fun hlt => hfirst k hlt hk) hki.symm, rfl, hk⟩
    have htick : (s.deregister h).timing.timerHi = s.timing.timerHi :=
      TableOp.apply_timerHi (.deregister h) s.timing
    refine ⟨fun k hk hkh => ?_, fun k hk hr hkh => ?_⟩
    · obtain ⟨hik, hsame, hkh'⟩ := hbehind k hkh
      rw [hsame]
      exact (ho i k hik hk hih hkh').1
    · obtain ⟨hik, hsame, hkh'⟩ := hbehind k hkh
      rw [rearm_congr hsame htick]
      exact (ho i k hik hk hih hkh').2 hr
  · have hno : ∀ k < slots, ((s.deregister h).timing.handlers k).handler ≠ h := by
      rw [HandlerRun.deregister, heq]
      exact hnone h₀
    exact ⟨fun k hk hkh => absurd hkh (hno k hk), fun k hk _ hkh => absurd hkh (hno k hk)⟩

/-- A deregistration is only final if the other slots that hold the handler are free. -/
theorem Final.othersFree (hf : Final s h) : OthersFree s h := by
  intro j k hjk hk hj hkh
  have hsame := deregister_behind hjk hj
  have hholds : ((s.deregister h).timing.handlers k).handler = h := by rw [hsame, hkh]
  refine ⟨?_, fun hplace => ?_⟩
  · rw [← hsame]
    exact hf.free [] _ (.nil _) k hk hholds
  · -- the handler that runs returns
    have hret : handlerSystem.step (s.deregister h) .ret =
        some { s.deregister h with
          timing := rearm (s.deregister h).timing k
          place := nextPlace k } := by
      have hplace' : (s.deregister h).place = .handler k := hplace
      simp only [handlerSystem, HandlerRun.step, hplace']
    have hrun : (handlerSystem.restrict (DoesNotRegister h)).Run (s.deregister h) [.ret] _ :=
      .cons ⟨⟨k, hplace⟩, fun _ _ _ hc => by cases hc⟩ hret (.nil _)
    have hfree := hf.free _ _ hrun k hk (rearm_handler.trans hholds)
    have htick : (s.deregister h).timing.timerHi = s.timing.timerHi :=
      TableOp.apply_timerHi (.deregister h) s.timing
    rwa [rearm_congr hsame htick] at hfree

/-- In every state, a deregistration is final exactly if the other slots that hold the handler are
    free. -/
theorem deregister_final_iff (hs : handlerSystem.Reachable s) (h₀ : h ≠ .null) :
    Final s h ↔ OthersFree s h := by
  refine ⟨Final.othersFree, fun ho => ?_⟩
  have hsilent := ho.silent h₀
  have hp : (s.deregister h).Placed := fun i hi => placed_of_reachable hs i hi
  refine ⟨fun ops s' hr => (hsilent.run h₀ hp hr).2, fun ops s' hr => (hsilent.run h₀ hp hr).1.free,
    fun k hk hkh => ?_, fun k hkh => ?_⟩
  · by_cases hholds : ((s.deregister h).timing.handlers k).handler = h
    · exact hsilent.free k hk hholds
    · -- the slot that is cleared
      rcases timingDeregisterTimer_cases s.timing h with ⟨i, -, -, -, heq⟩ | ⟨-, heq⟩
      · rw [HandlerRun.deregister, heq] at hholds ⊢
        by_cases hki : k = i
        · subst hki
          dsimp only
          rw [Timing.set_self]
        · refine absurd ?_ hholds
          dsimp only
          rw [s.timing.set_of_ne _ hki, hkh]
      · rw [HandlerRun.deregister, heq] at hholds
        exact absurd hkh hholds
  · rw [HandlerRun.deregister]
    rcases timingDeregisterTimer_cases s.timing h with ⟨i, -, hih, -, heq⟩ | ⟨-, heq⟩
    · rw [heq]
      refine s.timing.set_of_ne _ fun hki => hkh ?_
      rw [hki, hih]
    · rw [heq]

/-- The table after `timing_init`, and the registration of a timer that fires once, at the first
    tick. -/
def oneShot : HandlerRun := ⟨(timingInit bootTiming).set 1 ⟨0, 1, 0, 1, .fn 0⟩, .idle, []⟩

theorem oneShot_reachable : handlerSystem.Reachable oneShot :=
  ⟨_, [.table (.register 0 1 (.fn 0) 0)], ⟨bootTiming, rfl⟩,
    .cons ⟨.inl rfl, fun _ hc => nomatch hc⟩ rfl (.nil _)⟩

theorem oneShot_one : oneShot.timing.handlers 1 = ⟨0, 1, 0, 1, .fn 0⟩ := Timing.set_self ..

theorem oneShot_of_ne (hk : k ≠ 1) : (oneShot.timing.handlers k).handler ≠ .fn 0 ∧
    (oneShot.timing.handlers k = ⟨0, 100, 100, 0, .reaper⟩ ∨
      (oneShot.timing.handlers k).fireTick = 0) := by
  rw [oneShot, Timing.set_of_ne _ _ hk]
  by_cases hk₀ : k = 0
  · subst hk₀
    exact ⟨by decide, .inl rfl⟩
  · have hfree : (timingInit bootTiming).handlers k = ⟨0, 0, 0, 0, .null⟩ := by
      rw [timingInit_handlers, Function.update_of_ne hk₀]
      exact ite_self _
    rw [hfree]
    exact ⟨by decide, .inr rfl⟩

/-- The timer is the only one with its handler. -/
theorem deregister_final_iff_oneShot : Final oneShot (.fn 0) := by
  refine (deregister_final_iff oneShot_reachable (by decide)).2 fun j k hjk _ hj hk => ?_
  have hone : ∀ i, (oneShot.timing.handlers i).handler = .fn 0 → i = 1 := fun i hi => by
    by_contra hne
    exact (oneShot_of_ne hne).1 hi
  rw [hone j hj, hone k hk] at hjk
  exact absurd hjk (lt_irrefl _)

/-- The timer has fired, and keeps its slot. -/
theorem oneShot_fired : ∃ s, handlerSystem.Reachable s ∧ s.place = .idle ∧ s.timing.timerHi = 1 ∧
    s.timing.handlers 1 = ⟨0, 1, 0, 1, .fn 0⟩ ∧ (s.timing.handlers 2).fireTick = 0 := by
  have hsame : (oneShot.tick 0).timing.handlers = oneShot.timing.handlers := rfl
  have hhi : (oneShot.tick 0).timing.timerHi = 1 := rfl
  have hdue : ((oneShot.tick 0).timing.handlers 1).due 1 = true := by
    rw [hsame, oneShot_one]
    decide
  have hnull : ∀ i < slots, ((oneShot.tick 0).timing.handlers i).due 1 = true →
      ((oneShot.tick 0).timing.handlers i).handler ≠ .null := by
    intro i _ hd
    rw [hsame] at hd ⊢
    by_cases hi : i = 1
    · rw [hi, oneShot_one]
      decide
    · rcases (oneShot_of_ne hi).2 with heq | hfree
      · rw [heq]
        decide
      · exact absurd hfree (of_decide_eq_true hd).1
  have htasks := cyclicTasks_eq hhi hnull
  rw [← hhi] at htasks
  obtain ⟨ops, new, -, hrun, -⟩ := run_cyclicTasks htasks (oneShot.tick 0).calls
  rw [hhi] at hrun
  obtain ⟨s₀, before, hinit, hbefore⟩ := oneShot_reachable
  have htick : handlerSystem.Run oneShot [.tick 0] (oneShot.tick 0) := .cons rfl rfl (.nil _)
  have htable : (afterSlots 1 (oneShot.tick 0).timing slots).handlers =
      tickSlot 1 (oneShot.tick 0).timing slots :=
    rfl
  refine ⟨_, ⟨s₀, _, hinit, (hbefore.append htick).append hrun⟩, rfl, hhi, ?_, ?_⟩
  · dsimp only
    rw [htable, tickSlot_once (by decide) hdue rfl, hsame]
    exact oneShot_one
  · by_contra hne
    dsimp only at hne
    rw [htable] at hne
    exact (occupied_of_tick (by decide) hne).1 rfl

/-- The timer has fired, and its handler is registered again: what is deregistered is the slot
    of the timer that has fired. -/
theorem deregister_fired : ∃ s, handlerSystem.Reachable s ∧ s.place = .idle ∧ ¬Final s (.fn 0) := by
  obtain ⟨s, ⟨s₀, ops, hinit, hrun⟩, hplace, htick, hone, hfree⟩ := oneShot_fired
  have hagain : handlerSystem.Run s [.table (.register 0 5 (.fn 0) 0)] _ :=
    .cons ⟨.inl hplace, fun _ hc => nomatch hc⟩ rfl (.nil _)
  refine ⟨_, ⟨s₀, _, hinit, hrun.append hagain⟩, hplace, fun hf => ?_⟩
  have ho := hf.othersFree
  rcases timingRegisterTimer_cases s.timing 0 5 0 (.fn 0) with ⟨i, hi, hi₀, -, heq⟩ | ⟨hfull, -⟩
  · have hne : i ≠ 1 := by
      rintro rfl
      rw [hone] at hi₀
      exact absurd hi₀ (by decide)
    have htable : ∀ e : Timing, TableOp.apply s.timing (.register 0 5 (.fn 0) 0) = e →
        e.handlers 1 = ⟨0, 1, 0, 1, .fn 0⟩ ∧ e.handlers i = ⟨0, 6, 0, i, .fn 0⟩ := by
      rintro e rfl
      rw [TableOp.apply, heq]
      dsimp only
      rw [Timing.set_self, Timing.set_of_ne _ _ hne.symm, htick]
      exact ⟨hone, rfl⟩
    obtain ⟨h₁, h₂⟩ := htable _ rfl
    rcases Nat.lt_or_gt_of_ne hne with hlt | hlt
    · have hzero := (ho i 1 hlt (by decide) (congrArg Timer.handler h₂)
        (congrArg Timer.handler h₁)).1
      exact absurd ((congrArg Timer.fireTick h₁).symm.trans hzero) (by decide)
    · have hzero := (ho 1 i hlt hi (congrArg Timer.handler h₁) (congrArg Timer.handler h₂)).1
      have hsix : (6 : BitVec 32) = 0 := (congrArg Timer.fireTick h₂).symm.trans hzero
      exact absurd hsix (by decide)
  · exact hfull 2 (by decide) hfree

end Beryllium

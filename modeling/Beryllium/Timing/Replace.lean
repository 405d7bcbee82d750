import Beryllium.Timing.Firing
import Beryllium.Timing.Deregister

/-!
# Timers that replace themselves

A handler that runs deregisters itself, and registers another handler. A timer that waits for its
tick is first called when the tick has come (`firstCalled_of_waiting`), whatever the other handlers
do. But the slot whose handler has returned is set again with its rate, and the new timer may
have been given that very slot: then it waits for its rate in place of its delay
(`replaced_first_called_iff`).
-/

namespace Beryllium

open Machine

/-- The slot `j` is behind us in a tick. -/
def Place.Past (j : ℕ) : Place → Prop
  | .idle => True
  | .loop k => j < k
  | .handler k => j ≤ k

/-- The operation does not deregister the handler, and keeps ticks below `2 ^ 31`. -/
def Undisturbed (g : Handler) (s : HandlerRun) (op : HandlerOp) : Prop :=
  op ≠ .table (.deregister g) ∧ ∀ deviceId, op = .tick deviceId → s.now + 1 < 2 ^ 31

namespace HandlerRun

variable (s : HandlerRun) (F j : ℕ)

/-- The tick `F` has not come to the slot `j`. -/
def Before : Prop := s.now < F ∨ s.now = F ∧ ¬s.place.Past j

/-- The tick `F` has come to the slot `j`, and is not over. -/
def JustPast : Prop := s.now = F ∧ s.place.Past j

end HandlerRun

/-- The handler `g` of the slot `j` is first called at the tick `F`. -/
def FirstCalled (s : HandlerRun) (j : ℕ) (g : Handler) (F : ℕ) : Prop :=
  ∀ ops s', (handlerSystem.restrict (Undisturbed g)).Run s ops s' →
    ∃ new, s'.calls = s.calls ++ new ∧ (s'.Before F j → ∀ c ∈ new, c.slot ≠ j) ∧
    (s'.JustPast F j → (new.filter fun c => c.slot = j) = [⟨BitVec.ofNat 32 F, j, g⟩])

variable {s s' : HandlerRun} {t : Timing} {g : Handler} {cs : List HandlerCall} {i j F f name : ℕ}
  {d r : BitVec 32}

/-! ## A timer that waits -/

/-- The slot `j` waits for the tick `F`. -/
structure Waiting (j : ℕ) (g : Handler) (F : ℕ) (s : HandlerRun) : Prop where
  fireTick : (s.timing.handlers j).fireTick.toNat = F
  handler : (s.timing.handlers j).handler = g
  place : s.place ≠ .handler j

/-- The slot `j` waits until the tick `F` comes to it, and is called then. -/
structure FirstInv (cs : List HandlerCall) (j : ℕ) (g : Handler) (F : ℕ) (s : HandlerRun) :
    Prop where
  waiting : s.Before F j → Waiting j g F s
  calls : ∃ new, s.calls = cs ++ new ∧ (s.Before F j → ∀ c ∈ new, c.slot ≠ j) ∧
    (s.JustPast F j → (new.filter fun c => c.slot = j) = [⟨BitVec.ofNat 32 F, j, g⟩])

theorem past_nextPlace (hj : j < slots) : (nextPlace i).Past j ↔ j ≤ i := by
  rw [nextPlace]
  split_ifs with hi
  · exact Nat.lt_succ_iff
  · exact iff_of_true trivial (by omega)

/-- A slot in use keeps its tick and its handler, unless it is deregistered. -/
theorem TableOp.apply_keeps {o : TableOp} (hop : o ≠ .deregister (t.handlers j).handler)
    (hne : (t.handlers j).fireTick ≠ 0) :
    ((o.apply t).handlers j).fireTick = (t.handlers j).fireTick ∧
      ((o.apply t).handlers j).handler = (t.handlers j).handler := by
  cases o with
  | register name d h r =>
    rcases timingRegisterTimer_cases t name d r h with ⟨i, -, hfree, -, heq⟩ | ⟨-, heq⟩
    · have hji : j ≠ i := by
        rintro rfl
        exact hne hfree
      rw [apply, heq, t.set_of_ne _ hji]
      exact ⟨rfl, rfl⟩
    · rw [apply, heq]
      exact ⟨rfl, rfl⟩
  | deregister h =>
    rcases timingDeregisterTimer_cases t h with ⟨i, -, hih, -, heq⟩ | ⟨-, heq⟩
    · have hji : j ≠ i := by
        rintro rfl
        exact hop (hih ▸ rfl)
      rw [apply, heq, t.set_of_ne _ hji]
      exact ⟨rfl, rfl⟩
    · rw [apply, heq]
      exact ⟨rfl, rfl⟩
  | removeIndex i =>
    rw [apply, timingRemoveIndex]
    by_cases hji : j = i
    · subst hji
      rw [Timing.set_self]
      exact ⟨rfl, rfl⟩
    · rw [t.set_of_ne _ hji]
      exact ⟨rfl, rfl⟩

/-- The calls of a step are added. -/
theorem FirstInv.extend (h : FirstInv cs j g F s) {new : List HandlerCall}
    (hcalls : s'.calls = s.calls ++ new)
    (hbefore : s'.Before F j → s.Before F j ∧ Waiting j g F s' ∧ ∀ c ∈ new, c.slot ≠ j)
    (hpast : s'.JustPast F j → (s.JustPast F j ∧ ∀ c ∈ new, c.slot ≠ j) ∨
      (s.Before F j ∧ new = [⟨BitVec.ofNat 32 F, j, g⟩])) : FirstInv cs j g F s' := by
  obtain ⟨old, hold, hnone, hone⟩ := h.calls
  refine ⟨fun hb => (hbefore hb).2.1, old ++ new, ?_, fun hb => ?_, fun hp => ?_⟩
  · rw [hcalls, hold, List.append_assoc]
  · obtain ⟨hb', -, hnew⟩ := hbefore hb
    exact List.forall_mem_append.2 ⟨hnone hb', hnew⟩
  · rw [List.filter_append]
    rcases hpast hp with ⟨hp', hnew⟩ | ⟨hb, rfl⟩
    · have hnil : (new.filter fun c => c.slot = j) = [] :=
        List.filter_eq_nil_iff.2 fun c hc => by rw [decide_eq_true_iff]; exact hnew c hc
      rw [hone hp', hnil, List.append_nil]
    · have hnil : (old.filter fun c => c.slot = j) = [] :=
        List.filter_eq_nil_iff.2 fun c hc => by rw [decide_eq_true_iff]; exact hnone hb c hc
      rw [hnil, List.nil_append]
      exact List.filter_cons_of_pos (decide_eq_true rfl)

/-- A slot that waits is due when its tick has come. -/
theorem Waiting.due (h : Waiting j g F s) (hF : 0 < F) :
    (s.timing.handlers j).due s.timing.timerHi = true ↔ s.now = F := by
  rw [due_iff]
  constructor
  · rintro ⟨-, heq⟩
    rw [HandlerRun.now, ← heq, h.fireTick]
  · intro hnow
    refine ⟨fun h₀ => ?_, BitVec.eq_of_toNat_eq (h.fireTick.trans hnow.symm)⟩
    have hzero := h.fireTick
    rw [h₀] at hzero
    exact hF.ne hzero

theorem timerHi_eq (hnow : s.now = F) : s.timing.timerHi = BitVec.ofNat 32 F := by
  rw [← hnow, HandlerRun.now, BitVec.ofNat_toNat, BitVec.setWidth_eq]

/-- A tick only moves the time on. -/
theorem FirstInv.tick (h : FirstInv cs j g F s) (deviceId : BitVec 32)
    (hbound : s.now + 1 < 2 ^ 31) : FirstInv cs j g F (s.tick deviceId) := by
  rcases tick_cases s deviceId with heq | ⟨htick, hhandlers, hplace, hcalls⟩
  · rw [heq]
    exact h
  · have hnow : (s.tick deviceId).now = s.now + 1 := by
      rw [HandlerRun.now, htick, BitVec.toNat_add]
      exact Nat.mod_eq_of_lt (Nat.lt_trans hbound (by decide))
    have hpast : ¬(s.tick deviceId).place.Past j := by
      rw [hplace]
      exact Nat.not_lt_zero j
    refine h.extend (hcalls.trans (List.append_nil _).symm) (fun hb => ?_) fun hp =>
      absurd hp.2 hpast
    have hb' : s.Before F j := by
      rw [HandlerRun.Before, hnow] at hb
      exact .inl (by omega)
    obtain ⟨h₁, h₂, -⟩ := h.waiting hb'
    rw [← hhandlers] at h₁ h₂
    exact ⟨hb', ⟨h₁, h₂, hplace.trans_ne (fun hc => nomatch hc)⟩, List.forall_mem_nil _⟩

/-- A visit of another slot leaves the slot alone, also if it runs the reaper. -/
theorem Waiting.visit (hF' : F < 2 ^ 31) (h : Waiting j g F s) (hle : s.now ≤ F) (hji : j ≠ i)
    (hc : s.callSlot i = some s') : Waiting j g F s' := by
  obtain ⟨h₁, h₂, -⟩ := h
  obtain ⟨-, ⟨-, htiming, hplace⟩ | ⟨-, htiming, hplace⟩⟩ := callSlot_cases hc
  · have hsame : s'.timing.handlers j = s.timing.handlers j := by
      rw [htiming, rearm_of_ne hji]
      refine (timingReaper_cases s.timing j).resolve_right fun hcleared => ?_
      rw [HandlerRun.now] at hle
      rcases (slt_iff (Nat.lt_of_le_of_lt hle hF')).1 hcleared.1 with hlt | hlt
      · omega
      · omega
    exact ⟨by rw [hsame, h₁], by rw [hsame, h₂], hplace.trans_ne (nextPlace_ne_handler i)⟩
  · refine ⟨by rw [htiming, h₁], by rw [htiming, h₂], fun hcontra => ?_⟩
    cases hplace.symm.trans hcontra
    exact hji rfl

/-- The handler of the slot is called when its tick has come to it. -/
theorem FirstInv.visit (hj : j < slots) (hF : 0 < F) (hF' : F < 2 ^ 31) (h : FirstInv cs j g F s)
    (hplace : s.place = .loop i) (hvisit : s.visit i = some s') : FirstInv cs j g F s' := by
  -- while it is visited, the tick has not come to the slot
  have hself : j = i → s.now ≤ F → s.Before F j := by
    rintro rfl hle
    rw [HandlerRun.Before, hplace]
    exact hle.lt_or_eq.imp_right fun heq => ⟨heq, Nat.lt_irrefl j⟩
  have hbehind : s.now = F → j < i → s.JustPast F j := by
    intro hnow hlt
    rw [HandlerRun.JustPast, hplace]
    exact ⟨hnow, hlt⟩
  have hahead : s.now < F ∨ s.now = F ∧ ¬j ≤ i → s.Before F j := by
    rw [HandlerRun.Before, hplace]
    exact Or.imp_right fun hb => ⟨hb.1, fun hlt => hb.2 (Nat.le_of_lt hlt)⟩
  cases hd : (s.timing.handlers i).due s.timing.timerHi with
  | false =>
    obtain rfl := Option.some.inj ((visit_not_due hd).symm.trans hvisit)
    refine h.extend (List.append_nil _).symm (fun hb => ?_) fun hp =>
      .inl ⟨?_, List.forall_mem_nil _⟩
    · rw [HandlerRun.Before, past_nextPlace hj] at hb
      obtain ⟨h₁, h₂, -⟩ := h.waiting (hahead hb)
      exact ⟨hahead hb, ⟨h₁, h₂, nextPlace_ne_handler i⟩, List.forall_mem_nil _⟩
    · rw [HandlerRun.JustPast, past_nextPlace hj] at hp
      refine hbehind hp.1 (Nat.lt_of_le_of_ne hp.2 fun hji => ?_)
      -- the slot itself would have been due
      have hdue := ((h.waiting (hself hji hp.1.le)).due hF).2 hp.1
      rw [hji, hd] at hdue
      cases hdue
  | true =>
    rw [visit_due hd] at hvisit
    obtain ⟨hcalls, hcases⟩ := callSlot_cases hvisit
    have hnow : s'.now = s.now := by
      rcases hcases with ⟨-, htiming, -⟩ | ⟨-, htiming, -⟩
      · rw [HandlerRun.now, htiming, rearm_timerHi]
        rfl
      · rw [HandlerRun.now, htiming, HandlerRun.now]
    have hpast : s'.place.Past j ↔ j ≤ i := by
      rcases hcases with ⟨-, -, hnext⟩ | ⟨-, -, hnext⟩
      · rw [hnext, past_nextPlace hj]
      · rw [hnext]
        exact Iff.rfl
    refine h.extend hcalls (fun hb => ?_) fun hp => ?_
    · rw [HandlerRun.Before, hnow, hpast] at hb
      have hb' := hahead hb
      have hji : j ≠ i := by
        rintro rfl
        have := ((h.waiting hb').due hF).1 hd
        omega
      exact ⟨hb', (h.waiting hb').visit hF' (by omega) hji hvisit,
        List.forall_mem_singleton.2 hji.symm⟩
    · rw [HandlerRun.JustPast, hnow, hpast] at hp
      rcases hp.2.lt_or_eq with hlt | hji
      · exact .inl ⟨hbehind hp.1 hlt, List.forall_mem_singleton.2 hlt.ne'⟩
      · have hb := hself hji hp.1.le
        subst hji
        exact .inr ⟨hb, by rw [timerHi_eq hp.1, (h.waiting hb).handler]⟩

/-- The return of a handler sets its own slot again, which does not wait. -/
theorem FirstInv.ret (hj : j < slots) (h : FirstInv cs j g F s) (hplace : s.place = .handler i) :
    FirstInv cs j g F { s with timing := rearm s.timing i, place := nextPlace i } := by
  have hnow : (rearm s.timing i).timerHi.toNat = s.now := congrArg BitVec.toNat rearm_timerHi
  refine h.extend (List.append_nil _).symm (fun hb => ?_) fun hp => .inl ⟨?_, List.forall_mem_nil _⟩
  · rw [HandlerRun.Before, HandlerRun.now, hnow, past_nextPlace hj] at hb
    have hb' : s.Before F j := by
      rw [HandlerRun.Before, hplace]
      exact hb
    obtain ⟨h₁, h₂, h₃⟩ := h.waiting hb'
    have hji : j ≠ i := by
      rintro rfl
      exact h₃ hplace
    have hsame : (rearm s.timing i).handlers j = s.timing.handlers j := rearm_of_ne hji
    rw [← hsame] at h₁ h₂
    exact ⟨hb', ⟨h₁, h₂, nextPlace_ne_handler i⟩, List.forall_mem_nil _⟩
  · rw [HandlerRun.JustPast, HandlerRun.now, hnow, past_nextPlace hj] at hp
    rw [HandlerRun.JustPast, hplace]
    exact hp

/-- A call of `timing.h` leaves a slot in use with its tick. -/
theorem FirstInv.table (hF : 0 < F) (h : FirstInv cs j g F s) {o : TableOp}
    (hop : o ≠ .deregister g) : FirstInv cs j g F { s with timing := o.apply s.timing } := by
  have hnow : (o.apply s.timing).timerHi.toNat = s.now :=
    congrArg BitVec.toNat (o.apply_timerHi s.timing)
  refine h.extend (List.append_nil _).symm (fun hb => ?_) fun hp => .inl ⟨?_, List.forall_mem_nil _⟩
  · rw [HandlerRun.Before, HandlerRun.now, hnow] at hb
    obtain ⟨h₁, h₂, h₃⟩ := h.waiting hb
    have hne : (s.timing.handlers j).fireTick ≠ 0 := by
      intro h₀
      rw [h₀] at h₁
      exact hF.ne h₁
    obtain ⟨h₄, h₅⟩ := TableOp.apply_keeps (h₂.symm ▸ hop) hne
    exact ⟨hb, ⟨(congrArg BitVec.toNat h₄).trans h₁, h₅.trans h₂, h₃⟩, List.forall_mem_nil _⟩
  · rw [HandlerRun.JustPast, HandlerRun.now, hnow] at hp
    exact hp

/-- Every step keeps the invariant. -/
theorem FirstInv.step {op : HandlerOp} (hj : j < slots) (hF : 0 < F) (hF' : F < 2 ^ 31)
    (h : FirstInv cs j g F s)
    (hop : Undisturbed g s op) (hs : handlerSystem.step s op = some s') : FirstInv cs j g F s' := by
  rcases handler_step_cases hs with ⟨deviceId, rfl, rfl⟩ | ⟨i, rfl, hplace, hvisit⟩ |
    ⟨i, rfl, hplace, rfl⟩ | ⟨o, rfl, rfl⟩
  · exact h.tick deviceId (hop.2 deviceId rfl)
  · exact h.visit hj hF hF' hplace hvisit
  · exact h.ret hj hplace
  · exact h.table hF fun hc => hop.1 (hc ▸ rfl)

/-- A slot that waits is first called at its tick, in every run. -/
theorem firstCalled_of_waiting (hj : j < slots) (hlt : s.now < F) (hF' : F < 2 ^ 31)
    (h : Waiting j g F s) : FirstCalled s j g F := by
  have hF : 0 < F := Nat.zero_lt_of_lt hlt
  have hstart : FirstInv s.calls j g F s :=
    ⟨fun _ => h, [], (List.append_nil _).symm, fun _ => List.forall_mem_nil _,
      fun hp => absurd hp.1 hlt.ne⟩
  intro ops s' hr
  have hstep : ∀ u op v, FirstInv s.calls j g F u →
      (handlerSystem.restrict (Undisturbed g)).guard u op →
      (handlerSystem.restrict (Undisturbed g)).step u op = some v → FirstInv s.calls j g F v :=
    fun u op v hi hg hs => hi.step hj hF hF' hg.2 hs
  exact (hr.of_step hstep hstart).calls

/-! ## A timer that is replaced -/

/-- The slot that is given to the new timer. -/
def newSlot (t : Timing) (f name : ℕ) (d r : BitVec 32) (g : Handler) : ℕ :=
  (timingRegisterTimer (timingDeregisterTimer t (.fn f)) name d g r).2

/-- The table after the handler `f` has deregistered itself and registered `g`. -/
def replaced (t : Timing) (f name : ℕ) (d r : BitVec 32) (g : Handler) : Timing :=
  (timingRegisterTimer (timingDeregisterTimer t (.fn f)) name d g r).1

/-- The timer of the slot `i` is due, and its handler `f` replaces itself by `g`. -/
structure Replaces (s s' : HandlerRun) (i f name : ℕ) (d r : BitVec 32) (g : Handler) : Prop where
  place : s.place = .loop i
  lt : i < slots
  due : (s.timing.handlers i).due s.timing.timerHi = true
  handler : (s.timing.handlers i).handler = .fn f
  run : handlerSystem.Run s
      [.visit, .table (.deregister (.fn f)), .table (.register name d g r), .ret] s'

/-- The timers after the return of the handler. -/
theorem Replaces.eq (h : Replaces s s' i f name d r g) :
    s'.timing = rearm (replaced s.timing f name d r g) i ∧ s'.place = nextPlace i := by
  obtain ⟨hplace, -, hdue, hf, hrun⟩ := h
  obtain ⟨u, hvisit, hrest⟩ : ∃ u, s.visit i = some u ∧
      handlerSystem.Run u [.table (.deregister (.fn f)), .table (.register name d g r),
        .ret] s' := by
    rcases hrun with _ | ⟨-, hs, hrest⟩
    rcases handler_step_cases hs with ⟨_, hc, -⟩ | ⟨k, -, hk, hvisit⟩ | ⟨_, hc, -⟩ | ⟨_, hc, -⟩
    · cases hc
    · cases hk.symm.trans hplace
      exact ⟨_, hvisit, hrest⟩
    · cases hc
    · cases hc
  rw [visit_due hdue] at hvisit
  obtain ⟨-, ⟨hreaper, -⟩ | ⟨-, htiming, hhandler⟩⟩ := callSlot_cases hvisit
  · cases hf.symm.trans hreaper
  · -- the two calls of the handler, and its return
    rcases hrest with _ | ⟨-, hs₁, _ | ⟨-, hs₂, _ | ⟨-, hs₃, _ | _⟩⟩⟩
    obtain rfl := Option.some.inj hs₁
    obtain rfl := Option.some.inj hs₂
    rcases handler_step_cases hs₃ with ⟨_, hc, -⟩ | ⟨_, hc, -⟩ | ⟨k, -, hk, rfl⟩ | ⟨_, hc, -⟩
    · cases hc
    · cases hc
    · cases hk.symm.trans hhandler
      refine ⟨?_, rfl⟩
      rw [← htiming]
      rfl
    · cases hc

theorem Replaces.timerHi_eq (h : Replaces s s' i f name d r g) :
    s'.timing.timerHi = s.timing.timerHi := by
  rw [h.eq.1, rearm_timerHi]
  exact (TableOp.apply_timerHi (.register name d g r) _).trans
    (TableOp.apply_timerHi (.deregister (.fn f)) _)

theorem Replaces.now_eq (h : Replaces s s' i f name d r g) : s'.now = s.now :=
  congrArg BitVec.toNat h.timerHi_eq

theorem Replaces.place_cases (h : Replaces s s' i f name d r g) :
    s'.place = .idle ∨ ∃ k < slots, s'.place = .loop k := by
  rw [h.eq.2]
  exact (nextPlace_cases i).imp_right fun hc => ⟨i + 1, hc.1, hc.2⟩

/-- The new timer is given the slot of the handler exactly if no slot before it is free, or
    holds the handler too. -/
theorem replaced_slot (hi : i < slots) (hf : (t.handlers i).handler = .fn f) :
    ∃ j < slots, newSlot t f name d r g = j ∧
      (replaced t f name d r g).handlers j = ⟨name, d + t.timerHi, r, j, g⟩ ∧
      (∀ k, k ≠ j → (replaced t f name d r g).handlers k =
        (timingDeregisterTimer t (.fn f)).handlers k) ∧
      (j = i ↔ ¬∃ k < i, (t.handlers k).fireTick = 0 ∨ (t.handlers k).handler = .fn f) := by
  obtain ⟨k, hk, hkf, hfirst, hderegister⟩ := (timingDeregisterTimer_cases t (.fn f)).resolve_right
    fun hc => hc.1 (fun hnull => nomatch hnull) i hi hf
  have hki : k ≤ i := Nat.not_lt.1 fun hlt => hfirst i hlt hf
  -- the slots that are free after the deregistration
  have hfree : ∀ m, ((timingDeregisterTimer t (.fn f)).handlers m).fireTick = 0 ↔
      m = k ∨ (t.handlers m).fireTick = 0 := by
    intro m
    rw [hderegister]
    by_cases hmk : m = k
    · rw [hmk, Timing.set_self]
      exact iff_of_true rfl (.inl rfl)
    · rw [t.set_of_ne _ hmk]
      exact (or_iff_right hmk).symm
  obtain ⟨j, hj, hj₀, hmin, hregister⟩ :=
    @register_first (timingDeregisterTimer t (.fn f)) name d r g ⟨k, hk, (hfree k).2 (.inl rfl)⟩
  have htick : (timingDeregisterTimer t (.fn f)).timerHi = t.timerHi :=
    TableOp.apply_timerHi (.deregister (.fn f)) t
  refine ⟨j, hj, congrArg Prod.snd hregister, ?_, fun m hm => ?_, ?_⟩
  · rw [replaced, hregister, Timing.set_self, htick]
  · rw [replaced, hregister, Timing.set_of_ne _ _ hm]
  · have hjk : j ≤ k := Nat.not_lt.1 fun hlt => hmin k hlt ((hfree k).2 (.inl rfl))
    constructor
    · rintro rfl ⟨m, hm, hm₀ | hmf⟩
      · exact hmin m hm ((hfree m).2 (.inr hm₀))
      · exact hfirst m (by omega) hmf
    · intro hnone
      rcases hjk.lt_or_eq with hlt | rfl
      · have hj₀' := ((hfree j).1 hj₀).resolve_left hlt.ne
        exact absurd ⟨j, by omega, .inl hj₀'⟩ hnone
      · refine hki.eq_of_not_lt fun hlt => hnone ⟨j, hlt, .inr hkf⟩

theorem NoNullHandler.deregister (hnull : NoNullHandler t) (h : Handler) :
    NoNullHandler (timingDeregisterTimer t h) := by
  intro k hk hkn
  rcases timingDeregisterTimer_cases t h with ⟨i, -, -, -, heq⟩ | ⟨-, heq⟩
  · rw [heq] at hkn ⊢
    by_cases hki : k = i
    · rw [hki, Timing.set_self]
    · rw [t.set_of_ne _ hki] at hkn ⊢
      exact hnull k hk hkn
  · rw [heq] at hkn ⊢
    exact hnull k hk hkn

/-! ## Ticks to come -/

/-- The steps of `cyclic_tasks` itself do not disturb a timer. -/
theorem undisturbed_of_inTick {op : HandlerOp} (hop : op.InTick) (s : HandlerRun) :
    Undisturbed g s op := by
  cases op with
  | tick deviceId => exact hop.elim
  | visit => exact ⟨(fun hc => nomatch hc), fun _ hc => nomatch hc⟩
  | ret => exact ⟨(fun hc => nomatch hc), fun _ hc => nomatch hc⟩
  | table op => exact hop.elim

/-- A tick can be brought to its end. -/
theorem exists_idle (hnull : NoNullHandler s.timing)
    (hplace : s.place = .idle ∨ ∃ i < slots, s.place = .loop i) :
    ∃ ops s', (handlerSystem.restrict (Undisturbed g)).Run s ops s' ∧ s'.place = .idle ∧
    s'.now = s.now ∧
      NoNullHandler s'.timing := by
  obtain ⟨t, p, cs⟩ := s
  rcases hplace with hidle | ⟨i, hi, hloop⟩
  · exact ⟨[], _, .nil _, hidle, rfl, hnull⟩
  · obtain rfl : p = .loop i := hloop
    obtain ⟨ops, t', new, hin, hrun, hnull', htick⟩ :=
      hnull.run_to_idle (show i + (slots - i - 1 + 1) = slots by omega) cs
    exact ⟨ops, _, hrun.restrict fun op hop s => undisturbed_of_inTick (hin op hop) s, rfl,
      congrArg BitVec.toNat htick, hnull'⟩

/-- Every tick below `2 ^ 31` can come. -/
theorem exists_later (hnull : NoNullHandler s.timing)
    (hplace : s.place = .idle ∨ ∃ i < slots, s.place = .loop i) (n : ℕ) (hn : s.now + n < 2 ^ 31) :
    ∃ ops s', (handlerSystem.restrict (Undisturbed g)).Run s ops s' ∧ s'.place = .idle ∧
    s'.now = s.now + n ∧
      NoNullHandler s'.timing := by
  induction n with
  | zero => exact exists_idle hnull hplace
  | succ n ih =>
    obtain ⟨ops, u, hrun, hidle, hnow, hnull'⟩ := ih (by omega)
    have htick : u.tick u.timing.device = { u with
        timing := { u.timing with timerHi := u.timing.timerHi + 1, timerLow := _ }, place :=
          .loop 0 } := if_pos rfl
    have hnow' : (u.tick u.timing.device).now = u.now + 1 := by
      rw [htick, HandlerRun.now, BitVec.toNat_add]
      exact Nat.mod_eq_of_lt (show u.now + 1 < 2 ^ 32 by omega)
    have hnull'' : NoNullHandler (u.tick u.timing.device).timing := by
      rw [htick]
      exact hnull'
    obtain ⟨ops', s', hrun', hidle', hnow'', hend⟩ :=
      @exists_idle (u.tick u.timing.device) g hnull'' (.inr ⟨0, by decide, by rw [htick]⟩)
    have hstep : (handlerSystem.restrict (Undisturbed g)).Run u [.tick u.timing.device]
        (u.tick u.timing.device) :=
      .cons ⟨hidle, (fun hc => nomatch hc), fun _ _ => by omega⟩ rfl (.nil _)
    refine ⟨_, s', (hrun.append hstep).append hrun', hidle', ?_, hend⟩
    rw [hnow'', hnow', hnow]
    rfl

/-- A slot is first called at one tick. -/
theorem FirstCalled.unique {F' : ℕ} (h : FirstCalled s j g F) (h' : FirstCalled s j g F')
    (hnull : NoNullHandler s.timing) (hplace : s.place = .idle ∨ ∃ i < slots, s.place = .loop i)
    (hlt : s.now < F) (hlt' : s.now < F') (hF : F < 2 ^ 31) (hF' : F' < 2 ^ 31) : F = F' := by
  have hle : ∀ {A B : ℕ}, FirstCalled s j g A → FirstCalled s j g B → s.now < A → A < 2 ^ 31 →
      ¬A < B := by
    intro A B hA hB hlt hA' hAB
    -- at the end of the tick `A`, the slot has been called, and has not
    obtain ⟨ops, s', hrun, hidle, hnow, -⟩ := @exists_later s g hnull hplace (A - s.now) (by omega)
    have hnow' : s'.now = A := by omega
    obtain ⟨new, hcalls, -, hone⟩ := hA ops s' hrun
    obtain ⟨new', hcalls', hnone, -⟩ := hB ops s' hrun
    obtain rfl := List.append_cancel_left (hcalls.symm.trans hcalls')
    have hpast : s'.JustPast A j := ⟨hnow', by rw [hidle]; trivial⟩
    have hmem : ⟨BitVec.ofNat 32 A, j, g⟩ ∈ new.filter fun c => c.slot = j := by
      rw [hone hpast]
      exact List.mem_singleton_self _
    exact hnone (.inl (hnow' ▸ hAB)) _ (List.mem_of_mem_filter hmem) rfl
  exact le_antisymm (Nat.not_lt.1 (hle h' h hlt' hF')) (Nat.not_lt.1 (hle h h' hlt hF))

/-! ## Replacing a timer -/

/-- The tick that a slot is set to. -/
theorem HandlerRun.toNat_add {x : BitVec 32} (hx : s.now + x.toNat < 2 ^ 31) :
    (x + s.timing.timerHi).toNat = s.now + x.toNat := by
  rw [BitVec.toNat_add, HandlerRun.now, Nat.add_comm]
  exact Nat.mod_eq_of_lt (Nat.lt_trans hx (by decide))

/-- The slot of the new timer, once it is set to the tick `F`. -/
theorem Replaces.firstCalled (h : Replaces s s' i f name d r g) (hj : j < slots)
    (hhandler : ((replaced s.timing f name d r g).handlers j).handler = g)
    (hfire : ((rearm (replaced s.timing f name d r g) i).handlers j).fireTick.toNat = F)
    (hlt : s.now < F) (hF : F < 2 ^ 31) : FirstCalled s' j g F := by
  obtain ⟨htiming, hplace⟩ := h.eq
  refine firstCalled_of_waiting hj (h.now_eq.trans_lt hlt) hF ⟨?_, ?_, ?_⟩
  · rw [htiming, hfire]
  · rw [htiming, rearm_handler, hhandler]
  · rw [hplace]
    exact nextPlace_ne_handler i

/-- In a slot of its own, or without a rate, the new timer keeps its delay. -/
theorem Replaces.keeps_delay (h : Replaces s s' i f name d r g) (hd : 1 ≤ d.toInt)
    (hdt : s.now + d.toNat < 2 ^ 31)
    (hkept : (∃ k < i, (s.timing.handlers k).fireTick = 0 ∨ (s.timing.handlers k).handler = .fn f) ∨
      r = 0) : FirstCalled s' (newSlot s.timing f name d r g) g (s.now + d.toNat) := by
  obtain ⟨j, hj, hslot, hnew, -, hself⟩ := @replaced_slot s.timing g i f name d r h.lt h.handler
  have hd' := (toNat_of_one_le hd).1
  rw [hslot]
  refine h.firstCalled hj (by rw [hnew]) ?_ (by omega) hdt
  have hset : (rearm (replaced s.timing f name d r g) i).handlers j =
      (replaced s.timing f name d r g).handlers j := by
    by_cases hji : j = i
    · have hr : r = 0 := hkept.resolve_left (hself.1 hji)
      subst hji
      rw [rearm_of_not_repeat (by rw [hnew]; exact hr)]
    · exact rearm_of_ne hji
  rw [hset, hnew]
  exact HandlerRun.toNat_add hdt

/-- In the slot of the handler, the new timer waits for its rate. -/
theorem Replaces.waits_rate (h : Replaces s s' i f name d r g)
    (hnone : ¬∃ k < i, (s.timing.handlers k).fireTick = 0 ∨ (s.timing.handlers k).handler = .fn f)
    (hr : r ≠ 0) (hrt : s.now + r.toNat < 2 ^ 31) :
    FirstCalled s' (newSlot s.timing f name d r g) g (s.now + r.toNat) := by
  obtain ⟨j, hj, hslot, hnew, -, hself⟩ := @replaced_slot s.timing g i f name d r h.lt h.handler
  obtain rfl := hself.2 hnone
  have hr' : 0 < r.toNat := Nat.pos_of_ne_zero fun h₀ => hr (BitVec.eq_of_toNat_eq h₀)
  have htick : (replaced s.timing f name d r g).timerHi = s.timing.timerHi := by
    rw [← h.timerHi_eq, h.eq.1, rearm_timerHi]
  rw [hslot]
  refine h.firstCalled hj (by rw [hnew]) ?_ (by omega) hrt
  rw [rearm_self (by rw [hnew]; exact hr), hnew, htick]
  dsimp only
  rw [BitVec.add_comm]
  exact HandlerRun.toNat_add hrt

/-- No timer in use has a null handler then. -/
theorem Replaces.noNullHandler (h : Replaces s s' i f name d r g) (hnull : NoNullHandler s.timing)
    (hg : g ≠ .null)
    (hnone : ¬∃ k < i, (s.timing.handlers k).fireTick = 0 ∨ (s.timing.handlers k).handler = .fn f) :
    NoNullHandler s'.timing := by
  obtain ⟨j, hj, -, hnew, hother, hself⟩ := @replaced_slot s.timing g i f name d r h.lt h.handler
  obtain rfl := hself.2 hnone
  intro k hk hkn
  rw [h.eq.1, rearm_handler] at hkn
  by_cases hkj : k = j
  · rw [hkj, hnew] at hkn
    exact absurd hkn hg
  · rw [hother k hkj] at hkn
    rw [h.eq.1, rearm_of_ne hkj, hother k hkj]
    exact hnull.deregister (.fn f) k hk hkn

/-- The new timer is first called when its delay is over exactly if it was not given the slot of
    the handler, as one before it is free or holds the handler too, or does not repeat, or
    repeats with its delay. -/
theorem replaced_first_called_iff (h : Replaces s s' i f name d r g)
    (hnull : NoNullHandler s.timing)
    (hg : g ≠ .null) (hd : 1 ≤ d.toInt) (hdt : s.now + d.toNat < 2 ^ 31)
    (hrt : s.now + r.toNat < 2 ^ 31) :
    FirstCalled s' (newSlot s.timing f name d r g) g (s.now + d.toNat) ↔
      (∃ k < i, (s.timing.handlers k).fireTick = 0 ∨ (s.timing.handlers k).handler = .fn f) ∨
      r = 0 ∨ r = d := by
  by_cases hkept : (∃ k < i, (s.timing.handlers k).fireTick = 0 ∨
      (s.timing.handlers k).handler = .fn f) ∨ r = 0
  · exact iff_of_true (h.keeps_delay hd hdt hkept) (or_assoc.1 (.inl hkept))
  · obtain ⟨hnone, hr⟩ := not_or.1 hkept
    have hd' := (toNat_of_one_le hd).1
    have hr' : 0 < r.toNat := Nat.pos_of_ne_zero fun h₀ => hr (BitVec.eq_of_toNat_eq h₀)
    have hcalled := h.waits_rate hnone hr hrt
    have hnow := h.now_eq
    constructor
    · intro hfirst
      have heq := hfirst.unique hcalled (h.noNullHandler hnull hg hnone) h.place_cases (by omega)
        (by omega) hdt hrt
      exact .inr (.inr (BitVec.eq_of_toNat_eq (by omega)))
    · rintro (hfree | hr₀ | rfl)
      · exact absurd hfree hnone
      · exact absurd hr₀ hr
      · exact hcalled

/-- The first tick, at the visit of the slot 1, whose timer is due. -/
def firstVisit : HandlerRun := ⟨(oneShot.tick 0).timing, .loop 1, []⟩

theorem firstVisit_one : firstVisit.timing.handlers 1 = ⟨0, 1, 0, 1, .fn 0⟩ := oneShot_one

theorem firstVisit_due : (firstVisit.timing.handlers 1).due firstVisit.timing.timerHi = true := by
  rw [firstVisit_one]
  decide

theorem firstVisit_noNull : NoNullHandler firstVisit.timing := by
  intro k _ hk
  have hne : k ≠ 1 := by
    rintro rfl
    rw [firstVisit_one] at hk
    cases hk
  rcases (oneShot_of_ne hne).2 with heq | hfree
  · cases hk.symm.trans (congrArg Timer.handler heq)
  · exact hfree

theorem firstVisit_replaces (r : BitVec 32) : ∃ s', Replaces firstVisit s' 1 0 0 10 r (.fn 1) :=
  ⟨_, rfl, by decide, firstVisit_due, congrArg Timer.handler firstVisit_one,
    .cons ⟨1, rfl⟩ rfl (.cons ⟨.inr ⟨1, rfl⟩, fun _ hc => nomatch hc⟩ rfl
      (.cons ⟨.inr ⟨1, rfl⟩, fun _ hc => nomatch hc⟩ rfl (.cons ⟨1, rfl⟩ rfl (.nil _))))⟩

/-- A new timer that does not repeat is first called when its delay of ten ticks is over. -/
theorem replaced_first_called_firstVisit : ∃ s', Replaces firstVisit s' 1 0 0 10 0 (.fn 1) ∧
    FirstCalled s' (newSlot firstVisit.timing 0 0 10 0 (.fn 1)) (.fn 1) 11 := by
  obtain ⟨s', h⟩ := firstVisit_replaces 0
  exact ⟨s', h, (replaced_first_called_iff h firstVisit_noNull (by decide) (by decide) (by decide)
    (by decide)).2 (.inr (.inl rfl))⟩

/-- One that repeats every three ticks is called after three ticks. -/
theorem replaced_called_early :
    ¬∀ (s s' : HandlerRun) (i f name : ℕ) (d r : BitVec 32) (g : Handler),
    Replaces s s' i f name d r g → NoNullHandler s.timing → g ≠ .null → 1 ≤ d.toInt →
    s.now + d.toNat < 2 ^ 31 → s.now + r.toNat < 2 ^ 31 →
    FirstCalled s' (newSlot s.timing f name d r g) g (s.now + d.toNat) := by
  intro hall
  obtain ⟨s', h⟩ := firstVisit_replaces 3
  have hnone : ¬∃ k < 1, (firstVisit.timing.handlers k).fireTick = 0 ∨
      (firstVisit.timing.handlers k).handler = .fn 0 := by
    rintro ⟨k, hk, hfree⟩
    obtain rfl : k = 0 := by omega
    rcases hfree with hfree | hfree
    · exact absurd hfree (by decide)
    · exact (oneShot_of_ne zero_ne_one).1 hfree
  have hdelay := hall _ _ _ _ _ _ _ _ h firstVisit_noNull (by decide) (by decide) (by decide)
    (by decide)
  have hrate := h.waits_rate hnone (by decide) (by decide)
  have hnow : s'.now = 1 := h.now_eq
  have heq := hdelay.unique hrate (h.noNullHandler firstVisit_noNull (by decide) hnone)
    h.place_cases (by rw [hnow]; decide) (by rw [hnow]; decide) (by decide) (by decide)
  exact absurd heq (by decide)

end Beryllium

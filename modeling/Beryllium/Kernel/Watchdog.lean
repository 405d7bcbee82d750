import Beryllium.Machine.System
import Mathlib.Algebra.Ring.Nat
import Mathlib.Data.List.Induction
import Mathlib.Order.Basic

/-!
# The watchdog

`kernel/wd.c`: the main loop notifies the watchdog, which counts the notifications while it is
enabled, and a timer evaluates it: without a change of the count, it counts a hang-up, and
with too many of these it ends the system with a panic.

Only the notifications are turned off with the watchdog, the evaluations are not. The counts are
described by the history of the calls (`Tracks`): two of them are equal if the notifications
counted since the last evaluation are a multiple of `2 ^ 32`. So an evaluation is
harmless as it should be unless it is the second one of a disabled watchdog, or the count has
come round (`watchdog_harmless`). As long as it is enabled, both counts of hang-ups are that of the
evaluations without a notification before them (`watchdog_counts_idle`).
-/

namespace Beryllium

open Machine

/-! ## The code -/

/-- The globals of `kernel/wd.c`. The notifications are counted by an `int`, which wraps around. -/
structure Watchdog where
  kmain : BitVec 32
  kmainO : BitVec 32
  kmainHangups : ℕ
  totalHangups : ℕ
  enabled : ℤ

/-- `WD_HU_LIMIT` -/
def wdHuLimit : ℕ := 0x500

/-- `WD_HU_LIMIT_KMAIN` -/
def wdHuLimitKmain : ℕ := 200

/-- `WD_NOTIFY_KMAIN` -/
def wdNotifyKmain : ℤ := 0x10

/-- The initial values. -/
def wdStart : Watchdog := ⟨0, 0, 0, 0, 1⟩

/-- `wd_disable` -/
def wdDisable (s : Watchdog) : Watchdog := { s with enabled := 0 }

/-- `wd_enable` -/
def wdEnable (s : Watchdog) : Watchdog := { s with enabled := 1 }

/-- `wd_notify` -/
def wdNotify (s : Watchdog) (source : ℤ) : Watchdog :=
  if s.enabled = 0 then s
  else if source = wdNotifyKmain then { s with kmain := s.kmain + 1 }
  else s

/-- `wd_evaluate`: `none` if it calls `panic`, which does not return. -/
def wdEvaluate (s : Watchdog) : Option Watchdog :=
  let s :=
    if s.kmain = s.kmainO then
      { s with totalHangups := s.totalHangups + 1, kmainHangups := s.kmainHangups + 1 }
    else s
  if s.totalHangups > wdHuLimit then none
  else if s.kmainHangups > wdHuLimitKmain then none
  else some { s with kmainO := s.kmain }

/-- The calls, from the main loop and from the timer. -/
inductive WdOp
  | notify (source : ℤ)
  | evaluate
  | disable
  | enable
  deriving DecidableEq

/-- The calls in any order. -/
def wdSystem : System Watchdog WdOp where
  init s := s = wdStart
  guard _ _ := True
  step
    | s, .notify source => some (wdNotify s source)
    | s, .evaluate => wdEvaluate s
    | s, .disable => some (wdDisable s)
    | s, .enable => some (wdEnable s)

/-! ## The history of the calls -/

/-- What the calls so far amount to: if the watchdog is enabled, and how many notifications it has
    counted since the last evaluation. -/
structure WdHistory where
  enabled : Bool
  counted : ℕ

namespace WdHistory

/-- One call more. -/
def step (h : WdHistory) : WdOp → WdHistory
  | .notify source =>
    if h.enabled ∧ source = wdNotifyKmain then { h with counted := h.counted + 1 } else h
  | .evaluate => { h with counted := 0 }
  | .disable => { h with enabled := false }
  | .enable => { h with enabled := true }

/-- The history of the calls `ops`. -/
def of (ops : List WdOp) : WdHistory := ops.foldl step ⟨true, 0⟩

end WdHistory

/-- The main loop has notified since the last `wd_enable`, and there was no evaluation after it. -/
def NotifiedSinceEnable (ops : List WdOp) : Prop :=
  ∃ pre mid, ops = pre ++ .enable :: mid ∧ .enable ∉ mid ∧ .evaluate ∉ mid ∧
    .notify wdNotifyKmain ∈ mid

/-- A state with the history `h`: the counter is ahead of the old value by the notifications
    counted, and the hang-ups are in their limits. -/
structure Tracks (s : Watchdog) (h : WdHistory) : Prop where
  enabled : s.enabled = 0 ↔ h.enabled = false
  kmain : s.kmain = s.kmainO + BitVec.ofNat 32 h.counted
  kmain_le : s.kmainHangups ≤ wdHuLimitKmain
  total_le : s.totalHangups ≤ wdHuLimit

variable {s s' : Watchdog} {h : WdHistory} {ops : List WdOp}

/-- The counter has its old value if it has come round. -/
theorem Tracks.kmain_eq_iff (ht : Tracks s h) : s.kmain = s.kmainO ↔ 4294967296 ∣ h.counted := by
  rw [ht.kmain, BitVec.add_right_eq_self, ← BitVec.toNat_inj, BitVec.toNat_ofNat,
    BitVec.toNat_ofNat, Nat.zero_mod, Nat.dvd_iff_mod_eq_zero]

/-- An evaluation without a hang-up. -/
theorem wdEvaluate_of_ne (hne : s.kmain ≠ s.kmainO) (hk : s.kmainHangups ≤ wdHuLimitKmain)
    (htotal : s.totalHangups ≤ wdHuLimit) : wdEvaluate s = some { s with kmainO := s.kmain } := by
  simp only [wdEvaluate, if_neg hne]
  rw [if_neg (Nat.not_lt.2 htotal), if_neg (Nat.not_lt.2 hk)]

/-- An evaluation with a hang-up, if it returns. -/
theorem wdEvaluate_of_eq (heq : s.kmain = s.kmainO) (hs : wdEvaluate s = some s') :
    s' = { s with totalHangups := s.totalHangups + 1, kmainHangups := s.kmainHangups + 1 } ∧
      s.totalHangups + 1 ≤ wdHuLimit ∧ s.kmainHangups + 1 ≤ wdHuLimitKmain := by
  simp only [wdEvaluate, if_pos heq] at hs
  split_ifs at hs with h₁ h₂
  obtain rfl := Option.some.inj hs
  exact ⟨by rw [heq], Nat.not_lt.1 h₁, Nat.not_lt.1 h₂⟩

/-- Every call keeps the state in step with the history. -/
theorem Tracks.step {op : WdOp} (ht : Tracks s h) (hs : wdSystem.step s op = some s') :
    Tracks s' (h.step op) := by
  cases op with
  | notify source =>
    obtain rfl : wdNotify s source = s' := Option.some.inj hs
    rw [wdNotify, WdHistory.step]
    by_cases he : s.enabled = 0
    · -- a disabled watchdog ignores it
      rw [if_pos he, if_neg (by rw [ht.enabled.1 he]; exact fun hn => absurd hn.1 (by decide))]
      exact ht
    · have he' : h.enabled = true := eq_true_of_ne_false (mt ht.enabled.2 he)
      rw [if_neg he]
      by_cases hsource : source = wdNotifyKmain
      · rw [if_pos hsource, if_pos ⟨he', hsource⟩]
        refine ⟨ht.enabled, ?_, ht.kmain_le, ht.total_le⟩
        rw [show s.kmain + 1 = s.kmainO + (BitVec.ofNat 32 h.counted + 1) by
          rw [ht.kmain, BitVec.add_assoc]]
        exact congrArg (s.kmainO + ·) (BitVec.ofNat_add h.counted 1).symm
      · rw [if_neg hsource, if_neg fun hn => hsource hn.2]
        exact ht
  | evaluate =>
    have hs : wdEvaluate s = some s' := hs
    -- either way the counts are equal after it
    by_cases heq : s.kmain = s.kmainO
    · obtain ⟨rfl, htotal, hk⟩ := wdEvaluate_of_eq heq hs
      exact ⟨ht.enabled, by rw [heq]; exact (BitVec.add_zero _).symm, hk, htotal⟩
    · rw [wdEvaluate_of_ne heq ht.kmain_le ht.total_le] at hs
      obtain rfl := Option.some.inj hs
      exact ⟨ht.enabled, (BitVec.add_zero _).symm, ht.kmain_le, ht.total_le⟩
  | disable =>
    obtain rfl : wdDisable s = s' := Option.some.inj hs
    exact ⟨⟨fun _ => rfl, fun _ => rfl⟩, ht.kmain, ht.kmain_le, ht.total_le⟩
  | enable =>
    obtain rfl : wdEnable s = s' := Option.some.inj hs
    exact ⟨⟨fun he => absurd he Int.one_ne_zero, fun he => Bool.noConfusion he⟩, ht.kmain,
      ht.kmain_le, ht.total_le⟩

theorem tracks_of_run (hr : wdSystem.Run wdStart ops s) : Tracks s (WdHistory.of ops) := by
  refine hr.refines (fun s h op s' ht _ hs => Tracks.step ht hs) ⟨?_, ?_, ?_, ?_⟩
  all_goals decide

/-! ## What kmain has notified -/

/-- Without `wd_enable`, a watchdog that is enabled at the end was so before. -/
theorem WdHistory.enabled_of_end {mid : List WdOp} (henable : .enable ∉ mid)
    (hend : (mid.foldl WdHistory.step h).enabled = true) : h.enabled = true := by
  induction mid generalizing h with
  | nil => exact hend
  | cons op mid ih =>
    have hstep := ih (fun hmem => henable (List.mem_cons_of_mem op hmem)) hend
    cases op with
    | notify source =>
      rw [WdHistory.step] at hstep
      split_ifs at hstep <;> exact hstep
    | evaluate => exact hstep
    | disable => exact Bool.noConfusion hstep
    | enable => exact absurd List.mem_cons_self henable

/-- Without an evaluation, what an enabled watchdog has counted stays counted. -/
theorem WdHistory.counted_pos {mid : List WdOp} (henable : .enable ∉ mid) (heval : .evaluate ∉ mid)
    (hend : (mid.foldl WdHistory.step h).enabled = true)
    (hmid : 0 < h.counted ∨ .notify wdNotifyKmain ∈ mid) :
    0 < (mid.foldl WdHistory.step h).counted := by
  induction mid generalizing h with
  | nil => exact hmid.resolve_right List.not_mem_nil
  | cons op mid ih =>
    have henabled := WdHistory.enabled_of_end henable hend
    refine ih (fun hmem => henable (List.mem_cons_of_mem op hmem))
      (fun hmem => heval (List.mem_cons_of_mem op hmem)) hend ?_
    cases op with
    | notify source =>
      rw [WdHistory.step]
      by_cases hsource : source = wdNotifyKmain
      · rw [if_pos ⟨henabled, hsource⟩]
        exact .inl (Nat.succ_pos _)
      · rw [if_neg fun hn => hsource hn.2]
        refine hmid.imp_right fun hmem => (List.mem_cons.1 hmem).resolve_left fun heq => ?_
        exact hsource (WdOp.notify.inj heq).symm
    | evaluate => exact absurd List.mem_cons_self heval
    | disable => exact hmid.imp_right fun hmem => (List.mem_cons.1 hmem).resolve_left (by decide)
    | enable => exact absurd List.mem_cons_self henable

theorem NotifiedSinceEnable.counted_pos (hn : NotifiedSinceEnable ops)
    (he : (WdHistory.of ops).enabled = true) : 0 < (WdHistory.of ops).counted := by
  obtain ⟨pre, mid, rfl, henable, heval, hmid⟩ := hn
  rw [WdHistory.of, List.foldl_append, List.foldl_cons] at he ⊢
  exact WdHistory.counted_pos henable heval he (.inr hmid)

/-! ## Harmless evaluations -/

/-- An evaluation in the state `s` neither counts a hang-up nor panics. -/
def NoHangup (s : Watchdog) : Prop :=
  ∃ s', wdEvaluate s = some s' ∧ s'.kmainHangups = s.kmainHangups ∧
    s'.totalHangups = s.totalHangups

theorem Tracks.noHangup_iff (ht : Tracks s h) : NoHangup s ↔ ¬ 4294967296 ∣ h.counted := by
  rw [← ht.kmain_eq_iff]
  constructor
  · rintro ⟨s', hs, hk, -⟩ heq
    obtain ⟨rfl, -⟩ := wdEvaluate_of_eq heq hs
    exact Nat.succ_ne_self _ hk
  · intro hne
    exact ⟨_, wdEvaluate_of_ne hne ht.kmain_le ht.total_le, rfl, rfl⟩

/-- In the calls `ops`, no evaluation of a disabled watchdog counts a hang-up or panics, and neither
    does the first one after `wd_enable` if the main loop has notified since. -/
def Harmless (ops : List WdOp) : Prop :=
  ∀ pre post s, ops = pre ++ .evaluate :: post → wdSystem.Run wdStart pre s →
    s.enabled = 0 ∨ NotifiedSinceEnable pre → NoHangup s

/-- The evaluations are harmless if and only if none is made of a disabled watchdog that has counted
    no notification since the one before, and where it matters the notifications counted are not a
    multiple of `2 ^ 32`. -/
theorem watchdog_harmless (ops : List WdOp) :
    Harmless ops ↔ ∀ pre post s, ops = pre ++ .evaluate :: post → wdSystem.Run wdStart pre s →
      ((WdHistory.of pre).enabled = false → (WdHistory.of pre).counted ≠ 0) ∧
      ((WdHistory.of pre).enabled = false ∨ NotifiedSinceEnable pre →
        (WdHistory.of pre).counted ≠ 0 → ¬ 4294967296 ∣ (WdHistory.of pre).counted) := by
  refine forall_congr' fun pre => forall_congr' fun post => forall_congr' fun s =>
    imp_congr_right fun _ => forall_congr' fun hr => ?_
  have ht := tracks_of_run hr
  rw [ht.enabled, ht.noHangup_iff]
  constructor
  · intro hlaw
    refine ⟨fun he h₀ => hlaw (.inl he) ?_, fun hwhen _ => hlaw hwhen⟩
    rw [h₀]
    exact Nat.dvd_zero _
  · rintro ⟨hdisabled, hwrap⟩ hwhen
    refine hwrap hwhen ?_
    -- an enabled watchdog has counted the notification
    cases he : (WdHistory.of pre).enabled with
    | false => exact hdisabled he
    | true =>
      have hn := hwhen.resolve_left (by rw [he]; decide)
      exact Nat.pos_iff_ne_zero.1 (hn.counted_pos he)

/-- Each evaluation of a disabled watchdog counts a hang-up, up to the limit. -/
theorem run_disabled {n : ℕ} (hn : n ≤ wdHuLimitKmain) :
    wdSystem.Run wdStart (.disable :: List.replicate n .evaluate) ⟨0, 0, n, n, 0⟩ := by
  induction n with
  | zero => exact .cons trivial rfl (.nil _)
  | succ n ih =>
    rw [List.replicate_succ', ← List.cons_append]
    refine (ih (Nat.le_of_succ_le hn)).snoc trivial ?_
    have htotal : n + 1 ≤ wdHuLimit := Nat.le_trans hn (by decide)
    change wdEvaluate ⟨0, 0, n, n, 0⟩ = _
    simp only [wdEvaluate, if_true]
    rw [if_neg (Nat.not_lt.2 htotal), if_neg (Nat.not_lt.2 hn)]

/-- The watchdog is disabled. The first evaluation counts a hang-up, and after two hundred the next
    one panics. -/
theorem watchdog_disabled_panics : ¬ Harmless [.disable, .evaluate] ∧
    ∃ s, wdSystem.Run wdStart (.disable :: List.replicate 200 .evaluate) s ∧ s.enabled = 0 ∧
      wdEvaluate s = none := by
  constructor
  · intro h
    obtain ⟨s', hs, hk, -⟩ := h [.disable] [] (wdDisable wdStart) rfl (.cons trivial rfl (.nil _))
      (.inl rfl)
    obtain rfl := Option.some.inj hs
    exact absurd hk (by decide)
  · exact ⟨_, run_disabled le_rfl, rfl, by decide⟩

/-! ## The hang-ups of an enabled watchdog -/

/-- `wd_evaluate` up to its limits: the hang-up is counted. -/
def wdCount (s : Watchdog) : Watchdog :=
  if s.kmain = s.kmainO then
    { s with totalHangups := s.totalHangups + 1, kmainHangups := s.kmainHangups + 1 }
  else s

/-- The evaluations among the calls `ops` that had no notification since the evaluation before, or
    since the start. -/
def idleEvaluations (ops : List WdOp) : ℕ :=
  ((List.range ops.length).filter fun i =>
    ops[i]? = some .evaluate ∧ (WdHistory.of (ops.take i)).counted = 0).length

/-- Before every evaluation there are fewer than `2 ^ 32` notifications since the evaluation before.
    -/
def FewNotifications (ops : List WdOp) : Prop :=
  ∀ pre post, ops = pre ++ .evaluate :: post → (WdHistory.of pre).counted < 4294967296

theorem wdEvaluate_eq (s : Watchdog) : wdEvaluate s =
    if wdHuLimit < (wdCount s).totalHangups then none
    else if wdHuLimitKmain < (wdCount s).kmainHangups then none
    else some { wdCount s with kmainO := (wdCount s).kmain } := rfl

theorem WdHistory.of_snoc (ops : List WdOp) (op : WdOp) :
    WdHistory.of (ops ++ [op]) = (WdHistory.of ops).step op := by
  rw [WdHistory.of, List.foldl_append]
  rfl

theorem WdHistory.counted_le (ops : List WdOp) : (WdHistory.of ops).counted ≤ ops.length := by
  induction ops using List.reverseRecOn with
  | nil => exact le_rfl
  | append_singleton ops op ih =>
    rw [WdHistory.of_snoc, List.length_append, List.length_singleton]
    cases op with
    | notify source =>
      rw [WdHistory.step]
      split_ifs
      · exact Nat.succ_le_succ ih
      · exact Nat.le_succ_of_le ih
    | evaluate => exact Nat.zero_le _
    | disable => exact Nat.le_succ_of_le ih
    | enable => exact Nat.le_succ_of_le ih

theorem fewNotifications_of_length (h : ops.length ≤ 4294967296) : FewNotifications ops := by
  rintro pre post rfl
  refine (WdHistory.counted_le pre).trans_lt ?_
  rw [List.length_append, List.length_cons] at h
  omega

theorem FewNotifications.of_append {post : List WdOp} (h : FewNotifications (ops ++ post)) :
    FewNotifications ops := by
  rintro pre rest rfl
  refine h pre (rest ++ post) ?_
  rw [List.append_assoc, List.cons_append]

/-- One call more is one idle evaluation more, or none. -/
theorem idleEvaluations_snoc (ops : List WdOp) (op : WdOp) : idleEvaluations (ops ++ [op]) =
    idleEvaluations ops + if op = .evaluate ∧ (WdHistory.of ops).counted = 0 then 1 else 0 := by
  rw [idleEvaluations, List.length_append, List.length_singleton, List.range_succ,
    List.filter_append,
    List.length_append, List.filter_singleton, List.getElem?_concat_length, List.take_left]
  congr 1
  · -- the calls before have the same history
    refine congrArg List.length (List.filter_congr fun i hi => ?_)
    have hi := List.mem_range.1 hi
    rw [List.getElem?_append_left hi, List.take_append_of_le_length hi.le]
  · by_cases h : op = .evaluate ∧ (WdHistory.of ops).counted = 0
    · rw [if_pos h, decide_eq_true ⟨congrArg some h.1, h.2⟩]
      rfl
    · rw [if_neg h, decide_eq_false fun h' => h ⟨Option.some.inj h'.1, h'.2⟩]
      rfl

/-- The counts after an evaluation, or in the one that panics. -/
theorem Tracks.wdCount (ht : Tracks s (WdHistory.of ops))
    (hfew : (WdHistory.of ops).counted < 4294967296)
    (hk : s.kmainHangups = idleEvaluations ops) (htotal : s.totalHangups = idleEvaluations ops) :
    (Beryllium.wdCount s).kmainHangups = idleEvaluations (ops ++ [.evaluate]) ∧
      (Beryllium.wdCount s).totalHangups = idleEvaluations (ops ++ [.evaluate]) := by
  have heq : s.kmain = s.kmainO ↔ (WdHistory.of ops).counted = 0 := by
    rw [ht.kmain_eq_iff, Nat.dvd_iff_mod_eq_zero, Nat.mod_eq_of_lt hfew]
  rw [idleEvaluations_snoc, Beryllium.wdCount]
  by_cases h : s.kmain = s.kmainO
  · rw [if_pos h, if_pos ⟨rfl, heq.1 h⟩, ← hk]
    exact ⟨rfl, congrArg (· + 1) (htotal.trans hk.symm)⟩
  · rw [if_neg h, if_neg fun hidle => h (heq.2 hidle.2)]
    exact ⟨hk, htotal⟩

/-- The calls of an enabled watchdog: the main loop notifies, and the timer evaluates. -/
def EnabledCalls (ops : List WdOp) : Prop := ∀ op ∈ ops, op = .notify wdNotifyKmain ∨ op = .evaluate

theorem EnabledCalls.of_append {post : List WdOp} (h : EnabledCalls (ops ++ post)) :
    EnabledCalls ops :=
  fun op hop => h op (List.mem_append_left _ hop)

/-- In every run of an enabled watchdog both counts are that of the idle evaluations. -/
theorem hangups_of_run (hops : EnabledCalls ops) (hfew : FewNotifications ops)
    (hr : wdSystem.Run wdStart ops s) :
    s.kmainHangups = idleEvaluations ops ∧ s.totalHangups = idleEvaluations ops := by
  induction ops using List.reverseRecOn generalizing s with
  | nil =>
    cases hr
    exact ⟨rfl, rfl⟩
  | append_singleton ops op ih =>
    obtain ⟨t, hrun, -, hs⟩ := hr.of_snoc
    obtain ⟨hk, htotal⟩ := ih hops.of_append hfew.of_append hrun
    rcases hops op (List.mem_append_right _ (List.mem_singleton_self op)) with rfl | rfl
    · -- a notification leaves the hang-ups as they are
      obtain rfl : wdNotify t wdNotifyKmain = s := Option.some.inj hs
      rw [idleEvaluations_snoc, if_neg fun h => WdOp.noConfusion h.1, wdNotify]
      split_ifs <;> exact ⟨hk, htotal⟩
    · have hcount := (tracks_of_run hrun).wdCount (hfew ops [] rfl) hk htotal
      have hs : wdEvaluate t = some s := hs
      rw [wdEvaluate_eq] at hs
      split_ifs at hs
      obtain rfl := Option.some.inj hs
      exact hcount

/-- An evaluation panics exactly if it is the one that raises the count to 201. -/
theorem wdEvaluate_eq_none_iff (hops : EnabledCalls ops)
    (hfew : FewNotifications (ops ++ [.evaluate])) (hr : wdSystem.Run wdStart ops s) :
    (wdEvaluate s = none ↔ idleEvaluations (ops ++ [.evaluate]) = wdHuLimitKmain + 1) ∧
      ¬ wdHuLimit < (wdCount s).totalHangups := by
  obtain ⟨hk, htotal⟩ := hangups_of_run hops hfew.of_append hr
  have ht := tracks_of_run hr
  obtain ⟨hk', htotal'⟩ := ht.wdCount (hfew ops [] rfl) hk htotal
  -- the count was in the limit before, so it is at most one above it
  have hle : idleEvaluations (ops ++ [.evaluate]) ≤ wdHuLimitKmain + 1 := by
    have := ht.kmain_le
    rw [idleEvaluations_snoc]
    split_ifs <;> omega
  have hlimit : ¬ wdHuLimit < (wdCount s).totalHangups := by
    rw [htotal', Nat.not_lt]
    exact hle.trans (by decide)
  refine ⟨?_, hlimit⟩
  rw [wdEvaluate_eq, if_neg hlimit, hk']
  by_cases h : wdHuLimitKmain < idleEvaluations (ops ++ [.evaluate])
  · rw [if_pos h]
    exact iff_of_true rfl (le_antisymm hle h)
  · rw [if_neg h]
    exact iff_of_false (Option.some_ne_none _) (by omega)

/-- The system does not panic as long as the count stays in the limit. -/
theorem exists_enabledRun_iff (hops : EnabledCalls ops) (hfew : FewNotifications ops) :
    (∃ s, wdSystem.Run wdStart ops s) ↔ idleEvaluations ops ≤ 200 := by
  constructor
  · rintro ⟨s, hr⟩
    rw [← (hangups_of_run hops hfew hr).1]
    exact (tracks_of_run hr).kmain_le
  · intro hle
    induction ops using List.reverseRecOn with
    | nil => exact ⟨_, .nil _⟩
    | append_singleton ops op ih =>
      have hsnoc := idleEvaluations_snoc ops op
      obtain ⟨s, hr⟩ := ih hops.of_append hfew.of_append (by omega)
      rcases hops op (List.mem_append_right _ (List.mem_singleton_self op)) with rfl | rfl
      · exact ⟨_, hr.snoc trivial rfl⟩
      · have hne : wdEvaluate s ≠ none := fun hnone => by
          rw [(wdEvaluate_eq_none_iff hops.of_append hfew hr).1.1 hnone] at hle
          exact absurd hle (by decide)
        obtain ⟨s', hs⟩ := Option.ne_none_iff_exists'.1 hne
        exact ⟨s', hr.snoc trivial hs⟩

/-- In every run of an enabled watchdog with fewer than `2 ^ 32` notifications between two
    evaluations, the hang-ups counted are the idle evaluations, and the system panics at the
    evaluation that raises their count to 201 and at no other one; the limit of all hang-ups is not
    reached. -/
theorem watchdog_counts_idle (ops : List WdOp) (hops : EnabledCalls ops)
    (hfew : FewNotifications ops) : (∀ pre post, ops = pre ++ post →
      ((∃ s, wdSystem.Run wdStart pre s) ↔ idleEvaluations pre ≤ 200) ∧
      ∀ s, wdSystem.Run wdStart pre s →
        s.kmainHangups = idleEvaluations pre ∧ s.totalHangups = idleEvaluations pre) ∧
    ∀ pre post s, ops = pre ++ .evaluate :: post → wdSystem.Run wdStart pre s →
      (wdEvaluate s = none ↔ idleEvaluations (pre ++ [.evaluate]) = 201) ∧
      (wdCount s).kmainHangups = idleEvaluations (pre ++ [.evaluate]) ∧
      (wdCount s).totalHangups = idleEvaluations (pre ++ [.evaluate]) ∧
      ¬ wdHuLimit < (wdCount s).totalHangups := by
  refine ⟨?_, ?_⟩
  · rintro pre post rfl
    refine ⟨exists_enabledRun_iff hops.of_append hfew.of_append, fun s hr => ?_⟩
    exact hangups_of_run hops.of_append hfew.of_append hr
  · rintro pre post s rfl hr
    have hops : EnabledCalls pre := hops.of_append
    have hfew : FewNotifications ((pre ++ [.evaluate]) ++ post) := by rwa [List.append_assoc]
    replace hfew := hfew.of_append
    obtain ⟨hnone, hlimit⟩ := wdEvaluate_eq_none_iff hops hfew hr
    obtain ⟨hk, htotal⟩ := hangups_of_run hops hfew.of_append hr
    obtain ⟨hk', htotal'⟩ := (tracks_of_run hr).wdCount (hfew pre [] rfl) hk htotal
    exact ⟨hnone, hk', htotal', hlimit⟩

/-- An idle evaluation, and one after a notification. -/
theorem watchdog_counts_one :
    ∃ s, wdSystem.Run wdStart [.evaluate, .notify wdNotifyKmain, .evaluate] s ∧
    s.kmainHangups = 1 ∧ s.totalHangups = 1 := by
  have hops : EnabledCalls [.evaluate, .notify wdNotifyKmain, .evaluate] := by simp [EnabledCalls]
  have hcounts := watchdog_counts_idle _ hops (fewNotifications_of_length (by decide))
  obtain ⟨hreturns, hstate⟩ := hcounts.1 _ [] (List.append_nil _).symm
  obtain ⟨s, hr⟩ := hreturns.2 (by decide)
  exact ⟨s, hr, hstate s hr⟩

end Beryllium

import Beryllium.Machine.DList
import Beryllium.Machine.RoundRobin
import Beryllium.Machine.System
import Mathlib.Logic.Function.Basic

/-!
# The scheduler

The queue of threads of `kernel/scheduler.c`. Its items come from `malloc`, which hands out
addresses that are not in use. The walk to the end of the queue, a loop in the source, has fuel,
more than there are addresses.

The queue with its current item is a `Rotation`: an update is a turn, an added thread a new entry
(`Schedules`). From this the scheduler is round robin (`scheduler_round_robin`).
-/

namespace Beryllium

open Machine

/-! ## The scheduler -/

/-- `tlist_t` -/
structure TList where
  next : ℕ
  thread : ℕ

/-- The globals of `scheduler.c`, and the items of the queue. -/
structure Scheduler where
  node : ℕ → TList
  tqueue : ℕ
  tcurrent : ℕ
  schedulerState : ℕ

/-- `scheduler_init`, with the item that `malloc` returns. -/
def schedulerInit (s : Scheduler) (item firstThread : ℕ) : Scheduler :=
  { s with
    node := Function.update s.node item ⟨0, firstThread⟩
    tqueue := item
    tcurrent := item }

/-- `scheduler_update`, with the message it logs. -/
def schedulerUpdate (s : Scheduler) : Scheduler × Option String :=
  if s.schedulerState = 0 then (s, none)
  else
    let tcurrent := (s.node s.tcurrent).next
    let tcurrent := if tcurrent = 0 then s.tqueue else tcurrent
    ({ s with tcurrent },
      if (s.node tcurrent).thread = 0 then
        some "Tried to execute a null thread, trying again!\n"
      else none)

/-- The item without a next one that a walk from `test` comes to. -/
def lastItem (node : ℕ → TList) : ℕ → ℕ → Option ℕ
  | 0, _ => none
  | fuel + 1, test =>
    if (node test).next ≠ 0 then lastItem node fuel (node test).next else some test

/-- More rounds than there are addresses. -/
def schedulerFuel : ℕ := 4294967297

/-- `scheduler_add_thread`, with the item that `malloc` returns. -/
def schedulerAddThread (s : Scheduler) (threadItem thread : ℕ) : Option Scheduler := do
  let node := Function.update s.node threadItem ⟨0, thread⟩
  let test ← lastItem node schedulerFuel s.tqueue
  some { s with
    node := Function.update node test { node test with next := threadItem }
    schedulerState := 1 }

/-! ## Runs -/

/-- The scheduler, with the items and the threads that it was given, in their order, and
    the items that its updates have selected. -/
structure SchedulerRun where
  sched : Scheduler
  items : List ℕ
  threads : List ℕ
  selected : List ℕ

/-- The operations: an update, and a thread that is added in an item. -/
inductive SchedulerOp
  | update
  | add (item thread : ℕ)

/-- What an operation does. -/
def SchedulerRun.step (s : SchedulerRun) : SchedulerOp → Option SchedulerRun
  | .update =>
    let u := (schedulerUpdate s.sched).1
    some { s with
      sched := u
      selected := if s.sched.schedulerState = 0 then s.selected else s.selected ++ [u.tcurrent] }
  | .add item thread => (schedulerAddThread s.sched item thread).map fun u =>
    { s with sched := u, items := s.items ++ [item], threads := s.threads ++ [thread] }

/-- The scheduler after `scheduler_init`. -/
def SchedulerRun.start (s : Scheduler) (item firstThread : ℕ) : SchedulerRun :=
  ⟨schedulerInit s item firstThread, [item], [firstThread], []⟩

/-- An address that `malloc` may return while the items are in use. -/
def FreshItem (items : List ℕ) (item : ℕ) : Prop :=
  item ≠ 0 ∧ item < 4294967296 ∧ item ∉ items

/-- The runs of the scheduler. -/
def schedulerSystem : System SchedulerRun SchedulerOp where
  init s := ∃ s₀ item first, s₀.schedulerState = 0 ∧ FreshItem [] item ∧ s = .start s₀ item first
  guard s op := match op with
    | .update => True
    | .add item thread => FreshItem s.items item ∧ thread ≠ 0
  step := SchedulerRun.step

variable {s s' : SchedulerRun} {r : Rotation ℕ} {op : SchedulerOp} {ops : List SchedulerOp}
  {p item thread fuel : ℕ} {ns : List ℕ} {node : ℕ → TList}

/-- The link of an item. -/
def Scheduler.next (s : Scheduler) (item : ℕ) : ℕ := (s.node item).next

/-- The queue of the scheduler is that of `r`, with the same current item. -/
structure Schedules (s : SchedulerRun) (r : Rotation ℕ) : Prop where
  chain : Visits s.sched.next s.sched.tqueue s.items
  queue : r.queue = s.items
  current : s.sched.tcurrent = r.current
  nodup : s.items.Nodup
  lt : ∀ a ∈ s.items, a < 4294967296
  threads : s.items.map (fun a => (s.sched.node a).thread) = s.threads
  state : s.sched.schedulerState = 0 ↔ s.threads.length = 1

theorem schedules_start {s : Scheduler} (hs : s.schedulerState = 0) (hi : FreshItem [] item)
    (thread : ℕ) :
    Schedules (.start s item thread) ⟨[], item, []⟩ := by
  have hnode : (schedulerInit s item thread).node item = ⟨0, thread⟩ := Function.update_self ..
  constructor
  · exact ⟨rfl, hi.1, congrArg TList.next hnode⟩
  · rfl
  · rfl
  · exact List.nodup_singleton item
  · exact List.forall_mem_singleton.2 hi.2.1
  · exact congrArg (fun n => [TList.thread n]) hnode
  · exact iff_of_true hs rfl

/-! ## Updates -/

/-- The item that an update selects is that of the next turn. -/
theorem Schedules.next_current (h : Schedules s r) :
    (if s.sched.next s.sched.tcurrent = 0 then s.sched.tqueue else s.sched.next s.sched.tcurrent) =
      r.next.current := by
  have hchain := h.chain
  rw [← h.queue] at hchain
  rw [h.current, hchain.link]
  obtain ⟨bs, c, _ | ⟨x, as⟩⟩ := r
  · rw [if_pos List.headD_nil]
    rcases bs with _ | ⟨y, bs⟩
    · exact hchain.1
    · exact hchain.1
  · have hx : x ≠ 0 := hchain.ne_zero x (List.mem_append_right _ (by simp))
    exact if_neg hx

theorem schedulerUpdate_eq (hs : s.sched.schedulerState ≠ 0) (h : Schedules s r) :
    (schedulerUpdate s.sched).1 = { s.sched with tcurrent := r.next.current } := by
  rw [schedulerUpdate, if_neg hs]
  exact congrArg (fun a => { s.sched with tcurrent := a }) h.next_current

theorem Schedules.update (h : Schedules s r) :
    Schedules { s with sched := { s.sched with tcurrent := r.next.current },
                       selected := s.selected ++ [r.next.current] } r.next :=
  ⟨h.chain, Rotation.queue_next.trans h.queue, rfl, h.nodup, h.lt, h.threads, h.state⟩

/-! ## New threads -/

theorem lastItem_of_visits (h : Visits (fun a => (node a).next) p (ns ++ [item]))
    (hfuel : ns.length < fuel) : lastItem node fuel p = some item := by
  induction fuel generalizing p ns with
  | zero => exact absurd hfuel (Nat.not_lt_zero _)
  | succ fuel ih =>
    cases ns with
    | nil =>
      obtain ⟨rfl, -, hend⟩ := h
      have hend : (node p).next = 0 := hend
      rw [lastItem, if_neg (not_not.2 hend)]
    | cons a ns =>
      obtain ⟨rfl, -, hrest⟩ := h
      have hne : (node p).next ≠ 0 := by
        cases ns with
        | nil => exact hrest.1.trans_ne hrest.2.1
        | cons b ns => exact hrest.1.trans_ne hrest.2.1
      rw [lastItem, if_pos hne]
      exact ih hrest (Nat.lt_of_succ_lt_succ hfuel)

/-- Distinct addresses are fewer than the rounds of a walk. -/
theorem length_lt_schedulerFuel (hnd : ns.Nodup) (hlt : ∀ a ∈ ns, a < 4294967296) :
    ns.length < schedulerFuel := Nat.lt_succ_of_le (length_le_of_nodup hnd hlt)

theorem Schedules.add (h : Schedules s r) (hi : FreshItem s.items item) (thread : ℕ) :
    ∃ u, schedulerAddThread s.sched item thread = some u ∧
      Schedules { s with sched := u, items := s.items ++ [item], threads := s.threads ++ [thread] }
        (r.add item) := by
  obtain ⟨hi₀, hilt, hnew⟩ := hi
  obtain ⟨ns, last, hns⟩ : ∃ ns last, s.items = ns ++ [last] := by
    have hne : s.items ≠ [] := List.ne_nil_of_mem (h.queue ▸ Rotation.current_mem_queue)
    exact ⟨_, _, (List.dropLast_append_getLast hne).symm⟩
  have hlast : last ∉ ns := by
    have hnd := h.nodup
    rw [hns, List.nodup_append] at hnd
    exact fun hmem => hnd.2.2 last hmem last (List.mem_singleton_self _) rfl
  set node := Function.update s.sched.node item ⟨0, thread⟩ with hnode
  set node' := Function.update node last { node last with next := item } with hnode'
  -- the new item is not in the queue, so that its assignment does not disturb the walk
  have hold : ∀ a ∈ s.items, node a = s.sched.node a :=
    fun a ha => Function.update_of_ne (fun hai : a = item => hnew (hai ▸ ha)) ..
  have hold' : ∀ a ∈ ns, node' a = s.sched.node a := fun a ha => by
    rw [hnode', Function.update_of_ne (fun hal : a = last => hlast (hal ▸ ha))]
    exact hold a (hns ▸ List.mem_append_left _ ha)
  have hitem : node' item = ⟨0, thread⟩ := by
    rw [hnode', Function.update_of_ne fun hil : item = last => hnew (by rw [hns, hil]; simp), hnode,
      Function.update_self]
  have hat : node' last = ⟨item, (s.sched.node last).thread⟩ := by
    rw [hnode', Function.update_self, hold last (by rw [hns]; simp)]
  have hchain : Visits s.sched.next s.sched.tqueue (ns ++ [last]) := hns ▸ h.chain
  have hwalk : lastItem node schedulerFuel s.sched.tqueue = some last := by
    refine lastItem_of_visits (hchain.congr fun a ha => ?_) ?_
    · exact congrArg TList.next (hold a (hns ▸ ha))
    · have hlen := length_lt_schedulerFuel h.nodup h.lt
      rw [hns, List.length_append] at hlen
      exact (Nat.le_add_right ..).trans_lt hlen
  refine ⟨{ s.sched with node := node', schedulerState := 1 }, ?_, ?_⟩
  · rw [schedulerAddThread, hwalk]
    rfl
  · constructor
    · rw [hns]
      refine hchain.concat (fun a ha => ?_) ?_ hi₀ ?_
      · exact congrArg TList.next (hold' a ha)
      · exact congrArg TList.next hat
      · exact congrArg TList.next hitem
    · rw [Rotation.queue_add, h.queue]
    · exact h.current
    · exact nodup_append_singleton h.nodup hnew
    · exact List.forall_mem_append.2 ⟨h.lt, List.forall_mem_singleton.2 hilt⟩
    · rw [List.map_append, ← h.threads]
      refine congrArg₂ (· ++ ·) (List.map_congr_left fun a ha => ?_) ?_
      · rw [hns, List.mem_append, List.mem_singleton] at ha
        rcases ha with ha | rfl
        · exact congrArg TList.thread (hold' a ha)
        · exact (congrArg TList.thread hat).trans rfl
      · exact congrArg (fun n => [TList.thread n]) hitem
    · refine iff_of_false Nat.one_ne_zero ?_
      rw [List.length_append, ← h.threads, List.length_map, hns, List.length_append,
        List.length_singleton, List.length_singleton]
      omega

/-! ## Runs are round robin -/

/-- The threads that the operations add. -/
def addedThreads (ops : List SchedulerOp) : List ℕ := ops.filterMap fun
  | .update => none
  | .add _ thread => some thread

/-- A step is a turn or a new entry, or leaves the queue and its current item as they are. -/
theorem Schedules.step (h : Schedules s r) (hg : schedulerSystem.guard s op)
    (hs : schedulerSystem.step s op = some s') :
    ∃ r' sel, Schedules s' r' ∧ s'.selected = s.selected ++ sel ∧
      ∀ sel' r'', r'.Run sel' r'' → r.Run (sel ++ sel') r'' := by
  cases op with
  | update =>
    rcases eq_or_ne s.sched.schedulerState 0 with h₀ | h₀
    · have hu : schedulerUpdate s.sched = (s.sched, none) := if_pos h₀
      have hs' : s = s' := by
        have := Option.some.inj hs
        rwa [hu, if_pos h₀] at this
      exact ⟨r, [], hs' ▸ h, by rw [hs', List.append_nil], fun _ _ hr => hr⟩
    · have hs' := Option.some.inj hs
      rw [schedulerUpdate_eq h₀ h, if_neg h₀] at hs'
      subst hs'
      exact ⟨r.next, [r.next.current], h.update, rfl, fun _ _ hr => .next hr⟩
  | add item thread =>
    obtain ⟨u, hu, hadd⟩ := h.add hg.1 thread
    obtain ⟨v, hv, rfl⟩ := Option.map_eq_some_iff.1 hs
    cases hu.symm.trans hv
    refine ⟨r.add item, [], hadd, (List.append_nil _).symm, fun _ _ hr => .add ?_ hr⟩
    exact h.queue ▸ hg.1.2.2

theorem Schedules.run (h : Schedules s r) (hr : schedulerSystem.Run s ops s') :
    ∃ r' sel, Schedules s' r' ∧ s'.selected = s.selected ++ sel ∧ r.Run sel r' := by
  induction hr generalizing r with
  | nil => exact ⟨r, [], h, (List.append_nil _).symm, .nil r⟩
  | cons hg hs _ ih =>
    obtain ⟨r₁, sel₁, h₁, hsel₁, hrun₁⟩ := h.step hg hs
    obtain ⟨r₂, sel₂, h₂, hsel₂, hrun₂⟩ := ih h₁
    refine ⟨r₂, sel₁ ++ sel₂, h₂, ?_, hrun₁ _ _ hrun₂⟩
    rw [hsel₂, hsel₁, List.append_assoc]

theorem run_threads (hr : schedulerSystem.Run s ops s') :
    s'.threads = s.threads ++ addedThreads ops := by
  induction hr with
  | nil => exact (List.append_nil _).symm
  | @cons s t s' op ops _ hs _ ih =>
    rw [ih]
    cases op with
    | update =>
      cases hs
      rfl
    | add item thread =>
      obtain ⟨u, -, rfl⟩ := Option.map_eq_some_iff.1 hs
      exact List.append_assoc ..

/-- After `scheduler_init` with a first thread, the queue is the chain of that thread and the
    added ones, and the current item is one of it; an update does nothing before the
    first add and selects the cyclic successor from then on; no operation gets stuck; and
    between two selections of the current item every other item of the queue is selected exactly
    once. -/
theorem scheduler_round_robin (s₀ : Scheduler) (item firstThread : ℕ) (s : SchedulerRun)
    (ops : List SchedulerOp) (h₀ : s₀.schedulerState = 0) (hi : FreshItem [] item)
    (hr : schedulerSystem.Run (.start s₀ item firstThread) ops s) :
    Visits s.sched.next s.sched.tqueue s.items ∧ s.items.Nodup ∧
      s.items.map (fun a => (s.sched.node a).thread) = firstThread :: addedThreads ops ∧
      (∃ hc : s.sched.tcurrent ∈ s.items,
        (addedThreads ops = [] → schedulerUpdate s.sched = (s.sched, none)) ∧
        (addedThreads ops ≠ [] → (schedulerUpdate s.sched).1 =
          { s.sched with tcurrent := s.items.next s.sched.tcurrent hc })) ∧
      (∀ op, schedulerSystem.guard s op → ∃ s', schedulerSystem.step s op = some s') ∧
      ∀ ops' s' xs, schedulerSystem.Run s ops' s' →
        s'.selected = s.selected ++ (xs ++ [s.sched.tcurrent]) → s.sched.tcurrent ∉ xs →
        ∀ a ∈ s.items, a ≠ s.sched.tcurrent → xs.count a = 1 := by
  obtain ⟨r, -, h, -, -⟩ := (schedules_start h₀ hi firstThread).run hr
  have hthreads : s.threads = firstThread :: addedThreads ops := run_threads hr
  have hc : s.sched.tcurrent ∈ s.items := by
    rw [h.current, ← h.queue]
    exact Rotation.current_mem_queue
  refine ⟨h.chain, h.nodup, h.threads.trans hthreads,
    ⟨hc, fun hnone => ?_, fun hsome => ?_⟩, ?_, ?_⟩
  · exact if_pos (h.state.2 (by rw [hthreads, hnone]; rfl))
  · -- there are two threads at least, so the scheduler is on
    have hs : s.sched.schedulerState ≠ 0 := fun hs => hsome <| List.length_eq_zero_iff.1 <| by
      have hlen := h.state.1 hs
      rwa [hthreads, List.length_cons, Nat.add_eq_right] at hlen
    rw [schedulerUpdate_eq hs h, Rotation.current_next (h.queue ▸ h.nodup)]
    simp only [h.queue, h.current]
  · rintro (_ | ⟨item, thread⟩) hg
    · exact ⟨_, rfl⟩
    · obtain ⟨u, hu, -⟩ := h.add hg.1 thread
      exact ⟨_, congrArg (Option.map _) hu⟩
  · -- what the updates select are the turns of the rotation, which is fair
    intro ops' s' xs hr' hsel hxs a ha hne
    obtain ⟨r', sel, -, hsel', hrun⟩ := h.run hr'
    rw [hsel', List.append_cancel_left_eq] at hsel
    rw [hsel, h.current] at hrun
    rw [h.current] at hxs hne
    exact hrun.fair (h.queue ▸ h.nodup) hxs (h.queue ▸ ha) hne

/-- A second thread is added, and the first update selects it. -/
theorem scheduler_round_robin_two : ∃ s,
    schedulerSystem.Run (.start ⟨fun _ => ⟨0, 0⟩, 0, 0, 0⟩ 8 1) [.add 16 2, .update] s ∧
      s.selected = [16] ∧ s.items.map (fun a => (s.sched.node a).thread) = [1, 2] := by
  have hi : FreshItem [] 8 := ⟨by decide, by decide, List.not_mem_nil⟩
  have hi' : FreshItem [8] 16 := ⟨by decide, by decide, by decide⟩
  have hr : schedulerSystem.Run (.start ⟨fun _ => ⟨0, 0⟩, 0, 0, 0⟩ 8 1) [.add 16 2, .update] _ :=
    .cons ⟨hi', by decide⟩ rfl (.cons trivial rfl (.nil _))
  exact ⟨_, hr, by decide, (scheduler_round_robin _ 8 1 _ _ rfl hi hr).2.2.1⟩

end Beryllium

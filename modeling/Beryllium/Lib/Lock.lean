import Beryllium.Machine.Memory
import Beryllium.Machine.System

/-!
# Locks

The mutexes of `kernel/lib/lock.c`. A mutex is a byte behind a pointer, but the functions
only look at and assign their own copy of the pointer: a null pointer is never locked, and any
other one never gets free.

* `MutexExcludes`: between the returns of two locks there is an unlock;
* `MutexProgresses`: a lock of a mutex that nobody holds returns;
* `mutex_law_fails`: for no pointer do both hold.
-/

namespace Beryllium

open Machine

/-! ## The functions -/

/-- The loop of `mutex_lock`. Nothing changes its condition: it ends at once, or not at all. -/
def mutexSpin (mutex : ℕ) : Option ℕ := if mutex ≠ 0 then none else some mutex

/-- `mutex_lock`, with the value of its parameter at the end; `none` if it does not return. -/
def mutexLock (m : Mem) (mutex : ℕ) : Option (Mem × ℕ) := do
  let _ ← if mutex ≠ 0 then mutexSpin mutex else some mutex
  some (m, 1)

/-- `mutex_unlock`, with the value of its parameter at the end. -/
def mutexUnlock (m : Mem) (mutex : ℕ) : Mem × ℕ := if mutex ≠ 0 then (m, 0) else (m, mutex)

/-- `mutex_init`, with the value of its parameter at the end. -/
def mutexInit (m : Mem) (mutex : ℕ) : Mem × ℕ :=
  if mutex ≠ 0 then if mutex ≠ 0 then (m, 0) else (m, mutex) else (m, mutex)

/-! ## Callers -/

/-- The calls, each by one of the callers `ι`. -/
inductive LockOp (ι : Type*)
  | lock (i : ι)
  | unlock (i : ι)

/-- The runs of the callers, from `mutex_init` on. A call is one step, and a lock is enabled
    when its wait is over. -/
def lockSystem (ι : Type*) (m : Mem) (mutex : ℕ) : System Mem (LockOp ι) where
  init s := s = (mutexInit m mutex).1
  guard _ _ := True
  step s op := match op with
    | .lock _ => (mutexLock s mutex).map Prod.fst
    | .unlock _ => some (mutexUnlock s mutex).1

variable {ι : Type*} {m s : Mem} {mutex : ℕ}

/-- Nobody holds the mutex: there was no lock since the last unlock. -/
def Unheld (ops : List (LockOp ι)) : Prop := ∀ pre i, ops ≠ pre ++ [.lock i]

/-- Between the returns of two locks there is an unlock. -/
def MutexExcludes (ι : Type*) (m : Mem) (mutex : ℕ) : Prop :=
  ∀ s₀ ops s, (lockSystem ι m mutex).init s₀ → (lockSystem ι m mutex).Run s₀ ops s →
    ∀ pre mid post i j, ops = pre ++ .lock i :: (mid ++ .lock j :: post) → ∃ k, .unlock k ∈ mid

/-- A lock of a mutex that nobody holds returns. -/
def MutexProgresses (ι : Type*) (m : Mem) (mutex : ℕ) : Prop :=
  ∀ s₀ ops s, (lockSystem ι m mutex).init s₀ → (lockSystem ι m mutex).Run s₀ ops s →
    Unheld ops → ∀ i, ∃ s', (lockSystem ι m mutex).step s (.lock i) = some s'

/-- A lock with another pointer never returns. -/
theorem mutexLock_spins (h : mutex ≠ 0) (s : Mem) : mutexLock s mutex = none := by
  rw [mutexLock, if_pos h, mutexSpin, if_pos h]
  rfl

/-- Two locks in a row return, with a null pointer. -/
theorem null_run (m : Mem) (i j : ι) : (lockSystem ι m 0).Run m [.lock i, .lock j] m :=
  .cons trivial rfl (.cons trivial rfl (.nil m))

theorem not_excludes_null (i : ι) : ¬MutexExcludes ι m 0 := by
  intro h
  obtain ⟨k, hk⟩ := h m _ m rfl (null_run m i i) [] [] [] i i rfl
  exact absurd hk List.not_mem_nil

theorem progresses_null : MutexProgresses ι m 0 :=
  fun _ _ s _ _ _ _ => ⟨s, rfl⟩

/-- With another pointer no lock is part of a run. -/
theorem no_lock_run {s' : Mem} {ops : List (LockOp ι)} (hm : mutex ≠ 0)
    (h : (lockSystem ι m mutex).Run s ops s') (i : ι) : .lock i ∉ ops := by
  induction h with
  | nil => exact List.not_mem_nil
  | @cons s t s' op ops _ hs _ ih =>
    rw [List.mem_cons, not_or]
    refine ⟨?_, ih⟩
    rintro rfl
    have hn : (lockSystem ι m mutex).step s (.lock i) = none :=
      congrArg (Option.map _) (mutexLock_spins hm s)
    exact absurd (hn.symm.trans hs) (Option.some_ne_none _).symm

theorem excludes_of_ne (hm : mutex ≠ 0) : MutexExcludes ι m mutex := by
  intro s₀ ops s _ hr pre mid post i j hops
  refine absurd ?_ (no_lock_run hm hr i)
  exact hops ▸ List.mem_append_right _ List.mem_cons_self

theorem not_progresses_of_ne (hm : mutex ≠ 0) (i : ι) : ¬MutexProgresses ι m mutex := by
  intro h
  have hun : Unheld ([] : List (LockOp ι)) := fun pre i hnil => by simp at hnil
  obtain ⟨s', hs'⟩ := h _ [] _ rfl (.nil _) hun i
  have hn : (lockSystem ι m mutex).step (mutexInit m mutex).1 (.lock i) = none :=
    congrArg (Option.map _) (mutexLock_spins hm _)
  exact absurd (hn.symm.trans hs') (Option.some_ne_none _).symm

/-- No pointer makes a mutex: locks exclude one another only if the pointer is not null, and
    then none of them returns. -/
theorem mutex_law_fails {ι : Type*} (i : ι) (m : Mem) (mutex : ℕ) :
    ¬(MutexExcludes ι m mutex ∧ MutexProgresses ι m mutex) ∧
      (MutexExcludes ι m mutex ↔ mutex ≠ 0) ∧ (MutexProgresses ι m mutex ↔ mutex = 0) := by
  rcases eq_or_ne mutex 0 with rfl | hm
  · have hex := not_excludes_null (m := m) i
    exact ⟨fun h => hex h.1, iff_of_false hex (not_not.2 rfl), iff_of_true progresses_null rfl⟩
  · have hpr := not_progresses_of_ne (m := m) hm i
    exact ⟨fun h => hpr h.2, iff_of_true (excludes_of_ne hm) hm, iff_of_false hpr hm⟩

/-- Two callers: with the null pointer both hold the mutex, and with a pointer to a zeroed byte
    neither ever gets it. -/
theorem mutex_two_callers :
    (∃ s, (lockSystem Bool (fun _ => 0) 0).Run (mutexInit (fun _ => 0) 0).1
      [.lock false, .lock true] s) ∧
    ¬(MutexExcludes Bool (fun _ => 0) 0 ∧ MutexProgresses Bool (fun _ => 0) 0) ∧
    ¬(MutexExcludes Bool (fun _ => 0) 0x1000 ∧ MutexProgresses Bool (fun _ => 0) 0x1000) :=
  ⟨⟨_, null_run _ false true⟩, fun h => not_excludes_null false h.1,
    fun h => not_progresses_of_ne (by decide) false h.2⟩

end Beryllium

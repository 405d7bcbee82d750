import Beryllium.Lib.Mem
import Beryllium.Machine.X86

/-!
# Threads

`thread_create` of `kernel/thread.c` and `thread_switch` of `arch/x86/low/thread_asm.s`.

`thread_switch` takes the variable `current_thread` for a pointer to a pointer to a `thread_t`,
and so its argument. A new thread is therefore loaded from its stack, where `thread_create` has
put three words: the stack pointer becomes the 0 of the first one (`switch_esp`), and the thread
does not start (`thread_never_starts`).
-/

namespace Beryllium

open Machine X86

/-! ## Creating a thread -/

/-- A thread, and the memory and the next thread number after its creation. -/
structure NewThread where
  mem : Mem
  thread : ℕ
  threadId : ℕ

/-- The end of `thread_create`, which builds a frame on the stack of the thread. -/
def threadFrame (m : Mem) (thread threadExit fn : ℕ) : Mem :=
  -- `thread->stack` points at words, so that `0x500` of them are more than the stack has
  let stackPtr := add32 (m.load32 (thread + 36)) (4 * 0x500)
  let stackPtr := sub32 stackPtr 4
  let m := m.store32 stackPtr threadExit
  let stackPtr := sub32 stackPtr 4
  let m := m.store32 stackPtr fn
  let stackPtr := sub32 stackPtr 4
  let m := m.store32 stackPtr 0
  let m := m.store32 (thread + 4) stackPtr
  let m := m.store32 thread stackPtr
  m.store32 (thread + 20) 0x200

/-- `thread_create`, with the address of `thread_exit`. The members of a `thread_t` are at the
    offsets 0 `esp`, 4 `ebp`, 8 `ebx`, 12 `esi`, 16 `edi`, 20 `eflags`, 24 `tid`, 28 `level`,
    32 `owner_pid`, 36 `stack`, 40 `stack_ptr` and 44 `status`. -/
def threadCreate (malloc : Mem → ℕ → Mem × ℕ) (m : Mem) (threadId threadExit level pid fn : ℕ) :
    NewThread :=
  let (m, thread) := malloc m 48
  let m := memset m thread 0 48
  let m := m.store32 (thread + 24) threadId
  let m := m.store8 (thread + 28) level
  let m := m.store32 (thread + 32) pid
  let (m, stack) := malloc m 0x1000
  let m := m.store32 (thread + 36) stack
  let m := memset m (m.load32 (thread + 36)) 0 0x1000
  ⟨threadFrame m thread threadExit fn, thread, add32 threadId 1⟩

/-! ## Switching to a thread -/

/-- `thread_switch` up to the load of its argument. -/
def threadSwitchSave (currentThread : ℕ) : List Instr :=
  [.loadAbs .eax currentThread,
   .load .eax .eax 0,
   .store .eax 0 .esp,
   .store .eax 4 .ebp,
   .store .eax 8 .ebx,
   .store .eax 12 .esi,
   .store .eax 16 .edi,
   .pushf,
   .pop .ecx,
   .store .eax 20 .ecx,
   .load .eax .esp 4]

/-- `thread_switch` from there on. -/
def threadSwitchLoad (currentThread : ℕ) : List Instr :=
  [.storeAbs currentThread .eax,
   .load .eax .eax 0,
   .load .esp .eax 0,
   .load .ebp .eax 4,
   .load .ebx .eax 8,
   .load .esi .eax 12,
   .load .edi .eax 16,
   .load .eax .eax 20,
   .push .eax,
   .popf,
   .ret]

/-- `thread_switch`, with the address of the variable `current_thread`. -/
def threadSwitch (currentThread : ℕ) : List Instr :=
  threadSwitchSave currentThread ++ threadSwitchLoad currentThread

/-- The thread with the function `fn` starts: at `fn`, with `thread_exit` to return to, on its
    stack, and with interrupts enabled. -/
def ThreadStarts (s : Cpu) (threadExit fn stack : ℕ) : Prop :=
  s.eip = fn ∧ s.top = threadExit ∧ (stack ≤ s.reg .esp ∧ s.reg .esp < stack + 0x1000) ∧
    s.eflags = 0x200

/-! ## What is loaded -/

variable {s : Cpu} {currentThread : ℕ}

/-- The address at which the registers are saved: what the first word of the current thread
    points at. -/
def saveArea (s : Cpu) (currentThread : ℕ) : ℕ := s.mem.load32 (s.mem.load32 currentThread)

/-- The words that are stored before the argument is loaded. -/
def savedWords (s : Cpu) (currentThread : ℕ) : List ℕ :=
  let area := saveArea s currentThread
  [add32 area 0, add32 area 4, add32 area 8, add32 area 12, add32 area 16, sub32 (s.reg .esp) 4,
    add32 area 20]

theorem writes_save (s : Cpu) (currentThread : ℕ) :
    s.writes (threadSwitchSave currentThread) = savedWords s currentThread := by
  have hthread : add32 (s.mem.load32 currentThread) 0 = s.mem.load32 currentThread :=
    add32_eq (Mem.load32_lt ..)
  simp [threadSwitchSave, Cpu.writes, Cpu.storedAt, Cpu.exec, Cpu.pushWord, Cpu.drop, savedWords,
    saveArea, hthread]

/-- The argument is loaded after the words are saved. -/
theorem eax_save (s : Cpu) (currentThread : ℕ) :
    (s.run (threadSwitchSave currentThread)).reg .eax =
      (s.run (threadSwitchSave currentThread)).mem.load32 (add32 (s.reg .esp) 4) := by
  have hesp : add32 (add32 (sub32 (s.reg .esp) 4) 4) 4 = add32 (s.reg .esp) 4 := by
    simp only [add32, sub32]
    omega
  simp [threadSwitchSave, Cpu.run, Cpu.exec, Cpu.pushWord, Cpu.drop, hesp]

/-- The stack pointer at the end is that of the thread at `eax`, taken through one pointer too
    many. -/
theorem esp_load (s : Cpu) (currentThread : ℕ) :
    let m := s.mem.store32 currentThread (s.reg .eax)
    (s.run (threadSwitchLoad currentThread)).reg .esp =
      add32 (m.load32 (m.load32 (add32 (s.reg .eax) 0))) 4 := by
  intro m
  have hesp : ∀ a, a < 4294967296 → add32 (sub32 a 4) 4 = a := by
    intro a ha
    simp only [add32, sub32]
    omega
  have hframe : add32 (m.load32 (add32 (s.reg .eax) 0)) 0 = m.load32 (add32 (s.reg .eax) 0) :=
    add32_eq (Mem.load32_lt ..)
  simp [threadSwitchLoad, Cpu.run, Cpu.exec, Cpu.pushWord, Cpu.drop, m, hframe,
    hesp _ (Mem.load32_lt ..)]

/-! ## A new thread does not start -/

variable {malloc : Mem → ℕ → Mem × ℕ} {m : Mem} {threadId threadExit level pid fn : ℕ}

/-- Where the frame of a new thread is: its first member, the stack pointer. -/
def NewThread.frame (c : NewThread) : ℕ := c.mem.load32 c.thread

/-- The last words that `thread_create` stores. -/
theorem threadCreate_mem {c : NewThread}
    (hc : c = threadCreate malloc m threadId threadExit level pid fn) :
    ∃ (m' : Mem) (frame : ℕ), frame < 4294967296 ∧
      c.mem = (((m'.store32 frame 0).store32 (c.thread + 4) frame).store32 c.thread frame).store32
        (c.thread + 20) 0x200 := by
  subst hc
  exact ⟨_, _, sub32_lt .., rfl⟩

/-- The first word of the frame is the fake base pointer. -/
theorem load32_frame {c : NewThread}
    (hc : c = threadCreate malloc m threadId threadExit level pid fn)
    (h : ∀ a ∈ [c.thread, c.thread + 4, c.thread + 20], Mem.Apart a c.frame) :
    c.mem.load32 c.frame = 0 := by
  obtain ⟨m', frame, hlt, hmem⟩ := threadCreate_mem hc
  have hframe : c.frame = frame := by
    rw [NewThread.frame, hmem, Mem.load32_store32_of_disjoint (by omega),
      Mem.load32_store32_of_lt hlt]
  rw [hframe] at h ⊢
  simp only [List.forall_mem_cons] at h
  rw [hmem, Mem.load32_store32_of_disjoint h.2.2.1, Mem.load32_store32_of_disjoint h.1,
    Mem.load32_store32_of_disjoint h.2.1, Mem.load32_store32_of_lt (by decide)]

/-- The new thread is as `thread_create` left it. -/
def KeptThread (c : NewThread) (m : Mem) : Prop :=
  ∀ a, (c.thread ≤ a ∧ a < c.thread + 48 ∨ c.frame ≤ a ∧ a < c.frame + 12) → m a = c.mem a

/-- Nothing overlaps: the first word of the frame is not in the `thread_t`, and neither it nor
    the first word of the `thread_t` nor the argument is overwritten by what `thread_switch`
    stores. -/
structure Separated (s : Cpu) (currentThread thread frame : ℕ) : Prop where
  members : ∀ a ∈ [thread, thread + 4, thread + 20], Mem.Apart a frame
  saved : ∀ a ∈ savedWords s currentThread, Mem.Apart a thread ∧ Mem.Apart a frame ∧
    Mem.Apart a (add32 (s.reg .esp) 4)
  current : Mem.Apart currentThread thread ∧ Mem.Apart currentThread frame

/-- Switching to a new thread loads the fake base pointer into the stack pointer, and pops the
    return address from there. -/
theorem switch_esp {c : NewThread} (hc : c = threadCreate malloc m threadId threadExit level pid fn)
    (hkept : KeptThread c s.mem) (harg : s.mem.load32 (add32 (s.reg .esp) 4) = c.thread)
    (hsep : Separated s currentThread c.thread c.frame) :
    (s.run (threadSwitch currentThread)).reg .esp = 4 := by
  set t := s.run (threadSwitchSave currentThread) with ht
  have hkeep : ∀ a, (∀ w ∈ savedWords s currentThread, Mem.Apart w a) →
      t.mem.load32 a = s.mem.load32 a :=
    fun a ha => Cpu.load32_run (writes_save s currentThread ▸ ha)
  have heax : t.reg .eax = c.thread :=
    (eax_save s currentThread).trans ((hkeep _ fun w hw => (hsep.saved w hw).2.2).trans harg)
  have hthread : add32 c.thread 0 = c.thread := add32_eq (harg ▸ Mem.load32_lt ..)
  -- the two words that are loaded are those of `thread_create`
  have hfirst : (t.mem.store32 currentThread c.thread).load32 c.thread = c.frame := by
    rw [Mem.load32_store32_of_disjoint hsep.current.1, hkeep _ fun w hw => (hsep.saved w hw).1]
    exact Mem.load32_congr fun a ha ha' => hkept a (.inl ⟨ha, by omega⟩)
  have hsecond : (t.mem.store32 currentThread c.thread).load32 c.frame = 0 := by
    rw [Mem.load32_store32_of_disjoint hsep.current.2, hkeep _ fun w hw => (hsep.saved w hw).2.1,
      ← load32_frame hc hsep.members]
    exact Mem.load32_congr fun a ha ha' => hkept a (.inr ⟨ha, by omega⟩)
  rw [threadSwitch, Cpu.run_append, ← ht, esp_load, heax, hthread, hfirst, hsecond]
  rfl

/-- A new thread is never started by `thread_switch`: not on its stack, in any state of the
    processor and the memory in which nothing overlaps. -/
theorem thread_never_starts (malloc : Mem → ℕ → Mem × ℕ) (m : Mem)
    (threadId threadExit level pid fn currentThread : ℕ) (s : Cpu) (c : NewThread)
    (hc : c = threadCreate malloc m threadId threadExit level pid fn)
    (hkept : KeptThread c s.mem) (harg : s.mem.load32 (add32 (s.reg .esp) 4) = c.thread)
    (hsep : Separated s currentThread c.thread c.frame)
    (hstack : 4 < s.mem.load32 (c.thread + 36)) :
    (s.run (threadSwitch currentThread)).reg .esp = 4 ∧
      ¬ThreadStarts (s.run (threadSwitch currentThread)) threadExit fn
        (s.mem.load32 (c.thread + 36)) := by
  have hesp := switch_esp hc hkept harg hsep
  refine ⟨hesp, fun h => ?_⟩
  have hlo := h.2.2.1.1
  rw [hesp] at hlo
  exact absurd hstack (Nat.not_lt.2 hlo)

/-! ## A thread and a state -/

/-- An allocator that hands out a place for a `thread_t` and one for a stack. -/
def twoBlocks (m : Mem) (n : ℕ) : Mem × ℕ := (m, if n = 48 then 0x10000 else 0x20000)

/-- The frame of a thread whose stack is at `0x20000`: it is not in the `0x1000` bytes of the
    stack. -/
theorem threadFrame_eq (h : m.load32 (0x10000 + 36) = 0x20000) :
    threadFrame m 0x10000 threadExit fn =
      (((((m.store32 0x213FC threadExit).store32 0x213F8 fn).store32 0x213F4 0).store32
        0x10004 0x213F4).store32 0x10000 0x213F4).store32 0x10014 0x200 := by
  rw [threadFrame, h]
  rfl

theorem twoBlocks_thread {c : NewThread}
    (hc : c = threadCreate twoBlocks m threadId threadExit level pid fn) :
    c.thread = 0x10000 ∧ c.frame = 0x213F4 ∧ c.mem.load32 0x10024 = 0x20000 := by
  have hstack : ∀ m₁ : Mem, (memset (m₁.store32 (0x10000 + 36) 0x20000)
      ((m₁.store32 (0x10000 + 36) 0x20000).load32 (0x10000 + 36)) 0 0x1000).load32
        (0x10000 + 36) = 0x20000 := by
    intro m₁
    have hset : (m₁.store32 (0x10000 + 36) 0x20000).load32 (0x10000 + 36) = 0x20000 :=
      Mem.load32_store32_of_lt (by decide)
    rw [hset, Mem.load32_congr fun x hx hx' => memset_apply_of_disjoint (by omega), hset]
  obtain ⟨m', hm', hmem⟩ : ∃ m' : Mem, m'.load32 (0x10000 + 36) = 0x20000 ∧
      c.mem = threadFrame m' 0x10000 threadExit fn := by
    subst hc
    exact ⟨_, hstack _, rfl⟩
  have hthread : c.thread = 0x10000 := congrArg NewThread.thread hc
  rw [threadFrame_eq hm'] at hmem
  refine ⟨hthread, ?_, ?_⟩
  · rw [NewThread.frame, hthread, hmem, Mem.load32_store32_of_disjoint (by omega),
      Mem.load32_store32_of_lt (by decide)]
  · rw [hmem, Mem.load32_store32_of_disjoint (by omega), Mem.load32_store32_of_disjoint (by omega),
      Mem.load32_store32_of_disjoint (by omega), Mem.load32_store32_of_disjoint (by omega),
      Mem.load32_store32_of_disjoint (by omega), Mem.load32_store32_of_disjoint (by omega)]
    exact hm'

/-- The thread with the number 1, `thread_exit` at `0x100200` and its function at `0x100300`. -/
def someThread : NewThread := threadCreate twoBlocks (fun _ => 0) 1 0x100200 0 0 0x100300

/-- A memory with `current_thread` at `0x5000`, the current thread at `0x6000`, and an argument at
    `0x8004`. -/
def someMem : Mem :=
  Mem.store32 (Mem.store32 (Mem.store32 (fun _ => 0) 0x5000 0x6000) 0x6000 0x7000) 0x8004 0x10000

/-- The processor when it calls `thread_switch` with that thread, the stack being at `0x8000`. -/
def someCpu : Cpu where
  reg r := if r = .esp then 0x8000 else 0
  eflags := 0x200
  eip := 0
  mem a :=
    if 0x10000 ≤ a ∧ a < 0x10000 + 48 ∨ 0x213F4 ≤ a ∧ a < 0x213F4 + 12 then someThread.mem a
    else someMem a

theorem someCpu_separated : Separated someCpu 0x5000 0x10000 0x213F4 where
  members := by decide
  saved := by decide
  current := by decide

theorem someCpu_kept : KeptThread someThread someCpu.mem := by
  obtain ⟨hthread, hframe, -⟩ := twoBlocks_thread (c := someThread) rfl
  rw [KeptThread, hthread, hframe]
  exact fun a ha => if_pos ha

theorem someCpu_stack : someCpu.mem.load32 (0x10000 + 36) = 0x20000 := by
  obtain ⟨hthread, hframe, hstack⟩ := twoBlocks_thread (c := someThread) rfl
  rw [← hstack]
  exact Mem.load32_congr fun a ha ha' => if_pos (by omega)

/-- That thread is switched to, and its stack pointer is then 4. -/
theorem someThread_never_starts : (someCpu.run (threadSwitch 0x5000)).reg .esp = 4 := by
  obtain ⟨hthread, hframe, -⟩ := twoBlocks_thread (c := someThread) rfl
  refine (thread_never_starts twoBlocks (fun _ => 0) 1 0x100200 0 0 0x100300 0x5000 someCpu
    someThread rfl someCpu_kept ?_ ?_ ?_).1
  · rw [hthread]
    decide
  · rw [hthread, hframe]
    exact someCpu_separated
  · rw [hthread, someCpu_stack]
    decide

/-- That thread is switched to, and it does not start on its stack. -/
theorem someThread_lost :
    KeptThread someThread someCpu.mem ∧
      someCpu.mem.load32 (add32 (someCpu.reg .esp) 4) = someThread.thread ∧
      someCpu.mem.load32 (someThread.thread + 36) = 0x20000 ∧
      ¬ThreadStarts (someCpu.run (threadSwitch 0x5000)) 0x100200 0x100300 0x20000 := by
  obtain ⟨hthread, hframe, -⟩ := twoBlocks_thread (c := someThread) rfl
  have harg : someCpu.mem.load32 (add32 (someCpu.reg .esp) 4) = someThread.thread := by
    rw [hthread]
    decide
  have hesp : (someCpu.run (threadSwitch 0x5000)).reg .esp = 4 := by
    refine switch_esp (c := someThread) rfl someCpu_kept harg ?_
    rw [hthread, hframe]
    exact someCpu_separated
  refine ⟨someCpu_kept, harg, ?_, fun h => ?_⟩
  · rw [hthread, someCpu_stack]
  · have hlo := h.2.2.1.1
    rw [hesp] at hlo
    exact absurd hlo (by decide)

end Beryllium

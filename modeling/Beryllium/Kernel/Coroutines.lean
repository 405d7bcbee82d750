import Beryllium.Kernel.Thread
import Beryllium.Machine.System

/-!
# Switching between threads

`thread_switch` between threads that have run: the first word of what its argument points at is the
address of an *area*, where the registers of the thread are kept. A thread works on its stack and on
memory that is shared, and calls `thread_switch` for any thread (`switchSystem`).

* `thread_resumes`: whatever the other threads do, and however they are switched between, a thread
  goes on behind its call of `thread_switch`, with its registers, its flags and its stack as they
  were.
-/

namespace Beryllium

open Machine X86

/-- What `thread_switch` saves of a thread. -/
structure Context where
  esp : ℕ
  ebp : ℕ
  ebx : ℕ
  esi : ℕ
  edi : ℕ
  eflags : ℕ

/-- The context of the thread that runs. -/
def context (s : Cpu) : Context :=
  ⟨s.reg .esp, s.reg .ebp, s.reg .ebx, s.reg .esi, s.reg .edi, s.eflags⟩

/-- The context in the area at `a`. -/
def contextAt (m : Mem) (a : ℕ) : Context :=
  ⟨m.load32 a, m.load32 (a + 4), m.load32 (a + 8), m.load32 (a + 12), m.load32 (a + 16),
    m.load32 (a + 20)⟩

/-- The members of a context are words. -/
def Context.Words (c : Context) : Prop :=
  c.esp < 4294967296 ∧ c.ebp < 4294967296 ∧ c.ebx < 4294967296 ∧ c.esi < 4294967296 ∧
    c.edi < 4294967296 ∧ c.eflags < 4294967296

/-- The places of the threads `T`: the variable `current_thread`, and for each thread the argument
    that stands for it, its area and its stack. Nothing overlaps. -/
structure Layout (T : Type*) where
  currentThread : ℕ
  thread : T → ℕ
  area : T → ℕ
  lo : T → ℕ
  hi : T → ℕ
  bound : ∀ t, thread t < 4294967296 ∧ area t + 24 ≤ 4294967296 ∧ hi t ≤ 4294967296
  area_area : ∀ t u, t ≠ u → area t + 24 ≤ area u ∨ area u + 24 ≤ area t
  stack_stack : ∀ t u, t ≠ u → hi t ≤ lo u ∨ hi u ≤ lo t
  thread_area : ∀ t u, thread t + 4 ≤ area u ∨ area u + 24 ≤ thread t
  thread_stack : ∀ t u, thread t + 4 ≤ lo u ∨ hi u ≤ thread t
  area_stack : ∀ t u, area t + 24 ≤ lo u ∨ hi u ≤ area t
  current_thread : ∀ t, currentThread + 4 ≤ thread t ∨ thread t + 4 ≤ currentThread
  current_area : ∀ t, currentThread + 4 ≤ area t ∨ area t + 24 ≤ currentThread
  current_stack : ∀ t, currentThread + 4 ≤ lo t ∨ hi t ≤ currentThread

variable {T : Type*}

/-- The addresses that the thread `t` leaves alone. -/
def Layout.Reserved (L : Layout T) (t : T) (x : ℕ) : Prop :=
  L.currentThread ≤ x ∧ x < L.currentThread + 4 ∨
    ∃ u, L.thread u ≤ x ∧ x < L.thread u + 4 ∨ L.area u ≤ x ∧ x < L.area u + 24 ∨
      u ≠ t ∧ L.lo u ≤ x ∧ x < L.hi u

/-- The processor with the memory, and the thread that runs. -/
structure Switching (T : Type*) where
  cpu : Cpu
  current : T

/-- The thread that runs does something of its own, or it switches to a thread. -/
inductive SwitchOp (T : Type*)
  | work (s : Cpu)
  | switch (u : T)

/-- The thread `t` is about to call `thread_switch` for the thread `u`: at the entry of the routine,
    with the return address and the argument on its stack. -/
structure Calls (L : Layout T) (s : Cpu) (t u : T) : Prop where
  lo : L.lo t + 4 ≤ s.reg .esp
  hi : s.reg .esp + 8 ≤ L.hi t
  arg : s.mem.load32 (s.reg .esp + 4) = L.thread u

/-- The area of the thread `t` has a context that can be gone on with. -/
structure Resumable (L : Layout T) (m : Mem) (t : T) : Prop where
  lo : L.lo t + 4 ≤ (contextAt m (L.area t)).esp
  hi : (contextAt m (L.area t)).esp + 8 ≤ L.hi t

/-- The variables of the threads are set, and the threads that do not run can be gone on with. -/
structure Suspended (L : Layout T) (s : Switching T) : Prop where
  words : (context s.cpu).Words
  current : s.cpu.mem.load32 L.currentThread = L.thread s.current
  areas : ∀ t, s.cpu.mem.load32 (L.thread t) = L.area t
  resumable : ∀ t, t ≠ s.current → Resumable L s.cpu.mem t

/-- The runs of the threads. -/
def switchSystem (L : Layout T) : System (Switching T) (SwitchOp T) where
  init s := Suspended L s
  guard s
    | .work c => (∀ x, L.Reserved s.current x → c.mem x = s.cpu.mem x) ∧ (context c).Words
    | .switch u => Calls L s.cpu s.current u
  step s
    | .work c => some { s with cpu := c }
    | .switch u => some ⟨s.cpu.run (threadSwitch L.currentThread), u⟩

/-! ## Saving a context -/

/-- The memory with the context `c` in the area at `a`, and the flags below the stack. -/
def saveContext (m : Mem) (a : ℕ) (c : Context) : Mem :=
  (((((((m.store32 a c.esp).store32 (a + 4) c.ebp).store32 (a + 8) c.ebx).store32 (a + 12)
    c.esi).store32 (a + 16) c.edi).store32 (c.esp - 4) c.eflags).store32 (a + 20) c.eflags)

variable {s : Cpu} {m m' : Mem} {a x currentThread : ℕ} {c : Context}

theorem saveContext_apply (hx : x < a ∨ a + 24 ≤ x) (hx' : x < c.esp - 4 ∨ c.esp - 4 + 4 ≤ x) :
    saveContext m a c x = m x := by
  simp only [saveContext]
  rw [Mem.store32_apply_of_disjoint (by omega), Mem.store32_apply_of_disjoint (by omega),
    Mem.store32_apply_of_disjoint (by omega), Mem.store32_apply_of_disjoint (by omega),
    Mem.store32_apply_of_disjoint (by omega), Mem.store32_apply_of_disjoint (by omega),
    Mem.store32_apply_of_disjoint (by omega)]

/-- The context can be loaded again. -/
theorem contextAt_saveContext (hc : c.Words) (hsep : a + 24 ≤ c.esp - 4 ∨ c.esp - 4 + 4 ≤ a) :
    contextAt (saveContext m a c) a = c := by
  obtain ⟨h₁, h₂, h₃, h₄, h₅, h₆⟩ := hc
  obtain ⟨esp, ebp, ebx, esi, edi, eflags⟩ := c
  dsimp only at *
  have hdisj {m : Mem} {p q v : ℕ} (h : q + 4 ≤ p ∨ p + 4 ≤ q) :
      (m.store32 p v).load32 q = m.load32 q :=
    Mem.load32_store32_of_disjoint h
  simp only [contextAt, saveContext]
  congr 1
  · rw [hdisj (by omega), hdisj (by omega), hdisj (by omega), hdisj (by omega), hdisj (by omega),
      hdisj (by omega), Mem.load32_store32_of_lt h₁]
  · rw [hdisj (by omega), hdisj (by omega), hdisj (by omega), hdisj (by omega), hdisj (by omega),
      Mem.load32_store32_of_lt h₂]
  · rw [hdisj (by omega), hdisj (by omega), hdisj (by omega), hdisj (by omega),
      Mem.load32_store32_of_lt h₃]
  · rw [hdisj (by omega), hdisj (by omega), hdisj (by omega), Mem.load32_store32_of_lt h₄]
  · rw [hdisj (by omega), hdisj (by omega), Mem.load32_store32_of_lt h₅]
  · rw [Mem.load32_store32_of_lt h₆]

/-- A context only depends on the bytes of its area. -/
theorem contextAt_congr (h : ∀ x, a ≤ x → x < a + 24 → m' x = m x) :
    contextAt m' a = contextAt m a := by
  simp only [contextAt]
  congr 1
  all_goals exact Mem.load32_congr fun x hx hx' => h x (by omega) (by omega)

/-- The word that is left after a push and a pop. -/
theorem add32_sub32_four (h : 4 ≤ a) (ha : a < 4294967296) : add32 (sub32 a 4) 4 = a := by
  rw [sub32_eq h ha, add32_eq (by omega)]
  omega

/-- `thread_switch` up to the load of its argument saves the context. -/
theorem run_save (ha : s.mem.load32 (s.mem.load32 currentThread) = a) (hlt : a + 24 ≤ 4294967296)
    (hesp : 4 ≤ s.reg .esp) (hesp' : s.reg .esp < 4294967296) (hflags : s.eflags < 4294967296) :
    (s.run (threadSwitchSave currentThread)).mem = saveContext s.mem a (context s) := by
  have hcell : add32 (s.mem.load32 currentThread) 0 = s.mem.load32 currentThread :=
    add32_eq (Mem.load32_lt ..)
  have harea (d : ℕ) (hd : d < 24) : add32 a d = a + d := add32_eq (by omega)
  simp [threadSwitchSave, Cpu.run, Cpu.exec, Cpu.pushWord, Cpu.drop, Cpu.top, Cpu.set, hcell, ha,
    harea, saveContext, context, sub32_eq hesp hesp', Mem.load32_store32_of_lt hflags]

/-- `thread_switch` from the load of its argument on goes on with the context of the area at `a`. -/
theorem run_load (ha : (s.mem.store32 currentThread (s.reg .eax)).load32 (s.reg .eax) = a)
    (hlt : a + 24 ≤ 4294967296) (heax : s.reg .eax < 4294967296)
    (hc : contextAt (s.mem.store32 currentThread (s.reg .eax)) a = c) (hesp : 4 ≤ c.esp)
    (hesp' : c.esp + 4 < 4294967296) :
    let t := s.run (threadSwitchLoad currentThread)
    t.mem = (s.mem.store32 currentThread (s.reg .eax)).store32 (c.esp - 4) c.eflags ∧
      context t = { c with esp := c.esp + 4 } ∧ t.eip = t.mem.load32 c.esp := by
  subst hc
  have hfirst : add32 (s.reg .eax) 0 = s.reg .eax := add32_eq heax
  have harea (d : ℕ) (hd : d < 24) : add32 a d = a + d := add32_eq (by omega)
  simp only [contextAt] at hesp hesp'
  have hback := add32_sub32_four hesp (Mem.load32_lt ..)
  have hsub := sub32_eq hesp (Mem.load32_lt ..)
  have hadd := add32_eq hesp'
  simp [threadSwitchLoad, Cpu.run, Cpu.exec, Cpu.pushWord, Cpu.drop, Cpu.top, Cpu.set, hfirst,
    ha, harea, context, contextAt, hback, hadd, Mem.load32_store32_of_lt (Mem.load32_lt ..)]
  rw [hsub]

/-! ## Switching -/

variable {L : Layout T} {r r' : Switching T} {t u v : T} {op : SwitchOp T}

/-- The memory between the two halves of `thread_switch`, when all threads are suspended. -/
def Switching.saved (L : Layout T) (r : Switching T) : Mem :=
  saveContext r.cpu.mem (L.area r.current) (context r.cpu)

theorem Calls.saved_apply (hc : Calls L r.cpu r.current u)
    (hx : x < L.area r.current ∨ L.area r.current + 24 ≤ x)
    (hx' : x < L.lo r.current ∨ r.cpu.reg .esp ≤ x) : r.saved L x = r.cpu.mem x := by
  have hlo := hc.lo
  refine saveContext_apply hx ?_
  simp only [context]
  omega

theorem Suspended.contextAt_saved_current (h : Suspended L r) (hc : Calls L r.cpu r.current u) :
    contextAt (r.saved L) (L.area r.current) = context r.cpu := by
  refine contextAt_saveContext h.words ?_
  have hlo := hc.lo
  have hhi := hc.hi
  have hsep := L.area_stack r.current r.current
  simp only [context]
  omega

theorem Calls.contextAt_saved (hc : Calls L r.cpu r.current u) (hv : v ≠ r.current) :
    contextAt (r.saved L) (L.area v) = contextAt r.cpu.mem (L.area v) := by
  refine contextAt_congr fun x hx hx' => hc.saved_apply ?_ ?_
  · have := L.area_area v r.current hv
    omega
  · have hsep := L.area_stack v r.current
    have hhi := hc.hi
    omega

theorem Suspended.resumable_saved (h : Suspended L r) (hc : Calls L r.cpu r.current u) (v : T) :
    Resumable L (r.saved L) v := by
  by_cases hv : v = r.current
  · subst hv
    constructor
    · rw [h.contextAt_saved_current hc]
      exact hc.lo
    · rw [h.contextAt_saved_current hc]
      exact hc.hi
  · have hres := h.resumable v hv
    constructor
    · rw [hc.contextAt_saved hv]
      exact hres.lo
    · rw [hc.contextAt_saved hv]
      exact hres.hi

/-- What `thread_switch` does. -/
theorem Suspended.run_switch (h : Suspended L r) (hc : Calls L r.cpu r.current u) :
    let c := contextAt (r.saved L) (L.area u)
    let s := r.cpu.run (threadSwitch L.currentThread)
    s.mem = ((r.saved L).store32 L.currentThread (L.thread u)).store32 (c.esp - 4) c.eflags ∧
      context s = { c with esp := c.esp + 4 } ∧ s.eip = s.mem.load32 c.esp := by
  have hlo := hc.lo
  have hhi := hc.hi
  have hbound := L.bound r.current
  have hsave : (r.cpu.run (threadSwitchSave L.currentThread)).mem = r.saved L :=
    run_save (by rw [h.current, h.areas]) hbound.2.1 (by omega) (by omega) h.words.2.2.2.2.2
  -- the argument and the variables are not in the area, nor below the stack
  have hword (a : ℕ) (ha : a + 4 ≤ L.area r.current ∨ L.area r.current + 24 ≤ a)
      (ha' : a + 4 ≤ L.lo r.current ∨ r.cpu.reg .esp ≤ a) :
        (r.saved L).load32 a = r.cpu.mem.load32 a :=
    Mem.load32_congr fun x hx hx' => hc.saved_apply (by omega) (by omega)
  have heax : (r.cpu.run (threadSwitchSave L.currentThread)).reg .eax = L.thread u := by
    have hsep := L.area_stack r.current r.current
    rw [eax_save, hsave, add32_eq (by omega), hword _ (by omega) (by omega), hc.arg]
  have harea : ((r.saved L).store32 L.currentThread (L.thread u)).load32 (L.thread u) =
    L.area u := by
    have hcur := L.current_thread u
    have hstack := L.thread_stack u r.current
    rw [Mem.load32_store32_of_disjoint (by omega),
      hword _ (L.thread_area u r.current) (by omega), h.areas]
  have hcontext : contextAt ((r.saved L).store32 L.currentThread (L.thread u)) (L.area u) =
      contextAt (r.saved L) (L.area u) := by
    have hcur := L.current_area u
    exact contextAt_congr fun x hx hx' => Mem.store32_apply_of_disjoint (by omega)
  have hres := h.resumable_saved hc u
  have hload := @run_load (r.cpu.run (threadSwitchSave L.currentThread)) (L.area u) L.currentThread
    (contextAt (r.saved L) (L.area u))
  rw [hsave, heax] at hload
  rw [threadSwitch, Cpu.run_append]
  have hbound' := L.bound u
  have hlo' := hres.lo
  have hhi' := hres.hi
  exact hload harea hbound'.2.1 hbound'.1 hcontext (by omega) (by omega)

/-- The memory after `thread_switch`, outside the variable and the stack of the thread that goes on.
    -/
theorem Suspended.mem_switch (h : Suspended L r) (hc : Calls L r.cpu r.current u)
    (hx : x < L.currentThread ∨ L.currentThread + 4 ≤ x)
    (hx' : x < L.lo u ∨ (contextAt (r.saved L) (L.area u)).esp ≤ x) :
    (r.cpu.run (threadSwitch L.currentThread)).mem x = r.saved L x := by
  have hlo := (h.resumable_saved hc u).lo
  rw [(h.run_switch hc).1, Mem.store32_apply_of_disjoint (by omega),
    Mem.store32_apply_of_disjoint (by omega)]

/-- The areas keep what the first half of `thread_switch` leaves in them. -/
theorem Suspended.contextAt_switch (h : Suspended L r) (hc : Calls L r.cpu r.current u) (v : T) :
    contextAt (r.cpu.run (threadSwitch L.currentThread)).mem (L.area v) =
      contextAt (r.saved L) (L.area v) := by
  refine contextAt_congr fun x hx hx' => h.mem_switch hc ?_ ?_
  · have := L.current_area v
    omega
  · have hsep := L.area_stack v u
    have hhi := (h.resumable_saved hc u).hi
    omega

/-- A stack is left alone from the saved stack pointer on. -/
theorem Suspended.stack_switch (h : Suspended L r) (hc : Calls L r.cpu r.current u)
    (hx : (contextAt (r.saved L) (L.area v)).esp ≤ x) (hx' : x < L.hi v) :
    (r.cpu.run (threadSwitch L.currentThread)).mem x = r.cpu.mem x := by
  have hlo := (h.resumable_saved hc v).lo
  have hcur := L.current_stack v
  have harea := L.area_stack r.current v
  rw [h.mem_switch hc (by omega), hc.saved_apply (by omega)]
  · by_cases hv : v = r.current
    · subst hv
      rw [h.contextAt_saved_current hc] at hx
      exact .inr hx
    · have hsep := L.stack_stack v r.current hv
      have hhi := hc.hi
      omega
  · by_cases hv : v = u
    · subst hv
      exact .inr hx
    · have hsep := L.stack_stack v u hv
      have hhi := (h.resumable_saved hc u).hi
      omega

theorem words_contextAt (m : Mem) (a : ℕ) : (contextAt m a).Words :=
  ⟨Mem.load32_lt .., Mem.load32_lt .., Mem.load32_lt .., Mem.load32_lt .., Mem.load32_lt ..,
    Mem.load32_lt ..⟩

theorem Suspended.switch (h : Suspended L r) (hc : Calls L r.cpu r.current u) :
    Suspended L ⟨r.cpu.run (threadSwitch L.currentThread), u⟩ := by
  have hrun := h.run_switch hc
  have hbound := L.bound u
  have hres := h.resumable_saved hc u
  have hlo := hres.lo
  have hhi := hres.hi
  refine ⟨?_, ?_, fun v => ?_, fun v _ => ?_⟩
  · rw [hrun.2.1]
    exact ⟨by dsimp only; omega, (words_contextAt ..).2⟩
  · have hcur := L.current_stack u
    rw [hrun.1, Mem.load32_store32_of_disjoint (by omega), Mem.load32_store32_of_lt hbound.1]
  · have hcur := L.current_thread v
    have hstack := L.thread_stack v u
    have hstack' := L.thread_stack v r.current
    have harea := L.thread_area v r.current
    have hesp := hc.hi
    rw [← h.areas v]
    exact Mem.load32_congr fun x hx hx' =>
      (h.mem_switch hc (by omega) (by omega)).trans (hc.saved_apply (by omega) (by omega))
  · have hv := h.resumable_saved hc v
    constructor
    · rw [h.contextAt_switch hc]
      exact hv.lo
    · rw [h.contextAt_switch hc]
      exact hv.hi

/-! ## Runs -/

/-- The thread `t`, which does not run, is in the memory `m'` as it is in `m`. -/
structure SameThread (L : Layout T) (t : T) (m m' : Mem) : Prop where
  context : contextAt m' (L.area t) = contextAt m (L.area t)
  stack : ∀ x, (contextAt m (L.area t)).esp ≤ x → x < L.hi t → m' x = m x

theorem SameThread.trans {m₁ m₂ m₃ : Mem} (h : SameThread L t m₁ m₂) (h' : SameThread L t m₂ m₃) :
    SameThread L t m₁ m₃ where
  context := h'.context.trans h.context
  stack x hx hx' := (h'.stack x (h.context ▸ hx) hx').trans (h.stack x hx hx')

/-- The work of a thread leaves the variables alone, and the other threads. -/
theorem Suspended.work (h : Suspended L r) {c : Cpu}
    (hmem : ∀ x, L.Reserved r.current x → c.mem x = r.cpu.mem x)
    (hwords : (Beryllium.context c).Words) :
    Suspended L { r with cpu := c } ∧ ∀ v, v ≠ r.current → SameThread L v r.cpu.mem c.mem := by
  have harea (v : T) : contextAt c.mem (L.area v) = contextAt r.cpu.mem (L.area v) :=
    contextAt_congr fun x hx hx' => hmem x (.inr ⟨v, .inr (.inl ⟨hx, hx'⟩)⟩)
  refine ⟨⟨hwords, ?_, fun v => ?_, fun v hv => ?_⟩, fun v hv => ⟨harea v, fun x hx hx' => ?_⟩⟩
  · exact (Mem.load32_congr fun x hx hx' => hmem x (.inl ⟨hx, hx'⟩)).trans h.current
  · exact (Mem.load32_congr fun x hx hx' => hmem x (.inr ⟨v, .inl ⟨hx, hx'⟩⟩)).trans (h.areas v)
  · have hres := h.resumable v hv
    exact ⟨(harea v).symm ▸ hres.lo, (harea v).symm ▸ hres.hi⟩
  · have hlo := (h.resumable v hv).lo
    exact hmem x (.inr ⟨v, .inr (.inr ⟨hv, by omega, hx'⟩)⟩)

theorem Suspended.step (h : Suspended L r) (hg : (switchSystem L).guard r op)
    (hs : (switchSystem L).step r op = some r') : Suspended L r' := by
  cases op with
  | work c =>
    cases hs
    exact (h.work hg.1 hg.2).1
  | switch u =>
    cases hs
    exact h.switch hg

/-- A thread that does not run is left alone by each step. -/
theorem Suspended.step_same (h : Suspended L r) (ht : t ≠ r.current) (hop : op ≠ .switch t)
    (hg : (switchSystem L).guard r op) (hs : (switchSystem L).step r op = some r') :
    t ≠ r'.current ∧ SameThread L t r.cpu.mem r'.cpu.mem := by
  cases op with
  | work c =>
    cases hs
    exact ⟨ht, (h.work hg.1 hg.2).2 t ht⟩
  | switch u =>
    cases hs
    refine ⟨fun htu => hop (htu ▸ rfl), ⟨?_, fun x hx hx' => ?_⟩⟩
    · rw [h.contextAt_switch hg, Calls.contextAt_saved hg ht]
    · rw [← Calls.contextAt_saved hg ht] at hx
      exact h.stack_switch hg hx hx'

/-- A thread that does not run is left alone until it is switched to. -/
theorem Suspended.run_same {ops : List (SwitchOp T)} (h : Suspended L r) (ht : t ≠ r.current)
    (hops : ∀ op ∈ ops, op ≠ .switch t) (hr : (switchSystem L).Run r ops r') :
    (Suspended L r' ∧ t ≠ r'.current) ∧ SameThread L t r.cpu.mem r'.cpu.mem := by
  refine (hr.restrict fun op hop _ => hops op hop).of_step
    (P := fun r' => (Suspended L r' ∧ t ≠ r'.current) ∧ SameThread L t r.cpu.mem r'.cpu.mem) ?_
    ⟨⟨h, ht⟩, rfl, fun _ _ _ => rfl⟩
  rintro r₁ op r₂ ⟨⟨h₁, ht₁⟩, hsame⟩ hg hs
  obtain ⟨ht₂, hsame'⟩ := h₁.step_same ht₁ hg.2 hg.1 hs
  exact ⟨⟨h₁.step hg.1 hs, ht₂⟩, hsame.trans hsame'⟩

/-- A thread that calls `thread_switch` goes on when it is switched to again: behind the call, with
    the registers, the flags and the stack that it had. -/
theorem thread_resumes (L : Layout T) {r r' : Switching T} {u : T} {ops : List (SwitchOp T)}
    (h : (switchSystem L).Reachable r) (hops : ∀ op ∈ .switch u :: ops, op ≠ .switch r.current)
    (hr : (switchSystem L).Run r (.switch u :: ops ++ [.switch r.current]) r') :
    r'.current = r.current ∧ context r'.cpu = { context r.cpu with esp := r.cpu.reg .esp + 4 } ∧
      r'.cpu.eip = r.cpu.top ∧
      ∀ x, r.cpu.reg .esp ≤ x → x < L.hi r.current → r'.cpu.mem x = r.cpu.mem x := by
  have hsus : Suspended L r :=
    h.of_step (P := Suspended L) (fun _ h => h) fun _ _ _ h hg hs => h.step hg hs
  obtain ⟨r₂, hr₂, hg', hs'⟩ := System.Run.of_snoc hr
  rcases hr₂ with _ | ⟨hg, hs, hrun⟩
  cases hs
  cases hs'
  -- the thread is left alone from the first switch to the last
  have hu : r.current ≠ u := fun hu => hops _ List.mem_cons_self (hu ▸ rfl)
  obtain ⟨⟨hsus₂, ht⟩, hsame⟩ :=
    (hsus.switch hg).run_same hu (fun op hop => hops op (.tail _ hop)) hrun
  have hsaved : contextAt r₂.cpu.mem (L.area r.current) = context r.cpu := by
    rw [hsame.context, hsus.contextAt_switch hg, hsus.contextAt_saved_current hg]
  have hresume : contextAt (r₂.saved L) (L.area r.current) = context r.cpu := by
    rw [Calls.contextAt_saved hg' ht, hsaved]
  have hstack (x : ℕ) (hx : r.cpu.reg .esp ≤ x) (hx' : x < L.hi r.current) :
      (r₂.cpu.run (threadSwitch L.currentThread)).mem x = r.cpu.mem x := by
    rw [hsus₂.stack_switch hg' (by rw [hresume]; exact hx) hx', hsame.stack x _ hx',
      hsus.stack_switch hg (by rw [hsus.contextAt_saved_current hg]; exact hx) hx']
    rw [hsus.contextAt_switch hg, hsus.contextAt_saved_current hg]
    exact hx
  have hlast := hsus₂.run_switch hg'
  rw [hresume] at hlast
  refine ⟨rfl, hlast.2.1, hlast.2.2.trans ?_, hstack⟩
  have hhi := (hg : Calls L r.cpu r.current u).hi
  exact Mem.load32_congr fun x hx hx' => hstack x hx (by simp only [context] at hx'; omega)

/-- Two threads. -/
def twoThreads : Layout Bool where
  currentThread := 0x1000
  thread t := if t then 0x3000 else 0x2000
  area t := if t then 0x3100 else 0x2100
  lo t := if t then 0x5000 else 0x4000
  hi t := if t then 0x6000 else 0x5000
  bound := by decide
  area_area := by decide
  stack_stack := by decide
  thread_area := by decide
  thread_stack := by decide
  area_stack := by decide
  current_thread := by decide
  current_area := by decide
  current_stack := by decide

/-- The first one runs, and is about to switch to the other one, which will switch back. -/
def twoThreadsStart : Switching Bool where
  current := false
  cpu :=
    let m : Mem := fun _ => 0
    { reg := fun r => if r = .esp then 0x4f00 else if r = .ebp then 7 else 0
      eflags := 0x202
      eip := 0x100
      mem := (((((((m.store32 0x1000 0x2000).store32 0x2000 0x2100).store32 0x3000 0x3100).store32
        0x3100 0x5f00).store32 0x5f00 0x1234).store32 0x5f08 0x2000).store32
        0x4f00 0x5678).store32 0x4f04 0x3000 }

theorem suspended_twoThreads : Suspended twoThreads twoThreadsStart where
  words := by
    refine ⟨?_, ?_, ?_, ?_, ?_, ?_⟩
    all_goals decide
  current := by decide
  areas := by decide
  resumable t ht := by
    cases t
    · exact absurd rfl ht
    · exact ⟨by decide, by decide⟩

theorem twoThreads_resume :
    let s := (twoThreadsStart.cpu.run (threadSwitch 0x1000)).run (threadSwitch 0x1000)
    context s = { context twoThreadsStart.cpu with esp := 0x4f04 } ∧ s.eip = 0x5678 := by
  have hcalls : Calls twoThreads twoThreadsStart.cpu false true := ⟨by decide, by decide, by decide⟩
  have hcalls' : Calls twoThreads (twoThreadsStart.cpu.run (threadSwitch 0x1000)) true false :=
    ⟨by decide +kernel, by decide +kernel, by decide +kernel⟩
  have hops : ∀ op ∈ [SwitchOp.switch true], op ≠ .switch twoThreadsStart.current := by
    simp [twoThreadsStart]
  have h := thread_resumes (r := twoThreadsStart) twoThreads
    ⟨_, [], suspended_twoThreads, .nil _⟩ hops (.cons hcalls rfl (.cons hcalls' rfl (.nil _)))
  exact ⟨h.2.1, h.2.2.1.trans (by decide)⟩

end Beryllium

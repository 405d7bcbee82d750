import Beryllium.Machine.Pic
import Beryllium.Machine.System
import Beryllium.X86.Stubs

/-!
# Interrupt requests

The handlers of `arch/x86/low/irq.c` and `arch/x86/low/isr.c`, with the interrupt controllers that
they program. A line requests an interrupt, the processor accepts it with a vector, and the stub of
the vector calls `irq_handler` or `fault_handler` with the `struct regs` of the interrupted program.
There are spurious interrupts too, for requests that are gone when they are accepted.

* `irq_refines`: the interrupt requests are those of a set of lines, of which the one with the
  highest priority is taken out and its handler called, and nothing else;
* `irq_drain`: no line is blocked for ever by one before, and the requests can be accepted in the
  order of their priorities until none is left.
-/

namespace Beryllium

attribute [local instance] Machine.neZero_lines

open Machine I386

variable {H : Type*}

/-! ## The handlers -/

/-- `irq_remap` -/
def irqRemap (p : Pics) : Pics :=
  let p := p.outb 0x20 0x11
  let p := p.outb 0xA0 0x11
  let p := p.outb 0x21 0x20
  let p := p.outb 0xA1 0x28
  let p := p.outb 0x21 0x04
  let p := p.outb 0xA1 0x02
  let p := p.outb 0x21 0x01
  let p := p.outb 0xA1 0x01
  let p := p.outb 0x21 0x0
  p.outb 0xA1 0x0

/-- The table `interrupt_handlers`, null entries being `none`, and the controllers, with the calls
    of handlers so far, and the exception that the kernel was halted for. -/
structure Irq (H : Type*) where
  interruptHandlers : ℕ → Option H
  pics : Pics
  calls : List (H × Regs)
  halted : Option (ℕ × String)

/-- `register_interrupt_handler` -/
def registerInterruptHandler (s : Irq H) (n : UInt8) (h : Option H) : Irq H :=
  { s with interruptHandlers := Function.update s.interruptHandlers n.toNat h }

/-- `deregister_interrupt_handler` -/
def deregisterInterruptHandler (s : Irq H) (n : UInt8) : Irq H :=
  { s with interruptHandlers := Function.update s.interruptHandlers n.toNat none }

/-- `irq_handler` -/
def irqHandler (s : Irq H) (r : Regs) : Irq H :=
  let intNo := r.intNo.toNat
  let s := match s.interruptHandlers intNo with
    | some h => { s with calls := s.calls ++ [(h, r)] }
    | none => s
  let s := if 40 ≤ intNo then { s with pics := s.pics.outb 0xA0 0x20 } else s
  { s with pics := s.pics.outb 0x20 0x20 }

/-- `exception_messages` -/
def exceptionMessages : List String :=
  ["Division By Zero", "Debug", "Non Maskable Interrupt", "Breakpoint", "Into Detected Overflow",
    "Out of Bounds", "Invalid Opcode", "No Coprocessor", "Double Fault",
      "Coprocessor Segment Overrun",
    "Bad TSS", "Segment Not Present", "Stack Fault", "General Protection Fault", "Page Fault",
    "Unknown Interrupt", "Coprocessor Fault", "Alignment Check", "Machine Check"] ++
    List.replicate 13 "Reserved"

/-- `fault_handler`, up to `hlt`: the interrupts are disabled, so that the processor stays there. -/
def faultHandler (s : Irq H) (r : Regs) : Irq H :=
  let intNo := r.intNo.toNat
  if h : intNo < exceptionMessages.length then
    let s := if intNo = 14 then irqHandler s r else s
    { s with halted := some (intNo, exceptionMessages[intNo]) }
  else irqHandler s r

/-- What the stub for a vector calls. -/
def interrupted (s : Irq H) (n : ℕ) (r : Regs) : Irq H :=
  if n < 32 then faultHandler s r else irqHandler s r

/-! ## The system -/

/-- What happens: a handler is entered into the table, or taken out of it, a line requests an
    interrupt or takes the request back, the processor is interrupted for a line, or for none, or by
    an exception. -/
inductive IrqOp (H : Type*)
  | register (n : UInt8) (h : Option H)
  | deregister (n : UInt8)
  | raise (k : Fin 16)
  | withdraw (k : Fin 16)
  | accept (n : ℕ) (cpu : Cpu)
  | spurious (slave : Bool) (cpu : Cpu)
  | fault (n : ℕ) (err : BitVec 32) (cpu : Cpu)

/-- A line of the controllers is changed, by `f`. -/
def onLine (p : Pics) (f : Pic → Fin 8 → Pic) (k : Fin 16) : Pics :=
  if h : k.1 < 8 then { p with master := f p.master ⟨k, h⟩ }
  else { p with slave := f p.slave ⟨k - 8, by omega⟩ }

/-- The interrupt requests, from the initialisation of the controllers on. -/
def irqSystem (H : Type*) : System (Irq H) (IrqOp H) where
  init s := ∃ p : Pics, p.master.service = ∅ ∧ p.slave.service = ∅ ∧
    s = { interruptHandlers := fun _ => none, pics := irqRemap p, calls := [], halted := none }
  guard s op := s.halted = none ∧
    match op with
    | .raise k | .withdraw k => k ≠ 2
    | .accept n _ => ∃ p, s.pics.accept = some (n, p)
    | .fault n _ _ => n < 32
    | _ => True
  step s
    | .register n h => some (registerInterruptHandler s n h)
    | .deregister n => some (deregisterInterruptHandler s n)
    | .raise k => some { s with pics := onLine s.pics Pic.raise k }
    | .withdraw k => some { s with pics := onLine s.pics Pic.withdraw k }
    | .accept n cpu => s.pics.accept.map fun a =>
        interrupted { s with pics := a.2 } n (Regs.of cpu n 0)
    | .spurious false cpu =>
        let n := s.pics.master.vector 7
        some (interrupted s n (Regs.of cpu n 0))
    | .spurious true cpu =>
        -- the master has accepted a request of the slave
        let n := s.pics.slave.vector 7
        some (interrupted { s with pics.master := s.pics.master.acknowledge 2 } n (Regs.of cpu n 0))
    | .fault n err cpu => some (interrupted s n (Regs.of cpu n err))

/-! ## A set of lines -/

/-- The interrupt requests in the abstract: the handlers of the vectors, the lines with a request,
    and the calls so far. -/
structure Lines (H : Type*) where
  handler : ℕ → Option H
  pending : Finset (Fin 16)
  calls : List (H × Regs)
  stopped : Bool

/-- The order of the lines: the ones of the slave take the place of line 2. -/
def linePriority (k : Fin 16) : ℕ := if k.1 < 2 then k else if 8 ≤ k.1 then k - 6 else k + 7

/-- The handler of a vector is called, if there is one. -/
def Lines.call (x : Lines H) (n : ℕ) (r : Regs) : Lines H :=
  { x with calls := x.calls ++ ((x.handler n).map fun h => (h, r)).toList }

def linesSystem (H : Type*) : System (Lines H) (IrqOp H) where
  init x := x = { handler := fun _ => none, pending := ∅, calls := [], stopped := false }
  guard x op := x.stopped = false ∧
    match op with
    | .raise k | .withdraw k => k ≠ 2
    | .accept n _ => ∃ k ∈ x.pending, n = 32 + k ∧ ∀ j ∈ x.pending, linePriority k ≤ linePriority j
    | .fault n _ _ => n < 32
    | _ => True
  step x
    | .register n h => some { x with handler := Function.update x.handler n.toNat h }
    | .deregister n => some { x with handler := Function.update x.handler n.toNat none }
    | .raise k => some { x with pending := insert k x.pending }
    | .withdraw k => some { x with pending := x.pending.erase k }
    | .accept n cpu => some { x.call n (Regs.of cpu n 0) with
        pending := x.pending.filter fun k => n ≠ 32 + k }
    | .spurious slave cpu =>
        let n := if slave then 47 else 39
        some (x.call n (Regs.of cpu n 0))
    | .fault n err cpu => some
        { (if n = 14 then x.call n (Regs.of cpu n err) else x) with stopped := true }

/-- The lines of the master. -/
def masterLine (i : Fin 8) : Fin 16 := ⟨i, by omega⟩

/-- The lines of the slave. -/
def slaveLine (i : Fin 8) : Fin 16 := ⟨i + 8, by omega⟩

/-- The state of the handlers and the controllers, as lines. -/
structure IsLines (s : Irq H) (x : Lines H) : Prop where
  quiet : s.pics.Quiet
  masterBase : s.pics.master.base = 0x20
  slaveBase : s.pics.slave.base = 0x28
  handler : s.interruptHandlers = x.handler
  calls : s.calls = x.calls
  stopped : s.halted = none ↔ x.stopped = false
  master : ∀ i : Fin 8, i ∈ s.pics.master.request ↔ masterLine i ∈ x.pending
  slave : ∀ i : Fin 8, i ∈ s.pics.slave.request ↔ slaveLine i ∈ x.pending

/-! ## What the handlers do -/

/-- The controllers after `irq_remap`, whatever they were doing before. -/
theorem irqRemap_eq (p : Pics) : irqRemap p =
    { master := ⟨0x20, 0, 4, 1, false, true, .ready, ∅, p.master.service⟩
      slave := ⟨0x28, 0, 2, 1, false, true, .ready, ∅, p.slave.service⟩ } := rfl

/-- What `irq_handler` does to the controllers. -/
def endOfInterrupt (n : ℕ) (p : Pics) : Pics :=
  { master := p.master.eoi, slave := if 40 ≤ n then p.slave.eoi else p.slave }

theorem irqHandler_eq (s : Irq H) (r : Regs) : irqHandler s r =
    { s with
      pics := endOfInterrupt r.intNo.toNat s.pics
      calls := s.calls ++ ((s.interruptHandlers r.intNo.toNat).map fun h => (h, r)).toList } := by
  rw [irqHandler, endOfInterrupt]
  cases s.interruptHandlers r.intNo.toNat with
  | none => by_cases h : 40 ≤ r.intNo.toNat <;> simp [h] <;> rfl
  | some f => by_cases h : 40 ≤ r.intNo.toNat <;> simp [h] <;> rfl

theorem intNo_of {cpu : Cpu} {n : ℕ} {err : BitVec 32} (h : n < 4294967296) :
    (Regs.of cpu n err).intNo.toNat = n := by
  rw [Regs.of, BitVec.toNat_ofNat]
  exact Nat.mod_eq_of_lt h

/-- The stub of an interrupt request calls its handler. -/
theorem interrupted_eq (s : Irq H) {cpu : Cpu} {n : ℕ} (h : 32 ≤ n) (h' : n < 48) :
    interrupted s n (Regs.of cpu n 0) =
    { s with
      pics := endOfInterrupt n s.pics
      calls := s.calls ++ ((s.interruptHandlers n).map fun f => (f, Regs.of cpu n 0)).toList } := by
  rw [interrupted, if_neg (by omega), irqHandler_eq, intNo_of (by omega)]

/-! ## The lines behind the controllers -/

/-- A line is one of the master or of the slave. -/
theorem line_cases (k : Fin 16) : (∃ i, k = masterLine i) ∨ ∃ i, k = slaveLine i := by
  by_cases h : k.1 < 8
  · exact .inl ⟨⟨k, h⟩, rfl⟩
  · refine .inr ⟨⟨k - 8, by omega⟩, Fin.ext ?_⟩
    simp only [slaveLine]
    omega

theorem masterLine_inj {i j : Fin 8} : masterLine i = masterLine j ↔ i = j := by
  simp [masterLine, Fin.ext_iff]

theorem slaveLine_inj {i j : Fin 8} : slaveLine i = slaveLine j ↔ i = j := by
  simp [slaveLine, Fin.ext_iff]

theorem masterLine_ne_slaveLine (i j : Fin 8) : masterLine i ≠ slaveLine j := by
  simp only [masterLine, slaveLine, ne_eq, Fin.mk.injEq]
  omega

theorem onLine_masterLine (p : Pics) (f : Pic → Fin 8 → Pic) (i : Fin 8) :
    onLine p f (masterLine i) = { p with master := f p.master i } := dif_pos i.isLt

theorem onLine_slaveLine (p : Pics) (f : Pic → Fin 8 → Pic) (i : Fin 8) :
    onLine p f (slaveLine i) = { p with slave := f p.slave i } := by
  rw [onLine, dif_neg (by simp [slaveLine])]
  rfl

/-- The priorities of the lines, as the controllers have them. -/
theorem linePriority_master : ∀ i j : Fin 8, i ≠ 2 → j ≠ 2 → i ≤ j →
    linePriority (masterLine i) ≤ linePriority (masterLine j) := by decide

theorem linePriority_slave : ∀ i j : Fin 8, i ≤ j →
    linePriority (slaveLine i) ≤ linePriority (slaveLine j) := by decide

theorem linePriority_master_slave : ∀ i j : Fin 8, i < 2 →
    linePriority (masterLine i) ≤ linePriority (slaveLine j) := by decide

theorem linePriority_slave_master : ∀ i j : Fin 8, 2 < j →
    linePriority (slaveLine i) ≤ linePriority (masterLine j) := by decide

namespace IsLines

variable {s : Irq H} {x : Lines H} {cpu : Cpu} {n : ℕ} {p : Pics} (h : IsLines s x)
include h

/-- Other requests. -/
theorem of_requests {A B : Finset (Fin 8)} {P : Finset (Fin 16)} (h2 : 2 ∉ A)
    (hA : ∀ i, i ∈ A ↔ masterLine i ∈ P) (hB : ∀ i, i ∈ B ↔ slaveLine i ∈ P) :
    IsLines
      { s with pics := ⟨{ s.pics.master with request := A }, { s.pics.slave with request := B }⟩ }
      { x with pending := P } :=
  ⟨⟨h.quiet.1, h.quiet.2, h.quiet.3, h.quiet.4, h2⟩, h.masterBase, h.slaveBase, h.handler, h.calls,
    h.stopped, hA, hB⟩

theorem withdraw (k : Fin 16) :
    IsLines { s with pics := onLine s.pics Pic.withdraw k }
    { x with pending := x.pending.erase k } := by
  obtain ⟨i, rfl⟩ | ⟨i, rfl⟩ := line_cases k
  · rw [onLine_masterLine]
    refine h.of_requests (fun h2 => h.quiet.cascade (Finset.mem_of_mem_erase h2)) (fun j => ?_)
      fun j => ?_
    · rw [Finset.mem_erase, Finset.mem_erase, h.master, ne_eq, ne_eq, masterLine_inj]
    · rw [Finset.mem_erase, h.slave, and_iff_right (masterLine_ne_slaveLine i j).symm]
  · rw [onLine_slaveLine]
    refine h.of_requests h.quiet.cascade (fun j => ?_) fun j => ?_
    · rw [Finset.mem_erase, h.master, and_iff_right (masterLine_ne_slaveLine j i)]
    · rw [Finset.mem_erase, Finset.mem_erase, h.slave, ne_eq, ne_eq, slaveLine_inj]

theorem raise {k : Fin 16} (hk : k ≠ 2) :
    IsLines { s with pics := onLine s.pics Pic.raise k }
    { x with pending := insert k x.pending } := by
  obtain ⟨i, rfl⟩ | ⟨i, rfl⟩ := line_cases k
  · rw [onLine_masterLine]
    refine h.of_requests (fun h2 => ?_) (fun j => ?_) fun j => ?_
    · obtain h2 | h2 := Finset.mem_insert.1 h2
      · exact hk (h2 ▸ rfl)
      · exact h.quiet.cascade h2
    · rw [Finset.mem_insert, Finset.mem_insert, h.master, masterLine_inj]
    · rw [Finset.mem_insert, h.slave, or_iff_right (masterLine_ne_slaveLine i j).symm]
  · rw [onLine_slaveLine]
    refine h.of_requests h.quiet.cascade (fun j => ?_) fun j => ?_
    · rw [Finset.mem_insert, h.master, or_iff_right (masterLine_ne_slaveLine j i)]
    · rw [Finset.mem_insert, Finset.mem_insert, h.slave, slaveLine_inj]

theorem master_vector (i : Fin 8) : s.pics.master.vector i = 32 + i := by
  rw [Pic.vector, h.masterBase]
  rfl

theorem slave_vector (i : Fin 8) : s.pics.slave.vector i = 40 + i := by
  rw [Pic.vector, h.slaveBase]
  rfl

/-- The request that is accepted is on the line with the highest priority, and when its handler is
    done it is as if the request had been taken back. -/
theorem accept (ha : s.pics.accept = some (n, p)) :
    ∃ k ∈ x.pending, n = 32 + k.1 ∧ (∀ j ∈ x.pending, linePriority k ≤ linePriority j) ∧
      endOfInterrupt n p = onLine s.pics Pic.withdraw k := by
  have htwo : 2 ∉ s.pics.master.request := h.quiet.cascade
  rcases h.quiet.accept_cases ha with ⟨i, hi, rfl, rfl, hle, hslave⟩ |
    ⟨i, hi, rfl, rfl, hle, hmaster⟩
  · have hv : s.pics.master.vector i = 32 + i.1 := h.master_vector i
    refine ⟨masterLine i, (h.master i).1 hi, hv, fun k hk => ?_, ?_⟩
    · obtain ⟨j, rfl⟩ | ⟨j, rfl⟩ := line_cases k
      · have hj := (h.master j).2 hk
        exact linePriority_master i j (fun he => htwo (he ▸ hi)) (fun he => htwo (he ▸ hj))
          (hle j hj)
      · have hj := (h.slave j).2 hk
        exact linePriority_master_slave i j (hslave (Finset.ne_empty_of_mem hj))
    · rw [endOfInterrupt, Pic.eoi_acknowledge h.quiet.masterService, hv, if_neg (by omega),
        onLine_masterLine]
  · have hv : s.pics.slave.vector i = 40 + i.1 := h.slave_vector i
    refine ⟨slaveLine i, (h.slave i).1 hi, ?_, fun k hk => ?_, ?_⟩
    · have hline : (slaveLine i).1 = i.1 + 8 := rfl
      omega
    · obtain ⟨j, rfl⟩ | ⟨j, rfl⟩ := line_cases k
      · exact linePriority_slave_master i j (hmaster j ((h.master j).2 hk))
      · exact linePriority_slave i j (hle j ((h.slave j).2 hk))
    · -- both controllers are told
      rw [endOfInterrupt, Pic.eoi_acknowledge h.quiet.masterService,
        Pic.withdraw_of_notMem htwo, hv,
        if_pos (by omega), Pic.eoi_acknowledge h.quiet.slaveService, onLine_slaveLine]

/-- The ends of interrupts do nothing if none is in service. -/
theorem endOfInterrupt_eq (n : ℕ) : endOfInterrupt n s.pics = s.pics := by
  rw [endOfInterrupt, Pic.eoi_empty h.quiet.masterService, Pic.eoi_empty h.quiet.slaveService,
    ite_self]

/-- A spurious interrupt of the slave, which the master takes for one. -/
theorem endOfInterrupt_slave :
    endOfInterrupt 47 { s.pics with master := s.pics.master.acknowledge 2 } = s.pics := by
  rw [endOfInterrupt, Pic.eoi_acknowledge h.quiet.masterService,
    Pic.withdraw_of_notMem h.quiet.cascade, Pic.eoi_empty h.quiet.slaveService, ite_self]

theorem setHandler (k : ℕ) (f : Option H) :
    IsLines { s with interruptHandlers := Function.update s.interruptHandlers k f }
      { x with handler := Function.update x.handler k f } :=
  ⟨h.quiet, h.masterBase, h.slaveBase, congrArg (Function.update · k f) h.handler, h.calls,
    h.stopped, h.master, h.slave⟩

/-- The handler of an interrupt that is in service nowhere. -/
theorem call (n : ℕ) (r : Regs) : IsLines
    { s with calls := s.calls ++ ((s.interruptHandlers n).map fun f => (f, r)).toList }
    (x.call n r) :=
  ⟨h.quiet, h.masterBase, h.slaveBase, h.handler, by rw [Lines.call, h.calls, h.handler], h.stopped,
    h.master, h.slave⟩

end IsLines

/-- What it does to accept a request. -/
theorem IsLines.accept_step {s : Irq H} {x : Lines H} {n : ℕ} (h : IsLines s x) (cpu : Cpu)
    (ha : ∃ p, s.pics.accept = some (n, p)) :
    ∃ k ∈ x.pending, n = 32 + k.1 ∧ (∀ j ∈ x.pending, linePriority k ≤ linePriority j) ∧
      (irqSystem H).step s (.accept n cpu) = some { s with
        pics := onLine s.pics Pic.withdraw k
        calls := s.calls ++ ((s.interruptHandlers n).map fun f => (f, Regs.of cpu n 0)).toList
          } := by
  obtain ⟨p, hp⟩ := ha
  obtain ⟨k, hk, rfl, hle, hend⟩ := h.accept hp
  have hst : (irqSystem H).step s (.accept (32 + k) cpu) =
      some (interrupted { s with pics := p } (32 + k) (Regs.of cpu (32 + k) 0)) :=
    congrArg (Option.map _) hp
  refine ⟨k, hk, rfl, hle, ?_⟩
  rw [hst, interrupted_eq _ (by omega) (by omega), hend]

/-- What happens to the controllers and the handlers happens to the lines. -/
theorem irq_step {s s' : Irq H} {x : Lines H} {op : IrqOp H} (h : IsLines s x)
    (hg : (irqSystem H).guard s op) (hs : (irqSystem H).step s op = some s') :
    ∃ x', (linesSystem H).guard x op ∧ (linesSystem H).step x op = some x' ∧ IsLines s' x' := by
  obtain ⟨hrun, hg⟩ := hg
  have hgo : x.stopped = false := h.stopped.1 hrun
  cases op with
  | register n f =>
    cases hs
    exact ⟨_, ⟨hgo, trivial⟩, rfl, h.setHandler n.toNat f⟩
  | deregister n =>
    cases hs
    exact ⟨_, ⟨hgo, trivial⟩, rfl, h.setHandler n.toNat none⟩
  | raise k =>
    cases hs
    exact ⟨_, ⟨hgo, hg⟩, rfl, h.raise hg⟩
  | withdraw k =>
    cases hs
    exact ⟨_, ⟨hgo, hg⟩, rfl, h.withdraw k⟩
  | accept n cpu =>
    obtain ⟨k, hk, rfl, hle, hst⟩ := h.accept_step cpu hg
    rw [hst] at hs
    cases hs
    have hpend : (x.pending.filter fun j => 32 + k.1 ≠ 32 + j.1) = x.pending.erase k := by
      ext j
      rw [Finset.mem_filter, Finset.mem_erase, ne_eq, ne_eq, Nat.add_left_cancel_iff,
        ← Fin.ext_iff, eq_comm, and_comm]
    refine ⟨_, ⟨hgo, k, hk, rfl, hle⟩, rfl, ?_⟩
    rw [hpend]
    exact (h.withdraw k).call (32 + k) (Regs.of cpu (32 + k) 0)
  | spurious slave cpu =>
    cases slave with
    | false =>
      have hv : s.pics.master.vector 7 = 39 := h.master_vector 7
      have hst : (irqSystem H).step s (.spurious false cpu) =
          some (interrupted s (s.pics.master.vector 7) (Regs.of cpu (s.pics.master.vector 7) 0)) :=
            rfl
      rw [hst, hv, interrupted_eq _ (by decide) (by decide), h.endOfInterrupt_eq] at hs
      cases hs
      exact ⟨_, ⟨hgo, trivial⟩, rfl, h.call 39 _⟩
    | true =>
      have hv : s.pics.slave.vector 7 = 47 := h.slave_vector 7
      have hst : (irqSystem H).step s (.spurious true cpu) =
          some (interrupted { s with pics.master := s.pics.master.acknowledge 2 }
            (s.pics.slave.vector 7) (Regs.of cpu (s.pics.slave.vector 7) 0)) := rfl
      rw [hst, hv, interrupted_eq _ (by decide) (by decide), h.endOfInterrupt_slave] at hs
      cases hs
      exact ⟨_, ⟨hgo, trivial⟩, rfl, h.call 47 _⟩
  | fault n err cpu =>
    have hn : n < 32 := hg
    have hint : (Regs.of cpu n err).intNo.toNat = n := intNo_of (by omega)
    have hst : (irqSystem H).step s (.fault n err cpu) =
        some (interrupted s n (Regs.of cpu n err)) := rfl
    rw [hst, interrupted, if_pos hn, faultHandler, dif_pos (by rw [hint]; exact hn),
      irqHandler_eq] at hs
    simp only [hint, h.endOfInterrupt_eq] at hs
    cases hs
    refine ⟨_, ⟨hgo, hg⟩, rfl, ?_⟩
    by_cases h14 : n = 14
    · have hcall := h.call n (Regs.of cpu n err)
      rw [if_pos h14, if_pos h14]
      exact ⟨hcall.quiet, hcall.masterBase, hcall.slaveBase, hcall.handler, hcall.calls,
        by simp, hcall.master, hcall.slave⟩
    · rw [if_neg h14, if_neg h14]
      exact ⟨h.quiet, h.masterBase, h.slaveBase, h.handler, h.calls, by simp, h.master, h.slave⟩

theorem irq_init {s : Irq H} (h : (irqSystem H).init s) :
    ∃ x, (linesSystem H).init x ∧ IsLines s x := by
  obtain ⟨p, hm, hs, rfl⟩ := h
  refine ⟨_, rfl, ⟨rfl, rfl, hm, hs, by simp [irqRemap_eq]⟩, rfl, rfl, rfl, rfl, by simp, ?_, ?_⟩
  · simp [irqRemap_eq]
  · simp [irqRemap_eq]

/-- The interrupt requests are those of a set of lines: in every run from the initialisation of the
    controllers, the request with the highest priority is taken out of the set and its handler
    called, and nothing is in service between two operations. -/
theorem irq_refines (s₀ s : Irq H) (ops : List (IrqOp H)) (h₀ : (irqSystem H).init s₀)
    (h : (irqSystem H).Run s₀ ops s) :
    ∃ x₀ x, (linesSystem H).init x₀ ∧ (linesSystem H).Run x₀ ops x ∧ IsLines s x := by
  obtain ⟨x₀, hx₀, hlines⟩ := irq_init h₀
  obtain ⟨x, hrun, hx⟩ := h.simulates (fun s x op s' hx hg hs => irq_step hx hg hs) hlines
  exact ⟨x₀, x, hx₀, hrun, hx⟩

/-! ## No request is blocked -/

/-- The lines with a request. -/
def requests (p : Pics) : Finset (Fin 16) :=
  p.master.request.image masterLine ∪ p.slave.request.image slaveLine

theorem IsLines.requests_eq {s : Irq H} {x : Lines H} (h : IsLines s x) :
    requests s.pics = x.pending := by
  ext k
  rw [requests, Finset.mem_union, Finset.mem_image, Finset.mem_image]
  obtain ⟨i, rfl⟩ | ⟨i, rfl⟩ := line_cases k
  · simp [masterLine_inj, h.master, (masterLine_ne_slaveLine i _).symm]
  · simp [slaveLine_inj, h.slave, masterLine_ne_slaveLine]

theorem IsLines.request_ne {s : Irq H} {x : Lines H} {k : Fin 16} (h : IsLines s x)
    (hk : k ∈ x.pending) : s.pics.master.request ≠ ∅ ∨ s.pics.slave.request ≠ ∅ := by
  obtain ⟨i, rfl⟩ | ⟨i, rfl⟩ := line_cases k
  · exact .inl (Finset.ne_empty_of_mem ((h.master i).2 hk))
  · exact .inr (Finset.ne_empty_of_mem ((h.slave i).2 hk))

/-- The calls that are made for the lines. -/
def callsFor (handlers : ℕ → Option H) (cpu : Cpu) (ks : List (Fin 16)) : List (H × Regs) :=
  ks.filterMap fun k : Fin 16 => (handlers (32 + k.1)).map fun f => (f, Regs.of cpu (32 + k.1) 0)

theorem callsFor_cons (handlers : ℕ → Option H) (cpu : Cpu) (k : Fin 16) (ks : List (Fin 16)) :
    callsFor handlers cpu (k :: ks) =
      ((handlers (32 + k.1)).map fun f => (f, Regs.of cpu (32 + k.1) 0)).toList ++
        callsFor handlers cpu ks := by
  rw [callsFor, List.filterMap_cons]
  cases handlers (32 + k.1) <;> rfl

theorem IsLines.drain {s : Irq H} {x : Lines H} (h : IsLines s x) (hrun : s.halted = none)
    (cpu : Cpu) : ∃ (ks : List (Fin 16)) (s' : Irq H), ks.Nodup ∧ ks.toFinset = requests s.pics ∧
      ks.Pairwise (fun j k => linePriority j ≤ linePriority k) ∧
      (irqSystem H).Run s (ks.map fun k : Fin 16 => .accept (32 + k.1) cpu) s' ∧
      requests s'.pics = ∅ ∧ s'.calls = s.calls ++ callsFor s.interruptHandlers cpu ks := by
  induction hc : x.pending.card generalizing s x with
  | zero =>
    have hempty : requests s.pics = ∅ := h.requests_eq.trans (Finset.card_eq_zero.1 hc)
    exact ⟨[], s, .nil, hempty.symm, .nil, .nil s, hempty, (List.append_nil _).symm⟩
  | succ c ih =>
    -- the first request is accepted
    obtain ⟨l, hl⟩ : x.pending.Nonempty := Finset.card_pos.1 (by omega)
    obtain ⟨⟨n, p⟩, ha⟩ := Option.isSome_iff_exists.1 (h.quiet.accept_isSome.2 (h.request_ne hl))
    obtain ⟨k, hk, rfl, hle, hst⟩ := h.accept_step cpu ⟨p, ha⟩
    have hnext := (h.withdraw k).call (32 + k) (Regs.of cpu (32 + k) 0)
    have hcard : (x.pending.erase k).card = c := by
      rw [Finset.card_erase_of_mem hk, hc]
      rfl
    obtain ⟨ks, s', hnodup, hks, hsort, hruns, hempty, hcalls⟩ := ih hnext hrun hcard
    have hmem : ∀ j, j ∈ ks ↔ j ≠ k ∧ j ∈ x.pending := fun j => by
      rw [← List.mem_toFinset, hks, hnext.requests_eq]
      exact Finset.mem_erase
    refine ⟨k :: ks, s', List.nodup_cons.2 ⟨fun hmk => ((hmem k).1 hmk).1 rfl, hnodup⟩, ?_,
      List.pairwise_cons.2 ⟨fun j hj => hle j ((hmem j).1 hj).2, hsort⟩,
      .cons ⟨hrun, p, ha⟩ hst hruns, hempty, ?_⟩
    · rw [List.toFinset_cons, hks, hnext.requests_eq, h.requests_eq]
      exact Finset.insert_erase hk
    · rw [hcalls, List.append_assoc, callsFor_cons]

/-- No line is blocked for ever by one before: in every state that is reached, until the kernel is
    halted, the requests can be accepted, each once and in the order of the priorities of their
    lines, until none is left, and exactly their handlers are called. -/
theorem irq_drain (s : Irq H) (h : (irqSystem H).Reachable s) (hrun : s.halted = none) (cpu : Cpu) :
    ∃ (ks : List (Fin 16)) (s' : Irq H), ks.Nodup ∧ ks.toFinset = requests s.pics ∧
      ks.Pairwise (fun j k => linePriority j ≤ linePriority k) ∧
      (irqSystem H).Run s (ks.map fun k : Fin 16 => .accept (32 + k.1) cpu) s' ∧
      requests s'.pics = ∅ ∧ s'.calls = s.calls ++ callsFor s.interruptHandlers cpu ks := by
  obtain ⟨s₀, ops, h₀, hops⟩ := h
  obtain ⟨x₀, hx₀, hlines⟩ := irq_init h₀
  obtain ⟨x, -, hx⟩ := hops.simulates (fun s x op s' hx hg hs => irq_step hx hg hs) hlines
  exact hx.drain hrun cpu

/-! ## Two requests -/

/-- A controller after its reset. -/
def resetPic : Pic := ⟨0, 0, 0, 0, false, false, .ready, ∅, ∅⟩

/-- The state after `irq_remap`. -/
def bootIrq : Irq ℕ := ⟨fun _ => none, irqRemap ⟨resetPic, resetPic⟩, [], none⟩

theorem bootIrq_init : (irqSystem ℕ).init bootIrq := ⟨⟨resetPic, resetPic⟩, rfl, rfl, rfl⟩

/-- A handler for the keyboard, and requests on a line of the slave and on that of the keyboard. -/
def someRequests : List (IrqOp ℕ) := [.register 33 (some 7), .raise 9, .raise 1]

def someIrq : Irq ℕ where
  interruptHandlers := Function.update (fun _ => none) 33 (some 7)
  pics := onLine (onLine bootIrq.pics Pic.raise 9) Pic.raise 1
  calls := []
  halted := none

theorem someIrq_run : (irqSystem ℕ).Run bootIrq someRequests someIrq :=
  .cons ⟨rfl, trivial⟩ rfl (.cons ⟨rfl, by decide⟩ rfl (.cons ⟨rfl, by decide⟩ rfl (.nil _)))

/-- As lines, when both are accepted: that of the keyboard first. -/
theorem someIrq_lines : ∃ s x₀ x, (linesSystem ℕ).init x₀ ∧
    (linesSystem ℕ).Run x₀
      (someRequests ++ [.accept 33 countingStart, .accept 41 countingStart]) x ∧
    s.calls.map Prod.fst = [7] ∧ IsLines s x := by
  have hrun : (irqSystem ℕ).Run bootIrq
      (someRequests ++ [.accept 33 countingStart, .accept 41 countingStart]) _ :=
    someIrq_run.append (.cons ⟨rfl, _, rfl⟩ rfl (.cons ⟨rfl, _, rfl⟩ rfl (.nil _)))
  obtain ⟨x₀, x, hinit, hlines, hx⟩ := irq_refines bootIrq _ _ bootIrq_init hrun
  exact ⟨_, x₀, x, hinit, hlines, rfl, hx⟩

/-- Both are accepted. -/
theorem someIrq_drain : requests someIrq.pics = {1, 9} ∧
    ∃ (ks : List (Fin 16)) (s' : Irq ℕ), ks.Nodup ∧ ks.toFinset = requests someIrq.pics ∧
      ks.Pairwise (fun j k => linePriority j ≤ linePriority k) ∧
      (irqSystem ℕ).Run someIrq (ks.map fun k : Fin 16 => .accept (32 + k.1) countingStart) s' ∧
      requests s'.pics = ∅ ∧
      s'.calls = someIrq.calls ++ callsFor someIrq.interruptHandlers countingStart ks :=
  ⟨by decide, irq_drain someIrq ⟨bootIrq, someRequests, bootIrq_init, someIrq_run⟩ rfl
    countingStart⟩

end Beryllium

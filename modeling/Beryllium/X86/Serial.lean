import Beryllium.Machine.Transmitter

/-!
# The serial port

`arch/x86/drivers/serial.c` with a controller of the type 16550, which has queues of 16 characters
once `serial_start` has turned them on. The kernel prints from interrupt handlers too, which may
come between the poll of `serial_write` and its write.

* `serial_lossless`: as long as no more than 16 writers are nested, everything that is printed goes
  over the line, each text in its order.
-/

namespace Beryllium

open Machine

/-! ## The controller -/

/-- The registers of the controller, whether its queues are on, the characters that wait to be sent,
    those that were sent, and those that were received. -/
structure Uart where
  ier : UInt8
  lcr : UInt8
  mcr : UInt8
  dll : UInt8
  dlm : UInt8
  fifos : Bool
  thr : List UInt8
  wire : List UInt8
  rbr : List UInt8

/-- `COM1` -/
def com1Port : ℕ := 0x3F8

namespace Uart

variable (u : Uart)

/-- The divisor is accessed in the place of the data and of the interrupt enable register. -/
def dlab : Bool := u.lcr &&& 0x80 ≠ 0

/-- A character to send. Without the queues, it takes the place of one that waits. -/
def transmit (v : UInt8) : Uart :=
  if u.fifos then if u.thr.length < 16 then { u with thr := u.thr ++ [v] } else u
  else { u with thr := [v] }

/-- The control register of the queues: they are cleared on request, and when they are turned on or
    off. -/
def fifoControl (v : UInt8) : Uart :=
  let on : Bool := v &&& 0x01 ≠ 0
  { u with
    fifos := on
    thr := if v &&& 0x04 ≠ 0 ∨ on ≠ u.fifos then [] else u.thr
    rbr := if v &&& 0x02 ≠ 0 ∨ on ≠ u.fifos then [] else u.rbr }

/-- `outb` to a port of the controller. -/
def outb (port : ℕ) (v : UInt8) : Uart :=
  if port = com1Port then if u.dlab then { u with dll := v } else u.transmit v
  else if port = com1Port + 1 then if u.dlab then { u with dlm := v } else { u with ier := v }
  else if port = com1Port + 2 then u.fifoControl v
  else if port = com1Port + 3 then { u with lcr := v }
  else if port = com1Port + 4 then { u with mcr := v }
  else u

/-- `inb` from the line status register: characters were received, and all are sent. -/
def lineStatus : UInt8 := (if u.rbr = [] then 0 else 0x01) ||| (if u.thr = [] then 0x60 else 0)

/-- The controller sends a character. -/
def shift : Uart :=
  match u.thr with
  | [] => u
  | c :: cs => { u with thr := cs, wire := u.wire ++ [c] }

end Uart

/-! ## The driver -/

/-- `serial_start` -/
def serialStart (u : Uart) : Uart :=
  let u := u.outb (com1Port + 1) 0x00
  let u := u.outb (com1Port + 3) 0x80
  let u := u.outb (com1Port + 0) 0x03
  let u := u.outb (com1Port + 1) 0x00
  let u := u.outb (com1Port + 3) 0x03
  let u := u.outb (com1Port + 2) 0xC7
  u.outb (com1Port + 4) 0x0B

/-- `serial_is_transmit_empty` -/
def serialIsTransmitEmpty (u : Uart) : UInt8 := u.lineStatus &&& 0x20

/-- The end of `serial_write`, after its loop. -/
def serialOut (u : Uart) (a : UInt8) : Uart := u.outb com1Port a

/-- The controller once it is started. -/
abbrev Com1 := { u : Uart // u.lcr = 0x03 ∧ u.fifos = true }

/-- `serial_start` sets the divisor to 3 and the line to 8 data bits, and turns the queues on. -/
theorem serialStart_eq (u : Uart) : serialStart u =
    { ier := (u.outb (com1Port + 1) 0x00).ier, lcr := 0x03, mcr := 0x0B, dll := 0x03,
      dlm := 0x00, fifos := true, thr := [], wire := u.wire, rbr := [] } := by
  have hwire : (u.outb (com1Port + 1) 0x00).wire = u.wire := by
    simp only [Uart.outb, com1Port]
    split_ifs <;> first | rfl | omega
  have hfifo (v : Uart) :
      v.outb (com1Port + 2) 0xC7 = { v with fifos := true, thr := [], rbr := [] } := rfl
  rw [serialStart, hfifo, ← hwire]
  generalize u.outb (com1Port + 1) 0x00 = v
  simp [Uart.outb, Uart.dlab, com1Port]

theorem serialIsTransmitEmpty_ne {u : Uart} : serialIsTransmitEmpty u ≠ 0 ↔ u.thr = [] := by
  have hflags : ∀ b c : Bool,
      ((bif b then 0 else 0x01) ||| (bif c then 0x60 else 0) : UInt8) &&& 0x20 ≠ 0 ↔
      c = true := by decide
  have h := hflags (u.rbr = []) (u.thr = [])
  rw [serialIsTransmitEmpty, Uart.lineStatus]
  simpa only [Bool.cond_decide, decide_eq_true_iff] using h

theorem serialOut_eq (d : Com1) (a : UInt8) :
    serialOut d.1 a = if d.1.thr.length < 16 then { d.1 with thr := d.1.thr ++ [a] } else d.1 := by
  have hdlab : d.1.dlab = false := by
    rw [Uart.dlab, d.2.1]
    rfl
  have htransmit : d.1.transmit a =
      if d.1.thr.length < 16 then { d.1 with thr := d.1.thr ++ [a] } else d.1 :=
    if_pos d.2.2
  rw [serialOut, Uart.outb, if_pos rfl, hdlab, ← htransmit]
  rfl

/-- The controller as the driver writes to it. -/
def com1 : Transmitter Com1 UInt8 where
  ready d := serialIsTransmitEmpty d.1 ≠ 0
  write d a := ⟨serialOut d.1 a, by
    rw [serialOut_eq]
    split_ifs
    · exact d.2
    · exact d.2⟩
  shift d := ⟨d.1.shift, by
    rw [Uart.shift]
    split
    · exact d.2
    · exact d.2⟩
  capacity := 16
  queued d := d.1.thr
  wire d := d.1.wire
  queued_write d a := by
    change (serialOut d.1 a).thr = _
    rw [serialOut_eq]
    split_ifs <;> rfl
  wire_write d a := by
    change (serialOut d.1 a).wire = _
    rw [serialOut_eq]
    split_ifs <;> rfl
  queued_shift d := by
    change d.1.shift.thr = _
    rw [Uart.shift]
    split <;> simp [*]
  wire_shift d := by
    change d.1.shift.wire ++ d.1.shift.thr = _
    rw [Uart.shift]
    split <;> simp [*]

/-- The state after `serial_start`. -/
def serialStarted (u : Uart) : Transmitter.Sending Com1 UInt8 where
  port := ⟨serialStart u, by
    rw [serialStart_eq]
    exact ⟨rfl, rfl⟩⟩
  writers := []
  texts := []
  written := []
  preempted := 0

theorem serialStarted_init {u : Uart} (hu : u.wire = []) (depth : ℕ) :
    (com1.system depth).init (serialStarted u) := by
  refine ⟨?_, ?_, rfl⟩
  · change (serialStart u).wire = []
    rw [serialStart_eq, ← hu]
  · change (serialStart u).thr = []
    rw [serialStart_eq]

variable {u : Uart} {depth : ℕ} {ops : List (Transmitter.Op UInt8)}
  {s : Transmitter.Sending Com1 UInt8}

/-- From `serial_start` on, and with up to 16 writers nested, nothing that is printed is lost: what
    is sent or waits to be sent is all that was written, the characters of each text are written in
    their order, and all texts can come to their end, and over the line. -/
theorem serial_lossless (hu : u.wire = []) (hdepth : depth ≤ 16)
    (h : (com1.system depth).Run (serialStarted u) ops s) :
    com1.onLine s = s.written.map Prod.snd ∧
      (∀ (n : ℕ) text, s.texts[n]? = some text → s.writtenOf n ++ s.restOf n = text) ∧
      ∃ ops' s', Transmitter.NoStart ops' ∧ (com1.system depth).Run s ops' s' ∧ s'.texts = s.texts ∧
        s'.port.1.wire = s'.written.map Prod.snd ∧
        ∀ (n : ℕ) text, s'.texts[n]? = some text → s'.writtenOf n = text := by
  have hready (d : Com1) : com1.ready d = true ↔ com1.queued d = [] :=
    decide_eq_true_iff.trans serialIsTransmitEmpty_ne
  have hempty (d : Com1) (hd : com1.ready d = true) : com1.queued d = [] := (hready d).1 hd
  have hs : (com1.system depth).Reachable s := ⟨_, ops, serialStarted_init hu depth, h⟩
  obtain ⟨ops', s', hnone, hrun, hend, hqueue, htexts⟩ :=
    com1.drains depth (fun d hd => (hready d).2 hd) s
  have hs' : (com1.system depth).Reachable s' := ⟨_, _, serialStarted_init hu depth, h.append hrun⟩
  refine ⟨Transmitter.lossless hempty hdepth hs, (Transmitter.texts_intact hs).text, ops', s',
    hnone, hrun, htexts, ?_, fun n text hn => (Transmitter.texts_intact hs').writtenOf_eq hn hend⟩
  have hline := Transmitter.lossless hempty hdepth hs'
  rwa [Transmitter.onLine, hqueue, List.append_nil] at hline

/-- A controller after its reset. -/
def resetUart : Uart := ⟨0, 0, 0, 0, 0, false, [], [], []⟩

/-- A writer of "ab" is interrupted after its first poll, by a writer of "c". -/
def someWrites : List (Transmitter.Op UInt8) :=
  [.start [0x61, 0x62], .step, .start [0x63], .step, .step, .step, .step]

theorem someWrites_run : ∃ s, (com1.system 2).Run (serialStarted resetUart) someWrites s ∧
    s.written = [(1, 0x63), (0, 0x61)] ∧ s.texts = [[0x61, 0x62], [0x63]] ∧ s.preempted = 1 := by
  refine ⟨_, .cons (Nat.zero_lt_succ 1) rfl
    (.cons trivial rfl (.cons (Nat.lt_succ_self 1) rfl (.cons trivial rfl
    (.cons trivial rfl (.cons trivial rfl (.cons trivial rfl (.nil _))))))), ?_⟩
  exact ⟨rfl, rfl, rfl⟩

/-- Both of the first characters get on the line, and the second one of "ab" can follow. -/
theorem serial_lossless_two : ∃ s s', (com1.system 2).Run (serialStarted resetUart) someWrites s ∧
    com1.onLine s = [0x63, 0x61] ∧ (∃ ops', (com1.system 2).Run s ops' s') ∧
    s'.port.1.wire = s'.written.map Prod.snd ∧ s'.writtenOf 0 = [0x61, 0x62] := by
  obtain ⟨s, hrun, hwritten, htexts, -⟩ := someWrites_run
  obtain ⟨hline, -, ops', s', -, hrun', htexts', hwire, hall⟩ :=
    serial_lossless rfl (by decide) hrun
  refine ⟨s, s', hrun, by rw [hline, hwritten]; rfl, ⟨ops', hrun'⟩, hwire, hall 0 _ ?_⟩
  rw [htexts', htexts]
  rfl

end Beryllium

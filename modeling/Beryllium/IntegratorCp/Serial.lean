import Beryllium.Machine.Transmitter

/-!
# The serial port of the ARM boards

`serial_write` of `arch/arm/integrator-cp/drivers/serial.c` and of `arch/arm/rpi/drivers/uart.c`,
which are the same but for the addresses, with a controller of the type PL011. They wait until the
queue of the controller is not full, and so for room for one character only.

* `pl011_drops`: a character is dropped only if its writer was interrupted by another one between
  the poll and the write, and at most one each time.
-/

namespace Beryllium

open Machine

/-- A controller: the characters that wait to be sent, and those that were sent. -/
structure Pl011 where
  tx : List UInt8
  wire : List UInt8

namespace Pl011

variable (capacity : ℕ) (u : Pl011)

/-- The flag register: the queue is full, and it is empty. -/
def flags : BitVec 32 := (if u.tx.length = capacity then 0x20 else 0) ||| (if u.tx = []
      then 0x80 else 0)

/-- A character is written to the data register. -/
def write (c : UInt8) : Pl011 := if u.tx.length < capacity then { u with tx := u.tx ++ [c] } else u

/-- The controller sends a character. -/
def shift : Pl011 :=
  match u.tx with
  | [] => u
  | c :: cs => { u with tx := cs, wire := u.wire ++ [c] }

end Pl011

/-- `SERIAL_BUFFER_FULL` -/
def serialBufferFull : BitVec 32 := 1 <<< 5

/-- The condition of the loop of `serial_write`. -/
def serialFull (capacity : ℕ) (u : Pl011) : BitVec 32 := u.flags capacity &&& serialBufferFull

/-- The characters that `serial_write` writes: after a newline it calls itself. -/
def serialWriteChars (c : UInt8) : List UInt8 := if c = 0x0A then [c, 0x0D] else [c]

/-- The characters that `serial_writes` writes for a string. -/
def serialWritesChars (s : List UInt8) : List UInt8 := s.flatMap serialWriteChars

/-- A controller whose queue has not more than `capacity` characters. -/
abbrev Pl011Queue (capacity : ℕ) := { u : Pl011 // u.tx.length ≤ capacity }

variable {capacity depth : ℕ}

theorem serialFull_eq {u : Pl011} : serialFull capacity u = 0 ↔ u.tx.length ≠ capacity := by
  have hflags : ∀ b c : Bool,
      ((bif b then 0x20 else 0) ||| (bif c then 0x80 else 0) : BitVec 32) &&&
      serialBufferFull = 0 ↔ b = false := by decide
  have h := hflags (u.tx.length = capacity) (u.tx = [])
  rw [serialFull, Pl011.flags]
  simpa only [Bool.cond_decide, decide_eq_false_iff_not] using h

/-- The controller as the driver writes to it. -/
def pl011 (capacity : ℕ) : Transmitter (Pl011Queue capacity) UInt8 where
  ready u := serialFull capacity u.1 = 0
  write u c := ⟨u.1.write capacity c, by
    rw [Pl011.write]
    split_ifs with h
    · rw [List.length_append]
      exact h
    · exact u.2⟩
  shift u := ⟨u.1.shift, by
    rw [Pl011.shift]
    split
    · exact u.2
    · rename_i c cs h
      have hle := u.2
      rw [h] at hle
      exact Nat.le_of_succ_le hle⟩
  capacity := capacity
  queued u := u.1.tx
  wire u := u.1.wire
  queued_write u c := by
    change (u.1.write capacity c).tx = _
    rw [Pl011.write]
    split_ifs <;> rfl
  wire_write u c := by
    change (u.1.write capacity c).wire = _
    rw [Pl011.write]
    split_ifs <;> rfl
  queued_shift u := by
    change u.1.shift.tx = _
    rw [Pl011.shift]
    split <;> simp [*]
  wire_shift u := by
    change u.1.shift.wire ++ u.1.shift.tx = _
    rw [Pl011.shift]
    split <;> simp [*]

theorem pl011_ready {u : Pl011Queue capacity} (h : (pl011 capacity).ready u = true) :
    ((pl011 capacity).queued u).length < (pl011 capacity).capacity :=
  lt_of_le_of_ne u.2 (serialFull_eq.1 (of_decide_eq_true h))

theorem pl011_ready_of_nil (hpos : 0 < capacity) {u : Pl011Queue capacity}
    (h : (pl011 capacity).queued u = []) : (pl011 capacity).ready u = true := by
  refine decide_eq_true (serialFull_eq.2 ?_)
  rw [show u.1.tx = [] from h]
  exact hpos.ne

/-- What gets on the line is what was written, in its order and without repetitions, but for at most
    one character for each writer that was interrupted by another one between a poll and the write
    after it; each string is written with a return after every newline; and all strings can come to
    their end. -/
theorem pl011_drops (hpos : 0 < capacity) {s : Transmitter.Sending (Pl011Queue capacity) UInt8}
    (h : ((pl011 capacity).system depth).Reachable s) (strings : List (List UInt8))
    (htexts : s.texts = strings.map serialWritesChars) :
    ((pl011 capacity).onLine s).Sublist (s.written.map Prod.snd) ∧
      s.written.length ≤ ((pl011 capacity).onLine s).length + s.preempted ∧
      (s.preempted = 0 → (pl011 capacity).onLine s = s.written.map Prod.snd) ∧
      ∃ ops s', Transmitter.NoStart ops ∧ ((pl011 capacity).system depth).Run s ops s' ∧
        ∀ (n : ℕ) cs, strings[n]? = some cs → s'.writtenOf n = serialWritesChars cs := by
  obtain ⟨hline, hcount⟩ := Transmitter.dropped_le (fun _ => pl011_ready) h
  refine ⟨hline, hcount, fun hnone => hline.eq_of_length_le ?_, ?_⟩
  · rw [List.length_map]
    rwa [hnone] at hcount
  · obtain ⟨ops, s', hops, hrun, hend, -, htexts'⟩ :=
      (pl011 capacity).drains depth (fun _ => pl011_ready_of_nil hpos) s
    obtain ⟨s₀, ops₀, hinit, hrun₀⟩ := h
    refine ⟨ops, s', hops, hrun, fun n cs hn => ?_⟩
    refine (Transmitter.texts_intact ⟨s₀, _, hinit, hrun₀.append hrun⟩).writtenOf_eq ?_ hend
    rw [htexts', htexts, List.getElem?_map, hn]
    rfl

/-- A writer of "a" is interrupted after its poll, by a writer of "b" that takes the last place in
    the queue. -/
def somePreemption : List (Transmitter.Op UInt8) :=
  [.start [0x61], .step, .start [0x62], .step, .step, .step, .step]

/-- The first character is dropped. -/
theorem pl011_drops_one :
    ∃ s, ((pl011 1).system 2).Run ⟨⟨⟨[], []⟩, Nat.zero_le 1⟩, [], [], [], 0⟩ somePreemption s ∧
    s.written = [(1, 0x62), (0, 0x61)] ∧ (pl011 1).onLine s = [0x62] ∧
    s.written.length ≤ 1 + s.preempted := by
  have hrun : ∃ s, ((pl011 1).system 2).Run ⟨⟨⟨[], []⟩, Nat.zero_le 1⟩, [], [], [], 0⟩
      somePreemption s ∧
      s.written = [(1, 0x62), (0, 0x61)] ∧ (pl011 1).onLine s = [0x62] ∧
        s.texts = [[0x61], [0x62]] := by
    refine ⟨_, .cons (Nat.zero_lt_succ 1) rfl
      (.cons trivial rfl (.cons (Nat.lt_succ_self 1) rfl (.cons trivial rfl
      (.cons trivial rfl (.cons trivial rfl (.cons trivial rfl (.nil _))))))), ?_⟩
    exact ⟨rfl, rfl, rfl⟩
  obtain ⟨s, hrun, hwritten, hline, htexts⟩ := hrun
  have h := pl011_drops (Nat.zero_lt_succ 0) ⟨_, _, ⟨rfl, rfl, rfl⟩, hrun⟩ [[0x61], [0x62]]
    (htexts.trans (by decide))
  have hcount := h.2.1
  rw [hline] at hcount
  exact ⟨s, hrun, hwritten, hline, hcount⟩

end Beryllium

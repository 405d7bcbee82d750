import Beryllium.X86.Keyboard

/-!
# Reading the keyboard step by step

`kb_read` of `arch/x86/drivers/keyboard.c`, a statement at a time, with the interrupts of the
keyboard between any two of them at which interrupts are enabled. `kbio_mutex` is null, so that its
locks and unlocks do nothing.

* `kbRead_atomic`: the characters are stored and returned as if each read were done at once. The
  test of the first cell is made before the interrupts are disabled, but a key that comes in between
  changes nothing about it.
-/

namespace Beryllium

open Machine

/-- Where `kb_read` is, with `to_send` and the counter of the loop: not called, behind its test,
    behind `cli`, behind the assignment to `to_send`, in the loop, and behind `buffer_i--`. -/
inductive Reading
  | idle
  | tested
  | masked
  | loaded (toSend : UInt8)
  | shifting (toSend : UInt8) (i : ℕ)
  | counted (toSend : UInt8)

/-- Interrupts are enabled. -/
def Reading.Enabled : Reading → Prop
  | idle | tested => True
  | _ => False

/-- The driver, with what it has stored and what the reads have returned, and a read that is going
    on. -/
structure Reader where
  run : KeyboardRun
  place : Reading

/-- The reads have returned one more character. -/
def KeyboardRun.return (s : KeyboardRun) (c : UInt8) : KeyboardRun :=
  { s with reads := s.reads ++ [c] }

/-- The cells are assigned. -/
def KeyboardRun.setCell (s : KeyboardRun) (i : ℕ) (c : UInt8) : KeyboardRun :=
  { s with kb.buffer.cell := Function.update s.kb.buffer.cell i c }

/-- The next statement of `kb_read`. -/
def Reader.next (s : Reader) : Reader :=
  match s.place with
  | .idle =>
    if s.run.kb.buffer.cell 0 = 0 then { s with run := s.run.return 0 }
    else { s with place := .tested }
  | .tested => { s with place := .masked }
  | .masked => { s with place := .loaded (s.run.kb.buffer.cell 0) }
  | .loaded c => ⟨s.run.setCell 0 0, .shifting c 0⟩
  | .shifting c i =>
    if i < 0xFF then ⟨s.run.setCell i (s.run.kb.buffer.cell (i + 1)), .shifting c (i + 1)⟩
    else ⟨{ s.run with kb.buffer.count := sub32 s.run.kb.buffer.count 1 }, .counted c⟩
  | .counted c => ⟨s.run.return c, .idle⟩

/-- What happens: the next statement of the reader, an interrupt of the keyboard, and an assignment
    of other code to a byte behind the buffer. -/
inductive ReaderOp
  | next
  | key (scancode : UInt8)
  | other (address : ℕ) (value : UInt8)

/-- The runs from an empty buffer on. -/
def readerSystem (beyond : UInt8 → UInt8) : System Reader ReaderOp where
  init s := (keyboardSystem beyond).init s.run ∧ s.place = .idle
  guard s op := match op with
    | .next => True
    | .key _ => s.place.Enabled
    | .other address _ => s.place.Enabled ∧ 0xFF ≤ address
  step s op := match op with
    | .next => some s.next
    | .key scancode => some { s with run := s.run.step beyond (.key scancode) }
    | .other address value => some { s with run := s.run.step beyond (.other address value) }

/-- When a read begins, the two tests for an empty buffer agree. -/
def BeginsAgreeing (s : Reader) (op : ReaderOp) : Prop :=
  op = .next → s.place = .idle → s.run.kb.buffer.MarkedEmpty

/-! ## The atomic reader behind it -/

/-- The buffer after some rounds of the loop. -/
def shifted (q : ShiftQueue UInt8) (i : ℕ) : ShiftQueue UInt8 :=
  { q with cell := shiftFrom 1 (Function.update q.cell 0 0) 0 i }

/-- The reader that has found a character, and the atomic one that has not begun to read. -/
structure FoundKey (x : KeyboardRun) (run : KeyboardRun) (buffer : ShiftQueue UInt8) : Prop where
  run : run = { x with kb.buffer := buffer }
  cell : x.kb.buffer.cell 0 ≠ 0
  count : x.kb.buffer.count ≠ 0

/-- The reader, and the atomic one, which reads when the other returns. -/
def Reader.Answers (s : Reader) (x : KeyboardRun) : Prop :=
  x.kb.buffer.count ≤ 0xFF ∧
    match s.place with
    | .idle => s.run = x
    | .tested | .masked => FoundKey x s.run x.kb.buffer
    | .loaded c => FoundKey x s.run x.kb.buffer ∧ c = x.kb.buffer.cell 0
    | .shifting c i => FoundKey x s.run (shifted x.kb.buffer i) ∧ c = x.kb.buffer.cell 0 ∧ i ≤ 0xFF
    | .counted c => FoundKey x s.run (x.kb.buffer.pop 0xFF) ∧ c = x.kb.buffer.cell 0

variable {beyond : UInt8 → UInt8} {s s' : Reader} {x : KeyboardRun} {c scancode : UInt8}
  {address : ℕ} {value : UInt8}

theorem step_read_of_eq (h : x.kb.buffer.cell 0 = 0) : x.step beyond .read = x.return 0 := by
  have hread : x.kb.buffer.read 0xFF = (x.kb.buffer, 0) := if_pos h
  rw [KeyboardRun.step, kbRead, hread]
  rfl

theorem step_read_of_ne (h : x.kb.buffer.cell 0 ≠ 0) :
    x.step beyond .read = { x with kb.buffer := x.kb.buffer.pop 0xFF }.return
    (x.kb.buffer.cell 0) := by
  have hread : x.kb.buffer.read 0xFF = (x.kb.buffer.pop 0xFF, x.kb.buffer.cell 0) := if_neg h
  rw [KeyboardRun.step, kbRead, hread]
  rfl

/-- A read of the atomic reader. -/
theorem run_read (beyond : UInt8 → UInt8) (hag : x.kb.buffer.MarkedEmpty)
    (hle : x.kb.buffer.count ≤ 0xFF) :
    ((keyboardSystem beyond).restrict TestsAgree).Run x [.read] (x.step beyond .read) ∧
      (x.step beyond .read).kb.buffer.count ≤ 0xFF := by
  have hg : ((keyboardSystem beyond).restrict TestsAgree).guard x .read := ⟨trivial, fun _ => hag⟩
  exact ⟨.cons hg rfl (.nil _), (keyboard_step hle hg rfl).1⟩

theorem FoundKey.markedEmpty {run : KeyboardRun} {buffer : ShiftQueue UInt8}
    (h : FoundKey x run buffer) : x.kb.buffer.MarkedEmpty := iff_of_false h.cell h.count

/-- A round of the loop. -/
theorem shifted_succ (q : ShiftQueue UInt8) (i : ℕ) : shifted q (i + 1) =
    { shifted q i with
      cell := Function.update (shifted q i).cell i ((shifted q i).cell (i + 1)) } := by
  rw [shifted, shiftFrom_succ 1 _ i Nat.one_pos]
  rfl

/-- A statement of the reader. -/
theorem next_answers (h : s.Answers x) (hag : BeginsAgreeing s .next) :
    ∃ ops x', ((keyboardSystem beyond).restrict TestsAgree).Run x ops x' ∧ s.next.Answers x' := by
  obtain ⟨run, place⟩ := s
  obtain ⟨hle, hplace⟩ := h
  cases place with
  | idle =>
    obtain rfl : run = x := hplace
    have hempty : run.kb.buffer.MarkedEmpty := hag rfl rfl
    rw [Reader.next]
    dsimp only
    split_ifs with hcell
    · obtain ⟨hrun, hcount⟩ := run_read beyond hempty hle
      exact ⟨_, _, hrun, hcount, (step_read_of_eq hcell).symm⟩
    · exact ⟨[], run, .nil _, hle, rfl, hcell, fun hcount => hcell (hempty.2 hcount)⟩
  | tested => exact ⟨[], x, .nil x, hle, hplace⟩
  | masked =>
    have hrun : run = x := hplace.run
    subst hrun
    exact ⟨[], run, .nil _, hle, hplace, rfl⟩
  | loaded c =>
    obtain ⟨⟨rfl, hcell, hcount⟩, rfl⟩ := hplace
    exact ⟨[], x, .nil x, hle, ⟨rfl, hcell, hcount⟩, rfl, Nat.zero_le _⟩
  | shifting c i =>
    obtain ⟨⟨rfl, hcell, hcount⟩, rfl, hi⟩ := hplace
    rw [Reader.next]
    dsimp only
    split_ifs with hlt
    · refine ⟨[], x, .nil x, hle, ⟨?_, hcell, hcount⟩, rfl, hlt⟩
      rw [shifted_succ]
      rfl
    · have hlast : 0xFF = i := by omega
      refine ⟨[], x, .nil x, hle, ⟨?_, hcell, hcount⟩, rfl⟩
      rw [hlast]
      rfl
  | counted c =>
    obtain ⟨hfound, rfl⟩ := hplace
    obtain ⟨hrun, hcount⟩ := run_read beyond hfound.markedEmpty hle
    refine ⟨_, _, hrun, hcount, ?_⟩
    rw [step_read_of_ne hfound.cell, ← hfound.run]
    rfl

/-- An interrupt of the keyboard does nothing to the character that has been found. -/
theorem FoundKey.key (h : FoundKey x x x.kb.buffer) (hle : x.kb.buffer.count ≤ 0xFF) :
    FoundKey (x.step beyond (.key scancode)) (x.step beyond (.key scancode))
    (x.step beyond (.key scancode)).kb.buffer := by
  refine ⟨rfl, ?_, ?_⟩
  · rcases kbHandler_cases beyond x.kb scancode with ⟨-, hb⟩ | ⟨-, -, hb⟩
    · rw [KeyboardRun.step, hb]
      exact h.cell
    · rw [KeyboardRun.step, hb, ShiftQueue.cell_push, Function.update_of_ne h.count.symm]
      exact h.cell
  · rcases kbHandler_cases beyond x.kb scancode with ⟨-, hb⟩ | ⟨hfull, -, hb⟩
    · rw [KeyboardRun.step, hb]
      exact h.count
    · rw [KeyboardRun.step, hb, ShiftQueue.push, add32_eq (by omega)]
      exact Nat.succ_ne_zero _

theorem FoundKey.other (h : FoundKey x x x.kb.buffer) (ha : 0xFF ≤ address) :
    FoundKey (x.step beyond (.other address value)) (x.step beyond (.other address value))
      (x.step beyond (.other address value)).kb.buffer :=
  ⟨rfl, (Function.update_of_ne (by omega) ..).trans_ne h.cell, h.count⟩

/-- Each step is answered by the atomic reader. -/
theorem reader_step {op : ReaderOp} (h : s.Answers x)
    (hg : ((readerSystem beyond).restrict BeginsAgreeing).guard s op)
    (hs : (readerSystem beyond).step s op = some s') :
    ∃ ops x', ((keyboardSystem beyond).restrict TestsAgree).Run x ops x' ∧ s'.Answers x' := by
  -- the operations of others are the same, in the states in which they are enabled
  have hsame (op' : KeyboardOp) (hread : op' ≠ .read) (hguard : (keyboardSystem beyond).guard x op')
      (henabled : s.place.Enabled) (hfound : FoundKey x x x.kb.buffer →
        FoundKey (x.step beyond op') (x.step beyond op') (x.step beyond op').kb.buffer) :
      ∃ ops x', ((keyboardSystem beyond).restrict TestsAgree).Run x ops x' ∧
        Reader.Answers { s with run := s.run.step beyond op' } x' := by
    have hrun : ((keyboardSystem beyond).restrict TestsAgree).guard x op' :=
      ⟨hguard, fun he => absurd he hread⟩
    obtain ⟨hle, hplace⟩ := h
    refine ⟨[op'], x.step beyond op', .cons hrun rfl (.nil _), (keyboard_step hle hrun rfl).1, ?_⟩
    obtain ⟨run, place⟩ := s
    cases place with
    | idle => exact congrArg (KeyboardRun.step beyond · op') hplace
    | tested =>
      have heq : run = x := hplace.run
      subst heq
      exact hfound hplace
    | _ => exact henabled.elim
  cases op with
  | next =>
    cases hs
    exact next_answers h hg.2
  | key scancode =>
    cases hs
    exact hsame (.key scancode) (by simp) trivial hg.1 fun hfound => hfound.key h.1
  | other address value =>
    cases hs
    exact hsame (.other address value) (by simp) hg.1.2 hg.1.1 fun hfound => hfound.other hg.1.2

/-- What has been stored and returned is the same. -/
theorem Reader.Answers.run (h : s.Answers x) :
    s.run.stored = x.stored ∧ s.run.reads = x.reads ∧ (s.place = .idle → s.run = x) := by
  obtain ⟨run, place⟩ := s
  have hfound {buffer : ShiftQueue UInt8} (hf : FoundKey x run buffer) :
      run.stored = x.stored ∧ run.reads = x.reads := by
    rw [hf.run]
    exact ⟨rfl, rfl⟩
  cases place with
  | idle =>
    obtain rfl : run = x := h.2
    exact ⟨rfl, rfl, fun _ => rfl⟩
  | tested => exact ⟨(hfound h.2).1, (hfound h.2).2, nofun⟩
  | masked => exact ⟨(hfound h.2).1, (hfound h.2).2, nofun⟩
  | loaded c => exact ⟨(hfound h.2.1).1, (hfound h.2.1).2, nofun⟩
  | shifting c i => exact ⟨(hfound h.2.1).1, (hfound h.2.1).2, nofun⟩
  | counted c => exact ⟨(hfound h.2.1).1, (hfound h.2.1).2, nofun⟩

/-- Whatever keys come in while the keyboard is read, the characters are stored and returned as by
    the atomic reader: between two reads they are in the same state. So each character is returned
    once, and in its order. -/
theorem kbRead_atomic (beyond : UInt8 → UInt8) (s₀ s : Reader) (ops : List ReaderOp)
    (h₀ : (readerSystem beyond).init s₀)
    (hr : ((readerSystem beyond).restrict BeginsAgreeing).Run s₀ ops s) :
    ∃ ops' x, ((keyboardSystem beyond).restrict TestsAgree).Run s₀.run ops' x ∧
    s.run.stored = x.stored ∧
      s.run.reads = x.reads ∧ x.stored = x.returned ++ x.waiting ∧
      (s.place = .idle → s.run = x) := by
  obtain ⟨hinit, hidle⟩ := h₀
  have hle₀ : s₀.run.kb.buffer.count ≤ 0xFF := hinit.2.1.trans_le (Nat.zero_le _)
  have hanswers : s₀.Answers s₀.run := ⟨hle₀, by rw [hidle]⟩
  obtain ⟨ops', x, hrun, hx⟩ :=
    hr.answered (fun s x op s' hx hg hs => reader_step hx hg hs) hanswers
  have hbalanced₀ : s₀.run.fifo.Balanced := by
    rw [KeyboardRun.fifo, hinit.2.2.1, hinit.2.2.2]
    exact ShiftQueue.fifo_start hinit.2.1
  obtain ⟨-, hbalanced⟩ := hrun.fifo_balanced (P := fun s => s.kb.buffer.count ≤ 0xFF)
    (fun _ _ _ => keyboard_step) hle₀ hbalanced₀
  obtain ⟨hstored, hreads, hidle⟩ := hx.run
  exact ⟨ops', x, hrun, hstored, hreads, hbalanced, hidle⟩

/-- The last round of the loop. -/
theorem next_last (run : KeyboardRun) (c : UInt8) {i : ℕ} (hi : ¬i < 0xFF) :
    ∃ r, (⟨run, .shifting c i⟩ : Reader).next = ⟨r, .counted c⟩ ∧ r.stored = run.stored ∧
      r.reads = run.reads := by
  have hnext : (⟨run, .shifting c i⟩ : Reader).next =
      ⟨{ run with kb.buffer.count := sub32 run.kb.buffer.count 1 }, .counted c⟩ := by
    rw [Reader.next]
    exact if_neg hi
  generalize sub32 run.kb.buffer.count 1 = n at hnext
  exact ⟨_, hnext, rfl, rfl⟩

/-- A read that is in the loop ends. -/
theorem run_shifting (beyond : UInt8 → UInt8) (k : ℕ) (run : KeyboardRun) {i : ℕ}
    (hk : i + k = 0xFF) :
    ∃ s, ((readerSystem beyond).restrict BeginsAgreeing).Run ⟨run, .shifting c i⟩
        (List.replicate (k + 2) .next) s ∧
      s.place = .idle ∧ s.run.stored = run.stored ∧ s.run.reads = run.reads ++ [c] := by
  induction k generalizing run i with
  | zero =>
    obtain ⟨r, hlast, hstored, hreads⟩ := next_last run c (i := i) (by omega)
    exact ⟨⟨r.return c, .idle⟩, .cons ⟨trivial, nofun⟩ (congrArg some hlast)
      (.cons ⟨trivial, nofun⟩ rfl (.nil _)), rfl, hstored, congrArg (· ++ [c]) hreads⟩
  | succ k ih =>
    obtain ⟨s, hrun, hidle, hstored, hreads⟩ :=
      ih (run.setCell i (run.kb.buffer.cell (i + 1))) (show i + 1 + k = 0xFF by omega)
    have hnext : (⟨run, .shifting c i⟩ : Reader).next =
        ⟨run.setCell i (run.kb.buffer.cell (i + 1)), .shifting c (i + 1)⟩ := by
      rw [Reader.next]
      exact if_pos (by omega)
    exact ⟨s, .cons ⟨trivial, nofun⟩ (congrArg some hnext) hrun, hidle, hstored, hreads⟩

/-- The key B comes in between the test and the rest of a read that has found A. -/
theorem kbRead_atomic_key :
    ∃ ops' x, ((keyboardSystem fun _ => 0).restrict TestsAgree).Run .start ops' x ∧
    x.stored = [0x61, 0x62] ∧ x.reads = [0x61] ∧ x.returned ++ x.waiting = [0x61, 0x62] := by
  obtain ⟨s, hshift, -, hstored', hreads'⟩ := run_shifting (fun _ => 0) 0xFF _ (Nat.zero_add _)
  have hr : ((readerSystem fun _ => 0).restrict BeginsAgreeing).Run ⟨.start, .idle⟩
      ([.key 0x1E, .next, .key 0x30, .next, .next, .next] ++ List.replicate (0xFF + 2) .next) s :=
    System.Run.append (.cons ⟨trivial, nofun⟩ rfl
      (.cons ⟨trivial, fun _ _ => by decide⟩ rfl (.cons ⟨trivial, nofun⟩ rfl
        (.cons ⟨trivial, nofun⟩ rfl (.cons ⟨trivial, nofun⟩ rfl
          (.cons ⟨trivial, nofun⟩ rfl (.nil _))))))) hshift
  obtain ⟨ops', x, hrun, hstored, hreads, hbalanced, -⟩ :=
    kbRead_atomic _ _ _ _ ⟨⟨fun _ _ => rfl, rfl, rfl, rfl⟩, rfl⟩ hr
  have hboth : x.stored = [0x61, 0x62] := hstored.symm.trans hstored'
  exact ⟨ops', x, hrun, hboth, hreads.symm.trans hreads', hbalanced.symm.trans hboth⟩

end Beryllium

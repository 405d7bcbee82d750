import Beryllium.Machine.ShiftQueue
import Mathlib.Data.UInt

/-!
# The input queue

The queue of characters of `kernel/input.c`. An add to a full queue says that it drops the
character, but stores it behind the array; the read shifts one cell too many, so that it reads
behind the array whenever it returns a character.

* `input_fifo`: the accesses stay inside the array exactly in the runs without such an add and
  such a read, and the queue is first in, first out if it is never full at an add, and what is
  shifted in from behind the array is 0 when it gets to the front.
* `input_overflow`: 256 characters are accepted, the last one behind the array.
-/

namespace Beryllium

open Machine

/-! ## The queue -/

/-- `ibuffer` with `ibuffer_i`. -/
abbrev Input := ShiftQueue UInt8

/-- `input_add_char`, with the cells it accesses and the message it logs. -/
def inputAddChar (s : Input) (c : UInt8) : Input × List ℕ × Option String :=
  let message := if s.count = 0xFF then some "Too much data! Dropping\n" else none
  if c = 0 then (s, [], message)
  else (s.push c, [s.count], message)

/-- `input_read`, with the character it returns and the cells it accesses. -/
def inputRead (s : Input) : Input × UInt8 × List ℕ :=
  let u := s.read 0xFF
  (u.1, u.2, if s.cell 0 = 0 then [0]
    else [0, 0, 0] ++ (List.range 0xFF).flatMap fun i => [i + 1, i])

/-! ## Runs -/

/-- The queue, with what it has accepted, what the reads have returned, and the cells that were
    accessed. -/
structure InputRun where
  input : Input
  accepted : List UInt8
  reads : List UInt8
  accesses : List ℕ

/-- The operations: an add, a read, and an assignment of other code to a byte behind the
    array. -/
inductive InputOp
  | add (c : UInt8)
  | read
  | other (address : ℕ) (value : UInt8)

/-- The operation is a read. -/
def InputOp.isRead : InputOp → Bool
  | .read => true
  | _ => false

/-- What an operation does. -/
def InputRun.step (s : InputRun) : InputOp → InputRun
  | .add c =>
    let u := inputAddChar s.input c
    { s with
      input := u.1
      accepted := if c = 0 then s.accepted else s.accepted ++ [c]
      accesses := s.accesses ++ u.2.1 }
  | .read =>
    let u := inputRead s.input
    { s with input := u.1, reads := s.reads ++ [u.2.1], accesses := s.accesses ++ u.2.2 }
  | .other address value =>
    { s with input.cell := Function.update s.input.cell address value }

/-- The runs of the queue from its initial state on. -/
def inputSystem : System InputRun InputOp where
  init s := (∀ i < 0xFF, s.input.cell i = 0) ∧ s.input.count = 0 ∧ s.accepted = [] ∧
    s.reads = [] ∧ s.accesses = []
  guard _ op := match op with
    | .other address _ => 0xFF ≤ address
    | _ => True
  step s op := some (s.step op)

/-- The non-zero values that the reads have returned. -/
def InputRun.returned (s : InputRun) : List UInt8 := s.reads.filter (· ≠ 0)

/-- The characters that wait in the queue. -/
def InputRun.waiting (s : InputRun) : List UInt8 := s.input.waiting

/-- An add finds room, and a read of an empty queue finds a 0 in front. -/
def InputRun.Fits (s : InputRun) : InputOp → Prop
  | .add c => c ≠ 0 → s.input.count ≠ 0xFF
  | .read => s.input.count = 0 → s.input.cell 0 = 0
  | .other _ _ => True

/-- An add finds room, and a read finds nothing. -/
def InputRun.Inside (s : InputRun) : InputOp → Prop
  | .add c => c ≠ 0 → s.input.count < 0xFF
  | .read => s.input.cell 0 = 0
  | .other _ _ => True

variable {s s' s₀ : InputRun} {op : InputOp} {ops : List InputOp} {c : UInt8}

/-! ## Accesses -/

/-- The cells that the shifting loop accesses. -/
theorem mem_shift_accesses {i : ℕ} :
    i ∈ [0, 0, 0] ++ (List.range 0xFF).flatMap (fun i => [i + 1, i]) ↔ i ≤ 0xFF := by
  simp only [List.mem_append, List.mem_flatMap, List.mem_range, List.mem_cons, List.not_mem_nil,
    or_false, or_self]
  constructor
  · rintro (rfl | ⟨j, hj, rfl | rfl⟩) <;> omega
  · intro hi
    rcases i.eq_zero_or_pos with rfl | hpos
    · exact .inl rfl
    · exact .inr ⟨i - 1, by omega, .inl (by omega)⟩

/-- A step keeps the accesses inside the array exactly if it is one of `InputRun.Inside`. -/
theorem accesses_step (hs : inputSystem.step s op = some s') :
    (∀ i ∈ s'.accesses, i < 0xFF) ↔ (∀ i ∈ s.accesses, i < 0xFF) ∧ s.Inside op := by
  cases hs
  cases op with
  | add c =>
    by_cases hc : c = 0
    · rw [InputRun.step, inputAddChar, if_pos hc, List.append_nil]
      exact (and_iff_left fun h => absurd hc h).symm
    · rw [InputRun.step, inputAddChar, if_neg hc, List.forall_mem_append, List.forall_mem_singleton]
      exact and_congr_right fun _ => ⟨fun h _ => h, fun h => h hc⟩
  | read =>
    by_cases hc : s.input.cell 0 = 0
    · rw [InputRun.step, inputRead, if_pos hc, List.forall_mem_append, List.forall_mem_singleton]
      exact and_congr_right fun _ => iff_of_true (by decide) hc
    · rw [InputRun.step, inputRead, if_neg hc, List.forall_mem_append]
      exact and_congr_right fun _ =>
        iff_of_false (fun h => absurd (h 0xFF (mem_shift_accesses.2 le_rfl)) (by decide)) hc
  | other address value => exact (and_iff_left trivial).symm

/-! ## First in, first out -/

/-- The run as a queue. -/
def InputRun.fifo (s : InputRun) : Fifo UInt8 := s.input.fifo s.accepted s.reads

/-- At most 255 characters wait, and none of them is 0. -/
def InputRun.Bounded (s : InputRun) : Prop := s.input.count ≤ 0xFF ∧ ∀ c ∈ s.waiting, c ≠ 0

theorem add_step (hs : s.Bounded) (hf : s.Fits (.add c)) :
    (s.step (.add c)).Bounded ∧ s.fifo.Step false (s.step (.add c)).fifo := by
  by_cases hc : c = 0
  · have hstep : s.step (.add c) = s := by
      rw [InputRun.step, inputAddChar, if_pos hc, if_pos hc, List.append_nil]
    rw [hstep]
    exact ⟨hs, ShiftQueue.fifo_congr rfl fun _ _ => rfl⟩
  · have hle := hs.1
    have hfull : s.input.count ≠ 0xFF := hf hc
    have hlt : s.input.count + 1 < 4294967296 := by omega
    rw [InputRun.Bounded, InputRun.waiting, InputRun.fifo, InputRun.fifo, InputRun.step,
      inputAddChar, if_neg hc, if_neg hc, ShiftQueue.waiting_push hlt, List.forall_mem_append]
    refine ⟨⟨?_, hs.2, List.forall_mem_singleton.2 hc⟩, ShiftQueue.fifo_push hlt⟩
    exact (add32_eq hlt).trans_le (by omega)

/-- Every step that fits is one of a queue. -/
theorem input_step (hs : s.Bounded) (hg : (inputSystem.restrict InputRun.Fits).guard s op)
    (hst : inputSystem.step s op = some s') : s'.Bounded ∧ s.fifo.Step op.isRead s'.fifo := by
  cases hst
  cases op with
  | add c => exact add_step hs hg.2
  | read =>
    have hm : s.input.MarkedEmpty := ShiftQueue.markedEmpty_of_waiting hs.2 hg.2
    refine ⟨⟨(ShiftQueue.count_read_le hm hs.1 (by decide)).trans hs.1, fun c hc => hs.2 c ?_⟩,
      ShiftQueue.fifo_read hm hs.1 (by decide)⟩
    exact ShiftQueue.waiting_read_subset hm hs.1 (by decide) hc
  | other address value =>
    have ha : 0xFF ≤ address := hg.1
    have hcell : ∀ i < s.input.count, (Function.update s.input.cell address value) i =
        s.input.cell i :=
      fun i hi => Function.update_of_ne ((hi.trans_le hs.1).trans_le ha).ne ..
    have hw : (s.step (.other address value)).waiting = s.waiting :=
      ShiftQueue.waiting_congr rfl hcell
    exact ⟨⟨hs.1, fun c hc => hs.2 c (hw ▸ hc)⟩, ShiftQueue.fifo_congr rfl hcell⟩

/-- The accesses stay inside the array exactly if every add finds room and every read finds
    nothing. If every add finds room, and every read of an empty queue a 0 in front, at most 255
    characters wait, the queue is first in, first out, and a read returns 0 only if none
    waits. -/
theorem input_fifo (s₀ s : InputRun) (ops : List InputOp) (h₀ : inputSystem.init s₀)
    (hr : inputSystem.Run s₀ ops s) :
    ((∀ i ∈ s.accesses, i < 0xFF) ↔ (inputSystem.restrict InputRun.Inside).Run s₀ ops s) ∧
      ((inputSystem.restrict InputRun.Fits).Run s₀ ops s →
        s.input.count ≤ 0xFF ∧ s.waiting.length = s.input.count ∧
        s.accepted = s.returned ++ s.waiting ∧
        (s.Fits .read → (inputRead s.input).2.1 = s.waiting.headD 0 ∧
          ((inputRead s.input).2.1 = 0 → s.waiting = [])) ∧
        ∀ ops' s', (inputSystem.restrict InputRun.Fits).Run s ops' s' →
          s.waiting.length ≤ ops'.countP InputOp.isRead → s.accepted <+: s'.returned) := by
  obtain ⟨-, hc₀, ha₀, hrd₀, hacc₀⟩ := h₀
  -- every step is exact for the accesses; the queue is the invariant of the runs that fit
  refine ⟨hr.iff_restrict (P := fun _ => True) (Q := fun s => ∀ i ∈ s.accesses, i < 0xFF)
    (fun _ _ _ _ _ _ => trivial) (fun _ _ _ _ _ hst => accesses_step hst) trivial ?_, fun hf => ?_⟩
  · rw [hacc₀]
    exact List.forall_mem_nil _
  have hb₀ : s₀.fifo.Balanced := by
    rw [InputRun.fifo, ha₀, hrd₀]
    exact ShiftQueue.fifo_start hc₀
  have hs₀ : s₀.Bounded := by
    refine ⟨hc₀.trans_le (Nat.zero_le _), ?_⟩
    rw [InputRun.waiting, ShiftQueue.waiting, hc₀]
    exact List.forall_mem_nil _
  obtain ⟨hs, hb⟩ := hf.fifo_balanced (fun _ _ _ => input_step) hs₀ hb₀
  refine ⟨hs.1, ShiftQueue.length_waiting, hb, fun hread => ?_, fun ops' s' hr' hn => ?_⟩
  · exact ShiftQueue.read_eq_head (ShiftQueue.markedEmpty_of_waiting hs.2 hread) hs.1 (by decide)
  · exact hr'.fifo_served (fun _ _ _ => input_step) hs hb hn

/-! ## One character too many -/

/-- The queue at its start. -/
def InputRun.start : InputRun := ⟨⟨fun _ => 0, 0⟩, [], [], []⟩

set_option maxRecDepth 4000 in
/-- Two characters are added and read. -/
theorem input_fifo_one : ∃ s, (inputSystem.restrict InputRun.Fits).Run .start
    [.add 0x61, .add 0x62, .read, .read] s ∧ s.returned = [0x61, 0x62] ∧
    s.accepted = s.returned ++ s.waiting := by
  have hr : (inputSystem.restrict InputRun.Fits).Run .start
      [.add 0x61, .add 0x62, .read, .read] _ :=
    .cons ⟨trivial, fun _ => by decide⟩ rfl (.cons ⟨trivial, fun _ => by decide⟩ rfl
      (.cons ⟨trivial, nofun⟩ rfl (.cons ⟨trivial, nofun⟩ rfl (.nil _))))
  have hd := input_fifo _ _ _ ⟨fun _ _ => rfl, rfl, rfl, rfl, rfl⟩ hr.of_restrict
  exact ⟨_, hr, by decide, (hd.2 hr).2.2.1⟩

/-- `n` adds of the character `a`, one after the other, to a queue that only had adds. -/
theorem run_adds (n : ℕ) (hn : n < 4294967296) :
    ∃ s, inputSystem.Run .start (List.replicate n (.add 0x61)) s ∧ s.input.count = n := by
  induction n with
  | zero => exact ⟨_, .nil _, rfl⟩
  | succ n ih =>
    obtain ⟨s, hr, hc⟩ := ih (by omega)
    refine ⟨s.step (.add 0x61), ?_, ?_⟩
    · rw [List.replicate_succ']
      exact hr.snoc trivial rfl
    · exact (congrArg (add32 · 1) hc).trans (add32_eq hn)

/-- The 256th character is not dropped: it is stored behind the array, and counted. -/
theorem input_overflow : ∃ s₀ ops s, inputSystem.init s₀ ∧ inputSystem.Run s₀ ops s ∧
    s.waiting.length = 256 ∧ 0xFF ∈ s.accesses := by
  obtain ⟨s, hr, hc⟩ := run_adds 255 (by decide)
  have hlast : inputSystem.Run .start (List.replicate 255 (.add 0x61) ++ [.add 0x61])
      (s.step (.add 0x61)) := hr.snoc trivial rfl
  refine ⟨.start, _, _, ⟨fun _ _ => rfl, rfl, rfl, rfl, rfl⟩, hlast, ?_, ?_⟩
  · refine ShiftQueue.length_waiting.trans ?_
    exact congrArg (add32 · 1) hc
  · exact List.mem_append_right _ (hc ▸ List.mem_singleton_self _)

end Beryllium

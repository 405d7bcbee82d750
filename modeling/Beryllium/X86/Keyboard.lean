import Beryllium.Machine.ShiftQueue
import Mathlib.Data.UInt

/-!
# The keyboard driver

The scancode handler and the reader of `arch/x86/drivers/keyboard.c`. Both are atomic: the
handler is an interrupt, and the reader disables interrupts. `kbio_mutex` is null, so that its
locks and unlocks return at once.

The buffer is empty by two tests, `buffer_i == 0` for the handler and `buffer[0] == 0` for the
reader. A key without a character is stored as 0, and then they differ.

* `keyboard_delivers`: if they agree at every read, characters are returned in the order they are
  stored, none is lost and none is made up;
* `keyboard_agrees`: they agree if all keys have characters and the byte behind the buffer is 0;
* `keyboard_stuck`: a key without a character hides the ones after it.
-/

namespace Beryllium

open Machine

/-! ## The driver -/

/-- The characters that are printed in a string. -/
def chars (s : String) : List UInt8 := s.toList.map Char.toUInt8

/-- The entries of `kbdus` up to the last that is given; the ones behind it are 0. -/
def kbdusEntries : List UInt8 :=
  [0, 27] ++ chars "1234567890-=\x08" ++ chars "\tqwertyuiop[]\n" ++ [0x01] ++
    chars "asdfghjkl;'`" ++ [0x02] ++ chars "\\zxcvbnm,./" ++ [0x03] ++ chars "*" ++ [0x04] ++
    chars " " ++ [0x05, 0x06] ++ List.replicate 14 0 ++ chars "-" ++ [0, 0, 0] ++ chars "+" ++
    List.replicate 11 0

/-- The entries of `kbdus_caps`. -/
def kbdusCapsEntries : List UInt8 :=
  [0, 27] ++ chars "!@#$%^&*()_+\x08" ++ chars "\tQWERTYUIOP\x7b\x7d\n" ++ [0x01] ++
    chars "ASDFGHJKL:\"~" ++ [0x02] ++ chars "|ZXCVBNM<>?" ++ [0x03] ++ chars "*" ++ [0x04] ++
    chars " " ++ [0x05, 0x06] ++ List.replicate 14 0 ++ chars "-" ++ [0, 0, 0] ++ chars "+" ++
    List.replicate 11 0

/-- A read of one of the tables, both of 128 entries, with what `beyond` has behind them. -/
def keyEntry (beyond : UInt8 → UInt8) (entries : List UInt8) (scancode : UInt8) : UInt8 :=
  if scancode < 128 then entries.getD scancode.toNat 0 else beyond scancode

/-- The globals of the driver, `buffer` with `buffer_i`. -/
structure Keyboard where
  buffer : ShiftQueue UInt8
  kbShift : Bool
  kbCaps : Bool
  kbCtl : Bool
  kbExtended : Bool

/-- The character that the handler stores for a scancode. -/
def Keyboard.character (beyond : UInt8 → UInt8) (s : Keyboard) (scancode : UInt8) : UInt8 :=
  if s.kbShift || s.kbCaps then keyEntry beyond kbdusCapsEntries scancode
  else keyEntry beyond kbdusEntries scancode

/-- `kb_handler`, with the character it stores. -/
def kbHandler (beyond : UInt8 → UInt8) (s : Keyboard) (scancode : UInt8) :
    Keyboard × Option UInt8 :=
  if s.kbExtended then ({ s with kbExtended := false }, none)
  else if scancode = 0xE0 then ({ s with kbExtended := true }, none)
  else if scancode = 0xAA then ({ s with kbShift := false }, none)
  else if scancode = 0x2A then ({ s with kbShift := true }, none)
  else if scancode &&& 0x80 ≠ 0 then
    if keyEntry beyond kbdusEntries scancode = 0x01 then ({ s with kbCtl := true }, none)
    else if keyEntry beyond kbdusEntries scancode = 0x02 then ({ s with kbShift := true }, none)
    else (s, none)
  else if s.buffer.count = 0xFF then (s, none)
  else
    let c := s.character beyond scancode
    ({ s with buffer := s.buffer.push c }, some c)

/-- `kb_read`, with the character it returns. -/
def kbRead (s : Keyboard) : Keyboard × UInt8 :=
  let u := s.buffer.read 0xFF
  ({ s with buffer := u.1 }, u.2)

/-! ## Runs -/

/-- The driver, with what it has stored and what the reads have returned. -/
structure KeyboardRun where
  kb : Keyboard
  stored : List UInt8
  reads : List UInt8

/-- The operations: a key, a read, and an assignment of other code to a byte behind the
    buffer. -/
inductive KeyboardOp
  | key (scancode : UInt8)
  | read
  | other (address : ℕ) (value : UInt8)

/-- The operation is a read. -/
def KeyboardOp.isRead : KeyboardOp → Bool
  | .read => true
  | _ => false

/-- What an operation does. -/
def KeyboardRun.step (beyond : UInt8 → UInt8) (s : KeyboardRun) : KeyboardOp → KeyboardRun
  | .key scancode =>
    let u := kbHandler beyond s.kb scancode
    { s with kb := u.1, stored := s.stored ++ u.2.toList }
  | .read =>
    let u := kbRead s.kb
    { s with kb := u.1, reads := s.reads ++ [u.2] }
  | .other address value =>
    { s with kb.buffer.cell := Function.update s.kb.buffer.cell address value }

/-- The runs of the driver from an empty buffer on. -/
def keyboardSystem (beyond : UInt8 → UInt8) : System KeyboardRun KeyboardOp where
  init s := (∀ i < 0xFF, s.kb.buffer.cell i = 0) ∧ s.kb.buffer.count = 0 ∧
    s.stored = [] ∧ s.reads = []
  guard _ op := match op with
    | .other address _ => 0xFF ≤ address
    | _ => True
  step s op := some (s.step beyond op)

/-- The characters that the reads have returned. -/
def KeyboardRun.returned (s : KeyboardRun) : List UInt8 := s.reads.filter (· ≠ 0)

/-- The characters that wait in the buffer. -/
def KeyboardRun.waiting (s : KeyboardRun) : List UInt8 := s.kb.buffer.waiting

/-- At a read, the two tests for an empty buffer agree. -/
def TestsAgree (s : KeyboardRun) (op : KeyboardOp) : Prop :=
  op = .read → s.kb.buffer.MarkedEmpty

variable {beyond : UInt8 → UInt8} {s s' s₀ : KeyboardRun} {op : KeyboardOp} {ops : List KeyboardOp}

/-- The run as a queue. -/
def KeyboardRun.fifo (s : KeyboardRun) : Fifo UInt8 := s.kb.buffer.fifo s.stored s.reads

/-- The handler stores a character behind the last one, if there is room, or leaves the buffer
    as it is. -/
theorem kbHandler_cases (beyond : UInt8 → UInt8) (s : Keyboard) (scancode : UInt8) :
    (kbHandler beyond s scancode).2 = none ∧ (kbHandler beyond s scancode).1.buffer = s.buffer ∨
      s.buffer.count ≠ 0xFF ∧
        (kbHandler beyond s scancode).2 = some (s.character beyond scancode) ∧
        (kbHandler beyond s scancode).1.buffer = s.buffer.push (s.character beyond scancode) := by
  rw [kbHandler]
  split_ifs with h₁ h₂ h₃ h₄ h₅ h₆ h₇ hfull
  iterate 8 exact .inl ⟨rfl, rfl⟩
  exact .inr ⟨hfull, rfl, rfl⟩

theorem key_step {scancode : UInt8} (hle : s.kb.buffer.count ≤ 0xFF) :
    (s.step beyond (.key scancode)).kb.buffer.count ≤ 0xFF ∧
      s.fifo.Step false (s.step beyond (.key scancode)).fifo := by
  rcases kbHandler_cases beyond s.kb scancode with ⟨hc, hb⟩ | ⟨hfull, hc, hb⟩
  · rw [KeyboardRun.fifo, KeyboardRun.fifo, KeyboardRun.step, hb, hc, Option.toList_none,
      List.append_nil]
    exact ⟨hle, ShiftQueue.fifo_congr rfl fun _ _ => rfl⟩
  · have hlt : s.kb.buffer.count + 1 < 4294967296 := by omega
    rw [KeyboardRun.fifo, KeyboardRun.fifo, KeyboardRun.step, hb, hc, Option.toList_some]
    exact ⟨(add32_eq hlt).trans_le (by omega), ShiftQueue.fifo_push hlt⟩

/-- Every step is one of a queue, where the two tests for an empty buffer agree. -/
theorem keyboard_step (hle : s.kb.buffer.count ≤ 0xFF)
    (hg : ((keyboardSystem beyond).restrict TestsAgree).guard s op)
    (hs : (keyboardSystem beyond).step s op = some s') :
    s'.kb.buffer.count ≤ 0xFF ∧ s.fifo.Step op.isRead s'.fifo := by
  cases hs
  cases op with
  | key scancode => exact key_step hle
  | read =>
    have hag : s.kb.buffer.MarkedEmpty := hg.2 rfl
    exact ⟨(ShiftQueue.count_read_le hag hle (by decide)).trans hle,
      ShiftQueue.fifo_read hag hle (by decide)⟩
  | other address value =>
    have ha : 0xFF ≤ address := hg.1
    exact ⟨hle, ShiftQueue.fifo_congr rfl fun i hi => Function.update_of_ne (by omega) ..⟩

/-! ## Delivery -/

/-- If the two tests for an empty buffer agree at every read, the characters are returned in the
    order they are stored, all of them after as many reads as are waiting; a read returns the
    first one, and 0 only if none is waiting. -/
theorem keyboard_delivers (beyond : UInt8 → UInt8) (s₀ s : KeyboardRun) (ops : List KeyboardOp)
    (h₀ : (keyboardSystem beyond).init s₀)
    (hr : ((keyboardSystem beyond).restrict TestsAgree).Run s₀ ops s) :
    s.kb.buffer.count ≤ 0xFF ∧ s.waiting.length = s.kb.buffer.count ∧
      s.stored = s.returned ++ s.waiting ∧
      (TestsAgree s .read → (kbRead s.kb).2 = s.waiting.headD 0 ∧
        ((kbRead s.kb).2 = 0 → s.waiting = [])) ∧
      ∀ ops' s', ((keyboardSystem beyond).restrict TestsAgree).Run s ops' s' →
        s.waiting.length ≤ ops'.countP KeyboardOp.isRead → s.stored <+: s'.returned := by
  obtain ⟨-, hc₀, hst₀, hrd₀⟩ := h₀
  have hb₀ : s₀.fifo.Balanced := by
    rw [KeyboardRun.fifo, hst₀, hrd₀]
    exact ShiftQueue.fifo_start hc₀
  obtain ⟨hle, hb⟩ := hr.fifo_balanced (P := fun s => s.kb.buffer.count ≤ 0xFF)
    (fun _ _ _ => keyboard_step) (hc₀.trans_le (Nat.zero_le _)) hb₀
  refine ⟨hle, ShiftQueue.length_waiting, hb, fun hag => ?_, fun ops' s' hr' hn => ?_⟩
  · exact ShiftQueue.read_eq_head (hag rfl) hle (by decide)
  · exact hr'.fifo_served (P := fun s => s.kb.buffer.count ≤ 0xFF)
      (fun _ _ _ => keyboard_step) hle hb hn

/-- The driver at its start. -/
def KeyboardRun.start : KeyboardRun := ⟨⟨⟨fun _ => 0, 0⟩, false, false, false, false⟩, [], []⟩

set_option maxRecDepth 4000 in
/-- The keys A and B are typed and read. -/
theorem keyboard_delivers_key : ∃ s, ((keyboardSystem fun _ => 0).restrict TestsAgree).Run
    .start [.key 0x1E, .key 0x30, .read, .read] s ∧ s.returned = [0x61, 0x62] ∧
    s.stored = s.returned ++ s.waiting := by
  have hr : ((keyboardSystem fun _ => 0).restrict TestsAgree).Run .start
      [.key 0x1E, .key 0x30, .read, .read] _ :=
    .cons ⟨trivial, nofun⟩ rfl (.cons ⟨trivial, nofun⟩ rfl
      (.cons ⟨trivial, fun _ => by decide⟩ rfl (.cons ⟨trivial, fun _ => by decide⟩ rfl (.nil _))))
  have hd := keyboard_delivers _ _ _ _ ⟨fun _ _ => rfl, rfl, rfl, rfl⟩ hr
  exact ⟨_, hr, by decide, hd.2.2.1⟩

/-- Reading F2, a key without a character, and then A: the reader returns 0 although A waits. -/
theorem keyboard_stuck : ∃ s₀ ops s, (keyboardSystem fun _ => 0).init s₀ ∧
    (keyboardSystem fun _ => 0).Run s₀ ops s ∧ 0x61 ∈ s.waiting ∧ (kbRead s.kb).2 = 0 := by
  refine ⟨.start, [.key 0x3C, .key 0x1E], _, ⟨fun _ _ => rfl, rfl, rfl, rfl⟩,
    .cons trivial rfl (.cons trivial rfl (.nil _)), ?_, ?_⟩
  · decide
  · decide

/-! ## Keys that have characters -/

/-- A key does not store a 0, and the bytes behind the buffer stay 0. -/
def HaveCharacters (beyond : UInt8 → UInt8) (s : KeyboardRun) : KeyboardOp → Prop
  | .key scancode => (kbHandler beyond s.kb scancode).2 ≠ some 0
  | .read => True
  | .other _ value => value = 0

theorem packed_step (hp : s.kb.buffer.Packed 0xFF) (hle : s.kb.buffer.count ≤ 0xFF)
    (hg : (keyboardSystem beyond).guard s op) (hc : HaveCharacters beyond s op) :
    (s.step beyond op).kb.buffer.Packed 0xFF := by
  cases op with
  | key scancode =>
    rcases kbHandler_cases beyond s.kb scancode with ⟨-, hb⟩ | ⟨-, hch, hb⟩
    · exact hb.symm ▸ hp
    · exact hb.symm ▸ hp.push (fun h => hc (h ▸ hch)) (by omega)
  | read => exact hp.read hle (by decide)
  | other address value =>
    refine hp.congr rfl (fun i hi => ?_) hle
    rcases eq_or_ne i address with rfl | hne
    · have h255 : i = 0xFF := le_antisymm hi hg
      exact (Function.update_self ..).trans (hc.trans (hp.free i (h255 ▸ hle) hi).symm)
    · exact Function.update_of_ne hne ..

/-- The two tests for an empty buffer agree at every read, if every key that is stored has a
    character and the bytes behind the buffer are 0. -/
theorem keyboard_agrees (h₀ : (keyboardSystem beyond).init s₀) (hb : s₀.kb.buffer.cell 0xFF = 0)
    (hr : ((keyboardSystem beyond).restrict (HaveCharacters beyond)).Run s₀ ops s) :
    ((keyboardSystem beyond).restrict TestsAgree).Run s₀ ops s := by
  obtain ⟨hz, hc₀, -, -⟩ := h₀
  refine hr.restrict_mono (P := fun s => s.kb.buffer.Packed 0xFF ∧ s.kb.buffer.count ≤ 0xFF)
    (fun s op s' hs hg hc hst => ?_)
      ⟨⟨fun i hi => ?_, fun i _ hi => ?_⟩, hc₀.trans_le (Nat.zero_le _)⟩
  · have hag : TestsAgree s op := fun _ => hs.1.markedEmpty
    refine ⟨⟨?_, (keyboard_step hs.2 ⟨hg, hag⟩ hst).1⟩, hag⟩
    cases hst
    exact packed_step hs.1 hs.2 hg hc
  · exact absurd (hc₀ ▸ hi) i.not_lt_zero
  · rcases hi.lt_or_eq with hlt | rfl
    · exact hz i hlt
    · exact hb

end Beryllium

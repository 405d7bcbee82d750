import Beryllium.Lib.Str
import Mathlib.Data.BitVec

/-!
# do_printf

The formatter of `kernel/printf.c` on the 32-bit target: a state machine over the characters of
a format string, which calls `fn` with a helper for each character of the output, and
`vsprintf`, which writes the output to a buffer.

A pointer into the format is the list of the characters from there on. An argument is a word,
or the bytes that a pointer points to; taking another kind of argument answers
`none`, as does reading or writing out of bounds.
-/

namespace Beryllium

/-- The flags `PR_..`. -/
structure PrFlags where
  lj : Bool := false
  ca : Bool := false
  sg : Bool := false
  l32 : Bool := false
  l16 : Bool := false
  ws : Bool := false
  lz : Bool := false
  fp : Bool := false

/-- `PR_BUFLEN` -/
def prBuflen : ℕ := 16

/-- An argument: a word, or a pointer to the bytes of a string. -/
inductive VaArg
  | word (w : BitVec 32)
  | pointer (b : List UInt8)

/-- The locals of `do_printf`, and the helper `ptr` of `fn`. -/
structure PrintState (σ : Type) where
  state : ℕ
  flags : PrFlags
  givenWd : ℕ
  count : BitVec 32
  args : List VaArg
  ptr : σ

/-- `state = flags = given_wd = 0` -/
def PrintState.reset {σ : Type} (st : PrintState σ) : PrintState σ :=
  { st with state := 0, flags := {}, givenWd := 0 }

/-- `strlen_unsigned` -/
def strlenUnsigned (str : List UInt8) : Option ℕ := (strlen str).map (· % 2 ^ 32)

section

variable {σ : Type} (fn : UInt32 → σ → Option σ)

/-- A call of `fn`, which is counted. -/
def callFn (c : UInt32) (st : PrintState σ) : Option (PrintState σ) := do
  let ptr ← fn c st.ptr
  return { st with ptr := ptr, count := st.count + 1 }

/-- The loop that pads on the left with `c`, where `n` is `given_wd`. -/
def padLeft (c : UInt32) (actualWd : ℕ) : ℕ → PrintState σ → Option (PrintState σ)
  | 0, st => some st
  | n + 1, st =>
    if n + 1 > actualWd then do
      let st ← callFn fn c st
      padLeft c actualWd n { st with givenWd := n }
    else some st

/-- The loop that emits the string at `where`. -/
def emitString : List UInt8 → PrintState σ → Option (PrintState σ)
  | [], _ => none
  | c :: str, st =>
    if c = 0 then some st
    else do
      let st ← callFn fn c.toUInt32 st
      emitString str st

/-- The loop that pads on the right, where `n` is `given_wd`. -/
def padRight : ℕ → PrintState σ → Option (PrintState σ)
  | 0, st => some st
  | n + 1, st => do
    let st ← callFn fn 32 st
    padRight n { st with givenWd := n }

/-- What follows the label `EMIT2`. -/
def emit2 (str : List UInt8) (actualWd : ℕ) (st : PrintState σ) : Option (PrintState σ) := do
  let st ← (if st.flags.lj then some st
    else padLeft fn (if st.flags.lz then 48 else 32) actualWd st.givenWd st)
  let st ← (if st.flags.ws ∧ ¬st.flags.lz then callFn fn 45 st else some st)
  let st ← emitString fn str st
  let n := if st.givenWd < actualWd then 0 else st.givenWd - actualWd
  padRight fn n { st with givenWd := n }

/-- What follows the label `EMIT`. -/
def emit (str : List UInt8) (st : PrintState σ) : Option (PrintState σ) := do
  let n ← strlenUnsigned str
  let actualWd := if st.flags.ws then (n + 1) % 2 ^ 32 else n
  let st ← (if st.flags.ws ∧ st.flags.lz then callFn fn 45 st else some st)
  emit2 fn str actualWd st

/-- The character of a digit. -/
def digitByte (ca : Bool) (temp : ℕ) : UInt8 :=
  if temp < 10 then UInt8.ofNat (temp + 48)
  else if ca then UInt8.ofNat (temp - 10 + 65)
  else UInt8.ofNat (temp - 10 + 97)

/-- The loop that converts to digits. There is room for `room` more of them in `buf`. -/
def convertLoop (radix : ℕ) (ca : Bool) : ℕ → ℕ → List UInt8 → Option (List UInt8)
  | 0, _, _ => none
  | room + 1, num, str =>
    let str := digitByte ca (num % radix) :: str
    let num := num / radix
    if num ≠ 0 then convertLoop radix ca room num str else some str

/-- What follows the label `DO_NUM`. With every modifier, the argument is a 32-bit word. -/
def doNum (radix : ℕ) (st : PrintState σ) : Option (PrintState σ) :=
  match st.args with
  | .word num :: args => do
    let neg := st.flags.sg && decide (num.toInt < 0)
    let num := if neg then -num else num
    let st := { st with args := args, flags.ws := st.flags.ws || neg }
    let str ← convertLoop radix st.flags.ca (prBuflen - 1) num.toNat [0]
    emit fn str st
  | _ => none

/-- The conversions of state 4. -/
def conversion (c : UInt8) (st : PrintState σ) : Option (PrintState σ) :=
  -- X, then x, p and n
  if c = 88 then doNum fn 16 { st with flags.ca := true }
  else if c = 120 ∨ c = 112 ∨ c = 110 then doNum fn 16 st
  -- d and i, u, o
  else if c = 100 ∨ c = 105 then doNum fn 10 { st with flags.sg := true }
  else if c = 117 then doNum fn 10 st
  else if c = 111 then doNum fn 8 st
  -- c
  else if c = 99 then
    match st.args with
    | .word w :: args =>
      emit2 fn [UInt8.ofNat w.toNat, 0] 1 { st with flags.lz := false, args := args }
    | _ => none
  -- s
  else if c = 115 then
    match st.args with
    | .pointer b :: args => emit fn b { st with flags.lz := false, args := args }
    | _ => none
  else some st

/-- State 4, and the reset after it. -/
def state4 (c : UInt8) (st : PrintState σ) : Option (PrintState σ) :=
  (conversion fn c st).map PrintState.reset

/-- State 3: the modifiers `F`, `N`, `l` and `h`. -/
def state3 (c : UInt8) (st : PrintState σ) : Option (PrintState σ) :=
  if c = 70 then some { st with flags.fp := true }
  else if c = 78 then some st
  else if c = 108 then some { st with flags.l32 := true }
  else if c = 104 then some { st with flags.l16 := true }
  else state4 fn c { st with state := 4 }

/-- State 2: the field width. -/
def state2 (c : UInt8) (st : PrintState σ) : Option (PrintState σ) :=
  if 48 ≤ c ∧ c ≤ 57 then
    some { st with givenWd := (10 * st.givenWd + (c.toNat - 48)) % 2 ^ 32 }
  else state3 fn c { st with state := 3 }

/-- State 1: the flags, at the character `c` before `fmt`. It returns what is left of the format. -/
def state1 (c : UInt8) (fmt : List UInt8) (st : PrintState σ) :
    Option (List UInt8 × PrintState σ) :=
  if c = 37 then (callFn fn c.toInt8.toInt32.toUInt32 st).map fun st => (fmt, st.reset)
  else if c = 45 then
    some (fmt, if st.flags.lj then st.reset else { st with flags.lj := true })
  else if c = 48 then
    match fmt with
    | [] => none
    | c :: fmt => (state2 fn c { st with state := 2, flags.lz := true }).map (fmt, ·)
  else (state2 fn c { st with state := 2 }).map (fmt, ·)

/-- One iteration of the loop over the format, at the character `c` before `fmt`. A character is
    passed to `fn` with its sign. -/
def printfStep (c : UInt8) (fmt : List UInt8) (st : PrintState σ) :
    Option (List UInt8 × PrintState σ) :=
  match st.state with
  | 0 =>
    if c ≠ 37 then (callFn fn c.toInt8.toInt32.toUInt32 st).map (fmt, ·)
    else
      match fmt with
      | [] => none
      | c :: fmt => state1 fn c fmt { st with state := 1 }
  | 1 => state1 fn c fmt st
  | 2 => (state2 fn c st).map (fmt, ·)
  | 3 => (state3 fn c st).map (fmt, ·)
  | 4 => (state4 fn c st).map (fmt, ·)
  | _ => some (fmt, st.reset)

/-- The loop over the format. -/
def printfLoop : ℕ → List UInt8 → PrintState σ → Option (PrintState σ)
  | fuel + 1, c :: fmt, st =>
    if c = 0 then some st
    else do
      let r ← printfStep fn c fmt st
      printfLoop fuel r.1 r.2
  | _, _, _ => none

/-- `do_printf`: what the helper is in the end, and the result. -/
def doPrintf (fmt : List UInt8) (args : List VaArg) (ptr : σ) : Option (σ × ℤ) :=
  (printfLoop fn fmt.length fmt ⟨0, {}, 0, 0, args, ptr⟩).map fun st => (st.ptr, st.count.toInt)

end

/-- A buffer, and a pointer into it. -/
structure Buffer where
  bytes : List UInt8
  pos : ℕ

/-- `vsprintf_help` -/
def vsprintfHelp (c : UInt32) (b : Buffer) : Option Buffer :=
  if b.pos < b.bytes.length then some ⟨b.bytes.set b.pos c.toUInt8, b.pos + 1⟩ else none

/-- `vsprintf` -/
def vsprintf (buf : List UInt8) (fmt : List UInt8) (args : List VaArg) :
    Option (List UInt8 × ℤ) := do
  let r ← doPrintf vsprintfHelp fmt args ⟨buf, 0⟩
  if 0 ≤ r.2 ∧ r.2 < r.1.bytes.length then some (r.1.bytes.set r.2.toNat 0, r.2) else none

/-- `sprintf` -/
def sprintf (buf fmt : List UInt8) (args : List VaArg) : Option (List UInt8 × ℤ) :=
  vsprintf buf fmt args

end Beryllium

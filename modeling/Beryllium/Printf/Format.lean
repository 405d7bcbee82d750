import Beryllium.Printf.Emit

/-!
# The language of formats

A format is a list of pieces: characters that stand for themselves, `%%`, and directives
`%[-][0][width][l]X` (`Piece.text`). Its output takes the arguments one after the other
(`formatOutput`), where a number is its shortest numeral, padded to the width.

`do_printf` implements the language (`do_printf_spec`): the characters that it passes to `fn` are
the output. Its result is an `int`, so it is the number of characters if there are
fewer than 2^31 (`long_output`).
-/

namespace Beryllium

open Machine

/-! ## Formats and their output -/

/-- The conversions. -/
inductive Conversion
  | d | i | u | o | x | X | p | c | s
  deriving DecidableEq

/-- The character that names a conversion. -/
def Conversion.letter : Conversion → UInt8
  | d => 100
  | i => 105
  | u => 117
  | o => 111
  | x => 120
  | X => 88
  | p => 112
  | c => 99
  | s => 115

/-- The conversions of numbers. -/
def Conversion.isNumber (conv : Conversion) : Bool := conv ≠ .c ∧ conv ≠ .s

/-- The radix of a number. -/
def Conversion.radix : Conversion → ℕ
  | o => 8
  | x | X | p => 16
  | _ => 10

/-- The digits after 9 are in upper case. -/
def Conversion.upper (conv : Conversion) : Bool := conv = .X

/-- The argument is a signed number. -/
def Conversion.signed (conv : Conversion) : Bool := conv = .d ∨ conv = .i

/-- What a conversion makes of an argument: whether there is a sign, and what follows it. It is
    `none` if the argument does not match: `%c` takes a character that is not NUL, and `%s` the
    address of a string. -/
def Conversion.field (conv : Conversion) (arg : VaArg) : Option (Bool × List UInt8) :=
  match conv, arg with
  | .c, .word w => if UInt8.ofNat w.toNat = 0 then none else some (false, [UInt8.ofNat w.toNat])
  | .s, .pointer b =>
    if 0 ∈ b ∧ (b.takeWhile (· ≠ 0)).length < 2 ^ 32 then some (false, b.takeWhile (· ≠ 0))
      else none
  | .s, .word _ | _, .pointer _ => none
  | conv, .word w => some (conv.signed && decide (w.toInt < 0),
    numeral conv.radix conv.upper (if conv.signed then w.toInt.natAbs else w.toNat))

/-- The number that digits stand for, after the number `n`. -/
def widthFrom (n : ℕ) (ds : List (Fin 10)) : ℕ := ds.foldl (fun n d => 10 * n + d.val) n

/-- A directive `%[-][0][width][l]X`. The width does not start with a zero that would be read as the
    flag. -/
structure Directive where
  left : Bool
  zero : Bool
  width : List (Fin 10)
  long : Bool
  conv : Conversion
  width_lt : widthFrom 0 width < 2 ^ 31
  width_head : zero = false → width.head? ≠ some 0

/-- A piece of a format. -/
inductive Piece
  | char (c : UInt8) (ne_zero : c ≠ 0) (ne_percent : c ≠ 37)
  | percent
  | directive (d : Directive)

/-- The digits of a width. -/
def widthText (ds : List (Fin 10)) : List UInt8 := ds.map fun d : Fin 10 => UInt8.ofNat (d.val + 48)

def Directive.text (d : Directive) : List UInt8 :=
  37 :: ((if d.left then [45] else []) ++ (if d.zero then [48] else []) ++ widthText d.width ++
    (if d.long then [108] else []) ++ [d.conv.letter])

/-- The text of a piece. -/
def Piece.text : Piece → List UInt8
  | .char c _ _ => [c]
  | .percent => [37, 37]
  | .directive d => d.text

/-- The text of a format. -/
def formatText (ps : List Piece) : List UInt8 := ps.flatMap Piece.text

/-- The output of a piece, and the arguments after it. -/
def Piece.output : Piece → List VaArg → Option (List UInt8 × List VaArg)
  | .char c _ _, args => some ([c], args)
  | .percent, args => some ([37], args)
  | .directive _, [] => none
  | .directive d, arg :: args => (d.conv.field arg).map fun f =>
    (pad d.left (d.zero && d.conv.isNumber) (widthFrom 0 d.width) f.1 f.2, args)

/-- The output of a format, `none` if the arguments do not match it. -/
def formatOutput : List Piece → List VaArg → Option (List UInt8)
  | [], _ => some []
  | p :: ps, args => do
    let (out, args) ← p.output args
    let rest ← formatOutput ps args
    return out ++ rest

/-! ## The conversions -/

variable {σ : Type} {fn : UInt32 → σ → Option σ} {st : PrintState σ} {args : List VaArg}

theorem digitByte_ne_zero : ∀ (ca : Bool) (d : Fin 16), digitByte ca d ≠ 0 := by decide

theorem numeral_ne_zero {radix n : ℕ} {ca : Bool} (hr : 1 < radix) (hr' : radix ≤ 16) :
    0 ∉ numeral radix ca n := by
  rw [numeral]
  split_ifs
  · decide
  · rw [List.mem_reverse, List.mem_map]
    rintro ⟨d, hd, h⟩
    exact digitByte_ne_zero ca ⟨d, (Nat.digits_lt_base hr hd).trans_le hr'⟩ h

theorem length_numeral_le {radix n room : ℕ} {ca : Bool} (hr : 1 < radix) (hroom : 0 < room)
    (hn : n < radix ^ room) : (numeral radix ca n).length ≤ room := by
  rw [numeral]
  split_ifs
  · exact hroom
  · rw [List.length_reverse, List.length_map]
    exact (Nat.digits_length_le_iff hr n).2 hn

/-- The code at `DO_NUM` emits the numeral of the argument, or of its negation after a sign. -/
theorem doNum_eq {radix : ℕ} {w : BitVec 32} {neg : Bool} {n : ℕ} (hr : 8 ≤ radix)
    (hr' : radix ≤ 16) (hargs : st.args = .word w :: args) (hws : st.flags.ws = false)
    (hneg : (st.flags.sg && decide (w.toInt < 0)) = neg) (hn : (if neg then -w else w).toNat = n) :
    (doNum fn radix st).map PrintState.reset = PrintState.calls fn
      ((pad st.flags.lj st.flags.lz st.givenWd neg (numeral radix st.flags.ca n)).map
        UInt8.toUInt32) { st with args := args }.reset := by
  have hroom : n < radix ^ (prBuflen - 1) := by
    calc n < 2 ^ 32 := hn ▸ BitVec.isLt _
      _ ≤ 8 ^ 15 := by norm_num
      _ ≤ radix ^ (prBuflen - 1) := Nat.pow_le_pow_left hr 15
  have hlen : (numeral radix st.flags.ca n).length ≤ 15 :=
    length_numeral_le (by omega) (Nat.succ_pos 14) hroom
  have hstr : CStr (numeral radix st.flags.ca n ++ [0]) (numeral radix st.flags.ca n) :=
    CStr.mk (numeral_ne_zero (by omega) hr') []
  have hbit : neg.toNat ≤ 1 := Bool.toNat_le neg
  simp only [doNum, hargs, hneg, hn, hws, Bool.false_or, Option.bind_eq_bind]
  rw [convertLoop_eq (by omega) hroom (Nat.succ_pos 14), Option.bind_some,
    emit_eq _ _ hstr (show _ + neg.toNat < 2 ^ 32 by omega), ← calls_reset]
  rfl

/-- A string that is not a number is padded with spaces. -/
theorem emit2_pad (fn : UInt32 → σ → Option σ) (st : PrintState σ) {b s : List UInt8} (h : CStr b s)
    (hws : st.flags.ws = false) (hlz : st.flags.lz = false) :
    emit2 fn b s.length st = PrintState.calls fn
      ((pad st.flags.lj false st.givenWd false s).map UInt8.toUInt32) { st with givenWd := 0 } := by
  rw [emit2_eq h, hws, hlz]
  congr 1
  cases st.flags.lj <;> simp [pad]

theorem cstr_takeWhile {b : List UInt8} (h : 0 ∈ b) : CStr b (b.takeWhile (· ≠ 0)) := by
  induction b with
  | nil => exact absurd h List.not_mem_nil
  | cons c b ih =>
    rw [cstr_cons, List.takeWhile_cons]
    by_cases hc : c = 0
    · exact .inl ⟨hc, by simp [hc]⟩
    · have hb : 0 ∈ b := (List.mem_cons.1 h).resolve_left (Ne.symm hc)
      exact .inr ⟨hc, _, by simp [hc], ih hb⟩

theorem toNat_neg_of_lt {w : BitVec 32} (h : w.toInt < 0) : (-w).toNat = w.toInt.natAbs := by
  rw [BitVec.toNat_neg]
  rw [BitVec.toInt_eq_toNat_cond] at h ⊢
  have := w.isLt
  split_ifs at h ⊢ with hw <;> omega

theorem radix_bounds (conv : Conversion) : 8 ≤ conv.radix ∧ conv.radix ≤ 16 := by
  cases conv <;> decide

/-- A conversion emits its field. -/
theorem conversion_eq {conv : Conversion} {arg : VaArg} {neg : Bool} {body : List UInt8}
    (hf : conv.field arg = some (neg, body)) (left zero long : Bool) (n : ℕ) (k : BitVec 32)
    (p : σ) :
    state4 fn conv.letter ⟨4, { lj := left, lz := zero, l32 := long }, n, k, arg :: args, p⟩ =
      PrintState.calls fn ((pad left (zero && conv.isNumber) n neg body).map UInt8.toUInt32)
        ⟨0, {}, 0, k, args, p⟩ := by
  cases arg with
  | pointer b =>
    obtain rfl : conv = .s := by
      cases conv <;> first | rfl | cases hf
    rw [Conversion.field] at hf
    split_ifs at hf with hb
    obtain ⟨rfl, rfl⟩ := Prod.mk.inj (Option.some.inj hf)
    have hconv : conversion fn Conversion.s.letter
        ⟨4, { lj := left, lz := zero, l32 := long }, n, k, .pointer b :: args, p⟩ =
        emit fn b ⟨4, { lj := left, l32 := long }, n, k, args, p⟩ := rfl
    have hlz : (zero && Conversion.s.isNumber) = false := Bool.and_false zero
    have hemit := emit_eq fn ⟨4, { lj := left, l32 := long }, n, k, args, p⟩
      (cstr_takeWhile hb.1) hb.2
    rw [state4, hconv, hemit, ← calls_reset, hlz]
    rfl
  | word w =>
    by_cases hc : conv = .c
    · subst hc
      rw [Conversion.field] at hf
      split_ifs at hf with hw
      obtain ⟨rfl, rfl⟩ := Prod.mk.inj (Option.some.inj hf)
      have hconv : conversion fn Conversion.c.letter
          ⟨4, { lj := left, lz := zero, l32 := long }, n, k, .word w :: args, p⟩ =
          emit2 fn [UInt8.ofNat w.toNat, 0] 1 ⟨4, { lj := left, l32 := long }, n, k, args, p⟩ := rfl
      have hstr : CStr [UInt8.ofNat w.toNat, 0] [UInt8.ofNat w.toNat] :=
        CStr.mk (fun h => hw (List.mem_singleton.1 h).symm) []
      have hlz : (zero && Conversion.c.isNumber) = false := Bool.and_false zero
      have hemit := emit2_pad fn ⟨4, { lj := left, l32 := long }, n, k, args, p⟩ hstr rfl rfl
      rw [List.length_singleton] at hemit
      rw [state4, hconv, hemit, ← calls_reset, hlz]
      rfl
    · have hs : conv ≠ .s := by
        rintro rfl
        cases hf
      have hconv : conversion fn conv.letter
          ⟨4, { lj := left, lz := zero, l32 := long }, n, k, .word w :: args, p⟩ =
          doNum fn conv.radix
            ⟨4, { lj := left, ca := conv.upper, sg := conv.signed, l32 := long, lz := zero },
              n, k, .word w :: args, p⟩ := by
        cases conv <;> first | rfl | contradiction
      have hfield : conv.field (.word w) = some (conv.signed && decide (w.toInt < 0),
          numeral conv.radix conv.upper (if conv.signed then w.toInt.natAbs else w.toNat)) := by
        cases conv <;> first | rfl | contradiction
      have hnum : conv.isNumber = true := by simp [Conversion.isNumber, hc, hs]
      have hradix := radix_bounds conv
      obtain ⟨rfl, rfl⟩ := Prod.mk.inj (Option.some.inj (hfield.symm.trans hf))
      -- the number after the sign
      have habs : (if conv.signed && decide (w.toInt < 0) then -w else w).toNat =
          if conv.signed then w.toInt.natAbs else w.toNat := by
        cases conv.signed with
        | false => rfl
        | true =>
          rw [Bool.true_and, if_pos rfl]
          split_ifs with hneg
          · exact toNat_neg_of_lt (of_decide_eq_true hneg)
          · have := BitVec.toInt_eq_toNat_cond w
            have hneg : ¬w.toInt < 0 := fun h => hneg (decide_eq_true h)
            omega
      rw [state4, hconv, doNum_eq hradix.1 hradix.2 rfl rfl rfl habs, hnum, Bool.and_true]
      rfl

end Beryllium

import Beryllium.Printf.DoPrintf
import Mathlib.Data.Nat.Digits.Lemmas

/-!
# Emitting a field

What one conversion of `do_printf` emits: a sign, the body, and what pads them to the field
width (`pad`). Whatever `fn` is, the output is a list of characters that it is called with,
one after the other (`PrintState.calls`).

* `emit_eq`: the code at the label `EMIT` emits a padded field;
* `convertLoop_eq`: the digits of a number are its numeral in the radix.
-/

namespace Beryllium

open Machine

variable {σ : Type} {fn : UInt32 → σ → Option σ} {st : PrintState σ}

/-- The calls of `fn` for the characters `out`. -/
def PrintState.calls (fn : UInt32 → σ → Option σ) (out : List UInt32) (st : PrintState σ) :
    Option (PrintState σ) :=
  (out.foldlM (fun p c => fn c p) st.ptr).map fun p =>
    { st with ptr := p, count := st.count + BitVec.ofNat 32 out.length }

theorem calls_nil : st.calls fn [] = some st := by
  rw [PrintState.calls, List.foldlM_nil, List.length_nil]
  simp

theorem calls_cons (c : UInt32) (out : List UInt32) :
    st.calls fn (c :: out) = (callFn fn c st).bind (PrintState.calls fn out) := by
  simp only [PrintState.calls, callFn, List.foldlM_cons, List.length_cons, Option.bind_eq_bind]
  cases fn c st.ptr with
  | none => rfl
  | some p =>
    simp only [Option.bind_some, Option.pure_def]
    congr 1
    funext p
    rw [Nat.add_comm, BitVec.ofNat_add, BitVec.add_assoc]
    rfl

theorem calls_append (a b : List UInt32) :
    st.calls fn (a ++ b) = (st.calls fn a).bind (PrintState.calls fn b) := by
  induction a generalizing st with
  | nil => rw [calls_nil, List.nil_append, Option.bind_some]
  | cons c a ih =>
    rw [List.cons_append, calls_cons, calls_cons, Option.bind_assoc]
    congr 1
    funext st'
    exact ih

/-- The calls change nothing but the helper and the count, and depend on nothing else. -/
theorem calls_bind_congr {st' : PrintState σ} {out : List UInt32} {τ : Type}
    {f g : PrintState σ → Option τ} (hp : st.ptr = st'.ptr) (hk : st.count = st'.count)
    (h : ∀ p k, f { st with ptr := p, count := k } = g { st' with ptr := p, count := k }) :
    (st.calls fn out).bind f = (st'.calls fn out).bind g := by
  rw [PrintState.calls, PrintState.calls, hp, hk]
  cases out.foldlM (fun p c => fn c p) st'.ptr with
  | none => rfl
  | some p => exact h p _

theorem calls_reset (out : List UInt32) :
    st.reset.calls fn out = (st.calls fn out).map PrintState.reset := by
  rw [PrintState.calls, PrintState.calls, Option.map_map]
  rfl

theorem callFn_eq (c : UInt32) : callFn fn c st = st.calls fn [c] := by
  rw [calls_cons]
  cases callFn fn c st with
  | none => rfl
  | some st' => rw [Option.bind_some, calls_nil]

/-! ## Padding -/

theorem padLeft_eq (st : PrintState σ) (c : UInt32) (a n : ℕ) :
    padLeft fn c a n { st with givenWd := n } =
      PrintState.calls fn (List.replicate (n - a) c) { st with givenWd := min n a } := by
  induction n generalizing st with
  | zero =>
    rw [Nat.zero_sub, List.replicate_zero, calls_nil, Nat.zero_min]
    rfl
  | succ n ih =>
    rw [padLeft]
    split_ifs with h
    · rw [Nat.succ_sub (Nat.le_of_lt_succ h), List.replicate_succ, calls_cons]
      simp only [callFn, Option.bind_eq_bind, Option.bind_assoc, Option.pure_def, Option.bind_some]
      congr 1
      funext p
      rw [ih { st with ptr := p, count := st.count + 1 }, Nat.min_eq_right (by omega),
        Nat.min_eq_right (by omega)]
    · rw [Nat.sub_eq_zero_of_le (Nat.not_lt.1 h), List.replicate_zero, calls_nil,
        Nat.min_eq_left (Nat.not_lt.1 h)]

theorem padRight_eq (st : PrintState σ) (n : ℕ) :
    padRight fn n { st with givenWd := n } =
      PrintState.calls fn (List.replicate n 32) { st with givenWd := 0 } := by
  induction n generalizing st with
  | zero =>
    rw [List.replicate_zero, calls_nil]
    rfl
  | succ n ih =>
    rw [padRight, List.replicate_succ, calls_cons]
    simp only [callFn, Option.bind_eq_bind, Option.bind_assoc, Option.pure_def, Option.bind_some]
    congr 1
    funext p
    exact ih { st with ptr := p, count := st.count + 1 }

theorem emitString_eq {b s : List UInt8} (h : CStr b s) :
    emitString fn b st = st.calls fn (s.map UInt8.toUInt32) := by
  induction b generalizing s st with
  | nil => exact absurd h cstr_nil
  | cons c b ih =>
    rw [emitString]
    rcases cstr_cons.1 h with ⟨rfl, rfl⟩ | ⟨hc, s, rfl, h'⟩
    · exact calls_nil.symm
    · rw [if_neg hc, List.map_cons, calls_cons]
      congr 1
      funext st'
      exact ih h'

/-! ## Fields -/

/-- A field of a given width: on its left (`left`) and padded with spaces on the right, or padded on
    the left, with zeros after the sign (`zero`) or with spaces before it. -/
def pad (left zero : Bool) (width : ℕ) (neg : Bool) (body : List UInt8) : List UInt8 :=
  let sign := if neg then [45] else []
  let fill := width - (sign ++ body).length
  if left then sign ++ body ++ List.replicate fill 32
  else if zero then sign ++ List.replicate fill 48 ++ body
  else List.replicate fill 32 ++ sign ++ body

/-- What pads on the right, after the characters `out`. -/
theorem calls_padRight (st : PrintState σ) (out : List UInt32) (a : ℕ) :
    ((st.calls fn out).bind fun st =>
      let n := if st.givenWd < a then 0 else st.givenWd - a
      padRight fn n { st with givenWd := n }) =
      PrintState.calls fn (out ++ List.replicate (st.givenWd - a) 32) { st with givenWd := 0 } := by
  rw [calls_append]
  simp only [PrintState.calls]
  cases out.foldlM (fun p c => fn c p) st.ptr with
  | none => rfl
  | some p =>
    have hn : (if st.givenWd < a then 0 else st.givenWd - a) = st.givenWd - a := by
      split_ifs with h
      · exact (Nat.sub_eq_zero_of_le h.le).symm
      · rfl
    simp only [Option.map_some, Option.bind_some, hn]
    exact padRight_eq { st with ptr := p, count := _ } _

/-- What follows `EMIT2` emits: the padding, the sign if it was not emitted before, and the string.
    -/
theorem emit2_eq {b s : List UInt8} (h : CStr b s) (a : ℕ) :
    emit2 fn b a st = PrintState.calls fn
      ((if st.flags.lj then [] else
          List.replicate (st.givenWd - a) (if st.flags.lz then 48 else 32)) ++
        (if st.flags.ws ∧ ¬st.flags.lz then [45] else []) ++ s.map UInt8.toUInt32 ++
        if st.flags.lj then List.replicate (st.givenWd - a) 32 else [])
      { st with givenWd := 0 } := by
  have hleft : (if st.flags.lj then some st
      else padLeft fn (if st.flags.lz then 48 else 32) a st.givenWd st) =
      PrintState.calls fn (if st.flags.lj then [] else
          List.replicate (st.givenWd - a) (if st.flags.lz then 48 else 32))
        { st with givenWd := if st.flags.lj then st.givenWd else min st.givenWd a } := by
    split_ifs
    · exact calls_nil.symm
    · exact padLeft_eq st _ a st.givenWd
    · exact padLeft_eq st _ a st.givenWd
  have hsign : ∀ st : PrintState σ,
      (if st.flags.ws ∧ ¬st.flags.lz then callFn fn 45 st else some st) =
      st.calls fn (if st.flags.ws ∧ ¬st.flags.lz then [45] else []) := by
    intro st
    split_ifs
    · exact callFn_eq 45
    · exact calls_nil.symm
  -- after padding on the left nothing is left of the width for the right side
  have hright : (if st.flags.lj then List.replicate (st.givenWd - a) 32 else []) =
      List.replicate ((if st.flags.lj then st.givenWd else min st.givenWd a) - a)
        (32 : UInt32) := by
    split_ifs
    · rfl
    · rw [Nat.sub_eq_zero_of_le (Nat.min_le_right _ _)]
      rfl
  rw [hright, ← calls_padRight { st with givenWd := _ }, List.append_assoc, calls_append,
    emit2, Option.bind_eq_bind, hleft, Option.bind_assoc]
  refine calls_bind_congr rfl rfl fun p k => ?_
  rw [hsign, calls_append, Option.bind_assoc]
  refine calls_bind_congr rfl rfl fun p k => ?_
  rw [emitString_eq h]

/-- The code at `EMIT` emits the string as a field. -/
theorem emit_eq (fn : UInt32 → σ → Option σ) (st : PrintState σ) {b s : List UInt8} (h : CStr b s)
    (hs : s.length + st.flags.ws.toNat < 2 ^ 32) :
    emit fn b st = PrintState.calls fn
      ((pad st.flags.lj st.flags.lz st.givenWd st.flags.ws s).map UInt8.toUInt32)
      { st with givenWd := 0 } := by
  have hlen : strlenUnsigned b = some s.length := by
    rw [strlenUnsigned, strlen_eq h, Option.map_some, Nat.mod_eq_of_lt (by omega)]
  have hwd : (if st.flags.ws then (s.length + 1) % 2 ^ 32 else s.length) =
      s.length + st.flags.ws.toNat := by
    cases hws : st.flags.ws with
    | false => rfl
    | true =>
      rw [hws] at hs
      exact Nat.mod_eq_of_lt hs
  have hsign : (if st.flags.ws ∧ st.flags.lz then callFn fn 45 st else some st) =
      st.calls fn (if st.flags.ws ∧ st.flags.lz then [45] else []) := by
    split_ifs
    · exact callFn_eq 45
    · exact calls_nil.symm
  have hout : (pad st.flags.lj st.flags.lz st.givenWd st.flags.ws s).map UInt8.toUInt32 =
      (if st.flags.ws ∧ st.flags.lz then [45] else []) ++
      ((if st.flags.lj then [] else
          List.replicate (st.givenWd - (s.length + st.flags.ws.toNat)) (if st.flags.lz then 48
            else 32)) ++
        (if st.flags.ws ∧ ¬st.flags.lz then [45] else []) ++ s.map UInt8.toUInt32 ++
        if st.flags.lj then List.replicate (st.givenWd - (s.length + st.flags.ws.toNat)) 32
          else []) := by
    cases st.flags.lj <;> cases st.flags.ws <;> cases st.flags.lz <;> simp [pad]
  rw [emit, hlen, Option.bind_eq_bind, Option.bind_some, hwd, Option.bind_eq_bind, hsign, hout,
    calls_append]
  refine calls_bind_congr rfl rfl fun p k => ?_
  exact emit2_eq h _

/-! ## Numerals -/

/-- The numeral of a number: its digits in the radix, without leading zeros. -/
def numeral (radix : ℕ) (ca : Bool) (n : ℕ) : List UInt8 :=
  if n = 0 then [48] else ((Nat.digits radix n).map (digitByte ca)).reverse

variable {radix n : ℕ} {ca : Bool}

theorem numeral_of_lt (hn : n < radix) : numeral radix ca n = [digitByte ca n] := by
  rw [numeral]
  split_ifs with h
  · rw [h]
    cases ca <;> rfl
  · rw [Nat.digits_of_lt radix n h hn]
    rfl

theorem numeral_div (hr : 1 < radix) (hn : n / radix ≠ 0) :
    numeral radix ca n = numeral radix ca (n / radix) ++ [digitByte ca (n % radix)] := by
  have hn₀ : n ≠ 0 := by
    rintro rfl
    exact hn (Nat.zero_div radix)
  rw [numeral, numeral, if_neg hn, if_neg hn₀, Nat.digits_def' hr (Nat.pos_of_ne_zero hn₀),
    List.map_cons, List.reverse_cons]

/-- The loop writes the numeral, if there is room for it. -/
theorem convertLoop_eq (hr : 1 < radix) {room : ℕ} (hn : n < radix ^ room) (hroom : 0 < room)
    (str : List UInt8) :
    convertLoop radix ca room n str = some (numeral radix ca n ++ str) := by
  induction room generalizing n str with
  | zero => exact absurd hroom (Nat.lt_irrefl 0)
  | succ room ih =>
    have hdiv : n / radix < radix ^ room := by
      rw [Nat.div_lt_iff_lt_mul (Nat.zero_lt_of_lt hr)]
      exact hn
    rw [convertLoop]
    split_ifs with h
    · have hpos : 0 < room := by
        rcases Nat.eq_zero_or_pos room with rfl | hpos
        · exact absurd (Nat.lt_one_iff.1 hdiv) h
        · exact hpos
      rw [ih hdiv hpos, numeral_div hr h, List.append_assoc]
      rfl
    · have hlt : n < radix := by
        rcases Nat.div_eq_zero_iff.1 (not_not.1 h) with hz | hlt
        · omega
        · exact hlt
      rw [numeral_of_lt hlt, Nat.mod_eq_of_lt hlt]
      rfl

end Beryllium

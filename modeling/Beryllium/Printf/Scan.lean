import Beryllium.Printf.Format

/-!
# Scanning a format

The loop of `do_printf` over the text of a format. Each piece is scanned from the state after a
reset to the state after a reset (`printfRun_piece`), so that `do_printf` implements the
language of formats (`do_printf_spec`).
-/

namespace Beryllium

open Machine

variable {σ : Type} {fn : UInt32 → σ → Option σ} {st : PrintState σ} {c : UInt8}
  {fmt rest : List UInt8} {r : List UInt8 × PrintState σ}

/-! ## The loop without its bound -/

theorem length_of_map {x : Option (PrintState σ)} {f : PrintState σ → List UInt8 × PrintState σ}
    {l : List UInt8} (h : x.map f = some r) (hf : ∀ z, (f z).1 = l) : r.1.length ≤ l.length := by
  obtain ⟨z, -, rfl⟩ := Option.map_eq_some_iff.1 h
  rw [hf z]

theorem state1_length (h : state1 fn c fmt st = some r) : r.1.length ≤ fmt.length := by
  rw [state1.eq_def] at h
  split_ifs at h
  · exact length_of_map h fun _ => rfl
  · obtain rfl := Option.some.inj h
    exact le_rfl
  · obtain rfl := Option.some.inj h
    exact le_rfl
  · -- `l` reads one more character
    cases fmt with
    | nil => cases h
    | cons d fmt => exact (length_of_map h fun _ => rfl).trans (Nat.le_succ _)
  · exact length_of_map h fun _ => rfl

/-- One iteration goes forward in the format. -/
theorem printfStep_length (h : printfStep fn c fmt st = some r) : r.1.length ≤ fmt.length := by
  rw [printfStep.eq_def] at h
  split at h
  · split_ifs at h
    · exact length_of_map h fun _ => rfl
    · -- the character after the `%` is read in the same step
      cases fmt with
      | nil => cases h
      | cons d fmt => exact (state1_length h).trans (Nat.le_succ _)
  · exact state1_length h
  · exact length_of_map h fun _ => rfl
  · exact length_of_map h fun _ => rfl
  · exact length_of_map h fun _ => rfl
  · obtain rfl := Option.some.inj h
    exact le_rfl

theorem printfLoop_fuel {fuel fuel' : ℕ} (h : fmt.length ≤ fuel) (h' : fmt.length ≤ fuel') :
    printfLoop fn fuel fmt st = printfLoop fn fuel' fmt st := by
  induction fuel generalizing fmt st fuel' with
  | zero =>
    obtain rfl := List.length_eq_zero_iff.1 (Nat.le_zero.1 h)
    cases fuel' <;> rfl
  | succ fuel ih =>
    cases fmt with
    | nil => cases fuel' <;> rfl
    | cons c fmt =>
      cases fuel' with
      | zero => exact absurd h' (Nat.not_succ_le_zero _)
      | succ fuel' =>
        rw [printfLoop, printfLoop]
        split_ifs
        · rfl
        · cases hr : printfStep fn c fmt st with
          | none => rfl
          | some r =>
            have hle := printfStep_length hr
            exact ih (hle.trans (Nat.le_of_succ_le_succ h)) (hle.trans (Nat.le_of_succ_le_succ h'))

/-- The loop, as often as it takes. -/
def printfRun (fn : UInt32 → σ → Option σ) (fmt : List UInt8) (st : PrintState σ) :
    Option (PrintState σ) := printfLoop fn fmt.length fmt st

theorem printfRun_nul : printfRun fn (0 :: fmt) st = some st := rfl

theorem printfRun_cons (hc : c ≠ 0) : printfRun fn (c :: fmt) st =
    (printfStep fn c fmt st).bind fun r => printfRun fn r.1 r.2 := by
  rw [printfRun, List.length_cons, printfLoop, if_neg hc]
  cases hr : printfStep fn c fmt st with
  | none => rfl
  | some r => exact printfLoop_fuel (printfStep_length hr) le_rfl

/-! ## Directives -/

/-- Scan a width from the state 2 on. -/
def scanWidth (fn : UInt32 → σ → Option σ) : List UInt8 → PrintState σ → Option (PrintState σ)
  | [], _ => none
  | c :: fmt, st => (state2 fn c st).bind (printfRun fn fmt)

/-- Scan flags from the state 1 on. -/
def scanFlags (fn : UInt32 → σ → Option σ) : List UInt8 → PrintState σ → Option (PrintState σ)
  | [], _ => none
  | c :: fmt, st => (state1 fn c fmt st).bind fun r => printfRun fn r.1 r.2

variable {f : PrFlags} {n : ℕ} {k : BitVec 32} {args : List VaArg} {p : σ} {left zero long : Bool}

theorem printfRun_percent (c : UInt8) :
    printfRun fn (37 :: c :: fmt) ⟨0, f, n, k, args, p⟩ = scanFlags fn
    (c :: fmt) ⟨1, f, n, k, args, p⟩ :=
  printfRun_cons (by decide)

theorem printfRun_width (hc : c ≠ 0) : printfRun fn (c :: fmt) ⟨2, f, n, k, args, p⟩ =
    scanWidth fn (c :: fmt) ⟨2, f, n, k, args, p⟩ :=
  (printfRun_cons hc).trans (Option.bind_map ..)

theorem scanFlags_left (hc : c ≠ 0) : scanFlags fn (45 :: c :: fmt) ⟨1, {}, n, k, args, p⟩ =
    scanFlags fn (c :: fmt) ⟨1, { lj := true }, n, k, args, p⟩ :=
  printfRun_cons hc

theorem scanFlags_zero (c : UInt8) :
    scanFlags fn (48 :: c :: fmt) ⟨1, { lj := left }, n, k, args, p⟩ =
      scanWidth fn (c :: fmt) ⟨2, { lj := left, lz := true }, n, k, args, p⟩ :=
  Option.bind_map ..

theorem scanFlags_none (h₁ : c ≠ 37) (h₂ : c ≠ 45) (h₃ : c ≠ 48) :
    scanFlags fn (c :: fmt) ⟨1, f, n, k, args, p⟩ = scanWidth fn
    (c :: fmt) ⟨2, f, n, k, args, p⟩ := by
  rw [scanFlags, scanWidth, state1.eq_def, if_neg h₁, if_neg h₂, if_neg h₃, Option.bind_map]
  rfl

theorem digit_byte : ∀ d : Fin 10, UInt8.ofNat (d + 48) ≠ 0 ∧ UInt8.ofNat (d + 48) ≠ 37 ∧
    UInt8.ofNat (d + 48) ≠ 45 ∧ (UInt8.ofNat (d + 48) = 48 → d = 0) ∧
    (48 ≤ UInt8.ofNat (d + 48) ∧ UInt8.ofNat (d + 48) ≤ 57) ∧
    (UInt8.ofNat (d + 48)).toNat - 48 = d := by decide

theorem le_widthFrom (n : ℕ) (ds : List (Fin 10)) : n ≤ widthFrom n ds := by
  induction ds generalizing n with
  | nil => exact le_rfl
  | cons d ds ih => exact (show n ≤ 10 * n + d by omega).trans (ih (10 * n + d))

/-- The digits of a width that fits a word are read. -/
theorem scanWidth_digits {ds : List (Fin 10)} (h : widthFrom n ds < 2 ^ 32) (hc : c ≠ 0) :
    scanWidth fn (widthText ds ++ c :: fmt) ⟨2, f, n, k, args, p⟩ =
      scanWidth fn (c :: fmt) ⟨2, f, widthFrom n ds, k, args, p⟩ := by
  induction ds generalizing n with
  | nil => rfl
  | cons d ds ih =>
    obtain ⟨-, -, -, -, hdigit, hval⟩ := digit_byte d
    have hlt : 10 * n + d < 2 ^ 32 := (le_widthFrom _ ds).trans_lt h
    have hstep : state2 fn (UInt8.ofNat (d + 48)) ⟨2, f, n, k, args, p⟩ =
        some ⟨2, f, 10 * n + d, k, args, p⟩ := by
      rw [state2, if_pos hdigit, hval, Nat.mod_eq_of_lt hlt]
    rw [widthText, List.map_cons, List.cons_append, scanWidth, hstep, Option.bind_some, ← widthText]
    -- the next character is not the end of the format
    refine Eq.trans ?_ (ih h)
    cases ds with
    | nil => exact printfRun_width hc
    | cons e ds => exact printfRun_width (digit_byte e).1

theorem letter_ne (conv : Conversion) :
    conv.letter ≠ 0 ∧ conv.letter ≠ 37 ∧ conv.letter ≠ 45 ∧ conv.letter ≠ 48 := by
  cases conv <;> decide

/-- A conversion after its modifier. -/
theorem scanWidth_conv (conv : Conversion) :
    scanWidth fn ((if long then [108] else []) ++ conv.letter :: rest)
        ⟨2, { lj := left, lz := zero }, n, k, args, p⟩ =
      (state4 fn conv.letter ⟨4, { lj := left, lz := zero, l32 := long }, n, k, args, p⟩).bind
        (printfRun fn rest) := by
  cases long with
  | false => cases conv <;> rfl
  | true =>
    refine (printfRun_cons (letter_ne conv).1).trans ?_
    cases conv <;> exact Option.bind_map ..

/-- What comes after the flags does not look like one. -/
theorem exists_head (d : Directive) (rest : List UInt8) : ∃ c fmt,
    widthText d.width ++ ((if d.long then [108] else []) ++ d.conv.letter :: rest) = c :: fmt ∧
      c ≠ 0 ∧ c ≠ 37 ∧ c ≠ 45 ∧ (d.zero = false → c ≠ 48) := by
  obtain ⟨left, zero, width, long, conv, hlt, hhead⟩ := d
  cases width with
  | nil =>
    cases long with
    | false =>
      obtain ⟨h₀, h₁, h₂, h₃⟩ := letter_ne conv
      exact ⟨conv.letter, rest, rfl, h₀, h₁, h₂, fun _ => h₃⟩
    | true => exact ⟨108, conv.letter :: rest,
      rfl, by decide, by decide, by decide, fun _ => by decide⟩
  | cons e ds =>
    obtain ⟨h₀, h₁, h₂, h₃, -⟩ := digit_byte e
    refine ⟨_, _, rfl, h₀, h₁, h₂, fun hz h => hhead hz ?_⟩
    rw [List.head?_cons, h₃ h]

/-- A directive is scanned up to its conversion, with its flags and width. -/
theorem printfRun_directive (d : Directive) :
    printfRun fn (d.text ++ rest) ⟨0, {}, 0, k, args, p⟩ =
      (state4 fn d.conv.letter ⟨4, { lj := d.left, lz := d.zero, l32 := d.long },
        widthFrom 0 d.width, k,
        args, p⟩).bind (printfRun fn rest) := by
  obtain ⟨c, fmt, hhead, h₀, h₁, h₂, h₃⟩ := exists_head d rest
  have htext : d.text ++ rest = 37 :: ((if d.left then [45] else []) ++
      ((if d.zero then [48] else []) ++ c :: fmt)) := by
    rw [Directive.text, ← hhead]
    simp only [List.cons_append, List.append_assoc, List.nil_append]
  have hlt : widthFrom 0 d.width < 2 ^ 32 := d.width_lt.trans (by norm_num)
  -- the width and the modifier
  have hwidth : scanWidth fn (c :: fmt) ⟨2, { lj := d.left, lz := d.zero }, 0, k, args, p⟩ =
      (state4 fn d.conv.letter ⟨4, { lj := d.left, lz := d.zero, l32 := d.long },
        widthFrom 0 d.width, k, args, p⟩).bind (printfRun fn rest) := by
    rw [← hhead, ← scanWidth_conv]
    cases d.long with
    | false => exact scanWidth_digits hlt (letter_ne d.conv).1
    | true => exact scanWidth_digits hlt (by decide)
  -- the flag for zeros
  have hzero : scanFlags fn ((if d.zero then [48] else []) ++ c :: fmt)
      ⟨1, { lj := d.left }, 0, k, args, p⟩ =
      scanWidth fn (c :: fmt) ⟨2, { lj := d.left, lz := d.zero }, 0, k, args, p⟩ := by
    cases hz : d.zero with
    | false => exact scanFlags_none h₁ h₂ (h₃ hz)
    | true => exact scanFlags_zero c
  rw [htext, ← hwidth, ← hzero]
  cases d.left with
  | false =>
    cases d.zero with
    | false => exact printfRun_percent c
    | true => exact printfRun_percent 48
  | true =>
    refine (printfRun_percent 45).trans ?_
    cases d.zero with
    | false => exact scanFlags_left h₀
    | true => exact scanFlags_left (by decide)

/-! ## Formats -/

variable {ps : List Piece} {args' : List VaArg} {out : List UInt8}

theorem toUInt8_toUInt32 (s : List UInt8) : (s.map UInt8.toUInt32).map UInt32.toUInt8 = s := by
  rw [List.map_map]
  exact (List.map_congr_left fun c _ => UInt8.toUInt8_toUInt32 c).trans (List.map_id s)

/-- The sign of a character is lost when it is stored. -/
theorem toUInt8_signed (c : UInt8) : c.toInt8.toInt32.toUInt32.toUInt8 = c := by
  refine UInt8.toBitVec_inj.1 (?_ : (c.toBitVec.signExtend 32).setWidth 8 = c.toBitVec)
  ext i hi
  simp only [BitVec.getElem_setWidth, BitVec.getLsbD_signExtend]
  grind

/-- A piece is emitted, and leaves the state as after a reset. -/
theorem printfRun_piece {piece : Piece} (rest : List UInt8)
    (h : piece.output args = some (out, args')) :
    ∃ cs : List UInt32, cs.map UInt32.toUInt8 = out ∧ ∀ k p,
      printfRun fn (piece.text ++ rest) ⟨0, {}, 0, k, args, p⟩ =
        (PrintState.calls fn cs ⟨0, {}, 0, k, args', p⟩).bind (printfRun fn rest) := by
  have hsign : ∀ c : UInt8, [c.toInt8.toInt32.toUInt32].map UInt32.toUInt8 = [c] :=
    fun c => congrArg (fun c => [c]) (toUInt8_signed c)
  cases piece with
  | char c h₀ h₁ =>
    obtain ⟨rfl, rfl⟩ := Prod.mk.inj (Option.some.inj h)
    refine ⟨_, hsign c, fun k p => ?_⟩
    have hstep : printfStep fn c rest ⟨0, {}, 0, k, args, p⟩ =
        (callFn fn c.toInt8.toInt32.toUInt32 ⟨0, {}, 0, k, args, p⟩).map (rest, ·) := if_pos h₁
    rw [Piece.text, List.singleton_append, printfRun_cons h₀, hstep, Option.bind_map, ← callFn_eq]
    rfl
  | percent =>
    obtain ⟨rfl, rfl⟩ := Prod.mk.inj (Option.some.inj h)
    refine ⟨_, hsign 37, fun k p => ?_⟩
    rw [← callFn_eq]
    refine (printfRun_percent 37).trans ?_
    rw [scanFlags, state1.eq_def, if_pos rfl, Option.bind_map, callFn, callFn]
    cases fn (37 : UInt8).toInt8.toInt32.toUInt32 p with
    | none => rfl
    | some p => rfl
  | directive d =>
    cases args with
    | nil => cases h
    | cons arg args =>
      obtain ⟨⟨neg, body⟩, hf, hout⟩ := Option.map_eq_some_iff.1 h
      obtain ⟨rfl, rfl⟩ := Prod.mk.inj hout
      refine ⟨_, toUInt8_toUInt32 _, fun k p => ?_⟩
      refine (printfRun_directive d).trans ?_
      rw [conversion_eq hf]

theorem printfRun_format (fn : UInt32 → σ → Option σ) (rest : List UInt8)
    (h : formatOutput ps args = some out) :
    ∃ (cs : List UInt32) (args' : List VaArg), cs.map UInt32.toUInt8 = out ∧ ∀ k p,
      printfRun fn (formatText ps ++ 0 :: rest) ⟨0, {}, 0, k, args, p⟩ =
        PrintState.calls fn cs ⟨0, {}, 0, k, args', p⟩ := by
  induction ps generalizing args out with
  | nil =>
    obtain rfl := Option.some.inj h
    exact ⟨[], args, rfl, fun k p => printfRun_nul.trans calls_nil.symm⟩
  | cons piece ps ih =>
    obtain ⟨⟨out₁, args₁⟩, h₁, h⟩ := Option.bind_eq_some_iff.1 h
    obtain ⟨out₂, h₂, h⟩ := Option.bind_eq_some_iff.1 h
    obtain rfl := Option.some.inj h
    obtain ⟨cs₁, hcs₁, hpiece⟩ := printfRun_piece (formatText ps ++ 0 :: rest) h₁
    obtain ⟨cs₂, args₂, hcs₂, hrest⟩ := ih h₂
    refine ⟨cs₁ ++ cs₂, args₂, by rw [List.map_append, hcs₁, hcs₂], fun k p => ?_⟩
    rw [formatText, List.flatMap_cons, List.append_assoc, ← formatText, hpiece, calls_append]
    exact calls_bind_congr rfl rfl fun p k => hrest k p

/-- The calls of `do_printf`, and its result. -/
theorem doPrintf_eq (h : formatOutput ps args = some out) (fn : UInt32 → σ → Option σ) (ptr : σ)
    (rest : List UInt8) : ∃ cs : List UInt32, cs.map UInt32.toUInt8 = out ∧
      doPrintf fn (formatText ps ++ 0 :: rest) args ptr =
        (cs.foldlM (fun p c => fn c p) ptr).map fun p => (p, (out.length : ℤ).bmod (2 ^ 32)) := by
  obtain ⟨cs, args', hcs, hrun⟩ := printfRun_format fn rest h
  refine ⟨cs, hcs, ?_⟩
  have hcount : (0 + BitVec.ofNat 32 cs.length).toInt = (out.length : ℤ).bmod (2 ^ 32) := by
    rw [← hcs, List.length_map, ← BitVec.toInt_ofNat]
    exact congrArg BitVec.toInt (BitVec.zero_add _)
  change (printfRun fn _ ⟨0, {}, 0, 0, args, ptr⟩).map (fun st => (st.ptr, st.count.toInt)) = _
  rw [hrun, PrintState.calls, Option.map_map]
  cases cs.foldlM (fun p c => fn c p) ptr with
  | none => rw [Option.map_none, Option.map_none]
  | some p => simp only [Option.map_some, Function.comp_apply, hcount]

/-! ## do_printf and vsprintf -/

theorem length_pad (left zero : Bool) (width : ℕ) (neg : Bool) (body : List UInt8) :
    (pad left zero width neg body).length = max width (neg.toNat + body.length) := by
  have hsign : (if neg then [45] else [] : List UInt8).length = neg.toNat := by
    cases neg <;> rfl
  rw [pad]
  generalize (if neg then [45] else [] : List UInt8) = sign at *
  cases left with
  | true =>
    simp only [if_true, List.length_append, List.length_replicate]
    omega
  | false =>
    cases zero with
    | true =>
      simp only [Bool.false_eq_true, if_false, if_true, List.length_append, List.length_replicate]
      omega
    | false =>
      simp only [Bool.false_eq_true, if_false, List.length_append, List.length_replicate]
      omega

theorem not_mem_pad {left zero neg : Bool} {width : ℕ} {body : List UInt8} (h : 0 ∉ body) :
    0 ∉ pad left zero width neg body := by
  have hrep : ∀ (m : ℕ) (c : UInt8), c ≠ 0 → 0 ∉ List.replicate m c := fun m c hc hmem =>
    hc (List.eq_of_mem_replicate hmem).symm
  have hsign : (0 : UInt8) ∉ (if neg then [45] else [] : List UInt8) := by
    cases neg <;> decide
  rw [pad]
  generalize (if neg then [45] else [] : List UInt8) = sign at *
  cases left with
  | true => exact List.not_mem_append (List.not_mem_append hsign h) (hrep _ 32 (by decide))
  | false =>
    cases zero with
    | true => exact List.not_mem_append (List.not_mem_append hsign (hrep _ 48 (by decide))) h
    | false => exact List.not_mem_append (List.not_mem_append (hrep _ 32 (by decide)) hsign) h

theorem not_mem_field {conv : Conversion} {arg : VaArg} {neg : Bool} {body : List UInt8}
    (h : conv.field arg = some (neg, body)) : 0 ∉ body := by
  rw [Conversion.field.eq_def] at h
  split at h
  · split_ifs at h with hw
    obtain ⟨-, rfl⟩ := Prod.mk.inj (Option.some.inj h)
    exact fun hmem => hw (List.mem_singleton.1 hmem).symm
  · split_ifs at h with hb
    obtain ⟨-, rfl⟩ := Prod.mk.inj (Option.some.inj h)
    exact (cstr_takeWhile hb.1).1
  · cases h
  · cases h
  · obtain ⟨-, rfl⟩ := Prod.mk.inj (Option.some.inj h)
    have hradix := radix_bounds conv
    exact numeral_ne_zero (Nat.lt_of_lt_of_le (by decide) hradix.1) hradix.2

/-- The output has no NUL. -/
theorem not_mem_output (h : formatOutput ps args = some out) : 0 ∉ out := by
  induction ps generalizing args out with
  | nil =>
    obtain rfl := Option.some.inj h
    exact List.not_mem_nil
  | cons piece ps ih =>
    obtain ⟨⟨out₁, args₁⟩, h₁, h⟩ := Option.bind_eq_some_iff.1 h
    obtain ⟨out₂, h₂, h⟩ := Option.bind_eq_some_iff.1 h
    obtain rfl := Option.some.inj h
    refine List.not_mem_append ?_ (ih h₂)
    cases piece with
    | char c h₀ _ =>
      obtain ⟨rfl, -⟩ := Prod.mk.inj (Option.some.inj h₁)
      exact List.not_mem_cons_of_ne_of_not_mem h₀.symm List.not_mem_nil
    | percent =>
      obtain ⟨rfl, -⟩ := Prod.mk.inj (Option.some.inj h₁)
      decide
    | directive d =>
      cases args with
      | nil => cases h₁
      | cons arg args =>
        obtain ⟨⟨neg, body⟩, hf, hout⟩ := Option.map_eq_some_iff.1 h₁
        obtain ⟨rfl, -⟩ := Prod.mk.inj hout
        exact not_mem_pad (not_mem_field hf)

/-- `vsprintf_help` stores one character after the other. -/
theorem foldlM_vsprintfHelp (pre mid post : List UInt8) {cs : List UInt32}
    (h : mid.length = cs.length) :
    cs.foldlM (fun b c => vsprintfHelp c b) ⟨pre ++ (mid ++ post), pre.length⟩ =
      some ⟨pre ++ (cs.map UInt32.toUInt8 ++ post), pre.length + cs.length⟩ := by
  induction cs generalizing pre mid with
  | nil =>
    obtain rfl := List.length_eq_zero_iff.1 h
    rfl
  | cons c cs ih =>
    obtain ⟨x, mid, rfl⟩ := List.exists_cons_of_length_eq_add_one h
    have hset : vsprintfHelp c ⟨pre ++ (x :: mid ++ post), pre.length⟩ =
        some ⟨(pre ++ [c.toUInt8]) ++ (mid ++ post), (pre ++ [c.toUInt8]).length⟩ := by
      rw [vsprintfHelp, if_pos (by simp), List.set_append_right _ _ le_rfl, Nat.sub_self,
        List.cons_append, List.set_cons_zero, List.append_assoc, List.length_append]
      rfl
    rw [List.foldlM_cons, hset]
    refine (ih (pre ++ [c.toUInt8]) mid (Nat.succ_injective h)).trans ?_
    rw [List.append_assoc, List.map_cons, List.length_append, List.length_singleton, Nat.add_assoc,
      Nat.add_comm 1]
    rfl

/-- `vsprintf` leaves the output in the buffer, if it fits there and an `int` counts it. -/
theorem vsprintf_eq (h : formatOutput ps args = some out) (rest : List UInt8)
    (hlen : out.length < 2 ^ 31) {buf : List UInt8} (hbuf : out.length < buf.length) :
    vsprintf buf (formatText ps ++ 0 :: rest) args =
      some (out ++ 0 :: buf.drop (out.length + 1), (out.length : ℤ)) := by
  obtain ⟨cs, hcs, hprint⟩ := doPrintf_eq h vsprintfHelp ⟨buf, 0⟩ rest
  have hcount : (out.length : ℤ).bmod (2 ^ 32) = out.length := by
    rw [Int.bmod_eq_of_le] <;> omega
  have hsplit : buf.take out.length ++ buf.drop out.length = buf := List.take_append_drop ..
  have hmid : (buf.take out.length).length = cs.length := by
    rw [List.length_take, Nat.min_eq_left hbuf.le, ← hcs, List.length_map]
  have hfold := foldlM_vsprintfHelp [] (buf.take out.length) (buf.drop out.length) hmid
  rw [List.nil_append, List.nil_append, hsplit, hcs, List.length_nil] at hfold
  have hdrop : buf.drop out.length = buf[out.length] :: buf.drop (out.length + 1) :=
    List.drop_eq_getElem_cons hbuf
  rw [hcount, hfold, Option.map_some] at hprint
  have hend : (out.length : ℤ) < (out ++ buf.drop out.length).length := by
    rw [List.length_append, List.length_drop]
    omega
  rw [vsprintf, hprint, Option.bind_eq_bind, Option.bind_some, if_pos ⟨Int.natCast_nonneg _, hend⟩,
    Int.toNat_natCast, List.set_append_right _ _ le_rfl, Nat.sub_self, hdrop, List.set_cons_zero]

/-- The format `%s` prints strings of any length. -/
theorem doPrintf_string {b s : List UInt8} (h : CStr b s) (fn : UInt32 → σ → Option σ) (ptr : σ) :
    doPrintf fn [37, 115, 0] [.pointer b] ptr =
      ((s.map UInt8.toUInt32).foldlM (fun p c => fn c p) ptr).map fun p =>
        (p, (s.length : ℤ).bmod (2 ^ 32)) := by
  have hemit : emit fn b ⟨4, {}, 0, 0, [], ptr⟩ =
      PrintState.calls fn (s.map UInt8.toUInt32) ⟨4, {}, 0, 0, [], ptr⟩ := by
    have hfield : emit fn b ⟨4, {}, 0, 0, [], ptr⟩ =
        emit2 fn b (s.length % 2 ^ 32) ⟨4, {}, 0, 0, [], ptr⟩ := by
      rw [emit, strlenUnsigned, strlen_eq h]
      rfl
    rw [hfield, emit2_eq h]
    simp
  have hcount : (0 + BitVec.ofNat 32 s.length).toInt = (s.length : ℤ).bmod (2 ^ 32) := by
    rw [← BitVec.toInt_ofNat]
    exact congrArg BitVec.toInt (BitVec.zero_add _)
  have hrun : printfLoop fn 3 [37, 115, 0] ⟨0, {}, 0, 0, [.pointer b], ptr⟩ =
      (emit fn b ⟨4, {}, 0, 0, [], ptr⟩).map PrintState.reset := by
    have hstep : printfStep fn 37 [115, 0] ⟨0, {}, 0, 0, [.pointer b], ptr⟩ =
        (emit fn b ⟨4, {}, 0, 0, [], ptr⟩).map fun st => ([0], st.reset) := by
      simp [printfStep, state1, state2, state3, state4, conversion]
      rfl
    rw [printfLoop, if_neg (by decide), hstep]
    cases emit fn b ⟨4, {}, 0, 0, [], ptr⟩ <;> rfl
  rw [doPrintf, List.length_cons, List.length_cons, List.length_singleton, hrun, hemit,
    PrintState.calls, List.length_map]
  cases (s.map UInt8.toUInt32).foldlM (fun p c => fn c p) ptr with
  | none => rfl
  | some p => simp only [Option.map_some, PrintState.reset, hcount]

/-- `vsprintf_help` writes nothing behind the buffer. -/
theorem foldlM_vsprintfHelp_le {cs : List UInt32} {b b' : Buffer}
    (h : cs.foldlM (fun b c => vsprintfHelp c b) b = some b') (hb : b.pos ≤ b.bytes.length) :
    b.pos + cs.length ≤ b.bytes.length := by
  induction cs generalizing b with
  | nil => exact hb
  | cons c cs ih =>
    rw [List.foldlM_cons, vsprintfHelp] at h
    split_ifs at h with hlt
    · have := ih h (by rw [List.length_set]; exact hlt)
      rw [List.length_set] at this
      rw [List.length_cons]
      dsimp only at this
      omega
    · cases h

/-- A count that fits in a word and is not negative as an `int` is right. -/
theorem bmod_eq_of_nonneg {n : ℕ} (hn : n < 2 ^ 32) (h : 0 ≤ (n : ℤ).bmod (2 ^ 32)) :
    (n : ℤ).bmod (2 ^ 32) = n := by
  rw [Int.bmod_def] at h ⊢
  have hmod : (n : ℤ) % ((2 ^ 32 : ℕ) : ℤ) = n := by
    push_cast
    omega
  rw [hmod] at h ⊢
  split_ifs at h ⊢
  · rfl
  · push_cast at h
    omega

/-- `sprintf` with the format `%s` copies the string, or goes wrong. -/
theorem sprintf_string {b s buf buf' : List UInt8} {ret : ℤ} (h : CStr b s)
    (hbuf : buf.length < 2 ^ 32) (hrun : sprintf buf [37, 115, 0] [.pointer b] = some (buf', ret)) :
    CStr buf' s := by
  rw [sprintf, vsprintf, doPrintf_string h] at hrun
  generalize hcount : (s.length : ℤ).bmod (2 ^ 32) = count at hrun
  obtain ⟨r, hr, hend⟩ := Option.bind_eq_some_iff.1 hrun
  obtain ⟨b', hfold, rfl⟩ := Option.map_eq_some_iff.1 hr
  have hle := foldlM_vsprintfHelp_le hfold (Nat.zero_le _)
  rw [List.length_map, Nat.zero_add] at hle
  have hsplit : buf.take s.length ++ buf.drop s.length = buf := List.take_append_drop ..
  have hmid : (buf.take s.length).length = (s.map UInt8.toUInt32).length := by
    rw [List.length_take, Nat.min_eq_left hle, List.length_map]
  have hfold' := foldlM_vsprintfHelp [] (buf.take s.length) (buf.drop s.length) hmid
  rw [List.nil_append, List.nil_append, hsplit, toUInt8_toUInt32] at hfold'
  obtain rfl := Option.some.inj (hfold'.symm.trans hfold)
  split_ifs at hend with hret
  obtain ⟨rfl, -⟩ := Prod.mk.inj (Option.some.inj hend)
  obtain ⟨hpos, hlt⟩ : 0 ≤ count ∧ count < ((s ++ buf.drop s.length).length : ℤ) := hret
  obtain rfl : count = s.length := by
    rw [← hcount] at hpos ⊢
    exact bmod_eq_of_nonneg (hle.trans_lt hbuf) hpos
  rw [List.length_append, List.length_drop] at hlt
  have hdrop : buf.drop s.length = buf[s.length] :: buf.drop (s.length + 1) :=
    List.drop_eq_getElem_cons (by omega)
  rw [Int.toNat_natCast, hdrop, List.set_append_right _ _ le_rfl, Nat.sub_self,
    List.set_cons_zero]
  exact CStr.mk h.1 _

/-- `do_printf` passes the output to `fn`, one character after the other, and returns the number of
    characters as an `int`; if there are fewer than 2^31, `vsprintf` leaves the output as
    a string in a buffer that is long enough. -/
theorem do_printf_spec (h : formatOutput ps args = some out) (rest : List UInt8) :
    (∀ {σ : Type} (fn : UInt32 → σ → Option σ) (ptr : σ), ∃ cs : List UInt32,
      cs.map UInt32.toUInt8 = out ∧ doPrintf fn (formatText ps ++ 0 :: rest) args ptr =
        (cs.foldlM (fun p c => fn c p) ptr).map fun p => (p, (out.length : ℤ).bmod (2 ^ 32))) ∧
    (out.length < 2 ^ 31 → (out.length : ℤ).bmod (2 ^ 32) = out.length) ∧
    ∀ buf : List UInt8, out.length < 2 ^ 31 → out.length < buf.length →
      ∃ buf', vsprintf buf (formatText ps ++ 0 :: rest) args = some (buf', (out.length : ℤ)) ∧
        buf' = out ++ 0 :: buf.drop (out.length + 1) ∧ CStr buf' out := by
  refine ⟨fun fn ptr => doPrintf_eq h fn ptr rest, fun hlen => ?_, fun buf hlen hbuf => ?_⟩
  · rw [Int.bmod_eq_of_le] <;> omega
  · exact ⟨_, vsprintf_eq h rest hlen hbuf, rfl, CStr.mk (not_mem_output h) _⟩

/-- The directive `%-03lX`. -/
def hexDirective : Directive where
  left := true
  zero := true
  width := [3]
  long := true
  conv := .X
  width_lt := by decide
  width_head h := by cases h

/-- `%-03lX|` prints `AB |` for 0xAB. -/
theorem do_printf_spec_hex :
    vsprintf (List.replicate 8 0xCC) [37, 45, 48, 51, 108, 88, 124, 0] [.word 0xAB] =
      some ([65, 66, 32, 124, 0, 0xCC, 0xCC, 0xCC], 4) := by
  have hnum : numeral 16 true 0xAB = [65, 66] := by
    rw [numeral, if_neg (by decide), show Nat.digits 16 0xAB = [11, 10] by norm_num]
    rfl
  have hfield : Conversion.X.field (.word 0xAB) = some (false, [65, 66]) :=
    congrArg (fun body => some (false, body)) hnum
  have hout : formatOutput [.directive hexDirective, .char 124 (by decide) (by decide)]
      [.word 0xAB] = some [65, 66, 32, 124] := by
    rw [formatOutput, Piece.output]
    change (Option.map _ (Conversion.X.field _)).bind _ = _
    rw [hfield]
    rfl
  obtain ⟨-, -, hprint⟩ := do_printf_spec hout []
  obtain ⟨buf', hbuf, rfl, -⟩ := hprint (List.replicate 8 0xCC) (by decide) (by decide)
  exact hbuf

/-- The directive `%2147483647d`. -/
def widest : Directive where
  left := false
  zero := false
  width := [2, 1, 4, 7, 4, 8, 3, 6, 4, 7]
  long := false
  conv := .d
  width_lt := by decide
  width_head _ := by decide

/-- Two numbers with a width of 2^31 - 1 are 2^32 - 2 characters, but the result is -2. -/
theorem long_output : ∃ ps args out, formatOutput ps args = some out ∧ ∃ (n : ℕ) (ret : ℤ),
    doPrintf (fun _ n => some (n + 1)) (formatText ps ++ [0]) args 0 = some (n, ret) ∧
      n = out.length ∧ n = 4294967294 ∧ ret = -2 := by
  have hcount : ∀ (cs : List UInt32) (n : ℕ),
      cs.foldlM (fun p c => (fun _ n => some (n + 1) : UInt32 → ℕ → Option ℕ) c p) n =
        some (n + cs.length) := by
    intro cs
    induction cs with
    | nil => exact fun n => rfl
    | cons c cs ih =>
      intro n
      rw [List.foldlM_cons, Option.bind_eq_bind, Option.bind_some, ih, List.length_cons]
      congr 1
      omega
  have hfield : Conversion.d.field (.word 0) = some (false, [48]) := rfl
  have hpiece : ∀ args, (Piece.directive widest).output (.word 0 :: args) =
      some (pad false false (widthFrom 0 widest.width) false [48], args) := fun args => by
    rw [Piece.output]
    change Option.map _ (Conversion.d.field _) = _
    rw [hfield]
    rfl
  -- two fields of the greatest width: the count of an `int` wraps around
  have hwidth : widthFrom 0 widest.width = 2147483647 := by decide
  have hlen := length_pad false false (widthFrom 0 widest.width) false [48]
  generalize pad false false (widthFrom 0 widest.width) false [48] = p at *
  rw [hwidth] at hlen
  have hout : formatOutput [.directive widest, .directive widest] [.word 0, .word 0] =
      some (p ++ (p ++ [])) := by
    simp only [formatOutput, hpiece, Option.bind_eq_bind, Option.bind_some, Option.pure_def]
  obtain ⟨cs, hcs, hprint⟩ := doPrintf_eq hout (fun _ n => some (n + 1)) 0 []
  have hp : p.length = 2147483647 := hlen.trans rfl
  have hn : (p ++ (p ++ [])).length = 4294967294 := by
    rw [List.length_append, List.length_append, hp]
    rfl
  have hcslen : cs.length = 4294967294 := by rw [← hn, ← hcs, List.length_map]
  have hret : ((4294967294 : ℕ) : ℤ).bmod (2 ^ 32) = -2 := by decide
  rw [hcount, Option.map_some, Nat.zero_add, hcslen, hn, hret] at hprint
  exact ⟨_, _, _, hout, _, _, hprint, hn.symm, rfl, rfl⟩

end Beryllium

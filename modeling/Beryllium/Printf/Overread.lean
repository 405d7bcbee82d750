import Beryllium.Printf.Scan

/-!
# The end of a format

Where the loop of `do_printf` is in its format, whatever the format is. An iteration that reads a
`%`, or the flag `0` of a directive, also reads the character after it. If that is the NUL at the
end of the format, the loop goes on behind it. So `do_printf` stays inside its format exactly if the
format does not end there (`stays_inside_iff`).
-/

namespace Beryllium

open Machine

/-! ## The state after a text -/

/-- What has been read of a directive: nothing, its `%`, the flag `-`, the flag `0`, a width, or a
    modifier. -/
inductive ScanState
  | text
  | percent
  | left
  | zero
  | width
  | modifier
  deriving DecidableEq

/-- After a character that may be a modifier. -/
def nextModifier (c : UInt8) : ScanState :=
  if c = 70 ∨ c = 78 ∨ c = 108 ∨ c = 104 then .modifier else .text

/-- After a character that may be a digit of a width. -/
def nextWidth (c : UInt8) : ScanState := if 48 ≤ c ∧ c ≤ 57 then .width else nextModifier c

/-- After a character that may be a flag. -/
def nextFlag (minus : ScanState) (c : UInt8) : ScanState :=
  if c = 37 then .text else if c = 45 then minus else if c = 48 then .zero else nextWidth c

/-- After one more character. A second `-` ends the directive. -/
def ScanState.next (a : ScanState) (c : UInt8) : ScanState :=
  match a with
  | .text => if c = 37 then .percent else .text
  | .percent => nextFlag .left c
  | .left => nextFlag .text c
  | .zero => nextWidth c
  | .width => nextWidth c
  | .modifier => nextModifier c

/-- After a text. -/
def ScanState.after (a : ScanState) (s : List UInt8) : ScanState := s.foldl ScanState.next a

/-- The last character read is the `%` of a directive, or its flag `0`. -/
def ScanState.Dangling (a : ScanState) : Prop := a = .percent ∨ a = .zero

instance (a : ScanState) : Decidable a.Dangling := inferInstanceAs (Decidable (_ ∨ _))

/-- The text ends there. -/
def Dangles (s : List UInt8) : Prop := (ScanState.text.after s).Dangling

instance (s : List UInt8) : Decidable (Dangles s) :=
  inferInstanceAs (Decidable (ScanState.Dangling _))

theorem after_append (a : ScanState) (x y : List UInt8) : a.after (x ++ y) = (a.after x).after y :=
  List.foldl_append

/-! ## The loop -/

section

variable {σ : Type} (fn : UInt32 → σ → Option σ)

/-- `k` iterations of the loop, from a pointer into the format and a state to the next ones. -/
inductive Scans : ℕ → List UInt8 × PrintState σ → List UInt8 × PrintState σ → Prop
  | refl (p) : Scans 0 p p
  | step {k p c fmt st r} : Scans k p (c :: fmt, st) → c ≠ 0 → printfStep fn c fmt st = some r →
      Scans (k + 1) p r

end

/-- `do_printf` reads nothing behind the NUL of the format `s`, whatever is there, and whatever its
    other arguments are, and ends after as many iterations as there are characters, or one
    more. -/
def StaysInside (s : List UInt8) : Prop :=
  ∀ (σ : Type) (fn : UInt32 → σ → Option σ) (args : List VaArg) (ptr : σ)
    (rest : List UInt8) (k : ℕ) (fmt : List UInt8) (st : PrintState σ),
    Scans fn k (s ++ 0 :: rest, ⟨0, {}, 0, 0, args, ptr⟩) (fmt, st) →
      (0 :: rest) <:+ fmt ∧ k ≤ s.length + 1

variable {σ : Type} {fn : UInt32 → σ → Option σ} {st st' : PrintState σ} {a : ScanState} {c : UInt8}
  {fmt fmt' s rest : List UInt8} {r : List UInt8 × PrintState σ} {k : ℕ} {args : List VaArg}

/-- The iterations are those of the loop. -/
theorem Scans.printfRun (h : Scans fn k (fmt, st) (fmt', st')) :
    Beryllium.printfRun fn fmt st = Beryllium.printfRun fn fmt' st' := by
  have hgen : ∀ k p q, Scans fn k p q →
      Beryllium.printfRun fn p.1 p.2 = Beryllium.printfRun fn q.1 q.2 := by
    intro k p q h
    induction h with
    | refl => rfl
    | step _ hc hr ih => rw [ih, printfRun_cons hc, hr, Option.bind_some]
  exact hgen k _ _ h

/-- The state of `do_printf` between two iterations is that after the text. No iteration ends after
    a `%` or a flag `0`. -/
def ScanState.Matches (a : ScanState) (st : PrintState σ) : Prop :=
  match a with
  | .text => st.state = 0 ∧ st.flags = {}
  | .percent => False
  | .left => st.state = 1 ∧ st.flags = { lj := true }
  | .zero => False
  | .width => st.state = 2
  | .modifier => st.state = 3

/-- An iteration at `c` ends inside the format, in the state after what it has read, or behind its
    NUL, if the format dangles. -/
def StepsTo (a : ScanState) (c : UInt8) (fmt rest : List UInt8)
    (r : List UInt8 × PrintState σ) : Prop :=
  (∃ x y, c :: fmt = x ++ y ∧ x ≠ [] ∧ r.1 = y ++ 0 :: rest ∧ (a.after x).Matches r.2) ∨
    (r.1 = rest ∧ (a.after (c :: fmt)).Dangling)

/-- An iteration that reads one character. -/
theorem stepsTo_one (hr : r.1 = fmt ++ 0 :: rest) (hm : (a.next c).Matches r.2) :
    StepsTo a c fmt rest r :=
  .inl ⟨[c], fmt, rfl, List.cons_ne_nil c [], hr, hm⟩

/-- An iteration that reads one character before. -/
theorem StepsTo.cons {d : UInt8} (h : StepsTo (a.next c) d fmt rest r) :
    StepsTo a c (d :: fmt) rest r := by
  rcases h with ⟨x, y, heq, -, hr, hm⟩ | ⟨hr, hd⟩
  · exact .inl ⟨c :: x, y, by rw [heq, List.cons_append], List.cons_ne_nil c x, hr, hm⟩
  · exact .inr ⟨hr, hd⟩

theorem matches_reset (st : PrintState σ) : ScanState.text.Matches st.reset := ⟨rfl, rfl⟩

theorem state3_matches (h : state3 fn c st = some st') (hst : st.state = 3) :
    (nextModifier c).Matches st' := by
  rw [state3] at h
  rw [nextModifier]
  by_cases hc : c = 70 ∨ c = 78 ∨ c = 108 ∨ c = 104
  · rw [if_pos hc]
    -- a modifier at most sets a flag
    rcases hc with rfl | rfl | rfl | rfl <;>
      · obtain rfl := Option.some.inj h
        exact hst
  · rw [if_neg hc]
    simp only [not_or] at hc
    rw [if_neg hc.1, if_neg hc.2.1, if_neg hc.2.2.1, if_neg hc.2.2.2] at h
    -- every conversion ends with a reset
    obtain ⟨u, -, rfl⟩ := Option.map_eq_some_iff.1 h
    exact matches_reset u

theorem state2_matches (h : state2 fn c st = some st') (hst : st.state = 2) :
    (nextWidth c).Matches st' := by
  rw [state2] at h
  rw [nextWidth]
  split_ifs at h ⊢ with hc
  · obtain rfl := Option.some.inj h
    exact hst
  · exact state3_matches h rfl

/-- An iteration in the state 1, with the flag `-` or without it. -/
theorem state1_stepsTo (h : state1 fn c (fmt ++ 0 :: rest) st = some r) (hst : st.state = 1)
    (hflag : a = .percent ∧ st.flags = {} ∨ a = .left ∧ st.flags = { lj := true }) :
    StepsTo a c fmt rest r := by
  have hnext : ∃ minus, a.next = nextFlag minus ∧
      (c = 45 → minus.Matches (if st.flags.lj then st.reset
      else { st with flags.lj := true })) := by
    rcases hflag with ⟨rfl, hflags⟩ | ⟨rfl, hflags⟩
    · refine ⟨.left, rfl, fun _ => ?_⟩
      rw [hflags, if_neg Bool.false_ne_true]
      exact ⟨hst, rfl⟩
    · refine ⟨.text, rfl, fun _ => ?_⟩
      rw [hflags, if_pos rfl]
      exact matches_reset st
  obtain ⟨minus, hnext, hminus⟩ := hnext
  rw [state1.eq_def] at h
  by_cases h₁ : c = 37
  · rw [if_pos h₁] at h
    obtain ⟨u, -, rfl⟩ := Option.map_eq_some_iff.1 h
    refine stepsTo_one rfl ?_
    rw [hnext, nextFlag, if_pos h₁]
    exact matches_reset u
  rw [if_neg h₁] at h
  by_cases h₂ : c = 45
  · rw [if_pos h₂] at h
    obtain rfl := Option.some.inj h
    refine stepsTo_one rfl ?_
    rw [hnext, nextFlag, if_neg h₁, if_pos h₂]
    exact hminus h₂
  rw [if_neg h₂] at h
  by_cases h₃ : c = 48
  · rw [if_pos h₃] at h
    have hzero : a.next c = .zero := by rw [hnext, nextFlag, if_neg h₁, if_neg h₂, if_pos h₃]
    cases fmt with
    | nil =>
      -- the character after the flag is the NUL
      obtain ⟨u, -, rfl⟩ := Option.map_eq_some_iff.1 h
      exact .inr ⟨rfl, .inr hzero⟩
    | cons d fmt =>
      obtain ⟨u, hu, rfl⟩ := Option.map_eq_some_iff.1 h
      refine StepsTo.cons (stepsTo_one rfl ?_)
      rw [hzero]
      exact state2_matches hu rfl
  · rw [if_neg h₃] at h
    obtain ⟨u, hu, rfl⟩ := Option.map_eq_some_iff.1 h
    refine stepsTo_one rfl ?_
    rw [hnext, nextFlag, if_neg h₁, if_neg h₂, if_neg h₃]
    exact state2_matches hu rfl

/-- Where an iteration ends. -/
theorem printfStep_stepsTo (hm : a.Matches st)
    (h : printfStep fn c (fmt ++ 0 :: rest) st = some r) : StepsTo a c fmt rest r := by
  rw [printfStep.eq_def] at h
  cases a with
  | text =>
    obtain ⟨hst, hflags⟩ := hm
    rw [hst] at h
    by_cases hc : c = 37
    · rw [if_neg (not_not.2 hc)] at h
      have hpercent : ScanState.text.next c = .percent := if_pos hc
      cases fmt with
      | nil =>
        -- the character after the `%` is the NUL
        have hr : r.1 = rest := by
          rw [List.nil_append] at h
          dsimp only at h
          rw [state1.eq_def, if_neg (by decide), if_neg (by decide), if_neg (by decide)] at h
          obtain ⟨u, -, rfl⟩ := Option.map_eq_some_iff.1 h
          rfl
        exact .inr ⟨hr, .inl hpercent⟩
      | cons d fmt =>
        refine StepsTo.cons ?_
        rw [hpercent]
        exact state1_stepsTo h rfl (.inl ⟨rfl, hflags⟩)
    · rw [if_pos hc] at h
      obtain ⟨u, hu, rfl⟩ := Option.map_eq_some_iff.1 h
      obtain ⟨p, -, hp⟩ := Option.bind_eq_some_iff.1 hu
      obtain rfl := Option.some.inj hp
      refine stepsTo_one rfl ?_
      rw [ScanState.next, if_neg hc]
      exact ⟨hst, hflags⟩
  | percent => exact hm.elim
  | left =>
    rw [hm.1] at h
    exact state1_stepsTo h hm.1 (.inr ⟨rfl, hm.2⟩)
  | zero => exact hm.elim
  | width =>
    have hst : st.state = 2 := hm
    rw [hst] at h
    obtain ⟨u, hu, rfl⟩ := Option.map_eq_some_iff.1 h
    exact stepsTo_one rfl (state2_matches hu hst)
  | modifier =>
    have hst : st.state = 3 := hm
    rw [hst] at h
    obtain ⟨u, hu, rfl⟩ := Option.map_eq_some_iff.1 h
    exact stepsTo_one rfl (state3_matches hu hst)

/-! ## Formats that do not dangle -/

/-- As long as the format is not left behind, the state is that after what has been read. -/
theorem scans_inside (hs : ¬Dangles s) {p q : List UInt8 × PrintState σ} (h : Scans fn k p q)
    (hp : p.1 = s ++ 0 :: rest) (hm : ScanState.text.Matches p.2) :
    ∃ x y, s = x ++ y ∧ q.1 = y ++ 0 :: rest ∧ (ScanState.text.after x).Matches q.2 ∧
    k ≤ x.length := by
  induction h with
  | refl => exact ⟨[], s, rfl, hp, hm, Nat.zero_le _⟩
  | step _ hc hr ih =>
    obtain ⟨x, y, hxy, hq, hm', hk⟩ := ih hp hm
    cases y with
    | nil => exact absurd (List.cons.inj hq).1 hc
    | cons d y =>
      obtain ⟨rfl, rfl⟩ := List.cons.inj hq
      rcases printfStep_stepsTo hm' hr with ⟨u, v, huv, hu, hr', hm''⟩ | ⟨-, hd⟩
      · refine ⟨x ++ u, v, by rw [hxy, huv, List.append_assoc], hr', ?_, ?_⟩
        · rw [after_append]
          exact hm''
        · have := List.length_pos_of_ne_nil hu
          rw [List.length_append]
          omega
      · refine absurd ?_ hs
        rw [Dangles, hxy, after_append]
        exact hd

theorem staysInside_of_not_dangles (hs : ¬Dangles s) : StaysInside s := by
  intro σ fn args ptr rest k fmt st h
  obtain ⟨x, y, hxy, hfmt, -, hk⟩ := scans_inside hs h rfl ⟨rfl, rfl⟩
  have hlen := congrArg List.length hxy
  rw [List.length_append] at hlen
  exact ⟨⟨y, hfmt.symm⟩, by omega⟩

/-! ## Formats that dangle -/

/-- A helper that always succeeds. -/
def acceptAll (_ : UInt32) (_ : Unit) : Option Unit := some ()

theorem calls_acceptAll (out : List UInt32) (st : PrintState Unit) :
    ∃ st', st.calls acceptAll out = some st' ∧ st'.args = st.args := by
  have hfold : ∀ p, out.foldlM (fun p c => acceptAll c p) p = some () := by
    induction out with
    | nil => exact fun _ => rfl
    | cons c out ih => exact fun _ => ih ()
  rw [PrintState.calls, hfold]
  exact ⟨_, rfl, rfl⟩

theorem emit_acceptAll {b s : List UInt8} (h : CStr b s) (hs : s.length ≤ 1)
    (st : PrintState Unit) : ∃ st', emit acceptAll b st = some st' ∧ st'.args = st.args := by
  have hbit : st.flags.ws.toNat ≤ 1 := Bool.toNat_le st.flags.ws
  rw [emit_eq _ _ h (by omega)]
  exact calls_acceptAll _ { st with givenWd := 0 }

/-- With the arguments `args` in front, `f` succeeds, and takes them. -/
def TakesArgs (f : PrintState Unit → Option (PrintState Unit)) (args : List VaArg) : Prop :=
  ∀ st rest, st.args = args ++ rest → ∃ st', f st = some st' ∧ st'.args = rest

theorem TakesArgs.comp {f : PrintState Unit → Option (PrintState Unit)} (h : TakesArgs f args)
    (upd : PrintState Unit → PrintState Unit) (hupd : ∀ st, (upd st).args = st.args) :
    TakesArgs (fun st => f (upd st)) args :=
  fun st rest hargs => h (upd st) rest ((hupd st).trans hargs)

theorem TakesArgs.map {f : PrintState Unit → Option (PrintState Unit)} (h : TakesArgs f args)
    (upd : PrintState Unit → PrintState Unit) (hupd : ∀ st, (upd st).args = st.args) :
    TakesArgs (fun st => (f st).map upd) args := by
  intro st rest hargs
  obtain ⟨st', hst', hargs'⟩ := h st rest hargs
  exact ⟨upd st', congrArg (Option.map upd) hst', (hupd st').trans hargs'⟩

theorem takes_some (upd : PrintState Unit → PrintState Unit)
    (hupd : ∀ st, (upd st).args = st.args) : TakesArgs (fun st => some (upd st)) [] :=
  fun st _ hargs => ⟨upd st, rfl, (hupd st).trans hargs⟩

theorem callFn_takes (c : UInt32) : TakesArgs (callFn acceptAll c) [] := takes_some _ fun _ => rfl

/-- The number 0 is converted. -/
theorem doNum_takes {radix : ℕ} (hr : 1 < radix) : TakesArgs (doNum acceptAll radix) [.word 0] := by
  intro st rest hargs
  have hneg : (st.flags.sg && decide ((0 : BitVec 32).toInt < 0)) = false := by
    rw [Bool.and_eq_false_iff]
    exact .inr rfl
  have hconv : convertLoop radix st.flags.ca (prBuflen - 1) (0 : BitVec 32).toNat [0] =
      some [48, 0] :=
    convertLoop_eq hr (Nat.pow_pos (by omega)) (Nat.succ_pos 14) [0]
  have hstr : CStr [48, 0] [48] := CStr.mk (by decide) []
  simp only [doNum, hargs, List.cons_append, hneg, Bool.false_eq_true, if_false, hconv,
    Option.bind_eq_bind, Option.bind_some]
  exact emit_acceptAll hstr le_rfl _

/-- Each conversion takes an argument of its kind, or none. -/
theorem conversion_takes (c : UInt8) : ∃ args, TakesArgs (conversion acceptAll c) args := by
  unfold conversion
  split_ifs with h₁ h₂ h₃ h₄ h₅ h₆ h₇
  · exact ⟨_, (doNum_takes (by decide)).comp _ fun _ => rfl⟩
  · exact ⟨_, doNum_takes (by decide)⟩
  · exact ⟨_, (doNum_takes (by decide)).comp _ fun _ => rfl⟩
  · exact ⟨_, doNum_takes (by decide)⟩
  · exact ⟨_, doNum_takes (by decide)⟩
  · refine ⟨[.word 65], fun st rest hargs => ?_⟩
    have hstr : CStr [UInt8.ofNat (65 : BitVec 32).toNat, 0] [65] := CStr.mk (by decide) []
    simp only [hargs, List.cons_append]
    rw [emit2_eq hstr]
    exact calls_acceptAll _ _
  · refine ⟨[.pointer [0]], fun st rest hargs => ?_⟩
    have hstr : CStr [0] [] := CStr.mk (by decide) []
    simp only [hargs, List.cons_append]
    exact emit_acceptAll hstr (Nat.zero_le 1) _
  · exact ⟨[], fun st rest hargs => ⟨st, rfl, hargs⟩⟩

theorem state3_takes (c : UInt8) : ∃ args, TakesArgs (state3 acceptAll c) args := by
  obtain ⟨args, hargs⟩ := conversion_takes c
  unfold state3
  split_ifs
  · exact ⟨[], takes_some _ fun _ => rfl⟩
  · exact ⟨[], takes_some _ fun _ => rfl⟩
  · exact ⟨[], takes_some _ fun _ => rfl⟩
  · exact ⟨[], takes_some _ fun _ => rfl⟩
  · exact ⟨args, (hargs.map PrintState.reset fun _ => rfl).comp _ fun _ => rfl⟩

theorem state2_takes (c : UInt8) : ∃ args, TakesArgs (state2 acceptAll c) args := by
  obtain ⟨args, hargs⟩ := state3_takes c
  unfold state2
  split_ifs
  · exact ⟨[], takes_some _ fun _ => rfl⟩
  · exact ⟨args, hargs.comp _ fun _ => rfl⟩

/-- The step `f` takes some arguments, and ends at the same place of the format whatever the state
    is. -/
def EndsAt (P : PrintState Unit → Prop)
    (f : PrintState Unit → Option (List UInt8 × PrintState Unit)) : Prop :=
  ∃ args fmt g, TakesArgs g args ∧ ∀ st, P st → f st = (g st).map (fmt, ·)

theorem state1_endsAt (hfmt : c = 48 → fmt ≠ []) :
    EndsAt (fun _ => True) (state1 acceptAll c fmt) := by
  by_cases h₁ : c = 37
  · refine ⟨[], fmt, _, (callFn_takes c.toInt8.toInt32.toUInt32).map PrintState.reset fun _ => rfl,
      fun st _ => ?_⟩
    rw [state1.eq_def, if_pos h₁, Option.map_map]
    rfl
  by_cases h₂ : c = 45
  · have hupd : ∀ st : PrintState Unit, (if st.flags.lj then st.reset
        else { st with flags.lj := true }).args = st.args := by
      intro st
      split_ifs <;> rfl
    refine ⟨[], fmt, _, takes_some _ hupd, fun st _ => ?_⟩
    rw [state1.eq_def, if_neg h₁, if_pos h₂, Option.map_some]
  by_cases h₃ : c = 48
  · obtain ⟨d, fmt, rfl⟩ := List.exists_cons_of_ne_nil (hfmt h₃)
    obtain ⟨args, hargs⟩ := state2_takes d
    refine ⟨args, fmt, _, hargs.comp (fun st => { st with state := 2, flags.lz := true })
      fun _ => rfl, fun st _ => ?_⟩
    rw [state1.eq_def, if_neg h₁, if_neg h₂, if_pos h₃]
  · obtain ⟨args, hargs⟩ := state2_takes c
    refine ⟨args, fmt, _, hargs.comp (fun st => { st with state := 2 }) fun _ => rfl,
      fun st _ => ?_⟩
    rw [state1.eq_def, if_neg h₁, if_neg h₂, if_neg h₃]

theorem printfStep_endsAt (a : ScanState) (c : UInt8) (fmt rest : List UInt8) :
    EndsAt a.Matches (printfStep acceptAll c (fmt ++ 0 :: rest)) := by
  have hne : ∀ fmt : List UInt8, fmt ++ 0 :: rest ≠ [] :=
    fun fmt => List.append_ne_nil_of_right_ne_nil fmt (List.cons_ne_nil 0 rest)
  cases a with
  | text =>
    by_cases hc : c = 37
    · have hflag : ∀ d fmt', fmt ++ 0 :: rest = d :: fmt' → (d = 48 → fmt' ≠ []) →
          EndsAt ScanState.text.Matches (printfStep acceptAll c (fmt ++ 0 :: rest)) := by
        intro d fmt' heq hfmt'
        obtain ⟨args, fmt'', g, hg, h⟩ := state1_endsAt hfmt'
        refine ⟨args, fmt'', _, hg.comp (fun st => { st with state := 1 }) fun _ => rfl,
          fun st hm => ?_⟩
        rw [printfStep.eq_def, hm.1, heq]
        exact (if_neg (not_not.2 hc)).trans (h _ trivial)
      cases fmt with
      | nil => exact hflag 0 rest rfl (fun h => absurd h (by decide))
      | cons d fmt => exact hflag d _ rfl fun _ => hne fmt
    · refine ⟨[], fmt ++ 0 :: rest, _, callFn_takes c.toInt8.toInt32.toUInt32, fun st hm => ?_⟩
      rw [printfStep.eq_def, hm.1]
      exact if_pos hc
  | percent => exact ⟨[], [], some, takes_some _ fun _ => rfl, fun st hm => hm.elim⟩
  | left =>
    obtain ⟨args, fmt', g, hg, h⟩ := state1_endsAt (c := c) (fun _ => hne fmt)
    refine ⟨args, fmt', g, hg, fun st hm => ?_⟩
    rw [printfStep.eq_def, hm.1]
    exact h st trivial
  | zero => exact ⟨[], [], some, takes_some _ fun _ => rfl, fun st hm => hm.elim⟩
  | width =>
    obtain ⟨args, hargs⟩ := state2_takes c
    refine ⟨args, fmt ++ 0 :: rest, _, hargs, fun st hm => ?_⟩
    rw [printfStep.eq_def, show st.state = 2 from hm]
    rfl
  | modifier =>
    obtain ⟨args, hargs⟩ := state3_takes c
    refine ⟨args, fmt ++ 0 :: rest, _, hargs, fun st hm => ?_⟩
    rw [printfStep.eq_def, show st.state = 3 from hm]
    rfl

theorem Scans.head {p q : List UInt8 × PrintState σ} (hc : c ≠ 0)
    (hr : printfStep fn c fmt st = some p)
    (h : Scans fn k p q) : Scans fn (k + 1) (c :: fmt, st) q := by
  induction h with
  | refl p => exact .step (.refl _) hc hr
  | step _ hc' hr' ih => exact .step (ih hr) hc' hr'

theorem not_dangling_of_matches (h : a.Matches st) : ¬a.Dangling := by
  rintro (rfl | rfl)
  · exact h
  · exact h

theorem ScanState.Matches.setArgs (h : a.Matches st) (args : List VaArg) :
    a.Matches { st with args := args } := by
  cases a <;> exact h

/-- With the right arguments, a format that dangles is left behind. The induction is on what is left
    of the format. -/
theorem dangling_scans (rest : List UInt8) {st₀ : PrintState Unit} (hs : 0 ∉ s) (hm : a.Matches st₀)
    (hd : (a.after s).Dangling) :
    ∃ args, ∀ st, a.Matches st → st.args = args →
      ∃ k st', Scans acceptAll k (s ++ 0 :: rest, st) (rest, st') := by
  induction hn : s.length using Nat.strong_induction_on generalizing s a st₀ with
  | _ n ih =>
    cases s with
    | nil => exact absurd hd (not_dangling_of_matches hm)
    | cons c fmt =>
      have hc : c ≠ 0 := fun h => hs (h ▸ List.mem_cons_self)
      obtain ⟨args, fmt', g, hg, hstep⟩ := printfStep_endsAt a c fmt rest
      have hrun : ∀ st args', a.Matches st → st.args = args ++ args' → ∃ st',
          printfStep acceptAll c (fmt ++ 0 :: rest) st = some (fmt', st') ∧ st'.args = args' := by
        intro st args' hst hargs
        obtain ⟨st', hst', hargs'⟩ := hg st args' hargs
        exact ⟨st', by rw [hstep st hst, hst', Option.map_some], hargs'⟩
      obtain ⟨st₁, hr₁, -⟩ := hrun { st₀ with args := args ++ [] } [] (hm.setArgs _) rfl
      rcases printfStep_stepsTo (hm.setArgs _) hr₁ with ⟨x, y, hxy, hx, hfmt, hm₁⟩ | ⟨rfl, -⟩
      · have hlen : y.length < n := by
          have := congrArg List.length hxy
          have := List.length_pos_of_ne_nil hx
          rw [List.length_append] at *
          omega
        rw [hxy, after_append] at hd
        rw [hxy, List.mem_append, not_or] at hs
        obtain ⟨args', h⟩ := ih y.length hlen hs.2 hm₁ hd rfl
        refine ⟨args ++ args', fun st hst hargs => ?_⟩
        obtain ⟨st', hr, hargs'⟩ := hrun st args' hst hargs
        -- the iteration ends there from every state
        have hm' : (a.after x).Matches st' := by
          rcases printfStep_stepsTo hst hr with ⟨x', y', hxy', -, hfmt', hm'⟩ | ⟨hrest, -⟩
          · obtain rfl := List.append_cancel_right (hfmt.symm.trans hfmt')
            obtain rfl := List.append_cancel_right (hxy.symm.trans hxy')
            exact hm'
          · have := congrArg List.length (hfmt.symm.trans hrest)
            rw [List.length_append, List.length_cons] at this
            omega
        obtain ⟨k, st'', hk⟩ := h st' hm' hargs'
        exact ⟨k + 1, st'', Scans.head hc (hr.trans (congrArg (fun u => some (u, st')) hfmt)) hk⟩
      · refine ⟨args ++ [], fun st hst hargs => ?_⟩
        obtain ⟨st', hr, -⟩ := hrun st [] hst hargs
        exact ⟨1, st', Scans.head hc hr (.refl _)⟩

/-- `do_printf` stays inside its format exactly if the format does not end right after the `%` of a
    directive, or right after its flag `0`. -/
theorem stays_inside_iff (hs : 0 ∉ s) : StaysInside s ↔ ¬Dangles s := by
  refine ⟨fun h hd => ?_, staysInside_of_not_dangles⟩
  have hm : ScanState.text.Matches (⟨0, {}, 0, 0, [], ()⟩ : PrintState Unit) := ⟨rfl, rfl⟩
  obtain ⟨args, hargs⟩ := dangling_scans [] hs hm hd
  obtain ⟨k, st', hk⟩ := hargs _ (hm.setArgs args) rfl
  have hsuffix := (h Unit acceptAll args () [] k [] st' hk).1
  exact absurd hsuffix.length_le (by simp)

/-- The format `%-5` ends in a directive, but `do_printf` stays inside it. -/
theorem stays_inside_iff_width : 0 ∉ ([37, 45, 53] : List UInt8) ∧ StaysInside [37, 45, 53] :=
  ⟨by decide, (stays_inside_iff (by decide)).2 (by decide)⟩

/-- With the format `%`, `do_printf` goes on behind the NUL. -/
theorem stays_inside_percent : ¬StaysInside [37] := by
  intro h
  have hstep : printfStep acceptAll 37 [0, 65, 0] ⟨0, {}, 0, 0, [], ()⟩ =
      some ([65, 0], ⟨0, {}, 0, 0, [], ()⟩) := rfl
  have hsuffix := (h Unit acceptAll [] () [65, 0] 1 _ _ (.step (.refl _) (by decide) hstep)).1
  exact absurd hsuffix.length_le (by decide)

end Beryllium

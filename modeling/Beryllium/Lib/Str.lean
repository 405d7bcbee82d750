import Beryllium.Machine.CStr

/-!
# Strings

The functions of `kernel/lib/string.c` on C strings. A pointer that is only read is
the list of the bytes from it to the end of its block; `strtok_r`, which writes into
its block, takes the block and offsets into it. Reading past the end of a block
answers `none`.

* `strlen_eq`, `strcmp_spec`, `strspn_eq`, `strpbrk_eq`, `lfind_eq`: what the functions
  compute on strings;
* `strtokR_nil`, `strtokR_token`: one call of `strtok_r` finds the next token.
-/

namespace Beryllium

open Machine

/-! ## The functions -/

/-- `strlen` -/
def strlen : List UInt8 → Option ℕ
  | [] => none
  | c :: str => if c = 0 then some 0 else (strlen str).map (· + 1)

/-- `strcmp`; a `char` is signed. -/
def strcmp : List UInt8 → List UInt8 → Option ℤ
  | c :: s₁, d :: s₂ =>
    if c = d ∧ c ≠ 0 then strcmp s₁ s₂
    else if c = d then some 0 else some (c.toInt8.toInt - d.toInt8.toInt)
  | _, _ => none

/-- The scan of `accept` in `strspn` and `strpbrk`: whether it holds `c`. -/
def scanAccept (c : UInt8) : List UInt8 → Option Bool
  | [] => none
  | acc :: accept => if acc = 0 then some false else if c = acc then some true
    else scanAccept c accept

/-- `strspn` -/
def strspn : List UInt8 → List UInt8 → Option ℕ
  | [], _ => none
  | c :: str, accept =>
    if c = 0 then some 0
    else do
      let found ← scanAccept c accept
      if found then (strspn str accept).map (· + 1) else some 0

/-- `strpbrk`: the distance to the first byte that `accept` holds, `some none` if there is
    none. -/
def strpbrk : List UInt8 → List UInt8 → Option (Option ℕ)
  | [], _ => none
  | c :: str, accept =>
    if c = 0 then some none
    else do
      let found ← scanAccept c accept
      if found then some (some 0) else (strpbrk str accept).map (Option.map (· + 1))

/-- `lfind`: the distance to the first byte `accept`. -/
def lfind : List UInt8 → UInt8 → Option ℕ
  | [], _ => none
  | c :: str, accept => if c = accept then some 0 else (lfind str accept).map (· + 1)

/-- What one call of `strtok_r` leaves: the token, the block and `*saveptr`. -/
structure Token where
  token : Option ℕ
  block : List UInt8
  save : ℕ

/-- `strtok_r`, where a null `str` is `none`. -/
def strtokR (block : List UInt8) (str : Option ℕ) (delim : List UInt8) (save : ℕ) :
    Option Token := do
  let str := str.getD save
  let n ← strspn (block.drop str) delim
  let str := str + n
  let c ← block[str]?
  if c = 0 then return ⟨none, block, str⟩
  else do
    let token := str
    match ← strpbrk (block.drop token) delim with
    | none => do
      let n ← lfind (block.drop token) 0
      return ⟨some token, block, token + n⟩
    | some n => return ⟨some token, block.set (token + n) 0, token + n + 1⟩

/-- `malloc(strlen(str) + 1)`, and `memcpy` of as many bytes to it: a copy of the string. -/
def copyString (str : List UInt8) : Option (List UInt8) := do
  let n ← strlen str
  return str.take (n + 1)

/-- `strcpy`, into the bytes `dest`: what they are after it, `none` if the string does not
    fit. -/
def strcpy (dest src : List UInt8) : Option (List UInt8) := do
  let len ← strlen src
  if len + 1 ≤ dest.length then return src.take (len + 1) ++ dest.drop (len + 1) else none

/-! ## On strings -/

variable {b a s d : List UInt8} {c : UInt8}

theorem strlen_eq (h : CStr b s) : strlen b = some s.length := by
  induction b generalizing s with
  | nil => exact absurd h cstr_nil
  | cons c b ih =>
    rw [strlen]
    rcases cstr_cons.1 h with ⟨rfl, rfl⟩ | ⟨hc, s, rfl, h'⟩
    · rfl
    · rw [if_neg hc, ih h']
      rfl

/-- A string that fits is copied, and the bytes after it are left alone. -/
theorem strcpy_eq {dest : List UInt8} (h : CStr b s) (hlen : s.length + 1 ≤ dest.length) :
    strcpy dest b = some (s ++ 0 :: dest.drop (s.length + 1)) := by
  rw [strcpy, strlen_eq h, Option.bind_eq_bind, Option.bind_some, if_pos hlen]
  obtain ⟨-, rest, rfl⟩ := h
  rw [List.take_length_add_append]
  simp

/-- Two strings compare equal if and only if they are. -/
theorem strcmp_spec (hb : CStr b s) (ha : CStr a d) :
    ∃ v, strcmp b a = some v ∧ (v = 0 ↔ s = d) := by
  induction b generalizing s a d with
  | nil => exact absurd hb cstr_nil
  | cons c b ih =>
    cases a with
    | nil => exact absurd ha cstr_nil
    | cons e a =>
      rw [strcmp]
      by_cases hce : c = e
      · subst hce
        rcases cstr_cons.1 hb with ⟨rfl, rfl⟩ | ⟨hc, s, rfl, hb'⟩
        · rcases cstr_cons.1 ha with ⟨-, rfl⟩ | ⟨h, -⟩
          · exact ⟨0, rfl, by simp⟩
          · exact absurd rfl h
        · rcases cstr_cons.1 ha with ⟨h, -⟩ | ⟨-, d, rfl, ha'⟩
          · exact absurd h hc
          · obtain ⟨v, hv, hiff⟩ := ih hb' ha'
            rw [if_pos ⟨rfl, hc⟩]
            exact ⟨v, hv, by simp [hiff]⟩
      · rw [if_neg fun h => hce h.1, if_neg hce]
        refine ⟨_, rfl, fun h => absurd ?_ hce, fun h => ?_⟩
        · have := congrArg Int8.toUInt8 (Int8.toInt_inj.1 (Int.sub_eq_zero.1 h))
          rwa [UInt8.toUInt8_toInt8, UInt8.toUInt8_toInt8] at this
        · rcases cstr_cons.1 hb with ⟨rfl, rfl⟩ | ⟨-, s, rfl, -⟩ <;>
            rcases cstr_cons.1 ha with ⟨rfl, rfl⟩ | ⟨-, d, rfl, -⟩
          · exact absurd rfl hce
          · cases h
          · cases h
          · exact absurd (List.cons.inj h).1 hce

/-- The delimiters in `d`. -/
def isDelim (d : List UInt8) (c : UInt8) : Bool := decide (c ∈ d)

theorem scanAccept_eq (h : CStr a d) : scanAccept c a = some (isDelim d c) := by
  induction a generalizing d with
  | nil => exact absurd h cstr_nil
  | cons e a ih =>
    rw [scanAccept]
    rcases cstr_cons.1 h with ⟨rfl, rfl⟩ | ⟨he, d, rfl, h'⟩
    · rfl
    · rw [if_neg he, ih h']
      by_cases hce : c = e <;> simp [hce, isDelim]

theorem strspn_eq (hb : CStr b s) (ha : CStr a d) :
    strspn b a = some (s.takeWhile (isDelim d)).length := by
  induction b generalizing s with
  | nil => exact absurd hb cstr_nil
  | cons c b ih =>
    rw [strspn]
    rcases cstr_cons.1 hb with ⟨rfl, rfl⟩ | ⟨hc, s, rfl, hb'⟩
    · rfl
    · rw [if_neg hc, scanAccept_eq ha, ih hb', List.takeWhile_cons]
      by_cases hd : isDelim d c = true <;> simp [hd]

theorem strpbrk_eq (hb : CStr b s) (ha : CStr a d) :
    strpbrk b a = some (s.findIdx? (isDelim d)) := by
  induction b generalizing s with
  | nil => exact absurd hb cstr_nil
  | cons c b ih =>
    rw [strpbrk]
    rcases cstr_cons.1 hb with ⟨rfl, rfl⟩ | ⟨hc, s, rfl, hb'⟩
    · rfl
    · rw [if_neg hc, scanAccept_eq ha, ih hb', List.findIdx?_cons]
      by_cases hd : isDelim d c = true <;> simp [hd]

theorem lfind_eq (h : CStr b s) : lfind b 0 = some s.length := by
  induction b generalizing s with
  | nil => exact absurd h cstr_nil
  | cons c b ih =>
    rw [lfind]
    rcases cstr_cons.1 h with ⟨rfl, rfl⟩ | ⟨hc, s, rfl, h'⟩
    · rfl
    · rw [if_neg hc, ih h']
      rfl

theorem copyString_eq (h : CStr b s) : copyString b = some (s ++ [0]) := by
  rw [copyString, strlen_eq h]
  obtain ⟨-, rest, rfl⟩ := h
  simp [List.take_append, List.take_of_length_le]

/-! ## strtok_r -/

variable {v : ℕ} {seps tok after : List UInt8}

/-- No token is left. -/
theorem strtokR_nil (hb : CStr (b.drop v) s) (ha : CStr a d) (h : ∀ c ∈ s, isDelim d c = true) :
    strtokR b none a v = some ⟨none, b, v + s.length⟩ := by
  have hall : s.takeWhile (isDelim d) = s := List.takeWhile_eq_self_iff.2 h
  have hend := hb.get_length
  rw [List.getElem?_drop] at hend
  simp only [strtokR, Option.getD_none, strspn_eq hb ha, hall, hend, Option.bind_eq_bind,
    Option.bind_some, if_true, Option.pure_def]

/-- The next token is the run after the separators. Its end is marked by a NUL if the string does
    not end there, and what comes after it is left for the next call. -/
theorem strtokR_token (hb : CStr (b.drop v) s) (ha : CStr a d)
    (h : FirstToken (isDelim d) s seps tok after) :
    strtokR b none a v = some (if after = [] then ⟨some (v + seps.length), b, v + s.length⟩
      else ⟨some (v + seps.length), b.set (v + seps.length + tok.length) 0,
        v + seps.length + tok.length + 1⟩) := by
  -- the token starts after the separators
  have hspn := strspn_eq hb ha
  rw [h.takeWhile_eq] at hspn
  have ho := hb.firstToken h
  have hend : v + seps.length + (tok ++ after).length = v + s.length := by
    rw [congrArg List.length h.eq, List.length_append, List.length_append, List.length_append,
      Nat.add_assoc]
  obtain ⟨c, hc, hc₀⟩ : ∃ c, b[v + seps.length]? = some c ∧ c ≠ 0 := by
    obtain ⟨c, tok', rfl⟩ := List.exists_cons_of_ne_nil h.ne_nil
    obtain ⟨hmem, rest, hrest⟩ := ho
    refine ⟨c, ?_, fun h => hmem (h ▸ List.mem_cons_self)⟩
    rw [← Nat.add_zero (v + _), ← List.getElem?_drop, hrest]
    rfl
  simp only [strtokR, Option.getD_none, hspn, hc, hc₀, Option.bind_eq_bind, Option.bind_some,
    if_false, Option.pure_def, strpbrk_eq ho ha, h.findIdx?_eq, lfind_eq ho, hend]
  split_ifs <;> rfl

/-- The token that is found is a string, and so is what comes after it. -/
theorem strtokR_cons (hb : CStr (b.drop v) s) (ha : CStr a d)
    (h : FirstToken (isDelim d) s seps tok after) :
    ∃ r o, strtokR b none a v = some r ∧ r.token = some o ∧ CStr (r.block.drop o) tok ∧
      CStr (r.block.drop r.save) after.tail := by
  have ho : CStr (b.drop (v + seps.length)) (tok ++ after) := hb.firstToken h
  cases after with
  | nil =>
    -- the last token ends where the string ends
    refine ⟨_, _, (strtokR_token hb ha h).trans (congrArg some (if_pos rfl)), rfl, ?_, ?_⟩
    · rwa [List.append_nil] at ho
    · have hdrop := hb.drop le_rfl
      rwa [List.drop_drop, List.drop_length] at hdrop
  | cons z zs =>
    exact ⟨_, _, (strtokR_token hb ha h).trans (congrArg some (if_neg (List.cons_ne_nil z zs))),
      rfl, ho.cut⟩

end Beryllium

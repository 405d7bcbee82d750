import Beryllium.Lib.Str

/-!
# The calls of strtok_r on a string

`strtok_r(s, delim, &save)`, and then `strtok_r(NULL, delim, &save)` again and again (`strtokNth`),
find the tokens of `s` one after the other, and then none (`strtokNth_yields`). Each call cuts the
string behind its token, so that `save` points to the rest of `s` that is not changed yet
(`StrtokAt`).
-/

namespace Beryllium

open Machine

/-- What the call number `k` leaves: the first is for the string at `str`, and the others, with a
    null pointer, go on where the one before ended. -/
def strtokNth (block : List UInt8) (str : ℕ) (delim : List UInt8) (save : ℕ) : ℕ → Option Token
  | 0 => strtokR block (some str) delim save
  | k + 1 => do
    let r ← strtokNth block str delim save k
    strtokR r.block none delim r.save

variable {p : UInt8 → Bool} {pre s rest b a d done todo u seps tok : List UInt8} {z : UInt8}
  {k v : ℕ} {r : Token}

/-- The call number `k` on the string `s`, behind the bytes `pre` and before its NUL and the bytes
    `rest`: its answer is the token of that number, or null if there are not as many. The tokens up
    to this one are strings in the block, and only bytes of `s` were written. -/
structure Yields (p : UInt8 → Bool) (pre s rest : List UInt8) (k : ℕ) (r : Token) : Prop where
  token : ∀ tok, (tokens p s)[k]? = some tok →
    ∃ i, TokenAt p s k i tok ∧ r.token = some (pre.length + i) ∧
      CStr (r.block.drop (pre.length + i)) tok
  null : (tokens p s).length ≤ k → r.token = none
  strings : ∀ j ≤ k, ∀ i tok, TokenAt p s j i tok → CStr (r.block.drop (pre.length + i)) tok
  inside : ∃ u, u.length = s.length ∧ r.block = pre ++ (u ++ 0 :: rest)

/-- Before the call number `k`: the part `done` of `s` is `u` in the block now, and `v` is the
    address of the part `todo`. -/
structure StrtokAt (p : UInt8 → Bool) (pre s rest : List UInt8) (k : ℕ) (b : List UInt8) (v : ℕ)
    (done todo u : List UInt8) : Prop where
  eq : s = done ++ todo
  save : v = pre.length + done.length
  block : b = pre ++ (u ++ (todo ++ 0 :: rest))
  length : u.length = done.length
  last : todo ≠ [] → ∀ c ∈ done.getLast?, p c = true
  left : tokens p todo = (tokens p s).drop k
  kept : ∀ j < k, ∀ i tok, TokenAt p s j i tok →
    i + tok.length ≤ done.length ∧ CStr (b.drop (pre.length + i)) tok

namespace StrtokAt

theorem start : StrtokAt p pre s rest 0 (pre ++ (s ++ 0 :: rest)) pre.length [] s [] where
  eq := rfl
  save := rfl
  block := rfl
  length := rfl
  last _ c hc := absurd hc (Option.not_mem_none c)
  left := rfl
  kept j hj := absurd hj (Nat.not_lt_zero j)

theorem cstr (h : StrtokAt p pre s rest k b v done todo u) (hs : 0 ∉ s) : CStr (b.drop v) todo := by
  have hlen : (pre ++ u).length = v := by rw [List.length_append, h.length, h.save]
  rw [h.block, ← List.append_assoc, List.drop_left' hlen]
  exact CStr.mk (fun hmem => hs (h.eq ▸ List.mem_append_right _ hmem)) rest

/-- The next token is the token number `k`. -/
theorem tokenAt (h : StrtokAt p pre s rest k b v done todo u) {after : List UInt8}
    (hf : FirstToken p todo seps tok after) : TokenAt p s k (done.length + seps.length) tok := by
  have htodo : todo ≠ [] := by
    rw [hf.eq]
    exact fun hnil => hf.ne_nil (List.append_eq_nil_iff.1 (List.append_eq_nil_iff.1 hnil).2).1
  have hs : s = (done ++ seps) ++ (tok ++ after) := by rw [h.eq, hf.eq, List.append_assoc]
  have hlast : ∀ c ∈ (done ++ seps).getLast?, p c = true := by
    intro c hc
    rw [List.getLast?_append, Option.mem_def, Option.or_eq_some_iff] at hc
    rcases hc with hc | ⟨-, hc⟩
    · exact hf.isSep c (List.mem_of_getLast? hc)
    · exact h.last htodo c hc
  refine ⟨hf.ne_nil, hf.notSep, done ++ seps, after, hs, List.length_append, ?_, hlast, hf.stops⟩
  -- what is left begins with the token number `k`
  have hall := congrArg List.length (congrArg (tokens p) hs)
  have hleft := congrArg List.length h.left
  rw [tokens_append_of_getLast hlast, List.length_append, hf.tokens_run, List.length_cons] at hall
  rw [hf.tokens_eq, List.length_cons, List.length_drop] at hleft
  omega

/-- A call that does not cut the string is the last one that can find a token. -/
theorem finish (h : StrtokAt p pre s rest k b v done todo u) (hlen : (tokens p s).length ≤ k + 1)
    (hk : ∀ i tok, TokenAt p s k i tok → CStr (b.drop (pre.length + i)) tok) :
    StrtokAt p pre s rest (k + 1) b (v + todo.length) s [] (u ++ todo) where
  eq := (List.append_nil s).symm
  save := by rw [h.save, congrArg List.length h.eq, List.length_append, Nat.add_assoc]
  block := by rw [h.block, List.append_assoc, List.nil_append]
  length := by rw [congrArg List.length h.eq, List.length_append, List.length_append, h.length]
  last hne := absurd rfl hne
  left := by rw [tokens_nil, List.drop_eq_nil_of_le hlen]
  kept j hj i tok ht := by
    refine ⟨ht.le_length, ?_⟩
    rcases (Nat.lt_succ_iff.1 hj).eq_or_lt with rfl | hj
    · exact hk i tok ht
    · exact (h.kept j hj i tok ht).2

/-- A call that cuts the string goes on behind the NUL. -/
theorem cut {zs : List UInt8} (h : StrtokAt p pre s rest k b v done todo u) (hs : 0 ∉ s)
    (hf : FirstToken p todo seps tok (z :: zs)) :
    StrtokAt p pre s rest (k + 1) (b.set (v + seps.length + tok.length) 0)
      (v + seps.length + tok.length + 1) (done ++ (seps ++ (tok ++ [z]))) zs
      (u ++ (seps ++ (tok ++ [0]))) where
  eq := by
    rw [h.eq, hf.eq]
    simp only [List.append_assoc, List.singleton_append]
  save := by
    rw [h.save]
    simp only [List.length_append, List.length_singleton]
    omega
  block := by
    have hb : b = (pre ++ (u ++ (seps ++ tok))) ++ z :: (zs ++ 0 :: rest) := by
      rw [h.block, hf.eq]
      simp only [List.append_assoc, List.cons_append]
    have hlen : (pre ++ (u ++ (seps ++ tok))).length = v + seps.length + tok.length := by
      rw [h.save, ← h.length]
      simp only [List.length_append, Nat.add_assoc]
    rw [hb, ← hlen, List.set_append_right _ _ le_rfl, Nat.sub_self, List.set_cons_zero]
    simp only [List.append_assoc, List.singleton_append]
  length := by simp only [List.length_append, List.length_singleton, h.length]
  last _ c hc := by
    obtain rfl : c = z := by
      rw [← List.append_assoc, ← List.append_assoc, List.getLast?_concat] at hc
      exact (Option.some.inj hc).symm
    exact hf.stops c rfl
  left := by
    have hleft := h.left
    rw [hf.tokens_eq] at hleft
    rw [← List.tail_drop, ← hleft]
    rfl
  kept j hj i t ht := by
    have htok := List.length_pos_iff.2 hf.ne_nil
    have hv := h.save
    rcases (Nat.lt_succ_iff.1 hj).eq_or_lt with rfl | hj
    · obtain ⟨rfl, rfl⟩ := ht.unique (h.tokenAt hf)
      refine ⟨?_, ?_⟩
      · simp only [List.length_append, List.length_singleton]
        omega
      · rw [← Nat.add_assoc, ← hv]
        exact ((h.cstr hs).firstToken hf).cut.1
    · obtain ⟨hle, hcstr⟩ := h.kept j hj i t ht
      refine ⟨hle.trans ?_, hcstr.set (by omega)⟩
      rw [List.length_append]
      exact Nat.le_add_right _ _

/-- One call. -/
theorem step (h : StrtokAt (isDelim d) pre s rest k b v done todo u) (hs : 0 ∉ s) (ha : CStr a d) :
    ∃ r done todo u, strtokR b none a v = some r ∧
      StrtokAt (isDelim d) pre s rest (k + 1) r.block r.save done todo u ∧
      (∀ tok, (tokens (isDelim d) s)[k]? = some tok →
        ∃ i, TokenAt (isDelim d) s k i tok ∧ r.token = some (pre.length + i)) ∧
      ((tokens (isDelim d) s).length ≤ k → r.token = none) := by
  rcases firstToken_cases (isDelim d) todo with hall | ⟨seps, tok, after, hf⟩
  · -- only separators are left
    have hle : (tokens (isDelim d) s).length ≤ k := by
      rw [← List.drop_eq_nil_iff, ← h.left, tokens_eq_nil hall]
    have hnone := List.getElem?_eq_none hle
    refine ⟨_, _, _, _, strtokR_nil (h.cstr hs) ha hall, h.finish (Nat.le_succ_of_le hle) ?_, ?_,
      fun _ => rfl⟩
    · intro i tok ht
      cases hnone.symm.trans ht.getElem?
    · intro tok ht
      cases hnone.symm.trans ht
  · have hat := h.tokenAt hf
    have hget := hat.getElem?
    have htoken : ∀ t, (tokens (isDelim d) s)[k]? = some t → ∃ i, TokenAt (isDelim d) s k i t ∧
        some (v + seps.length) = some (pre.length + i) := by
      intro t ht
      obtain rfl := Option.some.inj (hget.symm.trans ht)
      exact ⟨_, hat, by rw [h.save, Nat.add_assoc]⟩
    have hnull : (tokens (isDelim d) s).length ≤ k → some (v + seps.length) = none := by
      intro hle
      cases (List.getElem?_eq_none hle).symm.trans hget
    have hr := strtokR_token (h.cstr hs) ha hf
    cases after with
    | nil =>
      rw [if_pos rfl] at hr
      refine ⟨_, _, _, _, hr, h.finish ?_ fun i t ht => ?_, htoken, hnull⟩
      · have hleft := congrArg List.length h.left
        rw [hf.tokens_eq, List.tail_nil, tokens_nil, List.length_singleton,
          List.length_drop] at hleft
        omega
      · obtain ⟨rfl, rfl⟩ := ht.unique hat
        have ho := (h.cstr hs).firstToken hf
        rwa [List.append_nil, h.save, Nat.add_assoc] at ho
    | cons z zs =>
      rw [if_neg (List.cons_ne_nil z zs)] at hr
      exact ⟨_, _, _, _, hr, h.cut hs hf, htoken, hnull⟩

end StrtokAt

/-! ## The calls -/

theorem strtokNth_strtokAt (hs : 0 ∉ s) (ha : CStr a d) (pre rest : List UInt8) (save k : ℕ) :
    ∃ r done todo u, strtokNth (pre ++ (s ++ 0 :: rest)) pre.length a save k = some r ∧
      StrtokAt (isDelim d) pre s rest (k + 1) r.block r.save done todo u ∧
      (∀ tok, (tokens (isDelim d) s)[k]? = some tok →
        ∃ i, TokenAt (isDelim d) s k i tok ∧ r.token = some (pre.length + i)) ∧
      ((tokens (isDelim d) s).length ≤ k → r.token = none) := by
  induction k with
  | zero => exact StrtokAt.start.step hs ha
  | succ k ih =>
    obtain ⟨r, done, todo, u, hr, h, -⟩ := ih
    rw [strtokNth, hr]
    exact h.step hs ha

/-- Call after call, `strtok_r` finds the tokens of the string, and then none. The block may begin
    and end with the string (`pre` and `rest` are empty): nothing outside it is read. -/
theorem strtokNth_yields (hs : 0 ∉ s) (ha : CStr a d) (pre rest : List UInt8) (save k : ℕ) :
    ∃ r, strtokNth (pre ++ (s ++ 0 :: rest)) pre.length a save k = some r ∧
      Yields (isDelim d) pre s rest k r := by
  obtain ⟨r, done, todo, u, hr, h, htoken, hnull⟩ := strtokNth_strtokAt hs ha pre rest save k
  have hstrings : ∀ j ≤ k, ∀ i tok, TokenAt (isDelim d) s j i tok →
      CStr (r.block.drop (pre.length + i)) tok :=
    fun j hj i tok ht => (h.kept j (Nat.lt_succ_of_le hj) i tok ht).2
  refine ⟨r, hr, fun tok ht => ?_, hnull, hstrings, u ++ todo, ?_, ?_⟩
  · obtain ⟨i, hi, hr⟩ := htoken tok ht
    exact ⟨i, hi, hr, hstrings k le_rfl i tok hi⟩
  · rw [congrArg List.length h.eq, List.length_append, List.length_append, h.length]
  · rw [h.block, List.append_assoc]

/-- The second call for `"/a//b"`, in a block that ends with the string. -/
theorem strtokNth_yields_path : ∃ r, strtokNth [47, 97, 47, 47, 98, 0] 0 [47, 0] 0 1 = some r ∧
    Yields (isDelim [47]) [] [47, 97, 47, 47, 98] [] 1 r :=
  strtokNth_yields (show 0 ∉ [47, 97, 47, 47, 98] by decide) (CStr.mk (show 0 ∉ [47] by decide) [])
    [] [] 0 1

end Beryllium

import Mathlib.Data.List.Basic
import Mathlib.Data.List.TakeWhile
import Mathlib.Data.Nat.Notation
import Mathlib.Order.Nat
import Mathlib.Tactic.Common

/-!
# C strings and tokens

A pointer into a block of memory is the list of the bytes from there to the end of
the block. It points to the string `s` if the bytes begin with `s` and a NUL, and `s`
has none itself (`CStr`).

The *tokens* of a list are its maximal nonempty runs without a separator (`tokens`):
the nonempty pieces of `List.splitOnP`. They come one after the other
(`FirstToken.tokens_eq`), as a tokenizer finds them, each at its place (`TokenAt`).
-/

namespace Machine

/-- The bytes `b` begin with the string `s`. -/
def CStr (b s : List UInt8) : Prop := 0 ∉ s ∧ ∃ rest, b = s ++ 0 :: rest

variable {b s t : List UInt8} {c : UInt8}

theorem CStr.mk (h : 0 ∉ s) (rest : List UInt8) : CStr (s ++ 0 :: rest) s := ⟨h, rest, rfl⟩

theorem cstr_nil : ¬CStr [] s := by
  rintro ⟨-, rest, h⟩
  cases s <;> cases h

theorem cstr_cons : CStr (c :: b) s ↔ (c = 0 ∧ s = []) ∨
    (c ≠ 0 ∧ ∃ s', s = c :: s' ∧ CStr b s') := by
  constructor
  · rintro ⟨h₀, rest, h⟩
    cases s with
    | nil =>
      obtain ⟨rfl, rfl⟩ := List.cons.inj h
      exact .inl ⟨rfl, rfl⟩
    | cons d s =>
      obtain ⟨rfl, rfl⟩ := List.cons.inj h
      obtain ⟨hne, hmem⟩ := not_or.1 (mt List.mem_cons.2 h₀)
      exact .inr ⟨Ne.symm hne, s, rfl, hmem, rest, rfl⟩
  · rintro (⟨rfl, rfl⟩ | ⟨hne, s', rfl, h₀, rest, rfl⟩)
    · exact ⟨List.not_mem_nil, b, rfl⟩
    · exact ⟨fun h => (List.mem_cons.1 h).elim (Ne.symm hne) h₀, rest, rfl⟩

/-- The bytes begin with one string only. -/
theorem CStr.unique (hs : CStr b s) (ht : CStr b t) : s = t := by
  induction b generalizing s t with
  | nil => exact absurd hs cstr_nil
  | cons c b ih =>
    rcases cstr_cons.1 hs with ⟨hc, rfl⟩ | ⟨hc, s', rfl, hs'⟩ <;>
      rcases cstr_cons.1 ht with ⟨hc', rfl⟩ | ⟨hc', t', rfl, ht'⟩
    · rfl
    · exact absurd hc hc'
    · exact absurd hc' hc
    · rw [ih hs' ht']

/-- A pointer that is moved inside a string points to the rest of the string. -/
theorem CStr.drop (h : CStr b s) {k : ℕ} (hk : k ≤ s.length) : CStr (b.drop k) (s.drop k) := by
  obtain ⟨h₀, rest, rfl⟩ := h
  exact ⟨fun h => h₀ (List.mem_of_mem_drop h), rest, by
    rw [List.drop_append_of_le_length hk]⟩

/-- A string that ends within the first `m` bytes. -/
theorem CStr.of_take {m : ℕ} (h : CStr (b.take m) s) : CStr b s := by
  obtain ⟨h₀, rest, hrest⟩ := h
  refine ⟨h₀, rest ++ b.drop m, ?_⟩
  rw [← List.cons_append, ← List.append_assoc, ← hrest, List.take_append_drop]

theorem CStr.length_lt (h : CStr b s) : s.length < b.length := by
  obtain ⟨-, rest, rfl⟩ := h
  rw [List.length_append, List.length_cons]
  omega

theorem CStr.get_length (h : CStr b s) : b[s.length]? = some 0 := by
  obtain ⟨-, rest, rfl⟩ := h
  rw [List.getElem?_append_right le_rfl, Nat.sub_self, List.getElem?_cons_zero]

/-- A NUL that is written into a string makes two strings of it. -/
theorem CStr.cut {v : ℕ} (h : CStr (b.drop v) (s ++ c :: t)) :
    CStr ((b.set (v + s.length) 0).drop v) s ∧
      CStr ((b.set (v + s.length) 0).drop (v + s.length + 1)) t := by
  constructor
  · obtain ⟨h₀, rest, hrest⟩ := h
    rw [← List.set_drop, hrest, List.append_assoc, List.set_append_right _ _ le_rfl, Nat.sub_self,
      List.cons_append, List.set_cons_zero]
    exact CStr.mk (fun hmem => h₀ (List.mem_append_left _ hmem)) _
  · have hdrop := h.drop (k := s.length + 1) (by rw [List.length_append, List.length_cons]; omega)
    rw [List.drop_drop, List.drop_append, List.drop_eq_nil_of_le (Nat.le_succ _),
      Nat.add_sub_cancel_left, List.nil_append, List.drop_one, List.tail_cons] at hdrop
    rwa [List.drop_set_of_lt (Nat.lt_succ_self _)]

/-- A byte that is written behind a string does not change it. -/
theorem CStr.set {v w : ℕ} (h : CStr (b.drop v) s) (hw : v + s.length < w) :
    CStr ((b.set w c).drop v) s := by
  obtain ⟨h₀, rest, hrest⟩ := h
  obtain ⟨m, rfl⟩ := Nat.exists_eq_add_of_lt hw
  refine ⟨h₀, rest.set m c, ?_⟩
  have hset : (b.set (v + (s.length + (m + 1))) c).drop v =
      (s ++ 0 :: rest).set (s.length + (m + 1)) c := by
    rw [← List.set_drop, hrest]
  rw [Nat.add_assoc, Nat.add_assoc, hset, List.set_append_right _ _ (Nat.le_add_right _ _),
    Nat.add_sub_cancel_left, List.set_cons_succ]

/-! ## Tokens -/

variable {α : Type*} {p : α → Bool} {x : α} {xs ys : List α}

/-- The maximal nonempty runs without a separator. -/
def tokens (p : α → Bool) (xs : List α) : List (List α) := (xs.splitOnP p).filter (· ≠ [])

theorem tokens_nil : tokens p [] = [] := rfl

theorem tokens_cons (hx : p x = true) : tokens p (x :: xs) = tokens p xs := by
  rw [tokens, tokens, List.splitOnP_cons_eq_if_modifyHead, if_pos hx]
  rfl

/-- A run up to the end or to a separator is the first token. -/
theorem tokens_append (hy : ys ≠ []) (h : ∀ y ∈ ys, p y = false) (hx : ∀ x ∈ xs.head?, p x = true) :
    tokens p (ys ++ xs) = ys :: tokens p xs := by
  cases xs with
  | nil =>
    rw [List.append_nil, tokens, List.splitOnP_eq_singleton h, tokens_nil]
    simp [hy]
  | cons x xs =>
    have hx : p x = true := hx x rfl
    rw [tokens_cons hx, tokens, List.splitOnP_append_cons_of_forall_mem h x hx]
    simp [tokens, hy]

/-- The tokens before a separator, and those after it. -/
theorem tokens_append_cons (hx : p x = true) :
    tokens p (xs ++ x :: ys) = tokens p xs ++ tokens p ys := by
  rw [tokens, tokens, tokens, List.splitOnP_append_cons _ _ hx, List.filter_append]

/-- Separators at the start do not matter. -/
theorem tokens_seps (h : ∀ x ∈ xs, p x = true) : tokens p (xs ++ ys) = tokens p ys := by
  induction xs with
  | nil => rfl
  | cons x xs ih =>
    obtain ⟨hx, hxs⟩ := List.forall_mem_cons.1 h
    rw [List.cons_append, tokens_cons hx, ih hxs]

theorem tokens_eq_nil (h : ∀ x ∈ xs, p x = true) : tokens p xs = [] := by
  rw [← List.append_nil xs, tokens_seps h, tokens_nil]

/-- A list that ends with a separator has its tokens before those of what follows. -/
theorem tokens_append_of_getLast (h : ∀ x ∈ xs.getLast?, p x = true) :
    tokens p (xs ++ ys) = tokens p xs ++ tokens p ys := by
  rcases List.eq_nil_or_concat xs with rfl | ⟨zs, z, rfl⟩
  · rfl
  · have hz : p z = true := h z (by rw [List.concat_eq_append, List.getLast?_concat]; rfl)
    rw [List.concat_eq_append, List.append_assoc, List.singleton_append, tokens_append_cons hz,
      tokens_append_cons hz, tokens_nil, List.append_nil]

/-- The list is some separators, its first token, and what comes after that. -/
structure FirstToken (p : α → Bool) (xs seps tok after : List α) : Prop where
  eq : xs = seps ++ (tok ++ after)
  isSep : ∀ x ∈ seps, p x = true
  ne_nil : tok ≠ []
  notSep : ∀ x ∈ tok, p x = false
  stops : ∀ x ∈ after.head?, p x = true

/-- A list that is not all separators has a first token. -/
theorem firstToken_cases (p : α → Bool) (xs : List α) :
    (∀ x ∈ xs, p x = true) ∨ ∃ seps tok after, FirstToken p xs seps tok after := by
  cases hd : xs.dropWhile p with
  | nil => exact .inl (List.dropWhile_eq_nil_iff.1 hd)
  | cons c u =>
    have hne : xs.dropWhile p ≠ [] := hd ▸ List.cons_ne_nil c u
    have hc : p c = false := by simpa [hd] using List.head_dropWhile_not p hne
    refine .inr ⟨xs.takeWhile p, (c :: u).takeWhile (!p ·), (c :: u).dropWhile (!p ·), ?_,
      fun x => List.mem_takeWhile_imp, ?_, fun x hx => ?_, fun x hx => ?_⟩
    · rw [List.takeWhile_append_dropWhile, ← hd, List.takeWhile_append_dropWhile]
    · rw [List.takeWhile_cons_of_pos (by rw [hc]; rfl)]
      exact List.cons_ne_nil _ _
    · simpa using List.mem_takeWhile_imp hx
    · have hhead := List.head?_dropWhile_not (!p ·) (c :: u)
      rw [Option.mem_def.1 hx] at hhead
      simpa using hhead

namespace FirstToken

variable {seps tok after : List α}

theorem tokens_run (h : FirstToken p xs seps tok after) :
    tokens p (tok ++ after) = tok :: tokens p after.tail := by
  rw [tokens_append h.ne_nil h.notSep h.stops]
  cases after with
  | nil => rfl
  | cons z zs => rw [tokens_cons (h.stops z rfl), List.tail_cons]

theorem tokens_eq (h : FirstToken p xs seps tok after) :
    tokens p xs = tok :: tokens p after.tail := by
  rw [h.eq, tokens_seps h.isSep, h.tokens_run]

theorem length_tail_lt (h : FirstToken p xs seps tok after) : after.tail.length < xs.length := by
  have htok := List.length_pos_iff.2 h.ne_nil
  rw [h.eq, List.length_append, List.length_append, List.length_tail]
  omega

theorem takeWhile_eq (h : FirstToken p xs seps tok after) : xs.takeWhile p = seps := by
  obtain ⟨x, tok', htok⟩ := List.exists_cons_of_ne_nil h.ne_nil
  have hx : p x = false := h.notSep x (htok ▸ List.mem_cons_self)
  rw [h.eq, List.takeWhile_append_of_pos h.isSep, htok, List.cons_append,
    List.takeWhile_cons_of_neg (by rw [hx]; exact Bool.false_ne_true), List.append_nil]

theorem findIdx?_eq (h : FirstToken p xs seps tok after) :
    (tok ++ after).findIdx? p = if after = [] then none else some tok.length := by
  rw [List.findIdx?_append, List.findIdx?_eq_none_iff.2 h.notSep]
  cases after with
  | nil => rfl
  | cons z zs =>
    rw [List.findIdx?_cons, if_pos (h.stops z rfl), if_neg (List.cons_ne_nil z zs)]
    simp

end FirstToken

theorem CStr.firstToken {v : ℕ} {p : UInt8 → Bool} {seps tok after : List UInt8}
    (hb : CStr (b.drop v) s)
    (h : FirstToken p s seps tok after) : CStr (b.drop (v + seps.length)) (tok ++ after) := by
  have hdrop := hb.drop (k := seps.length)
    (by rw [h.eq, List.length_append]; exact Nat.le_add_right _ _)
  rwa [List.drop_drop, h.eq, List.drop_left] at hdrop

/-- `tok`, from the offset `i` on, is the token number `k`: a maximal run without a separator,
    behind `k` others. -/
structure TokenAt (p : α → Bool) (xs : List α) (k i : ℕ) (tok : List α) : Prop where
  ne_nil : tok ≠ []
  notSep : ∀ x ∈ tok, p x = false
  split : ∃ before after, xs = before ++ (tok ++ after) ∧ before.length = i ∧
    (tokens p before).length = k ∧ (∀ x ∈ before.getLast?, p x = true) ∧
      ∀ x ∈ after.head?, p x = true

namespace TokenAt

variable {k i i' : ℕ} {tok tok' : List α}

theorem le_length (h : TokenAt p xs k i tok) : i + tok.length ≤ xs.length := by
  obtain ⟨before, after, rfl, rfl, -⟩ := h.split
  rw [List.length_append, List.length_append]
  omega

theorem getElem? (h : TokenAt p xs k i tok) : (tokens p xs)[k]? = some tok := by
  obtain ⟨before, after, rfl, -, rfl, hlast, hhead⟩ := h.split
  rw [tokens_append_of_getLast hlast, tokens_append h.ne_nil h.notSep hhead,
    List.getElem?_append_right le_rfl, Nat.sub_self, List.getElem?_cons_zero]

/-- There is nothing between two tokens of one number. -/
theorem between_eq_nil {before mid after : List α} (hlast : ∀ x ∈ before.getLast?, p x = true)
    (hlen : (tokens p (before ++ mid)).length = (tokens p before).length) (hne : tok ≠ [])
    (hnot : ∀ x ∈ tok, p x = false) (heq : tok ++ after = mid ++ ys) : mid = [] := by
  cases mid with
  | nil => rfl
  | cons x mid =>
    exfalso
    obtain ⟨y, tok, rfl⟩ := List.exists_cons_of_ne_nil hne
    obtain ⟨rfl, -⟩ := List.cons.inj heq
    have hy : p y = false := hnot y List.mem_cons_self
    rw [tokens_append_of_getLast hlast, List.length_append] at hlen
    rcases firstToken_cases p (y :: mid) with hall | ⟨seps, t, rest, ht⟩
    · exact absurd (hall y List.mem_cons_self) (by rw [hy]; exact Bool.false_ne_true)
    · rw [ht.tokens_eq, List.length_cons] at hlen
      omega

theorem unique (h : TokenAt p xs k i tok) (h' : TokenAt p xs k i' tok') : i = i' ∧ tok = tok' := by
  refine ⟨?_, Option.some.inj (h.getElem?.symm.trans h'.getElem?)⟩
  obtain ⟨before, after, heq, rfl, hk, hlast, -⟩ := h.split
  obtain ⟨before', after', heq', rfl, hk', hlast', -⟩ := h'.split
  rcases List.append_eq_append_iff.1 (heq.symm.trans heq') with ⟨mid, rfl, hmid⟩ | ⟨mid, rfl, hmid⟩
  · rw [between_eq_nil hlast (hk'.trans hk.symm) h.ne_nil h.notSep hmid, List.append_nil]
  · rw [between_eq_nil hlast' (hk.trans hk'.symm) h'.ne_nil h'.notSep hmid, List.append_nil]

end TokenAt

theorem mem_splitOnP (h : ys ∈ xs.splitOnP p) : ∀ y ∈ ys, p y = false ∧ y ∈ xs := by
  induction xs generalizing ys with
  | nil =>
    obtain rfl := List.mem_singleton.1 h
    exact fun y hy => absurd hy List.not_mem_nil
  | cons x xs ih =>
    have hcons : ∀ {zs}, zs ∈ xs.splitOnP p → ∀ y ∈ zs, p y = false ∧ y ∈ x :: xs := fun hz y hy =>
      ⟨(ih hz y hy).1, List.mem_cons_of_mem x (ih hz y hy).2⟩
    rw [List.splitOnP_cons_eq_if_modifyHead] at h
    split_ifs at h with hx
    · rcases List.mem_cons.1 h with rfl | h
      · exact fun y hy => absurd hy List.not_mem_nil
      · exact hcons h
    · cases hs : xs.splitOnP p with
      | nil => exact absurd hs (List.splitOnP_ne_nil p xs)
      | cons z zs =>
        rw [hs, List.modifyHead_cons] at h
        rw [hs] at hcons
        rcases List.mem_cons.1 h with rfl | h
        · intro y hy
          rcases List.mem_cons.1 hy with rfl | hy
          · exact ⟨Bool.not_eq_true _ ▸ hx, List.mem_cons_self⟩
          · exact hcons List.mem_cons_self y hy
        · exact hcons (List.mem_cons_of_mem z h)

theorem mem_tokens (h : ys ∈ tokens p xs) : ys ≠ [] ∧ ∀ y ∈ ys, p y = false ∧ y ∈ xs := by
  obtain ⟨hs, hne⟩ := List.mem_filter.1 h
  exact ⟨by simpa using hne, mem_splitOnP hs⟩

end Machine

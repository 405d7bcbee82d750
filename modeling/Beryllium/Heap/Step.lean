import Beryllium.Heap.Surgery
import Mathlib.Data.List.Chain

/-!
# The allocator on blocks

What `malloc` and `free` do to the list of blocks, as relations between lists
(`MallocStep`, `FreeStep`), and that the code does it (`malloc_step`, `free_step`).
The search and the growth of the heap always end: the list has less blocks than
there are addresses, and the break moves up a page at a time.
-/

namespace Beryllium

open Machine

variable {st : Sentinels} {m : Mem} {base n s : ℕ} {b : Block} {pre post bs bs' : List Block}

/-! ## Sizes -/

theorem roundUp_eq (hn : n + 20 ≤ 4294967296) : roundUp n = (n + 3) / 4 * 4 := by
  simp only [roundUp, sizeofSizeT]
  split_ifs with h
  · rw [add32_eq (by omega)]
    omega
  · omega

theorem le_roundUp (hn : n + 20 ≤ 4294967296) : n ≤ roundUp n := by
  rw [roundUp_eq hn]
  omega

theorem roundUp_mod (hn : n + 20 ≤ 4294967296) : roundUp n % 4 = 0 := by
  rw [roundUp_eq hn]
  omega

theorem roundUp_lt (hn : n + 20 ≤ 4294967296) : roundUp n + 16 < 4294967296 := by
  rw [roundUp_eq hn]
  omega

/-- The blocks are no more than the addresses they take. -/
theorem length_le_endOf (a : ℕ) (bs : List Block) : a + bs.length ≤ endOf a bs := by
  induction bs generalizing a with
  | nil => exact le_rfl
  | cons b bs ih =>
    refine le_trans ?_ (ih _)
    rw [List.length_cons]
    omega

/-! ## Growing the heap -/

/-- The break only moves up, and far enough unless `sbrk` fails. -/
theorem enlarge_spec (avail : ℕ → Bool) {allocEnd brk fuel : ℕ} (ha : allocEnd ≤ brk)
    (hb : brk < 4294967296) (hn : n + 16 < 4294967296) (hfuel : 4294967296 - brk < fuel) :
    ∃ ok brk', enlarge avail allocEnd n fuel brk = some (ok, brk') ∧ brk ≤ brk' ∧
      brk' < 4294967296 ∧ (ok = true → allocEnd + 16 + n ≤ brk') := by
  induction fuel generalizing brk with
  | zero => exact absurd hfuel (Nat.not_lt_zero _)
  | succ fuel ih =>
    rw [enlarge, sub32_eq ha hb, show add32 n sizeofMeta = n + 16 from add32_eq hn]
    split_ifs with h
    · rw [sbrkPage]
      by_cases hp : avail brk ∧ brk + pageSize < 4294967296
      · have h₄ : pageSize = 4096 := rfl
        obtain ⟨ok, brk', he, h₁, h₂⟩ :=
          ih (show allocEnd ≤ brk + pageSize by omega) hp.2 (by omega)
        exact ⟨ok, brk', by rw [if_pos hp, ← he], by omega, h₂⟩
      · exact ⟨false, brk, by rw [if_neg hp], le_rfl, hb, fun h => absurd h (by decide)⟩
    · exact ⟨true, brk, rfl, le_rfl, hb, fun _ => by omega⟩

/-! ## malloc -/

section

variable {avail : ℕ → Bool} {h : Heap} {a brk : ℕ}

theorem malloc_of_take (he : firstFit st h.mem (roundUp n) loopFuel st.head = some (some a))
    (ha : a + 16 < 4294967296) :
    malloc st avail h n = some (a + 16, { h with mem := takeBlock h.mem a (roundUp n) }) := by
  simp only [malloc, he, Option.bind_eq_bind, Option.bind_some, Option.pure_def, sizeofMeta,
    add32_eq ha]

theorem malloc_of_fail (he : firstFit st h.mem (roundUp n) loopFuel st.head = some none)
    (ha : (if h.allocEnd = 0 then h.brk else h.allocEnd) = a)
    (hen : enlarge avail a (roundUp n) loopFuel h.brk = some (false, brk)) :
    malloc st avail h n = some (NULL, ⟨h.mem, a, brk⟩) := by
  simp only [malloc, he, Option.bind_eq_bind, Option.bind_some, ha, hen, Bool.false_eq_true,
    if_false, Option.pure_def]

theorem malloc_of_grow (he : firstFit st h.mem (roundUp n) loopFuel st.head = some none)
    (ha : (if h.allocEnd = 0 then h.brk else h.allocEnd) = a)
    (hen : enlarge avail a (roundUp n) loopFuel h.brk = some (true, brk))
    (hlt : a + 16 + roundUp n < 4294967296) :
    malloc st avail h n =
      some (a + 16, ⟨appendBlock st h.mem a (roundUp n), a + 16 + roundUp n, brk⟩) := by
  have h₁ : add32 (roundUp n) 16 = roundUp n + 16 := add32_eq (by omega)
  have h₂ : add32 a (roundUp n + 16) = a + 16 + roundUp n := by
    rw [add32_eq (by omega)]
    omega
  have h₃ : add32 a 16 = a + 16 := add32_eq (by omega)
  simp only [malloc, he, Option.bind_eq_bind, Option.bind_some, ha, hen, if_true, Option.pure_def,
    sizeofMeta, h₁, h₂, h₃]

end

/-- What `malloc` of `n` bytes, requested as `req`, does to the blocks, and the pointer
    it returns: it takes the first free block that is large enough, adds a new one at the
    end if there is none, or returns `NULL` if there is no memory for it. -/
inductive MallocStep (base n req : ℕ) : List Block → ℕ → List Block → Prop
  | take {pre post : List Block} {s : ℕ} : (∀ c ∈ pre, ¬c.Fits n) → n ≤ s →
      MallocStep base n req (pre ++ ⟨s, none⟩ :: post) (endOf base pre + 16)
        (pre ++ (carve s n req ++ post))
  | grow {bs : List Block} : (∀ c ∈ bs, ¬c.Fits n) →
      MallocStep base n req bs (endOf base bs + 16) (bs ++ [⟨n, some req⟩])
  | fail {bs : List Block} : (∀ c ∈ bs, ¬c.Fits n) → MallocStep base n req bs NULL bs

/-- The state of the allocator represents the blocks `bs` from `base` on: they are the
    list in memory, and end at `alloc_end`, which is `0` before the first block. -/
structure Represents (st : Sentinels) (base : ℕ) (h : Heap) (bs : List Block) : Prop where
  list : BlockList st h.mem base bs
  allocEnd : h.allocEnd = endOf base bs ∨ (h.allocEnd = 0 ∧ bs = [] ∧ h.brk = base)
  le_brk : endOf base bs ≤ h.brk
  brk_lt : h.brk < 4294967296

/-- The search passes all blocks. -/
theorem Represents.length_lt {h : Heap} (hr : Represents st base h bs) : bs.length < loopFuel := by
  have hlen := length_le_endOf base bs
  have hle := hr.le_brk
  have hlt := hr.brk_lt
  have hfuel := lt_loopFuel
  omega

/-- A heap with the memory `m` represents the blocks of a list there. -/
theorem Represents.of_list {m' : Mem} {xs : List Block} {allocEnd brk : ℕ}
    (hlist : BlockList st m base bs)
    (hend : allocEnd = endOf base bs ∨ (allocEnd = 0 ∧ bs = [] ∧ brk = base))
    (hle : endOf base bs ≤ brk) (hbrk : brk < 4294967296) (hsame : SameInUse m' m base xs) :
    Represents st base ⟨m, allocEnd, brk⟩ bs ∧ SameInUse m' (Heap.mk m allocEnd brk).mem base xs :=
  ⟨⟨hlist, hend, hle, hbrk⟩, hsame⟩

/-- No two neighbouring blocks are free. -/
abbrev Merged (bs : List Block) : Prop := bs.IsChain fun b c => b.owner ≠ none ∨ c.owner ≠ none

theorem Merged.not_free_after (h : Merged (pre ++ ⟨s, none⟩ :: post)) :
    ∀ b ∈ post.head?, b.owner ≠ none := fun b hb =>
  ((List.isChain_cons.1 (List.isChain_append.1 h).2.1).1 b hb).resolve_left (not_not.2 rfl)

theorem malloc_step (avail : ℕ → Bool) {h : Heap} (req : ℕ) (hb : st.Below base)
    (hr : Represents st base h bs) (hm : Merged bs) (hn : n + 20 ≤ 4294967296) :
    ∃ ptr h' bs', malloc st avail h n = some (ptr, h') ∧ MallocStep base
    (roundUp n) req bs ptr bs' ∧
      Represents st base h' bs' ∧ SameInUse h.mem h'.mem base bs := by
  have hlt := roundUp_lt hn
  have hbase : base ≤ endOf base bs := le_endOf
  have hle := hr.le_brk
  have hbrk := hr.brk_lt
  have htail := hb.tail
  have hlen : bs.length < loopFuel := hr.length_lt
  rcases firstFit_spec (n := roundUp n) hr.list.chain htail hlen with
    ⟨pre, ⟨s, _⟩, post, rfl, hpre, ⟨rfl, hs⟩, he⟩ | ⟨hno, he⟩
  · -- reuse of a free block
    have hend : endOf base pre + 16 ≤ endOf base (pre ++ ⟨s, none⟩ :: post) := header_le_endOf
    have hend' : endOf base (pre ++ (carve s (roundUp n) req ++ post)) =
        endOf base (pre ++ ⟨s, none⟩ :: post) := by
      rw [endOf_append, endOf_carve _ hs, endOf_append, endOf]
    obtain ⟨hlist, hsame, hsame'⟩ := takeBlock_list hb hr.list (by omega) hs hm.not_free_after
    refine ⟨_, _, _, malloc_of_take he (by omega), .take hpre hs,
      Represents.of_list hlist (.inl ?_) ?_ hbrk (hsame.around hsame')⟩
    · rw [hend']
      rcases hr.allocEnd with h | ⟨-, h, -⟩
      · exact h
      · exact absurd h (by simp)
    · rw [hend']
      exact hle
  · -- a new block, if the break moves far enough
    have hae : (if h.allocEnd = 0 then h.brk else h.allocEnd) = endOf base bs := by
      rcases hr.allocEnd with h' | ⟨h', rfl, h''⟩
      · rw [h', if_neg (by omega)]
      · rw [if_pos h', h'', endOf]
    obtain ⟨ok, brk', hen, h₁, h₂, h₃⟩ := enlarge_spec avail hle hbrk hlt
      (lt_of_le_of_lt (Nat.sub_le _ _) lt_loopFuel)
    cases ok with
    | false =>
      exact ⟨_, _, bs, malloc_of_fail he hae hen, .fail hno,
        ⟨hr.list, .inl rfl, le_trans hle h₁, h₂⟩, .refl _ _ _⟩
    | true =>
      have h₃ := h₃ rfl
      have hend : endOf base (bs ++ [⟨roundUp n, some req⟩]) = endOf base bs + 16 + roundUp n :=
        endOf_append
      have hroom : endOf base bs + 16 + roundUp n < 4294967296 := by omega
      obtain ⟨hlist, hsame⟩ := appendBlock_list hb hr.list hroom
      exact ⟨_, _, _, malloc_of_grow he hae hen hroom, .grow hno,
        Represents.of_list hlist (.inl hend.symm) (by rw [hend]; exact h₃) h₂ hsame⟩

/-- The heap does not get smaller. -/
theorem MallocStep.le_endOf {req ptr : ℕ} (h : MallocStep base n req bs ptr bs') :
    endOf base bs ≤ endOf base bs' := by
  cases h with
  | take _ hs => rw [endOf_append, endOf_append, endOf_carve _ hs, endOf]
  | grow _ =>
    rw [endOf_append]
    exact Beryllium.le_endOf
  | fail _ => exact le_rfl

/-- The blocks in use stay where they are. -/
theorem MallocStep.hasBlock {req ptr p : ℕ} {c : Block} (h : MallocStep base n req bs ptr bs')
    (hc : HasBlock base bs p c) (ho : c.owner ≠ none) : HasBlock base bs' p c := by
  cases h with
  | @take pre post t hno hs =>
    rw [hasBlock_append] at hc ⊢
    rcases hc with hc | ⟨-, rfl⟩ | hc
    · exact .inl hc
    · exact absurd rfl ho
    · refine .inr (hasBlock_append.2 (.inr ?_))
      rw [← List.append_nil (carve _ _ _), endOf_carve [] hs]
      exact hc
  | grow _ => exact hasBlock_append.2 (.inl hc)
  | fail _ => exact hc

/-! ## free -/

/-- What freeing the payload `ptr` does to the blocks: its block becomes free, and is
    merged with the one before it and the one after it, if those are free. -/
inductive FreeStep (base : ℕ) : List Block → ℕ → List Block → Prop
  | mk {pre post pre' post' : List Block} {s r s' s'' : ℕ} :
      (pre' = pre ∧ s' = s ∧ (∀ b ∈ pre.getLast?, b.owner ≠ none) ∨
        ∃ t, pre = pre' ++ [⟨t, none⟩] ∧ s' = t + 16 + s) →
      (post' = post ∧ s'' = s' ∧ (∀ b ∈ post.head?, b.owner ≠ none) ∨
        ∃ t, post = ⟨t, none⟩ :: post' ∧ s'' = s' + 16 + t) →
      FreeStep base (pre ++ ⟨s, some r⟩ :: post) (endOf base pre + 16)
        (pre' ++ ⟨s'', none⟩ :: post')

theorem FreeStep.endOf_eq {ptr : ℕ} (h : FreeStep base bs ptr bs') :
    endOf base bs' = endOf base bs := by
  obtain ⟨hpre, hpost⟩ := h
  rcases hpre with ⟨rfl, rfl, -⟩ | ⟨t, rfl, rfl⟩ <;>
    rcases hpost with ⟨rfl, rfl, -⟩ | ⟨t', rfl, rfl⟩ <;>
    simp only [endOf_append, endOf] <;> congr 1 <;> omega

/-- The blocks in use, but for the one that is freed, stay where they are. -/
theorem FreeStep.hasBlock {ptr p : ℕ} {c : Block} (h : FreeStep base bs ptr bs')
    (hc : HasBlock base bs p c) (ho : c.owner ≠ none) (hp : p ≠ ptr) : HasBlock base bs' p c := by
  obtain @⟨pre, post, pre', post', s, r, s', s'', hpre, hpost⟩ := h
  have hend : endOf base pre' + 16 + s' = endOf base pre + 16 + s := by
    rcases hpre with ⟨rfl, rfl, -⟩ | ⟨t, rfl, rfl⟩
    · rfl
    · simp only [endOf_append, endOf]
      omega
  rw [hasBlock_append] at hc ⊢
  rcases hc with hc | ⟨rfl, -⟩ | hc
  · -- before the block
    refine .inl ?_
    rcases hpre with ⟨rfl, -⟩ | ⟨t, rfl, -⟩
    · exact hc
    · rcases hasBlock_append.1 hc with hc | ⟨-, rfl⟩ | hc
      · exact hc
      · exact absurd rfl ho
      · exact hc.elim
  · exact absurd rfl hp
  · -- after it
    refine .inr (.inr ?_)
    dsimp only at hc ⊢
    rw [← hend] at hc
    rcases hpost with ⟨rfl, rfl, -⟩ | ⟨t, rfl, rfl⟩
    · exact hc
    · rcases hc with ⟨-, rfl⟩ | hc
      · exact absurd rfl ho
      · rwa [show endOf base pre' + 16 + (s' + 16 + t) =
          endOf base pre' + 16 + s' + 16 + t by omega]

theorem free_step {h : Heap} {r : ℕ} (hb : st.Below base)
    (hr : Represents st base h (pre ++ ⟨s, some r⟩ :: post)) :
    ∃ bs', FreeStep base (pre ++ ⟨s, some r⟩ :: post) (endOf base pre + 16) bs' ∧
      Represents st base (free h (endOf base pre + 16)) bs' ∧
      SameInUse h.mem (free h (endOf base pre + 16)).mem base bs' := by
  have hend : ∀ o : Option ℕ, endOf base (pre ++ ⟨s, o⟩ :: post) =
      endOf (endOf base pre + 16 + s) post := fun o => endOf_append
  have hle := hr.le_brk
  have hbrk := hr.brk_lt
  have hpost : endOf base pre + 16 + s ≤ endOf (endOf base pre + 16 + s) post := le_endOf
  obtain ⟨h₁, hpre₁, hpost₁⟩ := setFree_list hb hr.list 1 none rfl
  rw [hend] at hle
  obtain ⟨pre', s', hpre, hblk, h₂, hpre₂, hpost₂⟩ := mergePrev_list hb h₁ (by rw [hend]; omega)
  -- the merged block ends where the freed one did
  have hend' : endOf base (pre' ++ ⟨s', none⟩ :: post) =
      endOf base (pre ++ ⟨s, none⟩ :: post) := by
    rcases hpre with ⟨rfl, rfl, -⟩ | ⟨t, rfl, rfl⟩
    · rfl
    · simp only [endOf_append, endOf]
      congr 1
      omega
  obtain ⟨post', s'', hpost', h₃, hpre₃, hpost₃⟩ :=
    mergeNext_list hb h₂ (by rw [hend', hend]; omega)
  have hstep : FreeStep base (pre ++ ⟨s, some r⟩ :: post) (endOf base pre + 16) _ := .mk hpre hpost'
  refine ⟨_, hstep, ?_⟩
  have hfree : free h (endOf base pre + 16) = ⟨mergeNext
      (mergePrev (Meta.setFree h.mem (endOf base pre) 1) (endOf base pre)).1 (endOf base pre'),
      h.allocEnd, h.brk⟩ := by
    simp only [free, NULL, sizeofMeta]
    rw [if_pos (by omega), sub32_eq (by omega) (by omega), Nat.add_sub_cancel, hblk]
  rw [hfree]
  refine Represents.of_list h₃ ?_ (by rw [hstep.endOf_eq, hend]; exact hle) hbrk (.around ?_ ?_)
  · rcases hr.allocEnd with h | ⟨-, h, -⟩
    · exact .inl (h.trans hstep.endOf_eq.symm)
    · exact absurd h (by simp)
  · -- the blocks before are among those before the freed block
    have hpre' : SameInUse h.mem (Meta.setFree h.mem (endOf base pre) 1) base pre' := by
      rcases hpre with ⟨rfl, -⟩ | ⟨t, rfl, -⟩
      · exact hpre₁
      · exact hpre₁.left
    exact (hpre'.trans hpre₂).trans hpre₃
  · have hpost₂ := hpost₁.trans hpost₂
    have hend₂ : endOf base pre' + 16 + s' = endOf base pre + 16 + s := by
      rcases hpre with ⟨rfl, rfl, -⟩ | ⟨t, rfl, rfl⟩
      · rfl
      · simp only [endOf_append, endOf]
        omega
    refine SameInUse.trans ?_ hpost₃
    rcases hpost' with ⟨rfl, rfl, -⟩ | ⟨t, rfl, rfl⟩
    · exact hend₂ ▸ hpost₂
    · rw [show endOf base pre' + 16 + (s' + 16 + t) = endOf base pre + 16 + s + 16 + t by omega]
      exact fun x hx => hpost₂ x (inUse_free.2 hx)

end Beryllium

import Beryllium.Heap.Chain

/-!
# What the list surgery does to the blocks

One lemma for each piece of `malloc` and `free`: the first-fit search finds the first
block that fits (`firstFit_spec`); taking a block splits it (`takeBlock_list`); a new
block goes to the end of the list (`appendBlock_list`); a freed block merges with its
neighbours (`mergePrev_list`, `mergeNext_list`).
-/

namespace Beryllium

open Machine

variable {st : Sentinels} {m m' : Mem} {p q a base s n req fuel : ℕ} {b : Block}
  {pre post bs : List Block}

/-! ## First fit -/

/-- The block can serve a request of `n` bytes. -/
def Block.Fits (n : ℕ) (b : Block) : Prop := b.owner = none ∧ n ≤ b.size

/-- The search from `p` on finds the first block that fits, or reaches the tail. -/
theorem firstFit_spec (h : Chain st m p a bs) (ht : st.tail + 16 ≤ a) (hfuel : bs.length < fuel) :
    (∃ pre b post, bs = pre ++ b :: post ∧ (∀ c ∈ pre, ¬c.Fits n) ∧ b.Fits n ∧
      firstFit st m n fuel p = some (some (endOf a pre))) ∨
    ((∀ c ∈ bs, ¬c.Fits n) ∧ firstFit st m n fuel p = some none) := by
  induction bs generalizing p a fuel with
  | nil =>
    obtain ⟨fuel, rfl⟩ := Nat.exists_eq_succ_of_ne_zero (by omega : fuel ≠ 0)
    refine .inr ⟨fun _ h => absurd h List.not_mem_nil, ?_⟩
    rw [firstFit, if_pos (chain_nil.1 h).1]
  | cons b bs ih =>
    obtain ⟨fuel, rfl⟩ := Nat.exists_eq_succ_of_ne_zero (by omega : fuel ≠ 0)
    obtain ⟨h₁, -, h₃, h₄, hr⟩ := chain_cons.1 h
    have hstep : firstFit st m n (fuel + 1) p =
        if Meta.free m a ≠ 0 ∧ n ≤ Meta.size m a then some (some a)
        else firstFit st m n fuel a := by
      rw [firstFit, h₁, if_neg (by omega)]
    have hfits : (Meta.free m a ≠ 0 ∧ n ≤ Meta.size m a) ↔ b.Fits n := by
      rw [h₃, h₄, Block.Fits, ne_eq, Block.flag_eq_zero, not_not]
    rw [hstep]
    by_cases hf : b.Fits n
    · rw [if_pos (hfits.2 hf)]
      exact .inl ⟨[], b, bs, rfl, fun _ h => absurd h List.not_mem_nil, hf, rfl⟩
    · rw [if_neg (hfits.not.2 hf)]
      rcases ih hr (by omega) (by simpa using hfuel) with ⟨pre, c, post, rfl, hpre, hc,
        he⟩ | ⟨hn, he⟩
      · exact .inl ⟨b :: pre, c, post, rfl, List.forall_mem_cons.2 ⟨hf, hpre⟩, hc, he⟩
      · exact .inr ⟨List.forall_mem_cons.2 ⟨hf, hn⟩, he⟩

/-! ## Taking a block -/

/-- A free block of `s` bytes taken for a request of `req` bytes, rounded up to `n`. -/
def carve (s n req : ℕ) : List Block :=
  if 20 ≤ s - n then [⟨n, some req⟩, ⟨s - n - 16, none⟩] else [⟨s, some req⟩]

theorem endOf_carve {a : ℕ} (bs : List Block) (hn : n ≤ s) : endOf a (carve s n req ++ bs) =
    endOf (a + 16 + s) bs := by
  rw [carve]
  split_ifs with h
  · simp only [List.cons_append, List.nil_append, endOf]
    congr 1
    omega
  · rfl

/-- The memory after taking a block that is not split. -/
theorem takeBlock_of_lt (hn : n ≤ s) (hs : s < 4294967296) (hsize : Meta.size m a = s)
    (h : s - n < 20) : takeBlock m a n = Meta.setFree m a 0 := by
  have : Meta.size (Meta.setFree m a 0) a = s := by
    rw [← hsize]
    exact Mem.load32_store8_of_disjoint (by omega)
  rw [takeBlock]
  simp only [this]
  exact if_neg (show ¬4 + 16 ≤ sub32 s n by rw [sub32_eq hn hs]; omega)

/-- The memory after splitting the block at `a` before `y`, which is in use. -/
def splitAt (m : Mem) (a y s n : ℕ) : Mem :=
  let m := Meta.setFree m a 0
  let m := Meta.setSize m (a + 16 + n) (s - n - 16)
  let m := Meta.setSize m a n
  let m := Meta.setPrev m y (a + 16 + n)
  let m := Meta.setPrev m (a + 16 + n) a
  let m := Meta.setNext m (a + 16 + n) y
  let m := Meta.setNext m a (a + 16 + n)
  Meta.setFree m (a + 16 + n) 1

theorem takeBlock_of_le {y : ℕ} (hn : n ≤ s) (hs : a + 16 + s < 4294967296)
    (hsize : Meta.size m a = s) (hnext : Meta.next m a = y) (hfree : Meta.free m y = 0)
    (hy : y + 16 ≤ a ∨ y = a + 16 + s) (h : 20 ≤ s - n) :
    takeBlock m a n = splitAt m a y s n := by
  have hylt : y < 4294967296 := by omega
  simp only [Meta.size, Meta.next, Meta.free] at hsize hnext hfree
  simp (disch := omega) only [takeBlock, splitAt, sizeofMeta, sizeofSizeT, Meta.size, Meta.free,
    Meta.next, Meta.setSize, Meta.setFree, Meta.setPrev, Meta.setNext, add32_eq, sub32_eq,
    Mem.load32_store32_of_lt, Mem.load32_store32_of_disjoint, Mem.load32_store8_of_disjoint,
    Mem.load8_store32_of_disjoint, Mem.load8_store8_of_ne, hsize, hnext, hfree]
  rw [if_pos h, if_neg (not_not.2 rfl), show s - (s - n - 16 + 16) = n by omega,
    show a + n + 16 = a + 16 + n by omega]

/-- Splitting changes the header of the block, the new header and the back link of `y`. -/
theorem splitAt_apply {y x : ℕ} (h₁ : x < a ∨ a + 16 ≤ x)
    (h₂ : x < a + 16 + n ∨ a + n + 32 ≤ x) (h₃ : x < y + 8 ∨ y + 12 ≤ x) :
    splitAt m a y s n x = m x := by
  simp (disch := omega) only [splitAt, Meta.setSize, Meta.setFree, Meta.setPrev, Meta.setNext,
    Mem.store32_apply_of_disjoint, Mem.store8_apply_of_ne]

/-- The fields of the two headers after splitting, and the back link of `y`. -/
theorem splitAt_fields {y : ℕ} (hy : y + 16 ≤ a ∨ y = a + 16 + s) (hn : n + 20 ≤ s)
    (hs : a + 16 + s < 4294967296) :
    Meta.size (splitAt m a y s n) a = n ∧ Meta.free (splitAt m a y s n) a = 0 ∧
    Meta.prev (splitAt m a y s n) a = Meta.prev m a ∧
    Meta.next (splitAt m a y s n) a = a + 16 + n ∧
    Meta.size (splitAt m a y s n) (a + 16 + n) = s - n - 16 ∧
    Meta.free (splitAt m a y s n) (a + 16 + n) = 1 ∧
    Meta.prev (splitAt m a y s n) (a + 16 + n) = a ∧
    Meta.next (splitAt m a y s n) (a + 16 + n) = y ∧
    Meta.prev (splitAt m a y s n) y = a + 16 + n := by
  simp (disch := omega) only [splitAt, Meta.size, Meta.free, Meta.prev, Meta.next, Meta.setSize,
    Meta.setFree, Meta.setPrev, Meta.setNext, Mem.load32_store32_of_lt,
    Mem.load32_store32_of_disjoint, Mem.load32_store8_of_disjoint, Mem.load8_store32_of_disjoint,
    Mem.load8_store8_of_ne, Mem.load8_store8_of_lt, and_self]

/-- Setting the flag of a block in the middle of the list only changes its owner. -/
theorem setFree_list {o : Option ℕ} (hb : st.Below base)
    (h : BlockList st m base (pre ++ ⟨s, o⟩ :: post))
    (v : ℕ) (o' : Option ℕ) (hv : v = Block.flag ⟨s, o'⟩) :
    BlockList st (Meta.setFree m (endOf base pre) v) base (pre ++ ⟨s, o'⟩ :: post) ∧
      SameInUse m (Meta.setFree m (endOf base pre) v) base pre ∧
      SameInUse m (Meta.setFree m (endOf base pre) v) (endOf base pre + 16 + s) post := by
  obtain ⟨hpre, hc⟩ := chain_append.1 h.chain
  obtain ⟨h₁, h₂, h₃, -, hr⟩ := chain_cons.1 hc
  have hr : Chain st m (endOf base pre) (endOf base pre + 16 + s) post := hr
  have hba : base ≤ endOf base pre := le_endOf
  have hqa := lastOf_head hb pre
  have hy := hr.next_eq
  have hlt : v < 256 := by
    rw [hv, Block.flag]
    split_ifs <;> omega
  obtain ⟨hb₁, hb₂, hb₃⟩ := hb
  refine BlockList.splice [⟨s, o'⟩] ⟨hb₁, hb₂, hb₃⟩ h hpre hr rfl ⟨?_, ?_, ?_, ?_, trivial⟩
    ?_ ?_ fun x hx hx' _ => Mem.store8_apply_of_ne (by omega)
  · exact (Mem.load32_store8_of_disjoint (by omega)).trans h₁
  · exact (Mem.load32_store8_of_disjoint (by omega)).trans h₂
  · exact (Mem.load32_store8_of_disjoint (by omega)).trans h₃
  · rw [← hv]
    exact Mem.load8_store8_of_lt hlt
  · exact Mem.load32_store8_of_disjoint (by simp only [lastOf]; omega)
  · exact (Mem.load32_store8_of_disjoint (by omega)).trans hr.prev_next

/-- Taking a free block for a request: it is split if the rest can hold a block. The payloads
    in use, all before or after it, are the same. -/
theorem takeBlock_list (hb : st.Below base) (h : BlockList st m base (pre ++ ⟨s, none⟩ :: post))
    (hend : endOf base (pre ++ ⟨s, none⟩ :: post) < 4294967296) (hn : n ≤ s)
    (hpost : ∀ b ∈ post.head?, b.owner ≠ none) :
    BlockList st (takeBlock m (endOf base pre) n) base (pre ++ (carve s n req ++ post)) ∧
      SameInUse m (takeBlock m (endOf base pre) n) base pre ∧
      SameInUse m (takeBlock m (endOf base pre) n) (endOf base pre + 16 + s) post := by
  obtain ⟨hpre, hc⟩ := chain_append.1 h.chain
  obtain ⟨h₁, h₂, h₃, -, hr⟩ := chain_cons.1 hc
  have hr : Chain st m (endOf base pre) (endOf base pre + 16 + s) post := hr
  have hend' : endOf base pre + 16 + s < 4294967296 := by
    rw [endOf_append] at hend
    exact lt_of_le_of_lt le_endOf hend
  have hba : base ≤ endOf base pre := le_endOf
  have hqa := lastOf_head hb pre
  have hy := hr.next_eq
  have hfree := hr.free_next h.tail_free hpost
  obtain ⟨hb₁, hb₂, hb₃⟩ := hb
  by_cases hsplit : 20 ≤ s - n
  · rw [carve, if_pos hsplit, takeBlock_of_le hn hend' h₃ rfl hfree (by omega) hsplit]
    obtain ⟨f₁, f₂, f₃, f₄, f₅, f₆, f₇, f₈, f₉⟩ :=
      splitAt_fields (m := m) (a := endOf base pre) (y := Meta.next m (endOf base pre)) (s := s)
        (n := n) (by omega) (by omega) hend'
    refine BlockList.splice _ ⟨hb₁, hb₂, hb₃⟩ h hpre hr ?_
      ⟨?_, ?_, f₁, f₂, f₄, f₇, f₅, f₆, trivial⟩ f₈ f₉
      fun x hx hx' _ => splitAt_apply (by omega) (by omega) hx'
    · simp only [endOf]
      omega
    · refine Eq.trans (Mem.load32_congr fun x _ _ => ?_) h₁
      exact splitAt_apply (by omega) (by omega) (by omega)
    · exact f₃.trans h₂
  · rw [carve, if_neg hsplit, takeBlock_of_lt hn (by omega) h₃ (by omega)]
    exact setFree_list ⟨hb₁, hb₂, hb₃⟩ h 0 (some req) rfl

/-! ## A new block -/

/-- The memory after linking in a new block at `a` between `q` and the tail. -/
def linkLast (st : Sentinels) (m : Mem) (q a n : ℕ) : Mem :=
  Meta.setSize (Meta.setFree (Meta.setPrev (Meta.setNext (Meta.setPrev (Meta.setNext m a st.tail)
    a q) q a) st.tail a) a 0) a n

theorem appendBlock_eq (hb : st.tail + 16 ≤ a) (hq : q + 16 ≤ a) (ha : a < 4294967296)
    (hp : Meta.prev m st.tail = q) : appendBlock st m a n = linkLast st m q a n := by
  simp only [Meta.prev] at hp
  simp (disch := omega) only [appendBlock, linkLast, Meta.setSize, Meta.setFree, Meta.setPrev,
    Meta.setNext, Meta.prev, Mem.load32_store32_of_disjoint, Mem.load32_store32_of_lt, hp]

theorem linkLast_apply {x : ℕ} (h₁ : x < a ∨ a + 16 ≤ x) (h₂ : x < q + 12 ∨ q + 16 ≤ x)
    (h₃ : x < st.tail + 8 ∨ st.tail + 12 ≤ x) : linkLast st m q a n x = m x := by
  simp (disch := omega) only [linkLast, Meta.setSize, Meta.setFree, Meta.setPrev, Meta.setNext,
    Mem.store32_apply_of_disjoint, Mem.store8_apply_of_ne]

theorem linkLast_fields (m : Mem) (hb : st.tail + 16 ≤ a) (hq : q + 16 ≤ a)
    (hqt : q + 16 ≤ st.tail ∨ st.tail + 16 ≤ q) (ha : a < 4294967296) (hn : n < 4294967296) :
    Meta.next (linkLast st m q a n) q = a ∧ Meta.prev (linkLast st m q a n) a = q ∧
    Meta.size (linkLast st m q a n) a = n ∧ Meta.free (linkLast st m q a n) a = 0 ∧
    Meta.next (linkLast st m q a n) a = st.tail ∧ Meta.prev (linkLast st m q a n) st.tail = a := by
  simp (disch := omega) only [linkLast, Meta.size, Meta.free, Meta.prev, Meta.next, Meta.setSize,
    Meta.setFree, Meta.setPrev, Meta.setNext, Mem.load32_store32_of_lt,
    Mem.load32_store32_of_disjoint, Mem.load32_store8_of_disjoint, Mem.load8_store32_of_disjoint,
    Mem.load8_store8_of_lt, and_self]

/-- A new block in use, after the last one. -/
theorem appendBlock_list (hb : st.Below base) (h : BlockList st m base bs)
    (hend : endOf base bs + 16 + n < 4294967296) :
    BlockList st (appendBlock st m (endOf base bs) n) base (bs ++ [⟨n, some req⟩]) ∧
      SameInUse m (appendBlock st m (endOf base bs) n) base bs := by
  have hba : base ≤ endOf base bs := le_endOf
  have hqa := lastOf_head hb bs
  have hlast : Chain st m (lastOf st.head base bs) (endOf base bs + 16 + n) [] :=
    chain_nil.2 ⟨h.chain.next_last, h.chain.prev_tail⟩
  have hnext := h.chain.next_last
  have hprev := h.chain.prev_tail
  obtain ⟨hb₁, hb₂, hb₃⟩ := hb
  rw [appendBlock_eq (by omega) hqa.1 (by omega) hprev]
  obtain ⟨f₁, f₂, f₃, f₄, f₅, f₆⟩ :=
    linkLast_fields m (show st.tail + 16 ≤ endOf base bs by omega) hqa.1
    (by omega) (by omega) (show n < 4294967296 by omega)
  refine (BlockList.splice [⟨n, some req⟩] ⟨hb₁, hb₂, hb₃⟩ h h.chain.seg hlast rfl
    ⟨f₁, f₂, f₃, f₄, trivial⟩ (f₅.trans hnext.symm) ?_ fun x hx hx' hxq => ?_).imp_right And.left
  · rw [hnext]
    exact f₆
  · rw [hnext] at hx'
    simp only [endOf] at hx
    exact linkLast_apply (by omega) hxq hx'

/-! ## Merging -/

/-- `m'` is `m` after the header between `q` and `y` was taken out of the list, and the
    size of `q` was set to `s`. -/
structure Unlinked (m m' : Mem) (q y s : ℕ) : Prop where
  size : Meta.size m' q = s
  next : Meta.next m' q = y
  prev : Meta.prev m' y = q
  frame : ∀ x, x < q ∨ q + 4 ≤ x → x < q + 12 ∨ q + 16 ≤ x → x < y + 8 ∨ y + 12 ≤ x → m' x = m x

theorem unlinked_prev {y t : ℕ} (hqa : q + 16 ≤ a) (hy : y + 16 ≤ q ∨ a + 16 ≤ y)
    (hs : t + 16 + s < 4294967296) (hylt : y < 4294967296) (hqlt : q < 4294967296)
    (hprev : Meta.prev m a = q) (hnext : Meta.next m a = y) (hsize : Meta.size m a = s)
    (hsize' : Meta.size m q = t) (hfree : Meta.free m q ≠ 0) :
    (mergePrev m a).2 = q ∧ Unlinked m (mergePrev m a).1 q y (t + 16 + s) := by
  simp only [Meta.prev, Meta.next, Meta.size, Meta.free] at hprev hnext hsize hsize' hfree
  have he : mergePrev m a = (Meta.setSize (Meta.setNext (Meta.setPrev m y q) q y) q
      (t + (s + 16)), q) := by
    simp (disch := omega) only [mergePrev, sizeofMeta, Meta.size, Meta.free, Meta.next, Meta.prev,
      Meta.setSize, Meta.setPrev, Meta.setNext, add32_eq, Mem.load32_store32_of_disjoint,
      hprev, hnext, hsize, hsize']
    exact if_pos hfree
  rw [he]
  refine ⟨rfl, ?_, ?_, ?_, fun x h₁ h₂ h₃ => ?_⟩
  · simp (disch := omega) only [Meta.size, Meta.setSize, Mem.load32_store32_of_lt]
    omega
  all_goals
    simp (disch := omega) only [Meta.next, Meta.prev, Meta.setSize, Meta.setPrev, Meta.setNext,
      Mem.load32_store32_of_lt, Mem.load32_store32_of_disjoint, Mem.store32_apply_of_disjoint]

theorem unlinked_next {y t : ℕ} (hqa : q + 16 ≤ a) (hy : y + 16 ≤ q ∨ a + 16 ≤ y)
    (hs : t + 16 + s < 4294967296) (hylt : y < 4294967296) (hqlt : q < 4294967296)
    (hnext' : Meta.next m q = a) (hnext : Meta.next m a = y) (hsize : Meta.size m a = s)
    (hsize' : Meta.size m q = t) (hfree : Meta.free m a ≠ 0) :
    Unlinked m (mergeNext m q) q y (t + 16 + s) := by
  simp only [Meta.next, Meta.size, Meta.free] at hnext' hnext hsize hsize' hfree
  have he : mergeNext m q = Meta.setNext (Meta.setSize (Meta.setPrev m y q) q (t + (s + 16)))
      q y := by
    simp (disch := omega) only [mergeNext, sizeofMeta, Meta.size, Meta.free, Meta.next,
      Meta.setSize,
      Meta.setPrev, Meta.setNext, add32_eq, Mem.load32_store32_of_disjoint, hnext', hnext, hsize,
      hsize']
    exact if_pos hfree
  rw [he]
  refine ⟨?_, ?_, ?_, fun x h₁ h₂ h₃ => ?_⟩
  · simp (disch := omega) only [Meta.size, Meta.setSize, Meta.setNext,
      Mem.load32_store32_of_disjoint, Mem.load32_store32_of_lt]
    omega
  all_goals
    simp (disch := omega) only [Meta.next, Meta.prev, Meta.setSize, Meta.setPrev, Meta.setNext,
      Mem.load32_store32_of_lt, Mem.load32_store32_of_disjoint, Mem.store32_apply_of_disjoint]

/-- Taking out the header between two neighbouring free blocks merges them. -/
theorem Unlinked.list {t : ℕ} (hb : st.Below base)
    (h : BlockList st m base (pre ++ ⟨t, none⟩ :: ⟨s, none⟩ :: post))
    (hu : Unlinked m m' (endOf base pre) (Meta.next m (endOf base pre + 16 + t)) (t + 16 + s)) :
    BlockList st m' base (pre ++ ⟨t + 16 + s, none⟩ :: post) ∧ SameInUse m m' base pre ∧
      SameInUse m m' (endOf base pre + 16 + t + 16 + s) post := by
  obtain ⟨hpre, hc⟩ := chain_append.1 h.chain
  obtain ⟨h₁, h₂, -, h₄, hr⟩ := chain_cons.1 hc
  obtain ⟨-, -, -, -, hr⟩ := chain_cons.1 hr
  have hr : Chain st m (endOf base pre + 16 + t) (endOf base pre + 16 + t + 16 + s) post := hr
  have hba : base ≤ endOf base pre := le_endOf
  have hqa := lastOf_head hb pre
  have hy := hr.next_eq
  obtain ⟨hb₁, hb₂, hb₃⟩ := hb
  refine BlockList.splice [⟨t + 16 + s, none⟩] ⟨hb₁, hb₂, hb₃⟩ h hpre hr
    (by simp only [endOf]; omega) ⟨?_, ?_, hu.size, ?_, trivial⟩ hu.next hu.prev
    fun x hx hx' _ => hu.frame x (by omega) (by omega) hx'
  · refine Eq.trans (Mem.load32_congr fun x _ _ => ?_) h₁
    exact hu.frame x (by omega) (by omega) (by omega)
  · refine Eq.trans (Mem.load32_congr fun x _ _ => ?_) h₂
    exact hu.frame x (by omega) (by omega) (by omega)
  · refine Eq.trans (Mem.load8_congr ?_) h₄
    exact hu.frame _ (by omega) (by omega) (by omega)

/-- A free block is absorbed by the one before it, if that is free. -/
theorem mergePrev_list (hb : st.Below base) (h : BlockList st m base (pre ++ ⟨s, none⟩ :: post))
    (hend : endOf base (pre ++ ⟨s, none⟩ :: post) < 4294967296) :
    ∃ pre' s', (pre' = pre ∧ s' = s ∧ (∀ b ∈ pre.getLast?, b.owner ≠ none) ∨
        ∃ t, pre = pre' ++ [⟨t, none⟩] ∧ s' = t + 16 + s) ∧
      (mergePrev m (endOf base pre)).2 = endOf base pre' ∧
      BlockList st (mergePrev m (endOf base pre)).1 base (pre' ++ ⟨s', none⟩ :: post) ∧
      SameInUse m (mergePrev m (endOf base pre)).1 base pre' ∧
      SameInUse m (mergePrev m (endOf base pre)).1 (endOf base pre + 16 + s) post := by
  rcases List.eq_nil_or_concat pre with rfl | ⟨pre, c, rfl⟩
  · -- the header before the first block is `head`, which is not free
    have he : mergePrev m base = (m, base) := by
      rw [mergePrev, if_neg]
      rw [(chain_cons.1 h.chain).2.1]
      exact not_not.2 h.head_free
    rw [endOf, he]
    exact ⟨[], s, .inl ⟨rfl, rfl, by simp⟩, rfl, h, .refl _ _ _, .refl _ _ _⟩
  rw [List.concat_eq_append, List.append_assoc, List.singleton_append] at *
  obtain ⟨hpre, hc⟩ := chain_append.1 h.chain
  obtain ⟨-, -, h₃, h₄, hr⟩ := chain_cons.1 hc
  obtain ⟨k₁, k₂, k₃, -, hr⟩ := chain_cons.1 hr
  have ha : endOf base (pre ++ [c]) = endOf base pre + 16 + c.size := endOf_append
  have hr : Chain st m (endOf base (pre ++ [c])) (endOf base (pre ++ [c]) + 16 + s) post := ha ▸ hr
  have hend' : endOf base (pre ++ [c]) + 16 + s < 4294967296 := by
    rw [endOf_append, endOf, endOf] at hend
    exact lt_of_le_of_lt (ha ▸ le_endOf) hend
  obtain ⟨t, _ | r⟩ := c
  · -- merged into the block before
    have hy := hr.next_eq
    have hba : base ≤ endOf base pre := le_endOf
    have htail := hb.tail
    simp only at ha k₂ k₃ h₃
    obtain ⟨he, hu⟩ := unlinked_prev (m := m) (by omega) (by omega) (by omega) (by omega) (by omega)
      (ha ▸ k₂) rfl (ha ▸ k₃) h₃ (by rw [h₄]; exact one_ne_zero)
    refine ⟨pre, t + 16 + s, .inr ⟨t, rfl, rfl⟩, he, ?_⟩
    rw [ha]
    exact Unlinked.list hb h (ha ▸ hu)
  · -- the block before is in use
    have he : mergePrev m (endOf base (pre ++ [⟨t, some r⟩])) =
        (m, endOf base (pre ++ [⟨t, some r⟩])) := by
      rw [mergePrev, if_neg]
      rw [ha, k₂, h₄]
      exact not_not.2 rfl
    rw [he]
    exact ⟨_, s, .inl ⟨rfl, rfl, by simp⟩,
      rfl, by rwa [List.append_assoc], .refl _ _ _, .refl _ _ _⟩

/-- A free block absorbs the one after it, if that is free. -/
theorem mergeNext_list (hb : st.Below base) (h : BlockList st m base (pre ++ ⟨s, none⟩ :: post))
    (hend : endOf base (pre ++ ⟨s, none⟩ :: post) < 4294967296) :
    ∃ post' s', (post' = post ∧ s' = s ∧ (∀ b ∈ post.head?, b.owner ≠ none) ∨
        ∃ t, post = ⟨t, none⟩ :: post' ∧ s' = s + 16 + t) ∧
      BlockList st (mergeNext m (endOf base pre)) base (pre ++ ⟨s', none⟩ :: post') ∧
      SameInUse m (mergeNext m (endOf base pre)) base pre ∧
      SameInUse m (mergeNext m (endOf base pre)) (endOf base pre + 16 + s') post' := by
  obtain ⟨hpre, hc⟩ := chain_append.1 h.chain
  obtain ⟨-, -, h₃, -, hr⟩ := chain_cons.1 hc
  have hr : Chain st m (endOf base pre) (endOf base pre + 16 + s) post := hr
  by_cases hpost : ∀ b ∈ post.head?, b.owner ≠ none
  · have he : mergeNext m (endOf base pre) = m := by
      rw [mergeNext, if_neg]
      exact not_not.2 (hr.free_next h.tail_free hpost)
    rw [he]
    exact ⟨post, s, .inl ⟨rfl, rfl, hpost⟩, h, .refl _ _ _, .refl _ _ _⟩
  · obtain _ | ⟨⟨t, _ | r⟩, post⟩ := post
    · exact absurd (by simp) hpost
    · obtain ⟨k₁, -, k₃, k₄, hr⟩ := chain_cons.1 hr
      have hr : Chain st m (endOf base pre + 16 + s) (endOf base pre + 16 + s + 16 + t) post := hr
      have hend' : endOf base pre + 16 + s + 16 + t < 4294967296 := by
        rw [endOf_append, endOf, endOf] at hend
        exact lt_of_le_of_lt le_endOf hend
      have hy := hr.next_eq
      have hba : base ≤ endOf base pre := le_endOf
      have htail := hb.tail
      have hu := unlinked_next (m := m) (q := endOf base pre) (s := t) (t := s) (by omega)
        (by omega) (by omega) (by omega) (by omega) k₁ rfl k₃ h₃ (by rw [k₄]; exact one_ne_zero)
      obtain ⟨hlist, hsame, hsame'⟩ := Unlinked.list hb h hu
      refine ⟨post, s + 16 + t, .inr ⟨t, rfl, rfl⟩, hlist, hsame, ?_⟩
      rwa [show endOf base pre + 16 + (s + 16 + t) = endOf base pre + 16 + s + 16 + t by omega]
    · exact absurd (by simp) hpost

end Beryllium

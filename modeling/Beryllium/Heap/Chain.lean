import Beryllium.Heap.Block

/-!
# The block list in memory

`Chain st m p a bs`: the list from the header `p` on consists of the blocks `bs`, the
first of which is at `a`, and ends at the static header `tail`. A chain is a segment
and the chain after it (`chain_append`), and a chain can be linked to another header
by changing the link out of that header and the back link of the first block
(`Chain.relink`). These two facts carry the list surgery of `malloc` and `free`.
-/

namespace Beryllium

open Machine

/-- The static headers lie outside the heap, which starts at `base`, and apart. -/
structure Sentinels.Below (st : Sentinels) (base : ℕ) : Prop where
  head : st.head + 16 ≤ base
  tail : st.tail + 16 ≤ base
  apart : st.head + 16 ≤ st.tail ∨ st.tail + 16 ≤ st.head

/-- The blocks `bs` from `a` on, linked from the header `p` and up to the tail. -/
structure Chain (st : Sentinels) (m : Mem) (p a : ℕ) (bs : List Block) : Prop where
  seg : Seg m p a bs
  next_last : Meta.next m (lastOf p a bs) = st.tail
  prev_tail : Meta.prev m st.tail = lastOf p a bs

variable {st : Sentinels} {m m' : Mem} {p q a : ℕ} {b : Block} {xs ys bs : List Block}

theorem chain_nil : Chain st m p a [] ↔ Meta.next m p = st.tail ∧ Meta.prev m st.tail = p :=
  ⟨fun h => ⟨h.next_last, h.prev_tail⟩, fun h => ⟨trivial, h.1, h.2⟩⟩

theorem chain_append : Chain st m p a (xs ++ ys) ↔
    Seg m p a xs ∧ Chain st m (lastOf p a xs) (endOf a xs) ys := by
  constructor
  · rintro ⟨hs, hn, hp⟩
    rw [lastOf_append] at hn hp
    exact ⟨(seg_append.1 hs).1, (seg_append.1 hs).2, hn, hp⟩
  · rintro ⟨hx, hs, hn, hp⟩
    exact ⟨seg_append.2 ⟨hx, hs⟩, by rwa [lastOf_append], by rwa [lastOf_append]⟩

theorem chain_cons : Chain st m p a (b :: bs) ↔
    Meta.next m p = a ∧ Meta.prev m a = p ∧ Meta.size m a = b.size ∧ Meta.free m a = b.flag ∧
      Chain st m a (a + 16 + b.size) bs := by
  constructor
  · rintro ⟨⟨h₁, h₂, h₃, h₄, hs⟩, hn, hp⟩
    exact ⟨h₁, h₂, h₃, h₄, hs, hn, hp⟩
  · rintro ⟨h₁, h₂, h₃, h₄, hs, hn, hp⟩
    exact ⟨⟨h₁, h₂, h₃, h₄, hs⟩, hn, hp⟩

/-- The header after `p`: the first block, or the tail. -/
theorem Chain.next_eq (h : Chain st m p a bs) :
    (bs = [] ∧ Meta.next m p = st.tail) ∨ (bs ≠ [] ∧ Meta.next m p = a) := by
  cases bs with
  | nil => exact .inl ⟨rfl, (chain_nil.1 h).1⟩
  | cons b bs => exact .inr ⟨List.cons_ne_nil _ _, (chain_cons.1 h).1⟩

/-- The header after `p` points back to `p`. -/
theorem Chain.prev_next (h : Chain st m p a bs) : Meta.prev m (Meta.next m p) = p := by
  cases bs with
  | nil =>
    rw [chain_nil] at h
    rw [h.1, h.2]
  | cons b bs =>
    rw [chain_cons] at h
    rw [h.1, h.2.1]

/-- The header after `p` is in use, if the first block is. -/
theorem Chain.free_next (h : Chain st m p a bs) (ht : Meta.free m st.tail = 0)
    (hbs : ∀ b ∈ bs.head?, b.owner ≠ none) : Meta.free m (Meta.next m p) = 0 := by
  cases bs with
  | nil => rw [(chain_nil.1 h).1, ht]
  | cons b bs =>
    rw [chain_cons] at h
    rw [h.1, h.2.2.2.1]
    exact Block.flag_eq_zero.2 (hbs b rfl)

/-- Linking a chain to another header: `q'` must point to the first header of the chain,
    and that header back to `q'`. Nothing else of the chain may change. -/
theorem Chain.relink {q' : ℕ} (h : Chain st m q a bs) (htail : st.tail + 16 ≤ a)
    (hnext : Meta.next m' q' = Meta.next m q) (hprev : Meta.prev m' (Meta.next m q) = q')
    (hm : ∀ x, (a ≤ x ∧ x < endOf a bs) ∨ (st.tail ≤ x ∧ x < st.tail + 16) →
      x < Meta.next m q + 8 ∨ Meta.next m q + 12 ≤ x → m' x = m x) : Chain st m' q' a bs := by
  cases bs with
  | nil =>
    obtain ⟨hn, hp⟩ := chain_nil.1 h
    rw [hn] at hnext hprev
    exact chain_nil.2 ⟨hnext, hprev⟩
  | cons b bs =>
    obtain ⟨h₁, h₂, h₃, h₄, hs, hn, hp⟩ := chain_cons.1 h
    rw [h₁] at hnext hprev hm
    have hend : a + 16 + b.size ≤ endOf a (b :: bs) := le_endOf
    -- the fields of the first block but for `prev`
    have hsize : Meta.size m' a = Meta.size m a :=
      Mem.load32_congr fun x _ _ => hm x (by omega) (by omega)
    have hfree : Meta.free m' a = Meta.free m a :=
      Mem.load8_congr (hm _ (by omega) (by omega))
    have hnext' : Meta.next m' a = Meta.next m a :=
      Mem.load32_congr fun x _ _ => hm x (by omega) (by omega)
    -- the rest of the chain
    have hseg : Seg m' a (a + 16 + b.size) bs :=
      hs.frame hnext' fun x hx hx' => hm x (.inl ⟨by omega, hx'⟩) (by omega)
    have hlast : Meta.next m' (lastOf a (a + 16 + b.size) bs) = st.tail := by
      rw [← hn]
      rcases lastOf_eq_or a (a + 16 + b.size) bs with ⟨rfl, h⟩ | ⟨hl, hl'⟩
      · exact h ▸ hnext'
      · have : endOf a (b :: bs) = endOf (a + 16 + b.size) bs := rfl
        exact Mem.load32_congr fun x _ _ => hm x (.inl (by omega)) (by omega)
    have htail' : Meta.prev m' st.tail = Meta.prev m st.tail :=
      Mem.load32_congr fun x _ _ => hm x (.inr (by omega)) (by omega)
    exact chain_cons.2 ⟨hnext, hprev, hsize.trans h₃, hfree.trans h₄, hseg, hlast, htail'.trans hp⟩

/-- The header before the block at `endOf base pre`: the static `head`, or a block's. -/
theorem lastOf_head {base : ℕ} (hb : st.Below base) (pre : List Block) :
    lastOf st.head base pre + 16 ≤ endOf base pre ∧
    (lastOf st.head base pre = st.head ∨ base ≤ lastOf st.head base pre) := by
  have := hb.head
  rcases lastOf_eq_or st.head base pre with ⟨rfl, h⟩ | ⟨h, h'⟩
  · exact ⟨by rw [h]; exact this, .inl h⟩
  · exact ⟨h', .inr h⟩

/-- The list of all blocks: a chain from `head` on. The static headers are never free. -/
structure BlockList (st : Sentinels) (m : Mem) (base : ℕ) (bs : List Block) : Prop where
  chain : Chain st m st.head base bs
  head_free : Meta.free m st.head = 0
  tail_free : Meta.free m st.tail = 0

/-- List surgery: between the blocks `pre` and `post`, whatever was there is replaced by
    the blocks `mid`, when they end where `post` starts, their last header takes over the
    link to `post`, and nothing changes in `pre` and `post` but the link out of `pre` and
    the back link of `post`. So the payloads in `pre` and `post` are the same, too. -/
theorem BlockList.splice {base e z : ℕ} {old pre post : List Block} (mid : List Block)
    (hb : st.Below base)
    (hold : BlockList st m base old) (hpre : Seg m st.head base pre) (hpost : Chain st m z e post)
    (hend : endOf (endOf base pre) mid = e)
    (hmid : Seg m' (lastOf st.head base pre) (endOf base pre) mid)
    (hnext : Meta.next m' (lastOf (lastOf st.head base pre) (endOf base pre) mid) = Meta.next m z)
    (hprev : Meta.prev m' (Meta.next m z) = lastOf (lastOf st.head base pre) (endOf base pre) mid)
    (hm : ∀ x, (st.head + 4 ≤ x ∧ x < st.head + 16) ∨ (base ≤ x ∧ x < endOf base pre) ∨
        (e ≤ x ∧ x < endOf e post) ∨ (st.tail ≤ x ∧ x < st.tail + 16) →
      x < Meta.next m z + 8 ∨ Meta.next m z + 12 ≤ x →
      x < lastOf st.head base pre + 12 ∨ lastOf st.head base pre + 16 ≤ x → m' x = m x) :
    BlockList st m' base (pre ++ (mid ++ post)) ∧ SameInUse m m' base pre ∧
    SameInUse m m' e post := by
  have hba : base ≤ endOf base pre := le_endOf
  have hae : endOf base pre ≤ e := hend ▸ le_endOf
  have hq := lastOf_head hb pre
  have hy := hpost.next_eq
  obtain ⟨hb₁, hb₂, hb₃⟩ := hb
  refine ⟨⟨chain_append.2 ⟨?_, chain_append.2 ⟨hmid, ?_⟩⟩, ?_, ?_⟩, fun x hx => ?_, fun x hx => ?_⟩
  · refine hpre.frame_last (fun hne => Mem.load32_congr fun x _ _ => hm x ?_ ?_ ?_)
      fun x _ _ hx => hm x ?_ ?_ hx
    · exact .inl (by omega)
    · omega
    · -- the link out of `head` is not the one out of the last block
      rcases lastOf_eq_or st.head base pre with ⟨h, -⟩ | h
      · exact absurd h hne
      · omega
    all_goals omega
  · rw [hend]
    refine hpost.relink (by omega) hnext hprev fun x hx hx' => hm x (by omega) hx' (by omega)
  · exact (Mem.load8_congr (hm _ (by omega) (by omega) (by omega))).trans hold.head_free
  · exact (Mem.load8_congr (hm _ (by omega) (by omega) (by omega))).trans hold.tail_free
  · have hbounds := hx.bounds
    refine hm x (.inr (.inl (by omega))) (by omega) ?_
    rcases lastOf_mem st.head base pre with h | h
    · omega
    · exact (hx.not_header h).imp_left fun hlt => by omega
  · have hbounds := hx.bounds
    exact hm x (.inr (.inr (.inl (by omega)))) (by omega) (by omega)

/-- The list does not depend on the bytes outside its headers. -/
theorem BlockList.frame {base : ℕ} (h : BlockList st m base bs)
    (hm : ∀ x, x = st.head ∨ x = st.tail ∨ x ∈ addrs base bs → ∀ i < 16, m' (x + i) = m (x + i)) :
    BlockList st m' base bs := by
  have hw : ∀ x, (∀ i < 16, m' (x + i) = m (x + i)) → Meta.next m' x = Meta.next m x ∧
      Meta.prev m' x = Meta.prev m x := fun x hx => by
    refine ⟨Mem.load32_congr fun y _ _ => ?_, Mem.load32_congr fun y _ _ => ?_⟩ <;>
      rw [← Nat.add_sub_of_le (show x ≤ y by omega)] <;> exact hx _ (by omega)
  have hhead := hm st.head (.inl rfl)
  have htail := hm st.tail (.inr (.inl rfl))
  refine ⟨⟨h.chain.seg.congr (hw _ hhead).1 fun x hx => hm x (.inr (.inr hx)), ?_, ?_⟩,
    (Mem.load8_congr (hhead 4 (by omega))).trans h.head_free,
    (Mem.load8_congr (htail 4 (by omega))).trans h.tail_free⟩
  · refine (hw _ (hm _ ?_)).1.trans h.chain.next_last
    rcases lastOf_mem st.head base bs with hl | hl
    · exact .inl hl
    · exact .inr (.inr hl)
  · exact (hw _ htail).2.trans h.chain.prev_tail

end Beryllium

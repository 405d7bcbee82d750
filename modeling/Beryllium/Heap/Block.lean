import Beryllium.Heap.Malloc

/-!
# Blocks

The abstract heap: a list of blocks in address order, each with its size and, if it
is in use, the size its owner requested. The blocks lie one after the other, header
(16 bytes) and payload, so that their addresses are determined by the address of the first
(`endOf`, `lastOf`, `ownerAt`).

`Seg m p a bs`: in the memory `m`, the blocks `bs` lie from `a` on, doubly linked
with each other and to the header `p` before them. Segments compose
(`seg_append`), and only depend on their headers and on the link out of `p`
(`Seg.congr`).
-/

namespace Beryllium

open Machine

/-- A block: its size, and the size requested by its owner if it is in use. -/
structure Block where
  size : ℕ
  owner : Option ℕ
  deriving DecidableEq

/-- The `free` field of a block. -/
def Block.flag (b : Block) : ℕ := if b.owner = none then 1 else 0

@[simp] theorem Block.flag_free (n : ℕ) : (⟨n, none⟩ : Block).flag = 1 := rfl

@[simp] theorem Block.flag_used (n r : ℕ) : (⟨n, some r⟩ : Block).flag = 0 := rfl

theorem Block.flag_eq_zero {b : Block} : b.flag = 0 ↔ b.owner ≠ none := by
  rw [flag]
  split_ifs with h <;> simp [h]

/-- The end of the blocks `bs`, the first of which is at `a`. -/
def endOf (a : ℕ) : List Block → ℕ
  | [] => a
  | b :: bs => endOf (a + 16 + b.size) bs

/-- The last header of the blocks `bs`, the first of which is at `a`, or `p` if there are none. -/
def lastOf (p a : ℕ) : List Block → ℕ
  | [] => p
  | b :: bs => lastOf a (a + 16 + b.size) bs

/-- The headers of the blocks `bs`, the first of which is at `a`. -/
def addrs (a : ℕ) : List Block → List ℕ
  | [] => []
  | b :: bs => a :: addrs (a + 16 + b.size) bs

/-- The size requested by the owner of the payload `ptr`, if it is one. -/
def ownerAt (a : ℕ) : List Block → ℕ → Option ℕ
  | [], _ => none
  | b :: bs, ptr => if ptr = a + 16 then b.owner
    else ownerAt (a + 16 + b.size) bs ptr

section

variable {a p : ℕ} {b : Block} {xs ys bs : List Block}

theorem endOf_append : endOf a (xs ++ ys) = endOf (endOf a xs) ys := by
  induction xs generalizing a with
  | nil => rfl
  | cons b xs ih => exact ih

theorem lastOf_append : lastOf p a (xs ++ ys) = lastOf (lastOf p a xs) (endOf a xs) ys := by
  induction xs generalizing p a with
  | nil => rfl
  | cons b xs ih => exact ih

theorem addrs_append : addrs a (xs ++ ys) = addrs a xs ++ addrs (endOf a xs) ys := by
  induction xs generalizing a with
  | nil => rfl
  | cons b xs ih => simp only [List.cons_append, addrs, endOf, ih]

theorem le_endOf : a ≤ endOf a bs := by
  induction bs generalizing a with
  | nil => exact le_rfl
  | cons b bs ih => exact le_trans (by omega) ih

/-- The header of a block is below the end. -/
theorem header_le_endOf : endOf a xs + 16 ≤ endOf a (xs ++ b :: ys) := by
  rw [endOf_append]
  exact le_trans (Nat.le_add_right _ _) le_endOf

/-- The last header is a block's, wholly below the end, unless there is none. -/
theorem lastOf_eq_or (p a : ℕ) (bs : List Block) : (bs = [] ∧ lastOf p a bs = p) ∨
    (a ≤ lastOf p a bs ∧ lastOf p a bs + 16 ≤ endOf a bs) := by
  induction bs generalizing p a with
  | nil => exact .inl ⟨rfl, rfl⟩
  | cons b bs ih =>
    right
    have hend : a + 16 + b.size ≤ endOf a (b :: bs) := le_endOf
    rcases ih (p := a) (a := a + 16 + b.size) with ⟨rfl, h⟩ | ⟨h₁, h₂⟩
    · exact ⟨h ▸ le_rfl, by rw [lastOf, h]; omega⟩
    · exact ⟨by rw [lastOf]; omega, h₂⟩

end

/-! ## Payloads in use -/

/-- The block `b` is in the list, with the payload `ptr`. -/
def HasBlock (a : ℕ) : List Block → ℕ → Block → Prop
  | [], _, _ => False
  | c :: bs, ptr, b => (ptr = a + 16 ∧ b = c) ∨ HasBlock (a + 16 + c.size) bs ptr b

/-- `x` is a byte of a payload in use. -/
def InUse (a : ℕ) (bs : List Block) (x : ℕ) : Prop :=
  ∃ ptr b, HasBlock a bs ptr b ∧ b.owner ≠ none ∧ ptr ≤ x ∧ x < ptr + b.size

/-- The payloads in use are the same in both memories. -/
def SameInUse (m m' : Mem) (a : ℕ) (bs : List Block) : Prop := ∀ x, InUse a bs x → m' x = m x

section

variable {a p x ptr s : ℕ} {b : Block} {xs ys bs pre post : List Block} {m m' m'' : Mem}
  {o : Option ℕ}

theorem hasBlock_append :
    HasBlock a (xs ++ ys) ptr b ↔ HasBlock a xs ptr b ∨ HasBlock (endOf a xs) ys ptr b := by
  induction xs generalizing a with
  | nil => exact (or_iff_right id).symm
  | cons c xs ih => simp only [List.cons_append, HasBlock, endOf, ih, or_assoc]

theorem hasBlock_middle : HasBlock a (pre ++ b :: post) (endOf a pre + 16) b :=
  hasBlock_append.2 (.inr (.inl ⟨rfl, rfl⟩))

theorem hasBlock_iff : HasBlock a bs ptr b ↔ ∃ pre post, bs = pre ++ b :: post ∧
    ptr = endOf a pre + 16 := by
  constructor
  · intro h
    induction bs generalizing a with
    | nil => exact h.elim
    | cons c bs ih =>
      rcases h with ⟨rfl, rfl⟩ | h
      · exact ⟨[], bs, rfl, rfl⟩
      · obtain ⟨pre, post, rfl, hptr⟩ := ih h
        exact ⟨c :: pre, post, rfl, hptr⟩
  · rintro ⟨pre, post, rfl, rfl⟩
    exact hasBlock_middle

theorem inUse_append : InUse a (xs ++ ys) x ↔ InUse a xs x ∨ InUse (endOf a xs) ys x := by
  simp only [InUse, hasBlock_append, or_and_right, exists_or]

theorem InUse.left (h : InUse a xs x) : InUse a (xs ++ ys) x := inUse_append.2 (.inl h)

theorem inUse_free : InUse a (⟨s, none⟩ :: bs) x ↔ InUse (a + 16 + s) bs x := by
  constructor
  · rintro ⟨ptr, b, ⟨-, rfl⟩ | hb, ho, hx⟩
    · exact absurd rfl ho
    · exact ⟨ptr, b, hb, ho, hx⟩
  · rintro ⟨ptr, b, hb, h⟩
    exact ⟨ptr, b, .inr hb, h⟩

theorem HasBlock.bounds (h : HasBlock a bs ptr b) : a + 16 ≤ ptr ∧ ptr + b.size ≤ endOf a bs := by
  induction bs generalizing a with
  | nil => exact h.elim
  | cons c bs ih =>
    rcases h with ⟨rfl, rfl⟩ | h
    · exact ⟨le_rfl, le_endOf⟩
    · obtain ⟨hlow, hhigh⟩ := ih h
      exact ⟨by omega, hhigh⟩

theorem InUse.bounds (h : InUse a bs x) : a + 16 ≤ x ∧ x < endOf a bs := by
  obtain ⟨ptr, b, hb, -, hlow, hhigh⟩ := h
  obtain ⟨h₁, h₂⟩ := hb.bounds
  exact ⟨h₁.trans hlow, hhigh.trans_le h₂⟩

theorem SameInUse.refl (m : Mem) (a : ℕ) (bs : List Block) : SameInUse m m a bs := fun _ _ => rfl

theorem SameInUse.trans (h : SameInUse m m' a bs) (h' : SameInUse m' m'' a bs) :
    SameInUse m m'' a bs :=
  fun x hx => (h' x hx).trans (h x hx)

/-- What is the same before and after a free block is the same in all the list. -/
theorem SameInUse.around (h : SameInUse m m' a pre)
    (h' : SameInUse m m' (endOf a pre + 16 + s) post) :
    SameInUse m m' a (pre ++ ⟨s, none⟩ :: post) := fun x hx =>
  (inUse_append.1 hx).elim (h x) fun hx => h' x (inUse_free.1 hx)

theorem SameInUse.left (h : SameInUse m m' a (xs ++ ys)) : SameInUse m m' a xs :=
  fun x hx => h x hx.left

theorem SameInUse.right (h : SameInUse m m' a (xs ++ ys)) : SameInUse m m' (endOf a xs) ys :=
  fun x hx => h x (inUse_append.2 (.inr hx))

end

/-! ## Segments of the list in memory -/

/-- The blocks `bs` lie from `a` on in the memory `m`, linked from the header `p`. -/
def Seg (m : Mem) (p a : ℕ) : List Block → Prop
  | [] => True
  | b :: bs => Meta.next m p = a ∧ Meta.prev m a = p ∧ Meta.size m a = b.size ∧
    Meta.free m a = b.flag ∧ Seg m a (a + 16 + b.size) bs

variable {m m' : Mem} {a p : ℕ} {xs ys bs : List Block}

theorem seg_append : Seg m p a (xs ++ ys) ↔
    Seg m p a xs ∧ Seg m (lastOf p a xs) (endOf a xs) ys := by
  induction xs generalizing p a with
  | nil => simp [Seg, lastOf, endOf]
  | cons b xs ih => simp only [List.cons_append, Seg, ih, lastOf, endOf, and_assoc]

/-- A segment only depends on the link out of the header before it and on its headers. -/
theorem Seg.congr (h : Seg m p a bs) (hp : Meta.next m' p = Meta.next m p)
    (hm : ∀ x ∈ addrs a bs, ∀ i < 16, m' (x + i) = m (x + i)) : Seg m' p a bs := by
  induction bs generalizing p a with
  | nil => trivial
  | cons b bs ih =>
    obtain ⟨h₁, h₂, h₃, h₄, h₅⟩ := h
    have ha : ∀ i < 16, m' (a + i) = m (a + i) := hm a List.mem_cons_self
    have hw : ∀ o, o + 4 ≤ 16 → m'.load32 (a + o) = m.load32 (a + o) := fun o ho =>
      Mem.load32_congr fun x hx hx' => by
        have := ha (x - a) (by omega)
        rwa [Nat.add_sub_of_le (by omega)] at this
    refine ⟨hp.trans h₁, (hw 8 (by omega)).trans h₂, (hw 0 (by omega)).trans h₃,
      (Mem.load8_congr (ha 4 (by omega))).trans h₄, ih h₅ (hw 12 (by omega)) ?_⟩
    exact fun x hx => hm x (List.mem_cons_of_mem _ hx)

/-- The headers of a segment lie between its ends. -/
theorem mem_addrs {x : ℕ} (h : x ∈ addrs a bs) : a ≤ x ∧ x + 16 ≤ endOf a bs := by
  induction bs generalizing a with
  | nil => exact absurd h List.not_mem_nil
  | cons b bs ih =>
    have hend : a + 16 + b.size ≤ endOf a (b :: bs) := le_endOf
    rcases List.mem_cons.1 h with rfl | h
    · exact ⟨le_rfl, by omega⟩
    · obtain ⟨h₁, h₂⟩ := ih h
      exact ⟨by omega, h₂⟩

/-- No header lies in the payload of a block. -/
theorem addrs_disjoint {s x : ℕ} {o : Option ℕ} {pre post : List Block}
    (hx : x ∈ addrs a (pre ++ ⟨s, o⟩ :: post)) :
    x + 16 ≤ endOf a pre + 16 ∨ endOf a pre + 16 + s ≤ x := by
  rw [addrs_append, List.mem_append, addrs, List.mem_cons] at hx
  rcases hx with hx | rfl | hx
  · exact .inl (le_trans (mem_addrs hx).2 (Nat.le_add_right _ _))
  · exact .inl le_rfl
  · exact .inr (mem_addrs hx).1

theorem InUse.not_header {x y : ℕ} (h : InUse a bs x) (hy : y ∈ addrs a bs) :
    x < y ∨ y + 16 ≤ x := by
  obtain ⟨ptr, ⟨s, o⟩, hb, -, hlow, hhigh⟩ := h
  obtain ⟨pre, post, rfl, rfl⟩ := hasBlock_iff.1 hb
  rcases addrs_disjoint hy with h | h
  · exact .inr (h.trans hlow)
  · exact .inl (hhigh.trans_le h)

/-- The last header is `p` or a block's. -/
theorem lastOf_mem (p a : ℕ) (bs : List Block) :
    lastOf p a bs = p ∨ lastOf p a bs ∈ addrs a bs := by
  induction bs generalizing p a with
  | nil => exact .inl rfl
  | cons b bs ih =>
    rcases ih a (a + 16 + b.size) with h | h
    · exact .inr (by simp [lastOf, addrs, h])
    · exact .inr (List.mem_cons_of_mem _ h)

/-- A segment does not depend on the bytes outside `[a, endOf a bs)`, but for the link
    out of the header before it. -/
theorem Seg.frame (h : Seg m p a bs) (hp : Meta.next m' p = Meta.next m p)
    (hm : ∀ x, a ≤ x → x < endOf a bs → m' x = m x) : Seg m' p a bs :=
  h.congr hp fun x hx i hi => by
    obtain ⟨h₁, h₂⟩ := mem_addrs hx
    exact hm (x + i) (by omega) (by omega)

/-- Nor does it depend on the link out of its last header. -/
theorem Seg.frame_last (h : Seg m p a bs) (hp : bs ≠ [] → Meta.next m' p = Meta.next m p)
    (hm : ∀ x, a ≤ x → x < endOf a bs → x < lastOf p a bs + 12 ∨ lastOf p a bs + 16 ≤ x →
      m' x = m x) : Seg m' p a bs := by
  rcases List.eq_nil_or_concat bs with rfl | ⟨bs, b, rfl⟩
  · trivial
  rw [List.concat_eq_append] at *
  obtain ⟨hs, h₁, h₂, h₃, h₄, -⟩ := seg_append.1 h
  have hl : lastOf p a (bs ++ [b]) = endOf a bs := lastOf_append
  have he : endOf a (bs ++ [b]) = endOf a bs + 16 + b.size := endOf_append
  rw [hl, he] at hm
  have ha : a ≤ endOf a bs := le_endOf
  have hp := hp (by simp)
  refine seg_append.2 ⟨hs.frame hp fun x hx hx' => hm x hx (by omega) (by omega), ?_, ?_, ?_, ?_,
    trivial⟩
  · refine Eq.trans ?_ h₁
    rcases lastOf_eq_or p a bs with ⟨-, hl⟩ | ⟨hl, hl'⟩
    · rw [hl, hp]
    · exact Mem.load32_congr fun x _ _ => hm x (by omega) (by omega) (by omega)
  · exact (Mem.load32_congr fun x _ _ => hm x (by omega) (by omega) (by omega)).trans h₂
  · exact (Mem.load32_congr fun x _ _ => hm x (by omega) (by omega) (by omega)).trans h₃
  · exact (Mem.load8_congr (hm _ (by omega) (by omega) (by omega))).trans h₄

end Beryllium

import Beryllium.Heap.Step

/-!
# Heap safety

The invariant of the heap over whole runs of a client (`HeapInv`): the allocator
represents a list of blocks whose sizes are multiples of 4, no two neighbours of
which are free, and whose blocks in use are the pointers the client holds, at least
as large as requested. `malloc`, `calloc`, `free` and the stores of the client keep
it (`HeapInv.step`), and never get stuck.

`heap_safe` reads it off the memory (`HeapSafe`): the list is well linked, tiles the
heap, and the payloads of live pointers are disjoint. A pointer that a call returns was
not live before (`HeapInv.fresh`), so that the payloads of two calls are disjoint, too.
-/

namespace Beryllium

open Machine

variable {st : Sentinels} {m m' : Mem} {base a ptr n req r : ℕ} {b : Block}
  {pre post bs bs' : List Block}

/-! ## Owners -/

theorem ownerAt_of_lt (h : ptr < a + 16) : ownerAt a bs ptr = none := by
  induction bs generalizing a with
  | nil => rfl
  | cons b bs ih => rw [ownerAt, if_neg (by omega), ih (by omega)]

theorem ownerAt_of_gt (h : endOf a bs < ptr) : ownerAt a bs ptr = none := by
  induction bs generalizing a with
  | nil => rfl
  | cons b bs ih =>
    have : a + 16 + b.size ≤ endOf a (b :: bs) := le_endOf
    rw [ownerAt, if_neg (by omega), ih h]

theorem ownerAt_append {xs ys : List Block} :
    ownerAt a (xs ++ ys) ptr = (ownerAt a xs ptr).or (ownerAt (endOf a xs) ys ptr) := by
  induction xs generalizing a with
  | nil => rw [List.nil_append, ownerAt, endOf, Option.none_or]
  | cons b xs ih =>
    rw [List.cons_append, ownerAt, ownerAt, endOf]
    split_ifs with h
    · have : a + 16 + b.size ≤ endOf (a + 16 + b.size) xs := le_endOf
      rw [ownerAt_of_lt (a := endOf (a + 16 + b.size) xs) (by omega), Option.or_none]
    · exact ih

/-- A payload in use is the one of a block of the list. -/
theorem exists_of_ownerAt (h : ownerAt a bs ptr = some r) :
    ∃ pre s post, bs = pre ++ ⟨s, some r⟩ :: post ∧ ptr = endOf a pre + 16 := by
  induction bs generalizing a with
  | nil => exact absurd h (by simp [ownerAt])
  | cons b bs ih =>
    rw [ownerAt] at h
    split_ifs at h with hp
    · exact ⟨[], b.size, bs, by rw [← h]; rfl, hp⟩
    · obtain ⟨pre, s, post, rfl, hptr⟩ := ih h
      exact ⟨b :: pre, s, post, rfl, hptr⟩

theorem ownerAt_middle : ownerAt a (pre ++ b :: post) (endOf a pre + 16) = b.owner := by
  rw [ownerAt_append, ownerAt_of_gt (by omega), Option.none_or, ownerAt, if_pos rfl]

/-- Replacing blocks by others that end at the same address. -/
theorem ownerAt_replace (mid mid' : List Block)
    (hend : endOf (endOf a pre) mid' = endOf (endOf a pre) mid)
    {o : Option ℕ} (hmid : ∀ p, ownerAt (endOf a pre) mid' p =
      if p = ptr then o else ownerAt (endOf a pre) mid p)
    (hlo : endOf a pre < ptr) (hhi : ptr ≤ endOf (endOf a pre) mid) (p : ℕ) :
    ownerAt a (pre ++ (mid' ++ post)) p = if p = ptr then o
    else ownerAt a (pre ++ (mid ++ post)) p := by
  rw [ownerAt_append, ownerAt_append, ownerAt_append, ownerAt_append, hend, hmid]
  split_ifs with hp
  · subst hp
    rw [ownerAt_of_gt hlo, Option.none_or, ownerAt_of_lt (a := endOf (endOf a pre) mid) (by omega),
      Option.or_none]
  · rfl

/-! ## Tidy blocks -/

/-- The blocks are as the allocator keeps them. -/
structure Tidy (bs : List Block) : Prop where
  size_mod : ∀ b ∈ bs, b.size % 4 = 0
  owner_le : ∀ b ∈ bs, ∀ r, b.owner = some r → r ≤ b.size
  merged : Merged bs

theorem tidy_nil : Tidy [] :=
  ⟨fun _ h => absurd h List.not_mem_nil, fun _ h => absurd h List.not_mem_nil, List.isChain_nil⟩

/-- Replacing blocks in the middle by tidy ones which do not have more free ends. -/
theorem Tidy.replace (mid mid' : List Block) (h : Tidy (pre ++ (mid ++ post))) (hmid : Tidy mid')
    (hhead : ∀ b ∈ mid'.head?, b.owner = none → ∀ c ∈ pre.getLast?, c.owner ≠ none)
    (hlast : ∀ b ∈ mid'.getLast?, b.owner = none → ∀ c ∈ post.head?, c.owner ≠ none)
    (hne : mid' ≠ []) : Tidy (pre ++ (mid' ++ post)) := by
  have hm := List.isChain_append.1 h.merged
  have hm' := List.isChain_append.1 hm.2.1
  refine ⟨?_, ?_, List.isChain_append.2
    ⟨hm.1, List.isChain_append.2 ⟨hmid.merged, hm'.2.1, ?_⟩, ?_⟩⟩
  · intro b hb
    simp only [List.mem_append] at hb
    rcases hb with hb | hb | hb
    · exact h.size_mod b (by simp [hb])
    · exact hmid.size_mod b hb
    · exact h.size_mod b (by simp [hb])
  · intro b hb
    simp only [List.mem_append] at hb
    rcases hb with hb | hb | hb
    · exact h.owner_le b (by simp [hb])
    · exact hmid.owner_le b hb
    · exact h.owner_le b (by simp [hb])
  · intro b hb c hc
    by_cases hf : b.owner = none
    · exact .inr (hlast b hb hf c hc)
    · exact .inl hf
  · intro b hb c hc
    rw [List.head?_append_of_ne_nil _ hne] at hc
    by_cases hf : c.owner = none
    · exact .inl (hhead c hc hf b hb)
    · exact .inr hf

theorem tidy_carve {s : ℕ} (hs : s % 4 = 0) (hn : n % 4 = 0) (hle : n ≤ s) (hr : req ≤ n) :
    Tidy (carve s n req) := by
  rw [carve]
  split_ifs with h
  · refine ⟨?_, ?_, by simp [Merged]⟩ <;> simp only [List.mem_cons, List.not_mem_nil, or_false] <;>
      rintro b (rfl | rfl)
    · exact hn
    · simp only
      omega
    · simpa using hr
    · simp
  · refine ⟨?_, ?_, by simp [Merged]⟩ <;> simp only [List.mem_cons, List.not_mem_nil, or_false] <;>
      rintro b rfl
    · exact hs
    · simp only [Option.some.injEq, forall_eq']
      omega

theorem tidy_free {s : ℕ} (hs : s % 4 = 0) : Tidy [⟨s, none⟩] := by
  refine ⟨?_, ?_, by simp [Merged]⟩ <;> simp [hs]

/-- `malloc` keeps the blocks tidy. -/
theorem MallocStep.tidy (h : MallocStep base n req bs ptr bs') (ht : Tidy bs) (hn : n % 4 = 0)
    (hr : req ≤ n) : Tidy bs' := by
  cases h with
  | @take pre post s hno hs =>
    have hm := ht.merged
    refine Tidy.replace [⟨s, none⟩] _ ht (tidy_carve (ht.size_mod ⟨s, none⟩ (by simp)) hn hs hr)
      ?_ ?_ (by rw [carve]; split_ifs <;> simp)
    · rw [carve]
      split_ifs <;> simp
    · intro b _ _
      exact hm.not_free_after
  | grow _ =>
    rw [← List.append_nil bs] at ht
    have := Tidy.replace [] [⟨n, some req⟩] ht
      ⟨by simp [hn], by simpa using hr, by simp [Merged]⟩ (by simp) (by simp) (by simp)
    simpa using this
  | fail _ => exact ht

/-- `free` keeps the blocks tidy. -/
theorem FreeStep.tidy (h : FreeStep base bs ptr bs') (ht : Tidy bs) : Tidy bs' := by
  obtain @⟨pre, post, pre', post', s, r, s', s'', hpre, hpost⟩ := h
  have hs : s % 4 = 0 := ht.size_mod ⟨s, some r⟩ (by simp)
  have hm := ht.merged
  -- the blocks that become the free block, and what surrounds them
  obtain ⟨mid, hbs, hs', hhead⟩ : ∃ mid, pre ++ [⟨s, some r⟩] = pre' ++ mid ∧ s' % 4 = 0 ∧
      ∀ c ∈ pre'.getLast?, c.owner ≠ none := by
    rcases hpre with ⟨rfl, rfl, h⟩ | ⟨t, rfl, rfl⟩
    · exact ⟨[⟨s', some r⟩], rfl, hs, h⟩
    · have h₄ : t % 4 = 0 := ht.size_mod ⟨t, none⟩ (by simp)
      rw [List.append_assoc] at hm
      refine ⟨[⟨t, none⟩, ⟨s, some r⟩], by simp, by omega, fun c hc => ?_⟩
      exact ((List.isChain_append.1 hm).2.2 c hc ⟨t, none⟩ (by simp)).resolve_right
        (not_not.2 rfl)
  obtain ⟨mid', hbs', hs'', hlast⟩ : ∃ mid', post = mid' ++ post' ∧ s'' % 4 = 0 ∧
      ∀ c ∈ post'.head?, c.owner ≠ none := by
    rcases hpost with ⟨rfl, rfl, h⟩ | ⟨t, rfl, rfl⟩
    · exact ⟨[], rfl, hs', h⟩
    · have h₄ : t % 4 = 0 := ht.size_mod ⟨t, none⟩ (by simp)
      have : Merged ((pre ++ [⟨s, some r⟩]) ++ ⟨t, none⟩ :: post') := by simpa using hm
      exact ⟨[⟨t, none⟩], rfl, by omega, this.not_free_after⟩
  have hall : pre ++ ⟨s, some r⟩ :: post = pre' ++ ((mid ++ mid') ++ post') := by
    rw [← List.singleton_append, ← List.append_assoc, hbs, hbs']
    simp only [List.append_assoc]
  rw [hall] at ht
  exact Tidy.replace _ _ ht (tidy_free hs'') (fun _ _ _ => hhead) (fun _ _ _ => hlast) (by simp)

/-! ## Owners along a step -/

theorem MallocStep.ownerAt_eq (h : MallocStep base n req bs ptr bs') (p : ℕ) :
    ownerAt base bs' p = if p = ptr ∧ ptr ≠ NULL then some req else ownerAt base bs p := by
  cases h with
  | @take pre post s hno hs =>
    have h₀ : endOf base pre + 16 ≠ NULL := Nat.succ_ne_zero _
    simp only [h₀, ne_eq, not_false_eq_true, and_true]
    refine ownerAt_replace [⟨s, none⟩] _ ?_ (fun q => ?_) (by omega) (by simp only [endOf]; omega) p
    · simpa [endOf] using endOf_carve [] hs
    · rw [carve]
      split_ifs <;> simp only [ownerAt] <;> split_ifs <;> rfl
  | grow _ =>
    have h₀ : endOf base bs + 16 ≠ NULL := Nat.succ_ne_zero _
    simp only [h₀, ne_eq, not_false_eq_true, and_true]
    rw [ownerAt_append, ownerAt, ownerAt]
    split_ifs with hp
    · rw [hp, ownerAt_of_gt (by omega), Option.none_or]
    · rw [Option.or_none]
  | fail _ => simp

/-- `malloc` returns a pointer that was not in use. -/
theorem MallocStep.fresh (h : MallocStep base n req bs ptr bs') (hptr : ptr ≠ NULL) :
    ownerAt base bs ptr = none := by
  cases h with
  | take _ _ => exact ownerAt_middle
  | grow _ => exact ownerAt_of_gt (by omega)
  | fail _ => exact absurd rfl hptr

theorem ownerAt_free {s : ℕ} : ownerAt a (⟨s, none⟩ :: bs) = ownerAt (a + 16 + s) bs := by
  funext p
  rw [ownerAt]
  split_ifs with hp
  · rw [ownerAt_of_lt (by omega)]
  · rfl

theorem FreeStep.ownerAt_eq (h : FreeStep base bs ptr bs') (p : ℕ) :
    ownerAt base bs' p = if p = ptr then none else ownerAt base bs p := by
  obtain @⟨pre, post, pre', post', s, r, s', s'', hpre, hpost⟩ := h
  have h₁ : ownerAt base (pre' ++ ⟨s'', none⟩ :: post') p =
      ownerAt base (pre ++ ⟨s, none⟩ :: post) p := by
    rcases hpre with ⟨rfl, rfl, -⟩ | ⟨t, rfl, rfl⟩ <;>
      rcases hpost with ⟨rfl, rfl, -⟩ | ⟨t', rfl, rfl⟩ <;>
      simp only [ownerAt_append, ownerAt_free, endOf_append, endOf, Option.or_assoc,
        show ∀ a q, ownerAt a [] q = none from fun _ _ => rfl, Option.none_or, Nat.add_assoc]
  rw [h₁]
  have hmid : ∀ q, ownerAt (endOf base pre) [⟨s, none⟩] q = if q = endOf base pre + 16 then none
      else ownerAt (endOf base pre) [⟨s, some r⟩] q := by
    intro q
    simp only [ownerAt]
    split_ifs <;> rfl
  exact ownerAt_replace [⟨s, some r⟩] [⟨s, none⟩] rfl hmid (by omega)
    (by simp only [endOf]; omega) p

/-! ## The invariant -/

/-- The invariant of the heap and its client, witnessed by the blocks. -/
structure HeapInv (st : Sentinels) (base : ℕ) (s : HeapState) (bs : List Block) : Prop where
  represents : Represents st base s.heap bs
  tidy : Tidy bs
  live : ∀ ptr, s.live ptr = ownerAt base bs ptr

/-- The client's stores in a payload it holds do not touch the block list. -/
theorem Represents.store {h : Heap} {m' : Mem} (hr : Represents st base h bs)
    (hb : st.Below base) (ht : Tidy bs) (ho : ownerAt base bs ptr = some r)
    (hm : ∀ x, x < ptr ∨ ptr + r ≤ x → m' x = h.mem x) :
    Represents st base { h with mem := m' } bs := by
  obtain ⟨pre, s, post, rfl, rfl⟩ := exists_of_ownerAt ho
  have hle : r ≤ s := ht.owner_le ⟨s, some r⟩ (by simp) r rfl
  have hbase : base ≤ endOf base pre := le_endOf
  obtain ⟨hb₁, hb₂, -⟩ := hb
  refine ⟨hr.list.frame fun x hx i hi => hm _ ?_, hr.allocEnd, hr.le_brk, hr.brk_lt⟩
  rcases hx with rfl | rfl | hx
  · omega
  · omega
  · rcases addrs_disjoint hx with h | h
    · omega
    · omega

theorem HeapInv.of_init {s : HeapState} (hbase : base < 4294967296)
    (h : (heapSystem st base).init s) : HeapInv st base s [] := by
  obtain ⟨h₁, h₂, h₃, h₄, h₅, h₆, h₇⟩ := h
  exact ⟨⟨⟨chain_nil.2 ⟨h₁, h₂⟩, h₃, h₄⟩, .inr ⟨h₅, rfl, h₆⟩, h₆ ▸ le_rfl, h₆ ▸ hbase⟩, tidy_nil,
    fun ptr => by rw [h₇]; rfl⟩

/-- `malloc` in a state of the client: it ends, with the new pointer handed out, and the payloads
    in use are the same. -/
theorem HeapInv.malloc {s : HeapState} (hb : st.Below base) (hi : HeapInv st base s bs)
    (avail : ℕ → Bool) (hn : n + 20 ≤ 4294967296) :
    ∃ ptr h bs', malloc st avail s.heap n = some (ptr, h) ∧
      MallocStep base (roundUp n) n bs ptr bs' ∧ HeapInv st base (.hand s.live n (ptr, h)) bs' ∧
      SameInUse s.heap.mem h.mem base bs := by
  obtain ⟨ptr, h, bs', he, hstep, hr, hsame⟩ :=
    malloc_step avail n hb hi.represents hi.tidy.merged hn
  have howner := hstep.ownerAt_eq
  refine ⟨ptr, h, bs', he, hstep, ⟨hr, hstep.tidy hi.tidy (roundUp_mod hn) (le_roundUp hn),
    fun p => ?_⟩, hsame⟩
  rw [howner, ← hi.live]
  simp only [HeapState.hand]
  by_cases h₀ : ptr = NULL
  · simp [h₀]
  · simp only [h₀, if_false, ne_eq, not_false_eq_true, and_true, Function.update_apply]

/-- `free` in a state of the client: the blocks still end at the same address, and the blocks in
    use afterwards are the same. -/
theorem HeapInv.free {s : HeapState} (hb : st.Below base) (hi : HeapInv st base s bs)
    (hg : ptr = NULL ∨ (s.live ptr).isSome) : ∃ bs', endOf base bs' = endOf base bs ∧
      HeapInv st base ⟨free s.heap ptr, Function.update s.live ptr none⟩ bs' ∧
      SameInUse s.heap.mem (free s.heap ptr).mem base bs' ∧
      ∀ p b, HasBlock base bs p b → b.owner ≠ none → p ≠ ptr → HasBlock base bs' p b := by
  rcases hg with rfl | hg
  · refine ⟨bs, rfl, ⟨hi.represents, hi.tidy, fun p => ?_⟩, .refl _ _ _, fun _ _ h _ _ => h⟩
    simp only [Function.update_apply]
    split_ifs with h
    · rw [h, ownerAt_of_lt (Nat.succ_pos _)]
    · exact hi.live p
  · obtain ⟨r, hr⟩ := Option.isSome_iff_exists.1 hg
    obtain ⟨pre, s', post, rfl, rfl⟩ := exists_of_ownerAt (hi.live ptr ▸ hr)
    obtain ⟨bs', hstep, hr', hsame⟩ := free_step hb hi.represents
    refine ⟨bs', hstep.endOf_eq, ⟨hr', hstep.tidy hi.tidy, fun p => ?_⟩, hsame,
      fun p b => hstep.hasBlock⟩
    simp only [Function.update_apply, hstep.ownerAt_eq, hi.live]

/-- Every step of the client ends, and keeps the invariant; the heap does not get smaller. -/
theorem HeapInv.step {s : HeapState} {op : HeapOp} (hb : st.Below base)
    (hi : HeapInv st base s bs) (hg : (heapSystem st base).guard s op) :
    ∃ s' bs', (heapSystem st base).step s op = some s' ∧ HeapInv st base s' bs' ∧
      endOf base bs ≤ endOf base bs' := by
  cases op with
  | malloc avail size =>
    obtain ⟨ptr, h, bs', he, hstep, hi', -⟩ := hi.malloc hb avail (n := size) hg
    exact ⟨_, bs', congrArg (Option.map _) he, hi', hstep.le_endOf⟩
  | calloc avail numOfElts eltSize =>
    have hg : numOfElts * eltSize + 20 ≤ 4294967296 := hg
    obtain ⟨ptr, h, bs', he, hstep, hi', -⟩ := hi.malloc hb avail hg
    by_cases hp : ptr = NULL
    · refine ⟨.hand s.live (numOfElts * eltSize) (ptr, h), bs', ?_, hi', hstep.le_endOf⟩
      simp only [heapSystem, calloc, mul32_eq (show numOfElts * eltSize < 4294967296 by omega), he,
        Option.bind_eq_bind, Option.bind_some, hp, ne_eq, not_true_eq_false, if_false,
        Option.pure_def, Option.map_some]
    · have ho : ownerAt base bs' ptr = some (numOfElts * eltSize) := by
        rw [hstep.ownerAt_eq, if_pos ⟨rfl, hp⟩]
      refine ⟨.hand s.live (numOfElts * eltSize)
        (ptr, { h with mem := memset h.mem ptr 0 (numOfElts * eltSize) }),
        bs', ?_, ⟨hi'.represents.store hb hi'.tidy ho fun x hx => memset_apply_of_disjoint hx,
        hi'.tidy, hi'.live⟩, hstep.le_endOf⟩
      simp only [heapSystem, calloc, mul32_eq (show numOfElts * eltSize < 4294967296 by omega), he,
        Option.bind_eq_bind, Option.bind_some, hp, ne_eq, not_false_eq_true, if_true,
        Option.pure_def, Option.map_some]
  | free ptr =>
    obtain ⟨bs', hend, hi', -⟩ := hi.free hb hg
    exact ⟨_, bs', rfl, hi', hend.ge⟩
  | store ptr i v =>
    obtain ⟨size, hl, hlt⟩ := hg
    exact ⟨_, bs, rfl, ⟨hi.represents.store hb hi.tidy (hi.live ptr ▸ hl) fun x hx =>
      Mem.store8_apply_of_ne (by omega), hi.tidy, hi.live⟩, le_rfl⟩

theorem calloc_fst (avail : ℕ → Bool) (h : Heap) (numOfElts eltSize : ℕ) :
    (calloc st avail h numOfElts eltSize).map Prod.fst =
      (malloc st avail h (mul32 numOfElts eltSize)).map Prod.fst := by
  rw [calloc]
  rcases malloc st avail h (mul32 numOfElts eltSize) with _ | ⟨ptr, h'⟩
  · rfl
  · rw [Option.bind_eq_bind, Option.bind_some]
    split_ifs <;> rfl

/-- A pointer that a call returns was not held before. -/
theorem HeapInv.fresh {s : HeapState} {op : HeapOp} (hb : st.Below base)
    (hi : HeapInv st base s bs) (hg : (heapSystem st base).guard s op)
    (hr : op.returned st s.heap = some ptr) (hptr : ptr ≠ NULL) : s.live ptr = none := by
  -- `calloc` returns what `malloc` returns
  have hmalloc (avail : ℕ → Bool) (size : ℕ) (hn : size + 20 ≤ 4294967296)
      (hr : (Beryllium.malloc st avail s.heap size).map Prod.fst = some ptr) :
      s.live ptr = none := by
    obtain ⟨p, h, bs', he, hstep, -⟩ := hi.malloc hb avail hn
    rw [he, Option.map_some, Option.some.injEq] at hr
    subst hr
    rw [hi.live]
    exact hstep.fresh hptr
  cases op with
  | malloc avail size => exact hmalloc avail size hg hr
  | calloc avail numOfElts eltSize =>
    have hg : numOfElts * eltSize + 20 ≤ 4294967296 := hg
    rw [HeapOp.returned, calloc_fst,
      mul32_eq (show numOfElts * eltSize < 4294967296 by omega)] at hr
    exact hmalloc avail _ hg hr
  | free _ => cases hr
  | store _ _ _ => cases hr

theorem HeapInv.run {s s' : HeapState} {ops : List HeapOp} (hb : st.Below base)
    (hi : HeapInv st base s bs) (hr : (heapSystem st base).Run s ops s') :
    ∃ bs', HeapInv st base s' bs' ∧ endOf base bs ≤ endOf base bs' := by
  induction hr generalizing bs with
  | nil => exact ⟨bs, hi, le_rfl⟩
  | cons hg hs _ ih =>
    obtain ⟨t, bs₁, ht, hi₁, hle₁⟩ := hi.step hb hg
    obtain rfl := Option.some.inj (ht.symm.trans hs)
    obtain ⟨bs₂, hi₂, hle₂⟩ := ih hi₁
    exact ⟨bs₂, hi₂, hle₁.trans hle₂⟩

/-! ## What the memory looks like -/

/-- The blocks with the headers `as` lie one after the other from `a` to `e`. -/
def Tiles (m : Mem) (a : ℕ) : List ℕ → ℕ → Prop
  | [], e => a = e
  | x :: as, e => x = a ∧ Tiles m (a + 16 + Meta.size m a) as e

/-- The heap as its client relies on it: `as` are the headers of all blocks. -/
structure HeapSafe (st : Sentinels) (base : ℕ) (s : HeapState) (as : List ℕ) : Prop where
  /-- The `next` chain leads from `head` through the blocks to `tail`, and the `prev` chain back. -/
  linked : List.IsChain (fun a b => Meta.next s.heap.mem a = b ∧ Meta.prev s.heap.mem b = a)
    (st.head :: (as ++ [st.tail]))
  /-- The blocks tile the heap, up to `alloc_end`; before the first call there are none. -/
  tiles : Tiles s.heap.mem base as (if s.heap.allocEnd = 0 then base else s.heap.allocEnd)
  size_mod : ∀ a ∈ as, Meta.size s.heap.mem a % 4 = 0
  merged : as.IsChain fun a b => Meta.free s.heap.mem a = 0 ∨ Meta.free s.heap.mem b = 0
  /-- The blocks in use are the live ones. -/
  used_iff : ∀ ptr, (∃ a ∈ as, Meta.free s.heap.mem a = 0 ∧ ptr = a + 16) ↔ (s.live ptr).isSome
  /-- A live payload is as long as requested, and lies below the break. -/
  fits : ∀ ptr n, s.live ptr = some n → n ≤ Meta.size s.heap.mem (ptr - 16) ∧
    ptr + Meta.size s.heap.mem (ptr - 16) ≤ s.heap.brk
  /-- Live payloads are disjoint. -/
  disjoint : ∀ p q, (s.live p).isSome → (s.live q).isSome → p < q →
    p + Meta.size s.heap.mem (p - 16) ≤ q

theorem Chain.linked {p : ℕ} (h : Chain st m p a bs) :
    List.IsChain (fun a b => Meta.next m a = b ∧ Meta.prev m b = a)
    (p :: (addrs a bs ++ [st.tail])) := by
  induction bs generalizing p a with
  | nil => exact List.isChain_pair.2 (chain_nil.1 h)
  | cons b bs ih =>
    obtain ⟨h₁, h₂, -, -, hr⟩ := chain_cons.1 h
    exact List.isChain_cons_cons.2 ⟨⟨h₁, h₂⟩, ih hr⟩

theorem Seg.tiles {p : ℕ} (h : Seg m p a bs) : Tiles m a (addrs a bs) (endOf a bs) := by
  induction bs generalizing p a with
  | nil => rfl
  | cons b bs ih =>
    obtain ⟨-, -, h₃, -, hs⟩ := h
    exact ⟨rfl, by rw [h₃]; exact ih hs⟩

theorem exists_of_mem_addrs {x : ℕ} (h : x ∈ addrs a bs) :
    ∃ pre b post, bs = pre ++ b :: post ∧ x = endOf a pre := by
  induction bs generalizing a with
  | nil => exact absurd h List.not_mem_nil
  | cons b bs ih =>
    rcases List.mem_cons.1 h with rfl | h
    · exact ⟨[], b, bs, rfl, rfl⟩
    · obtain ⟨pre, c, post, rfl, hx⟩ := ih h
      exact ⟨b :: pre, c, post, rfl, hx⟩

theorem Seg.middle {p : ℕ} (h : Seg m p a (pre ++ b :: post)) :
    Meta.size m (endOf a pre) = b.size ∧ Meta.free m (endOf a pre) = b.flag := by
  obtain ⟨-, -, -, h₃, h₄, -⟩ := seg_append.1 h
  exact ⟨h₃, h₄⟩

theorem Seg.merged {p : ℕ} (h : Seg m p a bs) (hm : Merged bs) :
    (addrs a bs).IsChain fun a b => Meta.free m a = 0 ∨ Meta.free m b = 0 := by
  induction bs generalizing p a with
  | nil => exact List.isChain_nil
  | cons b bs ih =>
    obtain ⟨-, -, -, h₄, hs⟩ := h
    obtain ⟨h₁, h₂⟩ := List.isChain_cons.1 hm
    refine List.isChain_cons.2 ⟨fun y hy => ?_, ih hs h₂⟩
    cases bs with
    | nil => simp [addrs] at hy
    | cons c bs =>
      obtain ⟨-, -, -, h₄', -⟩ := hs
      simp only [addrs, List.head?_cons, Option.mem_def, Option.some.injEq] at hy
      rw [h₄, ← hy, h₄', Block.flag_eq_zero, Block.flag_eq_zero]
      exact h₁ c rfl

theorem HeapInv.safe {s : HeapState} (hb : st.Below base) (hi : HeapInv st base s bs) :
    HeapSafe st base s (addrs base bs) := by
  have hbase : base ≤ endOf base bs := le_endOf
  have hpos : 0 < base := by have := hb.head; omega
  have hle := hi.represents.le_brk
  have hseg := hi.represents.list.chain.seg
  have hlive : ∀ ptr n, s.live ptr = some n → ∃ pre size post, bs = pre ++ ⟨size, some n⟩ :: post ∧
      ptr = endOf base pre + 16 ∧ Meta.size s.heap.mem (ptr - 16) = size := fun ptr n h => by
    obtain ⟨pre, size, post, rfl, rfl⟩ := exists_of_ownerAt (hi.live ptr ▸ h)
    exact ⟨pre, size, post, rfl, rfl, hseg.middle.1⟩
  refine ⟨hi.represents.list.chain.linked, ?_, fun x hx => ?_, hseg.merged hi.tidy.merged,
    fun ptr => ?_, fun ptr n h => ?_, fun p q hp hq hlt => ?_⟩
  · -- before the first allocation there are no blocks, and `allocEnd` is 0
    rcases hi.represents.allocEnd with h | ⟨h, rfl, -⟩
    · rw [if_neg (by omega), h]
      exact hseg.tiles
    · rw [if_pos h]
      exact rfl
  · obtain ⟨pre, b, post, rfl, rfl⟩ := exists_of_mem_addrs hx
    rw [hseg.middle.1]
    exact hi.tidy.size_mod b (by simp)
  · -- the pointers that are in use are those to the blocks whose flag is 0
    constructor
    · rintro ⟨x, hx, hf, rfl⟩
      obtain ⟨pre, b, post, rfl, rfl⟩ := exists_of_mem_addrs hx
      rw [hseg.middle.2, Block.flag_eq_zero] at hf
      rw [hi.live, ownerAt_middle]
      exact Option.isSome_iff_ne_none.2 hf
    · intro h
      obtain ⟨n, hn⟩ := Option.isSome_iff_exists.1 h
      obtain ⟨pre, size, post, rfl, rfl, -⟩ := hlive ptr n hn
      refine ⟨endOf base pre, ?_, hseg.middle.2, rfl⟩
      rw [addrs_append]
      exact List.mem_append_right _ List.mem_cons_self
  · obtain ⟨pre, size, post, rfl, rfl, hs⟩ := hlive ptr n h
    rw [hs]
    refine ⟨hi.tidy.owner_le ⟨size, some n⟩ (by simp) n rfl, le_trans ?_ hle⟩
    rw [endOf_append]
    exact le_endOf
  · -- the block of the smaller pointer ends before the other one starts
    obtain ⟨n, hn⟩ := Option.isSome_iff_exists.1 hp
    obtain ⟨n', hn'⟩ := Option.isSome_iff_exists.1 hq
    obtain ⟨pre, size, post, rfl, rfl, hs⟩ := hlive p n hn
    obtain ⟨pre', size', post', hbs, rfl, -⟩ := hlive q n' hn'
    rw [hs]
    have hx : endOf base pre' ∈ addrs base (pre ++ ⟨size, some n⟩ :: post) := by
      rw [hbs, addrs_append]
      exact List.mem_append_right _ List.mem_cons_self
    rcases addrs_disjoint hx with h | h <;> omega

/-- Heap safety: in every state a client reaches, whatever it calls and wherever `sbrk`
    fails, the heap is as the client relies on, and the next call ends; a pointer that it returns
    is none that the client holds. -/
theorem heap_safe (hb : st.Below base) (hbase : base < 4294967296) {s : HeapState}
    (h : (heapSystem st base).Reachable s) : (∃ as, HeapSafe st base s as) ∧
      ∀ op, (heapSystem st base).guard s op → ((heapSystem st base).step s op).isSome ∧
        ∀ ptr, op.returned st s.heap = some ptr → ptr ≠ NULL → s.live ptr = none := by
  obtain ⟨bs, hi⟩ : ∃ bs, HeapInv st base s bs := by
    obtain ⟨s₀, ops, h₀, hr⟩ := h
    obtain ⟨bs, hi, -⟩ := (HeapInv.of_init hbase h₀).run hb hr
    exact ⟨bs, hi⟩
  refine ⟨⟨_, hi.safe hb⟩, fun op hg => ⟨?_, fun ptr => hi.fresh hb hg⟩⟩
  obtain ⟨s', -, hs, -⟩ := hi.step hb hg
  rw [hs]
  rfl

/-- A heap before the first call: the static headers are at 16 and 32, the break at 4096. -/
def bootHeap : HeapState where
  heap := ⟨fun x => if x = 28 then 32 else if x = 40 then 16 else 0, 0, 4096⟩
  live _ := none

theorem below_bootHeap : Sentinels.Below ⟨16, 32⟩ 4096 := ⟨by decide, by decide, by decide⟩

theorem bootHeap_init : (heapSystem ⟨16, 32⟩ 4096).init bootHeap :=
  ⟨by decide, by decide, by decide, by decide, rfl, rfl, rfl⟩

theorem bootHeap_run : ∃ s, (heapSystem ⟨16, 32⟩ 4096).Run bootHeap
    [.malloc (fun _ => true) 10, .malloc (fun _ => true) 3, .free 4112] s ∧
    s.live 4112 = none ∧ s.live 4140 = some 3 := by
  refine ⟨_, .cons (show 10 + 20 ≤ 4294967296 by decide) rfl
    (.cons (show 3 + 20 ≤ 4294967296 by decide) rfl (.cons (.inr ?_) rfl (.nil _))), ?_, ?_⟩ <;> rfl

/-- After two calls to `malloc` and freeing the first payload. -/
theorem heap_safe_bootHeap : ∃ s, (∃ as, HeapSafe ⟨16, 32⟩ 4096 s as) ∧
    s.live 4112 = none ∧ s.live 4140 = some 3 := by
  obtain ⟨s, hr, h₁, h₂⟩ := bootHeap_run
  exact ⟨s, (heap_safe below_bootHeap (by decide) ⟨bootHeap, _, bootHeap_init, hr⟩).1, h₁, h₂⟩

end Beryllium

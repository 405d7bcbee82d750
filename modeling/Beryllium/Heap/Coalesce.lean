import Beryllium.Heap.Safety

/-!
# Freed memory coalesces

When a client of the heap has freed all that it was given, in any order, the list of
blocks is one free block (`freed_coalesces`): neighbouring free blocks are merged at
every step (`Merged`), so that no two of them are left. The next `malloc` that fits takes
the block from its first byte on.
-/

namespace Beryllium

open Machine

/-- The list of blocks is one free block, from `base` to `alloc_end`. -/
structure OneFreeBlock (st : Sentinels) (base : ℕ) (h : Heap) : Prop where
  next_head : Meta.next h.mem st.head = base
  next : Meta.next h.mem base = st.tail
  prev_tail : Meta.prev h.mem st.tail = base
  prev : Meta.prev h.mem base = st.head
  free : Meta.free h.mem base ≠ 0
  size : base + 16 + Meta.size h.mem base = h.allocEnd

variable {st : Sentinels} {base n : ℕ} {h : Heap} {s s₀ : HeapState} {bs : List Block}
  {ops : List HeapOp}

/-- Merged blocks, all of them free, are one block at most. -/
theorem Merged.length_le (hm : Merged bs) (hfree : ∀ b ∈ bs, b.owner = none) : bs.length ≤ 1 := by
  match bs with
  | [] => exact Nat.zero_le 1
  | [_] => exact le_rfl
  | b :: c :: bs =>
    have hb := hfree b List.mem_cons_self
    have hc := hfree c (List.mem_cons_of_mem b List.mem_cons_self)
    rcases (List.isChain_cons_cons.1 hm).1 with hne | hne
    · exact absurd hb hne
    · exact absurd hc hne

/-- A heap without live pointers that has a block has no other. -/
theorem HeapInv.oneFreeBlock (hi : HeapInv st base s bs) (hne : bs ≠ [])
    (hfreed : ∀ p, s.live p = none) :
    OneFreeBlock st base s.heap ∧ base + 16 + Meta.size s.heap.mem base < 4294967296 := by
  have hfree : ∀ b ∈ bs, b.owner = none := by
    intro b hmem
    obtain ⟨pre, post, rfl⟩ := List.append_of_mem hmem
    have howner : ownerAt base (pre ++ b :: post) (endOf base pre + 16) = b.owner := ownerAt_middle
    rw [← howner, ← hi.live]
    exact hfreed _
  obtain ⟨b, rfl⟩ : ∃ b, bs = [b] := by
    have hlen := hi.tidy.merged.length_le hfree
    have hpos := List.length_pos_iff.2 hne
    exact List.length_eq_one_iff.1 (by omega)
  obtain ⟨hlist, hend, hle, hlt⟩ := hi.represents
  obtain ⟨hnext, hprev, hsize, hflag, hrest⟩ := chain_cons.1 hlist.chain
  obtain ⟨hnext', hprev'⟩ := chain_nil.1 hrest
  have hflag' : b.flag = 1 := if_pos (hfree b List.mem_cons_self)
  rw [endOf, endOf, ← hsize] at hend hle
  refine ⟨⟨hnext, hnext', hprev', hprev, ?_, ?_⟩, hle.trans_lt hlt⟩
  · rw [hflag, hflag']
    exact one_ne_zero
  · rcases hend with hend | ⟨-, hnil, -⟩
    · exact hend.symm
    · cases hnil

/-- A request that fits is served from the first byte of the block on. -/
theorem OneFreeBlock.malloc (ho : OneFreeBlock st base h) (hb : st.Below base)
    (hlt : base + 16 + Meta.size h.mem base < 4294967296)
    (hn : (n + 3) / 4 * 4 ≤ Meta.size h.mem base) (avail : ℕ → Bool) :
    malloc st avail h n = some (base + 16, { h with mem := takeBlock h.mem base (roundUp n) }) := by
  have hhead := hb.head
  have htail := hb.tail
  refine malloc_of_take ?_ (by omega)
  rw [loopFuel, firstFit, ho.next_head, if_neg (by omega)]
  exact if_pos ⟨ho.free, by rwa [roundUp_eq (by omega)]⟩

/-- When a client has been given a block and has freed all its blocks again, the list is one
    free block, and the next request that fits into it gets the first payload, with the
    break where it was. -/
theorem freed_coalesces (hb : st.Below base) (hbase : base < 4294967296)
    (hinit : (heapSystem st base).init s₀) (hr : (heapSystem st base).Run s₀ ops s)
    (hreturned : ∃ pre post t p, ops = pre ++ post ∧ (heapSystem st base).Run s₀ pre t ∧
      (t.live p).isSome) (hfreed : ∀ p, s.live p = none) :
    OneFreeBlock st base s.heap ∧
      ∀ avail n, (n + 3) / 4 * 4 ≤ Meta.size s.heap.mem base →
        ∃ h, malloc st avail s.heap n = some (base + 16, h) ∧ h.brk = s.heap.brk := by
  obtain ⟨pre, post, t, p, rfl, hpre, hp⟩ := hreturned
  obtain ⟨t', hpre', hpost⟩ := hr.of_append
  obtain rfl := hpre.unique hpre'
  obtain ⟨bs, hi, -⟩ := (HeapInv.of_init hbase hinit).run hb hpre
  obtain ⟨bs', hi', hle⟩ := hi.run hb hpost
  -- the heap has had a block, and does not get smaller
  have hlt : base < endOf base bs := by
    rw [hi.live] at hp
    obtain ⟨r, hr⟩ := Option.isSome_iff_exists.1 hp
    obtain ⟨pre, size, post, rfl, -⟩ := exists_of_ownerAt hr
    have hblock : HasBlock base (pre ++ ⟨size, some r⟩ :: post) (endOf base pre + 16)
        ⟨size, some r⟩ :=
      hasBlock_middle
    exact lt_of_lt_of_le (by have := hblock.bounds; omega) hblock.bounds.2
  have hne : bs' ≠ [] := by
    rintro rfl
    exact absurd (hlt.trans_le hle) (lt_irrefl base)
  obtain ⟨ho, hfit⟩ := hi'.oneFreeBlock hne hfreed
  exact ⟨ho, fun avail n hn => ⟨_, ho.malloc hb hfit hn avail, rfl⟩⟩

/-- Two blocks, the second one freed first. -/
theorem freed_coalesces_bootHeap : ∃ s, (heapSystem ⟨16, 32⟩ 4096).Run bootHeap
    [.malloc (fun _ => true) 4, .malloc (fun _ => true) 4, .free 4132, .free 4112] s ∧
    OneFreeBlock ⟨16, 32⟩ 4096 s.heap := by
  have h : ∃ t s, (heapSystem ⟨16, 32⟩ 4096).Run bootHeap [.malloc (fun _ => true) 4] t ∧
      (heapSystem ⟨16, 32⟩ 4096).Run t [.malloc (fun _ => true) 4, .free 4132, .free 4112] s ∧
      t.live = Function.update (fun _ => none) 4112 (some 4) ∧
      s.live = Function.update (Function.update (Function.update t.live 4132 (some 4)) 4132 none)
        4112 none := by
    refine ⟨_, _, .cons (show 4 + 20 ≤ 4294967296 by decide) rfl (.nil _),
      .cons (show 4 + 20 ≤ 4294967296 by decide) rfl
        (.cons (.inr ?_) rfl (.cons (.inr ?_) rfl (.nil _))), ?_, ?_⟩
    all_goals rfl
  obtain ⟨t, s, hpre, hpost, hlive, hlive'⟩ := h
  refine ⟨s, hpre.append hpost, (freed_coalesces below_bootHeap (by decide) bootHeap_init
    (hpre.append hpost) ⟨_, _, t, 4112, rfl, hpre, ?_⟩ fun p => ?_).1⟩
  · rw [hlive, Function.update_self]
    rfl
  · rw [hlive', hlive]
    simp only [Function.update_apply]
    split_ifs <;> rfl

/-- If the only call returned `NULL`, there is no block. -/
theorem no_block_left : ¬∀ (st : Sentinels) (base : ℕ) (s₀ s : HeapState) (ops : List HeapOp),
    st.Below base → base < 4294967296 → (heapSystem st base).init s₀ →
    (heapSystem st base).Run s₀ ops s → (∃ avail n, .malloc avail n ∈ ops) →
    (∀ p, s.live p = none) → OneFreeBlock st base s.heap := by
  intro h
  have hrun : ∃ s, (heapSystem ⟨16, 32⟩ 4096).Run bootHeap [.malloc (fun _ => false) 4] s ∧
      s.live = (fun _ => none) ∧ Meta.next s.heap.mem 16 = 32 :=
    ⟨_, .cons (show 4 + 20 ≤ 4294967296 by decide) rfl (.nil _), rfl, rfl⟩
  obtain ⟨s, hr, hlive, hnext⟩ := hrun
  have := (h ⟨16, 32⟩ 4096 bootHeap s _ below_bootHeap (by decide) bootHeap_init hr
    ⟨_, 4, List.mem_singleton_self _⟩ fun p => by rw [hlive]).next_head
  rw [hnext] at this
  cases this

end Beryllium

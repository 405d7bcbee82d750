import Mathlib.Algebra.Order.Group.Multiset
import Mathlib.Data.Finset.Erase
import Mathlib.Data.Finset.Insert

/-!
# Live blocks

The blocks that an allocator has given out and not taken back. What is asked for is a new block
(`Blocks.malloc`), and only live blocks can be freed (`Blocks.free`), so no block is freed twice.

A client is followed through the multiset of the live blocks: the blocks it owns, and the rest.
Freeing all that it owns leaves the rest (`Blocks.freeAll_eq`).
-/

namespace Machine

/-- The live blocks; none from `next` on has been given out. -/
structure Blocks where
  live : Finset ℕ
  next : ℕ
  lt_next : ∀ p ∈ live, p < next

namespace Blocks

/-- The blocks after a new one is given out, and the new one. -/
def malloc (b : Blocks) : Blocks × ℕ :=
  ({ live := insert b.next b.live
     next := b.next + 1
     lt_next := fun _ hp => (Finset.mem_insert.1 hp).elim (fun h => h ▸ Nat.lt_succ_self _)
       fun h => (b.lt_next _ h).trans (Nat.lt_succ_self _) }, b.next)

/-- A block is freed, `none` if it is not live. -/
def free (b : Blocks) (p : ℕ) : Option Blocks :=
  if p ∈ b.live then some
    { live := b.live.erase p
      next := b.next
      lt_next := fun _ hq => b.lt_next _ (Finset.mem_of_mem_erase hq) }
  else none

/-- The blocks are freed, one after the other. -/
def freeAll (b : Blocks) (ps : List ℕ) : Option Blocks := ps.foldlM free b

/-- A new block takes the place of another one. -/
def realloc (b : Blocks) (p : ℕ) : Option (Blocks × ℕ) :=
  (b.malloc.1.free p).map fun b' => (b', b.malloc.2)

variable {b : Blocks} {p : ℕ} {ps : List ℕ} {m : Multiset ℕ}

theorem malloc_live : b.malloc.1.live.val = b.malloc.2 ::ₘ b.live.val :=
  Finset.insert_val_of_notMem fun h => (b.lt_next _ h).false

/-- Only a live block is freed, and then it is not live any more. -/
theorem free_eq (h : b.live.val = p ::ₘ m) : ∃ b', b.free p = some b' ∧ b'.live.val = m := by
  have hp : p ∈ b.live.val := h ▸ Multiset.mem_cons_self p m
  refine ⟨_, if_pos hp, ?_⟩
  rw [Finset.erase_val, h, Multiset.erase_cons_head]

theorem freeAll_eq (h : b.live.val = ps + m) : ∃ b', b.freeAll ps = some b' ∧ b'.live.val = m := by
  induction ps generalizing b with
  | nil => exact ⟨b, rfl, by rw [h, Multiset.coe_nil, zero_add]⟩
  | cons p ps ih =>
    rw [← Multiset.cons_coe, Multiset.cons_add] at h
    obtain ⟨b₁, hfree, hlive⟩ := free_eq h
    obtain ⟨b', hall, hlive'⟩ := ih hlive
    refine ⟨b', ?_, hlive'⟩
    rw [freeAll, List.foldlM_cons, hfree]
    exact hall

theorem realloc_eq (h : b.live.val = p ::ₘ m) :
    ∃ b' p', b.realloc p = some (b', p') ∧ b'.live.val = p' ::ₘ m := by
  have hlive : b.malloc.1.live.val = p ::ₘ (b.malloc.2 ::ₘ m) := by
    rw [malloc_live, h, Multiset.cons_swap]
  obtain ⟨b', hfree, hlive'⟩ := free_eq hlive
  exact ⟨b', _, by rw [realloc, hfree]; rfl, hlive'⟩

end Blocks

end Machine

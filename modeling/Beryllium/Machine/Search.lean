import Mathlib.Data.Nat.Notation
import Mathlib.Order.Nat
import Mathlib.Tactic.Common

/-!
# Bounded search

A `for` loop that looks at one index after the other and returns from its body
at the first one that has an answer (`firstFrom`). It finds an answer if there is
one (`firstFrom_eq_none`), and then the one of the least index
(`firstFrom_eq_some`).

What a search through a list is for: the first item with a property (`FirstWith`).
-/

namespace Machine

variable {α : Type*} {p : ℕ → Option α} {n i : ℕ} {a : α}

/-- The first answer of `p` on `i, …, i + n - 1`. -/
def firstFrom (p : ℕ → Option α) : ℕ → ℕ → Option α
  | 0, _ => none
  | n + 1, i => (p i).or (firstFrom p n (i + 1))

theorem firstFrom_eq_none : firstFrom p n i = none ↔ ∀ k, i ≤ k → k < i + n → p k = none := by
  induction n generalizing i with
  | zero => exact ⟨fun _ k hk hk' => absurd hk (Nat.not_le.2 hk'), fun _ => rfl⟩
  | succ n ih =>
    rw [firstFrom, Option.or_eq_none_iff, ih]
    refine ⟨fun ⟨h, h'⟩ k hk hk' => ?_, fun h => ⟨h i le_rfl (by omega), fun k hk hk' =>
      h k (by omega) (by omega)⟩⟩
    rcases hk.eq_or_lt with rfl | hk
    · exact h
    · exact h' k hk (by omega)

theorem firstFrom_eq_some (h : firstFrom p n i = some a) :
    ∃ k, i ≤ k ∧ k < i + n ∧ p k = some a ∧ ∀ j, i ≤ j → j < k → p j = none := by
  induction n generalizing i with
  | zero => cases h
  | succ n ih =>
    rw [firstFrom] at h
    cases hp : p i with
    | some b =>
      rw [hp] at h
      exact ⟨i, le_rfl, by omega, hp.trans h, fun j hj hj' => absurd hj (Nat.not_le.2 hj')⟩
    | none =>
      rw [hp] at h
      obtain ⟨k, hk, hk', ha, hmin⟩ := ih h
      refine ⟨k, by omega, by omega, ha, fun j hj hj' => ?_⟩
      rcases hj.eq_or_lt with rfl | hj
      · exact hp
      · exact hmin j hj hj'

/-! ## The first item of a list -/

variable {β : Type*} {P : β → Prop} {l l' : List β} {x y : β}

/-- `x` is the first item of the list with the property `P`. -/
def FirstWith (P : β → Prop) (l : List β) (x : β) : Prop :=
  ∃ pre post, l = pre ++ x :: post ∧ P x ∧ ∀ b ∈ pre, ¬P b

namespace FirstWith

theorem holds (h : FirstWith P l x) : P x := by
  obtain ⟨pre, post, -, hx, -⟩ := h
  exact hx

theorem mem (h : FirstWith P l x) : x ∈ l := by
  obtain ⟨pre, post, rfl, -⟩ := h
  exact List.mem_append_right _ List.mem_cons_self

theorem head (hx : P x) : FirstWith P (x :: l) x :=
  ⟨[], l, rfl, hx, fun _ hb => absurd hb List.not_mem_nil⟩

/-- The first one in the second part, if there is none in the first part. -/
theorem append_right (h : FirstWith P l' x) (hl : ∀ b ∈ l, ¬P b) : FirstWith P (l ++ l') x := by
  obtain ⟨pre, post, rfl, hx, hpre⟩ := h
  exact ⟨l ++ pre, post, (List.append_assoc ..).symm, hx, List.forall_mem_append.2 ⟨hl, hpre⟩⟩

theorem append_left (h : FirstWith P l x) : FirstWith P (l ++ l') x := by
  obtain ⟨pre, post, rfl, hx, hpre⟩ := h
  exact ⟨pre, post ++ l', List.append_assoc .., hx, hpre⟩

theorem cons (h : FirstWith P l x) (hy : ¬P y) : FirstWith P (y :: l) x :=
  h.append_right (List.forall_mem_singleton.2 hy)

theorem unique (hx : FirstWith P l x) (hy : FirstWith P l y) : x = y := by
  obtain ⟨pre, post, rfl, hPx, hpre⟩ := hx
  obtain ⟨pre', post', heq, hPy, hpre'⟩ := hy
  rcases List.append_eq_append_iff.1 heq with ⟨mid, rfl, hmid⟩ | ⟨mid, rfl, hmid⟩
  · cases mid with
    | nil => exact (List.cons.inj hmid).1
    | cons z mid =>
      obtain ⟨rfl, -⟩ := List.cons.inj hmid
      exact absurd hPx (hpre' _ (List.mem_append_right _ List.mem_cons_self))
  · cases mid with
    | nil => exact (List.cons.inj hmid).1.symm
    | cons z mid =>
      obtain ⟨rfl, -⟩ := List.cons.inj hmid
      exact absurd hPy (hpre _ (List.mem_append_right _ List.mem_cons_self))

end FirstWith

end Machine

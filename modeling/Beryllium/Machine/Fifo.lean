import Beryllium.Machine.System
import Mathlib.Data.List.Basic
import Mathlib.Data.List.Infix

/-!
# First in, first out

What a queue is for: it accepts entries, keeps them waiting, and returns each of them once, in the
order of their acceptance. A system is a queue if each of its steps accepts one entry, takes the
entry that waits longest, or leaves everything as it is, the last not being an answer to a read
while entries are waiting (`Fifo.Step`). Then, along every run:

* `System.Run.fifo_balanced`: what was accepted is what was returned, followed by what is waiting;
* `System.Run.fifo_served`: what was accepted is returned after as many reads as entries are
  waiting.
-/

namespace Machine

/-- What a queue accepted and returned so far, and what is waiting in it. -/
@[ext] structure Fifo (α : Type*) where
  accepted : List α
  returned : List α
  waiting : List α

namespace Fifo

variable {α : Type*} {f f' : Fifo α} {read : Bool}

/-- Everything that was accepted is returned or waiting, in the order of acceptance. -/
def Balanced (f : Fifo α) : Prop := f.accepted = f.returned ++ f.waiting

/-- The steps of a queue, a `read` or another one. -/
inductive Step (f : Fifo α) : Bool → Fifo α → Prop
  | idle {read : Bool} (h : read = true → f.waiting = []) : Step f read f
  | accept (c : α) : Step f false ⟨f.accepted ++ [c], f.returned, f.waiting ++ [c]⟩
  | take {c : α} {w : List α} (read : Bool) (h : f.waiting = c :: w) :
      Step f read ⟨f.accepted, f.returned ++ [c], w⟩

theorem Step.balanced (h : f.Step read f') (hf : f.Balanced) : f'.Balanced := by
  rw [Balanced] at hf
  rcases h with _ | c | ⟨_, hw⟩
  · exact hf
  · rw [Balanced, hf, List.append_assoc]
  · rw [Balanced, hf, hw, List.append_assoc, List.singleton_append]

theorem Step.accepted_prefix (h : f.Step read f') : f.accepted <+: f'.accepted := by
  rcases h with _ | c | _
  · exact List.prefix_rfl
  · exact List.prefix_append ..
  · exact List.prefix_rfl

theorem Step.returned_le (h : f.Step read f') : f.returned.length ≤ f'.returned.length := by
  rcases h with _ | c | _
  · exact le_rfl
  · exact le_rfl
  · exact List.length_append.symm ▸ Nat.le_add_right ..

/-- A read returns an entry, unless all are returned. -/
theorem Step.read_returned (h : f.Step true f') (hf : f.Balanced) :
    f.accepted.length ≤ f'.returned.length ∨ f.returned.length + 1 ≤ f'.returned.length := by
  rcases h with hw | _ | _
  · rw [Balanced, hw rfl, List.append_nil] at hf
    exact .inl (le_of_eq (congrArg List.length hf))
  · exact .inr (by rw [List.length_append, List.length_singleton])

end Fifo

namespace System

variable {S Op α : Type*} {sys : System S Op} {P : S → Prop} {view : S → Fifo α}
  {isRead : Op → Bool} {s s' : S} {ops : List Op}
  (hstep : ∀ s op s', P s → sys.guard s op → sys.step s op = some s' →
    P s' ∧ (view s).Step (isRead op) (view s'))

include hstep

theorem Run.fifo_balanced (h : sys.Run s ops s') (hs : P s) (hb : (view s).Balanced) :
    P s' ∧ (view s').Balanced :=
  h.of_step (P := fun s => P s ∧ (view s).Balanced)
    (fun s op s' hs hg hst => (hstep s op s' hs.1 hg hst).imp_right fun ht => ht.balanced hs.2)
    ⟨hs, hb⟩

/-- Every read brings the number of returned entries up by one, until all are returned. -/
theorem Run.fifo_progress (h : sys.Run s ops s') (hs : P s) (hb : (view s).Balanced) :
    (view s).accepted <+: (view s').accepted ∧
      ((view s).accepted.length ≤ (view s').returned.length ∨
        (view s).returned.length + ops.countP isRead ≤ (view s').returned.length) := by
  induction h with
  | nil => exact ⟨List.prefix_rfl, .inr le_rfl⟩
  | @cons s t s' op ops hg hst hr ih =>
    obtain ⟨hpt, ht⟩ := hstep s op t hs hg hst
    obtain ⟨hpre, hlen⟩ := ih hpt (ht.balanced hb)
    refine ⟨ht.accepted_prefix.trans hpre, ?_⟩
    have hle := ht.accepted_prefix.length_le
    have hret := ht.returned_le
    rw [List.countP_cons]
    cases hop : isRead op with
    | false =>
      rw [if_neg Bool.false_ne_true]
      omega
    | true =>
      rw [hop] at ht
      have hread := ht.read_returned hb
      rw [if_pos rfl]
      omega

/-- What was accepted is returned, once there were as many reads as entries waiting. -/
theorem Run.fifo_served (h : sys.Run s ops s') (hs : P s) (hb : (view s).Balanced)
    (hreads : (view s).waiting.length ≤ ops.countP isRead) :
    (view s).accepted <+: (view s').returned := by
  obtain ⟨hpre, hlen⟩ := h.fifo_progress hstep hs hb
  obtain ⟨-, hb'⟩ := h.fifo_balanced hstep hs hb
  have hsum := congrArg List.length hb
  rw [List.length_append] at hsum
  rw [hb'] at hpre
  exact List.prefix_of_prefix_length_le hpre (List.prefix_append ..) (by omega)

end System

end Machine

import Mathlib.Logic.Relation
import Mathlib.Tactic.Common

/-!
# Nested interrupts

Code that is interrupted between any two of its steps, by handlers that are interrupted
themselves. An *activity* is a piece of code that runs: the code that is interrupted, or a handler
that has been entered. A handler is entered from any state, its activity takes steps and is
interrupted, and then it is left (`Interrupts.Run`).

* `Interrupts.Run.keeps`: what the steps of every activity keep, and what a whole interrupt keeps
  if its activity does, is kept by every run;
* `Interrupts.Run.transparent`: if an interrupt leaves all alone that an activity sees, an
  interrupted run ends as one that is not interrupted does, as far as the activity sees.
-/

namespace Machine

/-- The steps of the activities `A`, and how the handlers for the vectors `V` are entered and
    left, over the states `S`. -/
structure Interrupts (S A V : Type*) where
  /-- The steps of an activity. -/
  step : A → S → S → Prop
  /-- A handler is entered. -/
  enter : V → S → S → Prop
  /-- The activity of a handler that was entered in a state. -/
  handler : V → S → A
  /-- A handler that was entered in one state is left from another, for a third. -/
  leave : V → S → S → S → Prop

namespace Interrupts

variable {S A V : Type*} (sys : Interrupts S A V)

/-- The runs of an activity, with all that interrupts it. -/
inductive Run : A → S → S → Prop
  | nil (a : A) (s : S) : Run a s s
  | step {a : A} {s t u : S} : sys.step a s t → Run a t u → Run a s u
  | interrupt {a : A} {v : V} {s t t' u w : S} : sys.enter v s t → Run (sys.handler v t) t t' →
      sys.leave v t t' u → Run a u w → Run a s w

/-- A whole interrupt. -/
def Served (s u : S) : Prop :=
  ∃ v t t', sys.enter v s t ∧ sys.Run (sys.handler v t) t t' ∧ sys.leave v t t' u

variable {sys} {a : A} {s t u : S}

theorem Run.trans (h : sys.Run a s t) (h' : sys.Run a t u) : sys.Run a s u := by
  induction h with
  | nil => exact h'
  | step hs _ ih => exact .step hs (ih h')
  | interrupt he hr hl _ _ ih => exact .interrupt he hr hl (ih h')

/-- What the steps of every activity keep, and a whole interrupt if its activity does, is kept by
    every run. -/
theorem Run.keeps {K : A → S → S → Prop} (hrefl : ∀ a s, K a s s)
    (htrans : ∀ a s t u, K a s t → K a t u → K a s u) (hstep : ∀ a s t, sys.step a s t → K a s t)
    (hserve : ∀ a v s t t' u, sys.enter v s t → K (sys.handler v t) t t' →
      sys.leave v t t' u → K a s u) (h : sys.Run a s u) : K a s u := by
  induction h with
  | nil a s => exact hrefl a s
  | step hs _ ih => exact htrans _ _ _ _ (hstep _ _ _ hs) ih
  | interrupt he _ hl _ ih ih' => exact htrans _ _ _ _ (hserve _ _ _ _ _ _ he ih hl) ih'

/-- If the activity `a` sees nothing of an interrupt, where `I` holds, then it ends as without
    the interrupts. -/
theorem Run.transparent (Sees : S → S → Prop) (I : S → Prop)
    (hstep : ∀ s t s', I s → Sees s s' → sys.step a s t → I t ∧ ∃ t', sys.step a s' t' ∧ Sees t t')
    (hserve : ∀ s u s', I s → Sees s s' → sys.Served s u → I u ∧ Sees u s')
    (h : sys.Run a s u) {s' : S} (hs : I s) (hsees : Sees s s') :
    ∃ u', Relation.ReflTransGen (sys.step a) s' u' ∧ Sees u u' := by
  induction h generalizing s' with
  | nil => exact ⟨s', .refl, hsees⟩
  | step hst _ ih =>
    obtain ⟨hi, t', ht', hsees'⟩ := hstep _ _ _ hs hsees hst
    obtain ⟨u', hu', hu⟩ := ih hstep hi hsees'
    exact ⟨u', .head ht' hu', hu⟩
  | interrupt he hr hl _ _ ih =>
    obtain ⟨hi, hsees'⟩ := hserve _ _ _ hs hsees ⟨_, _, _, he, hr, hl⟩
    exact ih hstep hi hsees'

end Interrupts

end Machine

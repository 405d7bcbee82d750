import Mathlib.Tactic.Common
import Mathlib.Data.List.Basic

/-!
# Systems taking step after step

A *system* takes operations one at a time: an operation is enabled at a state by its guard, and
takes it to the next state, or gets stuck (`none`: a loop that does not end, an access out of
bounds). Its runs are the finite sequences of enabled operations (`System.Run`), and its reachable
states the ends of the runs from an initial state.

* `System.Reachable.of_step`: what holds initially and is kept by every enabled step holds in every
  reachable state;
* `System.Run.of_step`: the same along one run, from any state;
* `System.Run.refines`: a relation to an abstract state that every step keeps holds at the end of
  every run;
* `System.Run.simulates`: the same for a system whose operations have guards too;
* `System.Run.answered`: the same for a system that takes any number of steps where this one takes
  one;
* `System.restrict`: the runs whose steps all meet a condition;
* `System.Run.iff_restrict`: a condition on the steps that is exact for what holds at the end of a
  run;
* `System.Run.eachStep_iff`: one that is exact for what each step of a run does.
-/

namespace Machine

/-- A system with the states `S` and the operations `Op`. -/
structure System (S Op : Type*) where
  /-- The initial states. -/
  init : S → Prop
  /-- When an operation may be called. -/
  guard : S → Op → Prop
  /-- What an operation does, `none` if it gets stuck. -/
  step : S → Op → Option S

namespace System

variable {S Op : Type*} (sys : System S Op)

/-- The runs: `Run s ops s'` if the operations `ops`, each enabled when it is
    called, lead from `s` to `s'`. -/
inductive Run : S → List Op → S → Prop
  | nil (s : S) : Run s [] s
  | cons {s t s' : S} {op : Op} {ops : List Op} :
      sys.guard s op → sys.step s op = some t → Run t ops s' → Run s (op :: ops) s'

/-- The states at the end of a run from an initial state. -/
def Reachable (s : S) : Prop := ∃ s₀ ops, sys.init s₀ ∧ sys.Run s₀ ops s

/-- The system that only takes the steps that meet the condition `C`. -/
def restrict (C : S → Op → Prop) : System S Op where
  init := sys.init
  guard s op := sys.guard s op ∧ C s op
  step := sys.step

/-- `P` holds of each step that the operations take from `s` on. -/
def EachStep (P : S → Op → S → Prop) (s : S) (ops : List Op) : Prop :=
  ∀ xs op ys t t', ops = xs ++ op :: ys → sys.Run s xs t → sys.step t op = some t' → P t op t'

variable {sys}

theorem run_nil {s u : S} : sys.Run s [] u ↔ u = s := by
  constructor
  · rintro ⟨⟩
    rfl
  · rintro rfl
    exact .nil _

theorem run_cons {s u : S} {op : Op} {ops : List Op} :
    sys.Run s (op :: ops) u ↔ sys.guard s op ∧ ∃ t, sys.step s op = some t ∧ sys.Run t ops u := by
  constructor
  · rintro (_ | ⟨hg, hs, h⟩)
    exact ⟨hg, _, hs, h⟩
  · rintro ⟨hg, t, hs, h⟩
    exact .cons hg hs h

theorem Run.append {s t u : S} {xs ys : List Op} (h : sys.Run s xs t) (h' : sys.Run t ys u) :
    sys.Run s (xs ++ ys) u := by
  induction h with
  | nil => exact h'
  | cons hg hs _ ih => exact .cons hg hs (ih h')

theorem Run.snoc {s t u : S} {ops : List Op} {op : Op} (h : sys.Run s ops t)
    (hg : sys.guard t op) (hs : sys.step t op = some u) : sys.Run s (ops ++ [op]) u :=
  h.append (.cons hg hs (.nil u))

/-- A run can be taken apart. -/
theorem Run.of_append {s u : S} {xs ys : List Op} (h : sys.Run s (xs ++ ys) u) :
    ∃ t, sys.Run s xs t ∧ sys.Run t ys u := by
  induction xs generalizing s with
  | nil => exact ⟨s, .nil s, h⟩
  | cons op xs ih =>
    rcases h with _ | ⟨hg, hs, h⟩
    obtain ⟨t, hxs, hys⟩ := ih h
    exact ⟨t, .cons hg hs hxs, hys⟩

/-- The operations determine where a run ends. -/
theorem Run.unique {s t t' : S} {ops : List Op} (h : sys.Run s ops t) (h' : sys.Run s ops t') :
    t = t' := by
  induction h with
  | nil =>
    cases h'
    rfl
  | cons _ hs _ ih =>
    rcases h' with _ | ⟨-, hs', h'⟩
    cases hs.symm.trans hs'
    exact ih h'

theorem Run.of_snoc {s u : S} {ops : List Op} {op : Op} (h : sys.Run s (ops ++ [op]) u) :
    ∃ t, sys.Run s ops t ∧ sys.guard t op ∧ sys.step t op = some u := by
  obtain ⟨t, hops, _ | ⟨hg, hs, _ | _⟩⟩ := h.of_append
  exact ⟨t, hops, hg, hs⟩

/-- What every enabled step keeps holds at the end of every run. -/
theorem Run.of_step {P : S → Prop}
    (hstep : ∀ s op s', P s → sys.guard s op → sys.step s op = some s' → P s')
    {s s' : S} {ops : List Op} (h : sys.Run s ops s') (hs : P s) : P s' := by
  induction h with
  | nil => exact hs
  | cons hg hst _ ih => exact ih (hstep _ _ _ hs hg hst)

theorem Run.of_restrict {C : S → Op → Prop} {s s' : S} {ops : List Op}
    (h : (sys.restrict C).Run s ops s') : sys.Run s ops s' := by
  induction h with
  | nil => exact .nil _
  | cons hg hst _ ih => exact .cons hg.1 hst ih

/-- What the guard demands of an operation holds of those of a run. -/
theorem Run.forall_mem {p : Op → Prop} (hp : ∀ s op, sys.guard s op → p op) {s s' : S}
    {ops : List Op} (h : sys.Run s ops s') : ∀ op ∈ ops, p op := by
  induction h with
  | nil => exact fun op hop => absurd hop List.not_mem_nil
  | cons hg _ _ ih => exact List.forall_mem_cons.2 ⟨hp _ _ hg, ih⟩

/-- A run of operations that meet `C` in every state. -/
theorem Run.restrict {C : S → Op → Prop} {s s' : S} {ops : List Op} (h : sys.Run s ops s')
    (hC : ∀ op ∈ ops, ∀ s, C s op) : (sys.restrict C).Run s ops s' := by
  induction h with
  | nil => exact .nil _
  | @cons s t s' op ops hg hst _ ih =>
    obtain ⟨hop, hops⟩ := List.forall_mem_cons.1 hC
    exact .cons ⟨hg, hop s⟩ hst (ih hops)

/-- If the steps that meet `C` keep `P`, and meet `D` where `P` holds, then a run whose steps
    all meet `C` is one whose steps all meet `D`. -/
theorem Run.restrict_mono {P : S → Prop} {C D : S → Op → Prop}
    (hstep : ∀ s op s', P s → sys.guard s op → C s op → sys.step s op = some s' → P s' ∧ D s op)
    {s s' : S} {ops : List Op} (h : (sys.restrict C).Run s ops s') (hs : P s) :
    (sys.restrict D).Run s ops s' := by
  induction h with
  | nil => exact .nil _
  | cons hg hst _ ih =>
    obtain ⟨ht, hd⟩ := hstep _ _ _ hs hg.1 hg.2 hst
    exact .cons ⟨hg.1, hd⟩ hst (ih ht)

/-- If every enabled step is answered by a step `f` of an abstract state, a run is answered by
    the steps of its operations. -/
theorem Run.refines {T : Type*} {R : S → T → Prop} {f : T → Op → T}
    (hstep : ∀ s x op s', R s x → sys.guard s op → sys.step s op = some s' → R s' (f x op))
    {s s' : S} {ops : List Op} (h : sys.Run s ops s') {x : T} (hx : R s x) :
    R s' (ops.foldl f x) := by
  induction h generalizing x with
  | nil => exact hx
  | cons hg hst _ ih => exact ih (hstep _ _ _ _ hx hg hst)

/-- If every enabled step is answered by an enabled step of another system, so is a run by a run of
    the same operations. -/
theorem Run.simulates {T : Type*} {sys' : System T Op} {R : S → T → Prop}
    (hstep : ∀ s x op s', R s x → sys.guard s op → sys.step s op = some s' →
      ∃ x', sys'.guard x op ∧ sys'.step x op = some x' ∧ R s' x')
    {s s' : S} {ops : List Op} (h : sys.Run s ops s') {x : T} (hx : R s x) :
    ∃ x', sys'.Run x ops x' ∧ R s' x' := by
  induction h generalizing x with
  | nil => exact ⟨x, .nil x, hx⟩
  | cons hg hst _ ih =>
    obtain ⟨y, hgy, hsty, hy⟩ := hstep _ _ _ _ hx hg hst
    obtain ⟨x', hrun, hx'⟩ := ih hy
    exact ⟨x', .cons hgy hsty hrun, hx'⟩

/-- If every enabled step is answered by a run of another system, so is every run. -/
theorem Run.answered {T Op' : Type*} {sys' : System T Op'} {R : S → T → Prop}
    (hstep : ∀ s x op s', R s x → sys.guard s op → sys.step s op = some s' →
      ∃ ops x', sys'.Run x ops x' ∧ R s' x')
    {s s' : S} {ops : List Op} (h : sys.Run s ops s') {x : T} (hx : R s x) :
    ∃ ops' x', sys'.Run x ops' x' ∧ R s' x' := by
  induction h generalizing x with
  | nil => exact ⟨[], x, .nil x, hx⟩
  | cons hg hst _ ih =>
    obtain ⟨xs, y, hrun, hy⟩ := hstep _ _ _ _ hx hg hst
    obtain ⟨ys, x', hrest, hx'⟩ := ih hy
    exact ⟨xs ++ ys, x', hrun.append hrest, hx'⟩

/-- What holds initially and is kept by every enabled step holds in every
    reachable state. -/
theorem Reachable.of_step {P : S → Prop} (hinit : ∀ s, sys.init s → P s)
    (hstep : ∀ s op s', P s → sys.guard s op → sys.step s op = some s' → P s')
    {s : S} (h : sys.Reachable s) : P s := by
  obtain ⟨s₀, ops, h₀, hr⟩ := h
  exact hr.of_step hstep (hinit s₀ h₀)

/-- If every enabled step keeps `P`, and where `P` holds it ends with `Q` exactly if `Q` held
    before and the step meets `C`, then a run from a state with `P` and `Q` ends with `Q`
    exactly if its steps all meet `C`. -/
theorem Run.iff_restrict {P Q : S → Prop} {C : S → Op → Prop}
    (hP : ∀ s op s', P s → sys.guard s op → sys.step s op = some s' → P s')
    (hQ : ∀ s op s', P s → sys.guard s op → sys.step s op = some s' → (Q s' ↔ Q s ∧ C s op))
    {s s' : S} {ops : List Op} (h : sys.Run s ops s') (hs : P s) (hq : Q s) :
    Q s' ↔ (sys.restrict C).Run s ops s' := by
  induction h with
  | nil => exact ⟨fun _ => .nil _, fun _ => hq⟩
  | @cons s t s' op ops hg hst hr ih =>
    have ht := hP s op t hs hg hst
    have hiff := hQ s op t hs hg hst
    constructor
    · intro hq'
      -- without `Q` after the first step there would be none at the end
      have hqt : Q t := by
        by_contra hn
        refine (hr.of_step (P := fun s => P s ∧ ¬Q s) (fun u op v hu hgu hsu => ?_) ⟨ht, hn⟩).2 hq'
        exact ⟨hP u op v hu.1 hgu hsu, fun hv => hu.2 ((hQ u op v hu.1 hgu hsu).1 hv).1⟩
      exact .cons ⟨hg, (hiff.1 hqt).2⟩ hst ((ih ht hqt).1 hq')
    · rintro (_ | ⟨hg', hst', hr'⟩)
      cases hst.symm.trans hst'
      have hqt := hiff.2 ⟨hq, hg'.2⟩
      exact (ih ht hqt).2 hr'

theorem EachStep.head {P : S → Op → S → Prop} {s t : S} {op : Op} {ops : List Op}
    (h : sys.EachStep P s (op :: ops)) (hst : sys.step s op = some t) : P s op t :=
  h [] op ops s t rfl (.nil s) hst

theorem EachStep.tail {P : S → Op → S → Prop} {s t : S} {op : Op} {ops : List Op}
    (h : sys.EachStep P s (op :: ops)) (hg : sys.guard s op) (hst : sys.step s op = some t) :
    sys.EachStep P t ops := fun xs op' ys u u' hops hu hst' =>
  h (op :: xs) op' ys u u' (congrArg (op :: ·) hops) (.cons hg hst hu) hst'

/-- If the steps that meet `C` keep an invariant and do what `P` says, so does each step of a run
    whose steps all meet `C`. -/
theorem Run.eachStep {P : S → Op → S → Prop} {I : S → Prop} {C : S → Op → Prop}
    (hC : ∀ s op s', I s → sys.guard s op → C s op → sys.step s op = some s' → I s' ∧ P s op s')
    {s s' : S} {ops : List Op} (h : (sys.restrict C).Run s ops s') (hs : I s) :
    sys.EachStep P s ops := by
  intro xs op ys t t' hops ht hst
  subst hops
  -- the state before the step is the end of a run of the steps before it
  obtain ⟨u, hu, hrest⟩ := h.of_append
  obtain rfl : u = t := hu.of_restrict.unique ht
  have hu' : I u := by
    refine hu.of_step (fun a op b ha hg hst => ?_) hs
    exact (hC a op b ha hg.1 hg.2 hst).1
  rcases hrest with _ | ⟨hg, -, -⟩
  exact (hC u op t' hu' hg.1 hg.2 hst).2

/-- If the other steps do not do what `P` says, each step of a run does what `P` says exactly if
    its steps all meet `C`. -/
theorem Run.eachStep_iff {P : S → Op → S → Prop} {I : S → Prop} {C : S → Op → Prop}
    (hC : ∀ s op s', I s → sys.guard s op → C s op → sys.step s op = some s' → I s' ∧ P s op s')
    (hN : ∀ s op s', I s → sys.guard s op → ¬C s op → sys.step s op = some s' → ¬P s op s')
    {s s' : S} {ops : List Op} (h : sys.Run s ops s') (hs : I s) :
    sys.EachStep P s ops ↔ (sys.restrict C).Run s ops s' := by
  refine ⟨fun hall => ?_, fun hr => hr.eachStep hC hs⟩
  induction h with
  | nil => exact .nil _
  | @cons s t s' op ops hg hst _ ih =>
    have hop : C s op := by
      by_contra hn
      exact hN s op t hs hg hn hst (hall.head hst)
    exact .cons ⟨hg, hop⟩ hst (ih (hC s op t hs hg hop hst).1 (hall.tail hg hst))

theorem Reachable.step {s s' : S} {op : Op} (h : sys.Reachable s) (hg : sys.guard s op)
    (hs : sys.step s op = some s') : sys.Reachable s' := by
  obtain ⟨s₀, ops, h₀, hr⟩ := h
  exact ⟨s₀, ops ++ [op], h₀, hr.snoc hg hs⟩

end System

end Machine

import Mathlib.Data.BitVec
import Mathlib.Data.Finset.Max
import Mathlib.Data.Fintype.Basic
import Mathlib.Tactic.Common

/-!
# A pair of interrupt controllers

Two controllers of the type 8259A, the slave at line 2 of the master, as the processor sees them:
the initialisation by a sequence of command words (`Pic.command`, `Pic.data`), the requests on the
lines in the order of their priorities, and the ends of interrupts. Of the operation command words
only the mask and the non-specific end of interrupt are modelled; the other ones do nothing.

* `Pics.accept_cases`, `Pics.accept_isSome`: if no line is in service and none is masked, the
  request with the highest priority is accepted;
* `Pic.eoi_acknowledge`: the end of the only interrupt in service.
-/

namespace Machine

/-- A controller has lines. -/
local instance neZero_lines : NeZero 8 := ⟨by decide⟩

/-- What a controller takes a byte on its data port for. -/
inductive PicStage
  | ready
  | icw2
  | icw3
  | icw4
  deriving DecidableEq

/-- A controller: the vector of its line 0, the masked lines, the last two initialisation words and
    what the first said of them, the requested lines and those in service. -/
structure Pic where
  base : BitVec 8
  mask : BitVec 8
  cascade : BitVec 8
  mode : BitVec 8
  single : Bool
  fourth : Bool
  stage : PicStage
  request : Finset (Fin 8)
  service : Finset (Fin 8)

namespace Pic

variable (p : Pic)

/-- A non-specific end of interrupt: the line with the highest priority is not in service any more.
    -/
def eoi : Pic := { p with service := p.service.filter fun i => p.service.min ≠ i }

/-- A byte is written to the command port. -/
def command (v : BitVec 8) : Pic :=
  if v.getLsbD 4 then
    { p with
      mask := 0
      mode := if v.getLsbD 0 then p.mode else 0
      single := v.getLsbD 1
      fourth := v.getLsbD 0
      stage := .icw2
      request := ∅ }
  else if v = 0x20 then p.eoi
  else p

/-- The stage before the fourth initialisation word. -/
def stageFourth : PicStage := if p.fourth then .icw4 else .ready

/-- A byte is written to the data port. -/
def data (v : BitVec 8) : Pic :=
  match p.stage with
  | .ready => { p with mask := v }
  | .icw2 => { p with base := v &&& 0xF8, stage := if p.single then p.stageFourth else .icw3 }
  | .icw3 => { p with cascade := v, stage := p.stageFourth }
  | .icw4 => { p with mode := v, stage := .ready }

/-- The requests that are not masked, and have a higher priority than all in service. -/
def eligible : Finset (Fin 8) :=
  p.request.filter fun i => p.mask.getLsbD i = false ∧ ∀ j ∈ p.service, i < j

/-- The line that the processor is interrupted for. -/
def next : WithTop (Fin 8) := p.eligible.min

/-- The processor accepts the request on the line `i`. -/
def acknowledge (i : Fin 8) : Pic :=
  { p with request := p.request.erase i, service := insert i p.service }

/-- The vector of the line `i`. -/
def vector (i : Fin 8) : ℕ := p.base.toNat + i

/-- A request on the line `i`. -/
def raise (i : Fin 8) : Pic := { p with request := insert i p.request }

/-- There is no request on the line `i` any more. -/
def withdraw (i : Fin 8) : Pic := { p with request := p.request.erase i }

variable {p} {i : Fin 8}

/-- The end of the only interrupt in service. -/
theorem eoi_singleton (h : p.service = {i}) : p.eoi = { p with service := ∅ } := by
  simp [eoi, h, Finset.filter_singleton]

theorem eoi_empty (h : p.service = ∅) : p.eoi = p := by
  obtain ⟨base, mask, cascade, mode, single, fourth, stage, request, service⟩ := p
  subst h
  rfl

/-- A request that is accepted and ended is as if it had been taken back, if nothing else is in
    service. -/
theorem eoi_acknowledge (h : p.service = ∅) : (p.acknowledge i).eoi = p.withdraw i := by
  have hs : (p.acknowledge i).service = {i} := by simp [acknowledge, h]
  rw [eoi_singleton hs, withdraw, acknowledge, ← h]

theorem withdraw_of_notMem (h : i ∉ p.request) : p.withdraw i = p := by
  rw [withdraw, Finset.erase_eq_of_notMem h]

theorem eligible_eq (hm : p.mask = 0) (hs : p.service = ∅) : p.eligible = p.request := by
  simp [eligible, hm, hs]

end Pic

/-- The controllers, at the ports `0x20` and `0xA0`. -/
structure Pics where
  master : Pic
  slave : Pic

namespace Pics

variable (p : Pics)

/-- A byte is written to a port. -/
def outb (port : BitVec 16) (v : BitVec 8) : Pics :=
  if port = 0x20 then { p with master := p.master.command v }
  else if port = 0x21 then { p with master := p.master.data v }
  else if port = 0xA0 then { p with slave := p.slave.command v }
  else if port = 0xA1 then { p with slave := p.slave.data v }
  else p

/-- The master, with the request of the slave on its line 2. -/
def cascaded : Pic :=
  if p.slave.next = ⊤ then p.master.withdraw 2 else p.master.raise 2

/-- The processor accepts a request: its vector, and the controllers afterwards. -/
def accept : Option (ℕ × Pics) :=
  match p.cascaded.next with
  | none => none
  | some i =>
    if i = 2 then
      match p.slave.next with
      | none => none
      | some j => some (p.slave.vector j, ⟨p.master.acknowledge 2, p.slave.acknowledge j⟩)
    else some (p.master.vector i, { p with master := p.master.acknowledge i })

/-- No line is in service or masked, and the line of the slave is only requested by it. -/
structure Quiet (p : Pics) : Prop where
  masterMask : p.master.mask = 0
  slaveMask : p.slave.mask = 0
  masterService : p.master.service = ∅
  slaveService : p.slave.service = ∅
  cascade : 2 ∉ p.master.request

namespace Quiet

variable {p} (h : p.Quiet)
include h

theorem slave_next : p.slave.next = p.slave.request.min := by
  rw [Pic.next, Pic.eligible_eq h.slaveMask h.slaveService]

/-- The requests that the master sees. -/
theorem cascaded_next : p.cascaded.next =
    (if p.slave.request = ∅ then p.master.request else insert 2 p.master.request).min := by
  have hmask : p.cascaded.mask = 0 := by
    rw [cascaded]
    split <;> exact h.masterMask
  have hservice : p.cascaded.service = ∅ := by
    rw [cascaded]
    split <;> exact h.masterService
  have htop : p.slave.next = ⊤ ↔ p.slave.request = ∅ := by rw [h.slave_next, Finset.min_eq_top]
  rw [Pic.next, Pic.eligible_eq hmask hservice, cascaded]
  simp only [htop]
  split
  · exact congrArg Finset.min (Finset.erase_eq_of_notMem h.cascade)
  · rfl

/-- The request with the highest priority is accepted: those on the lines 0 and 1 come before those
    of the slave, which come before the other ones of the master. -/
theorem accept_cases {v : ℕ} {p' : Pics} (ha : p.accept = some (v, p')) :
    (∃ i ∈ p.master.request, v = p.master.vector i ∧
      p' = { p with master := p.master.acknowledge i } ∧
      (∀ j ∈ p.master.request, i ≤ j) ∧ (p.slave.request ≠ ∅ → i < 2)) ∨
    ∃ j ∈ p.slave.request, v = p.slave.vector j ∧
      p' = ⟨p.master.acknowledge 2, p.slave.acknowledge j⟩ ∧ (∀ k ∈ p.slave.request, j ≤ k) ∧
      ∀ i ∈ p.master.request, 2 < i := by
  rw [accept, h.cascaded_next, h.slave_next] at ha
  rcases hi : (if p.slave.request = ∅ then p.master.request
    else insert 2 p.master.request).min with _ | i
  · rw [hi] at ha
    cases ha
  have hmem := Finset.mem_of_min hi
  have hle : ∀ k ∈ (if p.slave.request = ∅ then p.master.request else insert 2 p.master.request),
      i ≤ k :=
    fun k hk => Finset.min_le_of_eq hk hi
  rw [hi] at ha
  simp only at ha
  by_cases hs : p.slave.request = ∅
  · -- only the master has requests
    rw [if_pos hs] at hmem hle
    have hne : i ≠ 2 := fun he => h.cascade (he ▸ hmem)
    rw [if_neg hne] at ha
    cases ha
    exact .inl ⟨i, hmem, rfl, rfl, hle, fun hn => absurd hs hn⟩
  rw [if_neg hs] at hmem hle
  obtain ⟨j, hj⟩ := Finset.min_of_nonempty (Finset.nonempty_iff_ne_empty.2 hs)
  by_cases h2 : i = 2
  · subst h2
    rw [if_pos rfl, hj] at ha
    cases ha
    refine .inr ⟨j, Finset.mem_of_min hj, rfl, rfl, fun k hk => Finset.min_le_of_eq hk hj,
      fun i hi => ?_⟩
    have hle2 := hle i (Finset.mem_insert_of_mem hi)
    exact lt_of_le_of_ne hle2 fun he => h.cascade (he ▸ hi)
  · rw [if_neg h2] at ha
    cases ha
    have hmem' := (Finset.mem_insert.1 hmem).resolve_left h2
    exact .inl ⟨i, hmem', rfl, rfl, fun k hk => hle k (Finset.mem_insert_of_mem hk),
      fun _ => lt_of_le_of_ne (hle 2 (Finset.mem_insert_self ..)) h2⟩

/-- A request is accepted if there is one. -/
theorem accept_isSome : p.accept.isSome ↔ p.master.request ≠ ∅ ∨ p.slave.request ≠ ∅ := by
  rw [accept, h.cascaded_next, h.slave_next]
  by_cases hs : p.slave.request = ∅
  · simp only [hs, if_true]
    by_cases hm : p.master.request = ∅
    · simp [hm]
    obtain ⟨i, hi⟩ := Finset.min_of_nonempty (Finset.nonempty_iff_ne_empty.2 hm)
    have hne : i ≠ 2 := fun he => h.cascade (he ▸ Finset.mem_of_min hi)
    simp [hi, hne, hm]
  · obtain ⟨i, hi⟩ := Finset.min_of_nonempty (Finset.insert_nonempty 2 p.master.request)
    obtain ⟨j, hj⟩ := Finset.min_of_nonempty (Finset.nonempty_iff_ne_empty.2 hs)
    simp only [if_neg hs, hi, hj]
    refine iff_of_true ?_ (.inr hs)
    by_cases h2 : i = 2
    · simp [h2]
    · simp [h2]

end Quiet

end Pics

end Machine

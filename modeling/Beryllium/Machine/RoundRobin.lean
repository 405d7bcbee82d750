import Mathlib.Data.List.Basic
import Mathlib.Data.List.Cycle
import Mathlib.Data.List.Perm.Basic
import Mathlib.Tactic.Common

/-!
# Round robin

A queue that is gone through in turn: one of its entries is the current one, the next one is the
entry after it, or the first one after the last (`Rotation.next`), and new entries are
added at the end (`Rotation.add`). Between two selections of the same entry every other entry that
was there throughout is selected exactly once, whatever is added in between
(`Rotation.Run.fair`).

The argument is about the entries that are still to come before an entry `e`
(`Rotation.toGo`): a turn takes the first of them, and an added entry only joins them.
-/

namespace Machine

variable {α : Type*}

/-- A queue with a current entry: the entries before it, and the ones after it. -/
structure Rotation (α : Type*) where
  before : List α
  current : α
  after : List α

namespace Rotation

variable {r r' : Rotation α} {x e a : α} {l xs ys sel : List α}

/-- The entries, in their order. -/
def queue (r : Rotation α) : List α := r.before ++ r.current :: r.after

/-- A new entry at the end. -/
def add (r : Rotation α) (x : α) : Rotation α := { r with after := r.after ++ [x] }

/-- The turn of the next entry. -/
def next (r : Rotation α) : Rotation α :=
  match r.after, r.before with
  | x :: xs, _ => ⟨r.before ++ [r.current], x, xs⟩
  | [], x :: xs => ⟨[], x, xs ++ [r.current]⟩
  | [], [] => r

/-- The other entries, in the order of their turns. -/
def turns (r : Rotation α) : List α := r.after ++ r.before

theorem queue_add : (r.add x).queue = r.queue ++ [x] := by
  rw [queue, queue, add, List.append_assoc, List.cons_append]

theorem current_mem_queue : r.current ∈ r.queue :=
  List.mem_append_right _ List.mem_cons_self

theorem queue_perm : r.queue.Perm (r.current :: r.turns) :=
  List.perm_middle.trans (.cons _ List.perm_append_comm)

theorem queue_next : r.next.queue = r.queue := by
  obtain ⟨_ | ⟨y, bs⟩, c, _ | ⟨x, as⟩⟩ := r
  · rfl
  · rfl
  · exact (congrArg (y :: ·) (List.append_nil _)).symm ▸ rfl
  · exact List.append_assoc ..

/-- The next turn is that of the first of the others, and the current entry becomes the last
    of them. -/
theorem turns_next (h : r.turns = x :: xs) :
    r.next.current = x ∧ r.next.turns = xs ++ [r.current] := by
  obtain ⟨_ | ⟨y, bs⟩, c, _ | ⟨z, as⟩⟩ := r
  · cases h
  · obtain ⟨rfl, rfl⟩ := List.cons.inj h
    exact ⟨rfl, (congrArg (· ++ [c]) (List.append_nil as)).symm⟩
  · obtain ⟨rfl, rfl⟩ := List.cons.inj h
    exact ⟨rfl, List.append_nil _⟩
  · obtain ⟨rfl, rfl⟩ := List.cons.inj h
    exact ⟨rfl, (List.append_assoc ..).symm⟩

theorem next_of_turns (h : r.turns = []) : r.next = r := by
  obtain ⟨_ | ⟨y, bs⟩, c, _ | ⟨z, as⟩⟩ := r
  · rfl
  · cases h
  · cases h
  · cases h

/-! ## The entries still to come -/

section

variable [DecidableEq α]

/-- The next entry is the cyclic successor of the current one. -/
theorem current_next (h : r.queue.Nodup) :
    r.next.current = r.queue.next r.current current_mem_queue := by
  have hlt : r.before.length < r.queue.length := by
    rw [queue, List.length_append, List.length_cons]
    omega
  have hcur : r.queue[r.before.length] = r.current := by
    simp only [queue, List.getElem_append_right le_rfl, Nat.sub_self, List.getElem_cons_zero]
  have hnext := List.next_getElem r.queue h r.before.length hlt
  simp only [hcur] at hnext
  rw [hnext]
  obtain ⟨bs, c, _ | ⟨x, as⟩⟩ := r
  · have hlen : (bs.length + 1) % (Rotation.mk bs c []).queue.length = 0 := by
      rw [queue, List.length_append]
      exact Nat.mod_self _
    simp only [hlen]
    rcases bs with _ | ⟨y, bs⟩ <;> rfl
  · have hlen : (bs.length + 1) % (Rotation.mk bs c (x :: as)).queue.length = bs.length + 1 := by
      rw [queue, List.length_append]
      exact Nat.mod_eq_of_lt (by simp only [List.length_cons]; omega)
    simp only [hlen]
    simp [queue, next]

/-- The entries whose turns come before that of `e`. -/
def toGo (r : Rotation α) (e : α) : List α := r.turns.takeWhile (· ≠ e)

theorem takeWhile_cons_ne (h : x ≠ e) :
    (x :: xs).takeWhile (· ≠ e) = x :: xs.takeWhile (· ≠ e) :=
  List.takeWhile_cons_of_pos (decide_eq_true h)

theorem takeWhile_cons_self : (e :: xs).takeWhile (· ≠ e) = [] :=
  List.takeWhile_cons_of_neg (fun h => of_decide_eq_true h rfl)

theorem takeWhile_append_of_notMem (h : e ∉ xs) :
    (xs ++ ys).takeWhile (· ≠ e) = xs ++ ys.takeWhile (· ≠ e) :=
  List.takeWhile_append_of_pos fun _ ha => decide_eq_true fun hae => h (hae ▸ ha)

theorem takeWhile_of_notMem (h : e ∉ xs) : xs.takeWhile (· ≠ e) = xs := by
  have happ : (xs ++ []).takeWhile (· ≠ e) = xs ++ [].takeWhile (· ≠ e) :=
    takeWhile_append_of_notMem h
  rwa [List.append_nil, List.takeWhile_nil, List.append_nil] at happ

theorem takeWhile_append_of_mem (h : e ∈ xs) :
    (xs ++ ys).takeWhile (· ≠ e) = xs.takeWhile (· ≠ e) := by
  obtain ⟨l, m, rfl, hl⟩ := List.eq_append_cons_of_mem h
  rw [List.append_assoc, List.cons_append, takeWhile_append_of_notMem hl,
    takeWhile_append_of_notMem hl, takeWhile_cons_self, takeWhile_cons_self]

/-- An added entry joins the entries still to come, or comes after `e`. -/
theorem toGo_add (hx : x ≠ e) :
    (r.add x).toGo e = r.toGo e ∨ ((r.add x).toGo e).Perm (r.toGo e ++ [x]) := by
  rw [toGo, toGo, turns, turns, add, List.append_assoc]
  by_cases h : e ∈ r.after
  · rw [takeWhile_append_of_mem h, takeWhile_append_of_mem h]
    exact .inl rfl
  · rw [takeWhile_append_of_notMem h, takeWhile_append_of_notMem h, List.singleton_append,
      takeWhile_cons_ne hx, List.append_assoc]
    exact .inr (List.Perm.append_left _ (List.perm_append_singleton ..).symm)

/-- A turn takes the first of the entries still to come. -/
theorem toGo_next (he : e ∈ r.queue) (hne : r.next.current ≠ e) :
    r.toGo e = r.next.current :: r.next.toGo e := by
  rcases hturns : r.turns with _ | ⟨x, xs⟩
  · rw [next_of_turns hturns] at hne
    have hc := queue_perm.mem_iff.1 he
    rw [hturns, List.mem_singleton] at hc
    exact absurd hc.symm hne
  · obtain ⟨hcur, hnext⟩ := turns_next hturns
    rw [hcur] at hne
    rw [toGo, toGo, hturns, hcur, hnext, takeWhile_cons_ne hne]
    refine congrArg (x :: ·) ?_
    by_cases hmem : e ∈ xs
    · rw [takeWhile_append_of_mem hmem]
    · have hc := queue_perm.mem_iff.1 he
      rw [hturns, List.mem_cons, List.mem_cons] at hc
      have hec : e = r.current := hc.resolve_right fun h => h.elim (hne ·.symm) hmem
      rw [takeWhile_of_notMem hmem, takeWhile_append_of_notMem hmem, ← hec, takeWhile_cons_self,
        List.append_nil]

theorem toGo_eq_nil (h : r.next.current = e) : r.toGo e = [] := by
  rcases hturns : r.turns with _ | ⟨x, xs⟩
  · rw [toGo, hturns, List.takeWhile_nil]
  · rw [(turns_next hturns).1] at h
    rw [toGo, hturns, h, takeWhile_cons_self]

end

/-! ## Runs -/

/-- The runs, with the entries they select: turns, and new entries between them. -/
inductive Run : Rotation α → List α → Rotation α → Prop
  | nil (r : Rotation α) : Run r [] r
  | add {r r' : Rotation α} {x : α} {sel : List α} :
      x ∉ r.queue → Run (r.add x) sel r' → Run r sel r'
  | next {r r' : Rotation α} {sel : List α} :
      Run r.next sel r' → Run r (r.next.current :: sel) r'

/-- Up to the selection of `e`, a run selects the entries that were to come before it, and
    otherwise only new ones. -/
theorem Run.selects [DecidableEq α] (h : r.Run sel r') (he : e ∈ r.queue) (hsel : sel = xs ++ [e])
    (hxs : e ∉ xs) : ∃ ys, xs.Perm (r.toGo e ++ ys) ∧ ∀ y ∈ ys, y ∉ r.queue := by
  induction h generalizing xs with
  | nil => exact absurd hsel.symm (List.append_ne_nil_of_right_ne_nil xs (List.cons_ne_nil e []))
  | @add r r' x sel hx _ ih =>
    have he' : e ∈ (r.add x).queue := queue_add ▸ List.mem_append_left _ he
    obtain ⟨ys, hperm, hys⟩ := ih he' hsel hxs
    have hnew : ∀ y ∈ ys, y ∉ r.queue := fun y hy hr =>
      hys y hy (queue_add ▸ List.mem_append_left _ hr)
    have hxe : x ≠ e := fun h => hx (h ▸ he)
    rcases toGo_add hxe with heq | hjoin
    · exact ⟨ys, heq ▸ hperm, hnew⟩
    · refine ⟨x :: ys, hperm.trans ?_, List.forall_mem_cons.2 ⟨hx, hnew⟩⟩
      exact (hjoin.append_right ys).trans (List.append_assoc .. ▸ List.Perm.refl _)
  | @next r r' sel _ ih =>
    have he' : e ∈ r.next.queue := queue_next.symm ▸ he
    rcases xs with _ | ⟨x, xs⟩
    · have hcur : r.next.current = e := (List.cons.inj hsel).1
      exact ⟨[], by rw [toGo_eq_nil hcur]; exact .nil, List.forall_mem_nil _⟩
    · obtain ⟨rfl, hrest⟩ := List.cons.inj hsel
      rw [List.mem_cons, not_or] at hxs
      obtain ⟨ys, hperm, hys⟩ := ih he' hrest hxs.2
      rw [toGo_next he (Ne.symm hxs.1)]
      exact ⟨ys, hperm.cons _, fun y hy => queue_next (r := r) ▸ hys y hy⟩

/-- Between two selections of the current entry, every other entry of the queue is selected
    exactly once. -/
theorem Run.fair [DecidableEq α] (h : r.Run (xs ++ [r.current]) r') (hq : r.queue.Nodup)
    (hxs : r.current ∉ xs) (ha : a ∈ r.queue) (hne : a ≠ r.current) : xs.count a = 1 := by
  obtain ⟨ys, hperm, hys⟩ := h.selects current_mem_queue rfl hxs
  have hnd := (queue_perm.nodup_iff.1 hq)
  rw [List.nodup_cons] at hnd
  have hmem : a ∈ r.turns := (List.mem_cons.1 (queue_perm.mem_iff.1 ha)).resolve_left hne
  rw [hperm.count_eq, List.count_append, toGo, takeWhile_of_notMem hnd.1,
    List.count_eq_one_of_mem hnd.2 hmem, List.count_eq_zero_of_not_mem fun h => hys a h ha]

end Rotation

end Machine

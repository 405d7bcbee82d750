import Mathlib.Algebra.Notation.Defs
import Mathlib.Data.Nat.Notation
import Mathlib.Logic.Function.Basic
import Mathlib.Order.Nat
import Mathlib.Tactic.Common

/-!
# Nodes of the file system

The nodes of `kernel/vfs.c`, with `finddir_vfs`, `readdir_vfs` and `open_vfs`. The nodes are in a
heap of their own (`NodeHeap`). The file system drivers are the functions that the nodes point to:
they may do anything to the nodes and to a state of their own, and get the names that they look up
as strings.

`finddirs` looks up one name after the other. If `finddir` finds new nodes only (`Drivers.Fresh`),
it never gets stuck (`finddirs_cases`), and finds `NULL` exactly when one of the lookups does
(`finddirs_null`).
-/

namespace Beryllium

/-! ## Nodes and drivers -/

/-- `vfs_node_t`. Functions are numbers, 0 the null pointer. -/
structure VfsNode where
  name : List UInt8
  type : ℕ
  flags : ℕ
  permissions : ℕ
  uid : ℕ
  gid : ℕ
  inode : ℕ
  length : ℕ
  device : ℕ
  deviceType : ℕ
  read : ℕ
  write : ℕ
  open' : ℕ
  close : ℕ
  ioctl : ℕ
  readdir : ℕ
  finddir : ℕ
  create : ℕ
  ptr : ℕ

/-- The nodes that are allocated: none at the null pointer, and none from `bound` on. -/
structure NodeHeap where
  node : ℕ → Option VfsNode
  bound : ℕ
  bound_pos : 0 < bound
  null : node 0 = none
  fresh : ∀ p, bound ≤ p → node p = none

/-- `malloc(sizeof(vfs_node_t))`, where the new node holds `garbage`. -/
def NodeHeap.malloc (h : NodeHeap) (garbage : VfsNode) : NodeHeap × ℕ :=
  ({ node := Function.update h.node h.bound (some garbage)
     bound := h.bound + 1
     bound_pos := Nat.succ_pos _
     null := by rw [Function.update_of_ne h.bound_pos.ne, h.null]
     fresh := fun p hp => by rw [Function.update_of_ne (by omega), h.fresh p (by omega)] }, h.bound)

/-- `memcpy(dst, src, sizeof(vfs_node_t))` between nodes. -/
def NodeHeap.memcpy (h : NodeHeap) (dst src : ℕ) : Option NodeHeap :=
  match hd : h.node dst, h.node src with
  | some _, some n => some
    { node := Function.update h.node dst (some n)
      bound := h.bound
      bound_pos := h.bound_pos
      null := by
        rw [Function.update_of_ne, h.null]
        rintro rfl
        rw [h.null] at hd
        cases hd
      fresh := fun p hp => by
        rw [Function.update_of_ne, h.fresh p hp]
        rintro rfl
        rw [h.fresh p hp] at hd
        cases hd }
  | _, _ => none

/-- Assignments to the fields of the node `p`, `none` if `f` gets stuck or there is no such
    node. -/
def NodeHeap.assign (h : NodeHeap) (p : ℕ) (f : VfsNode → Option VfsNode) : Option NodeHeap :=
  match hp : h.node p with
  | none => none
  | some n => (f n).map fun n' =>
    { node := Function.update h.node p (some n')
      bound := h.bound
      bound_pos := h.bound_pos
      null := by
        rw [Function.update_of_ne, h.null]
        rintro rfl
        rw [h.null] at hp
        cases hp
      fresh := fun q hq => by
        rw [Function.update_of_ne, h.fresh q hq]
        rintro rfl
        rw [h.fresh q hq] at hp
        cases hp }

/-- `malloc` of an array of `k` nodes, which hold `garbage`. -/
def NodeHeap.mallocArray (h : NodeHeap) (k : ℕ) (garbage : ℕ → VfsNode) : NodeHeap × ℕ :=
  ({ node := fun p =>
       if h.bound ≤ p ∧ p < h.bound + k then some (garbage (p - h.bound)) else h.node p
     bound := h.bound + k
     bound_pos := Nat.add_pos_left h.bound_pos k
     null := by rw [if_neg (fun hp => absurd hp.1 (Nat.not_le.2 h.bound_pos)), h.null]
     fresh := fun p hp => by rw [if_neg (by omega), h.fresh p (by omega)] }, h.bound)

/-- `free` of a node. -/
def NodeHeap.free (h : NodeHeap) (p : ℕ) : NodeHeap where
  node := Function.update h.node p none
  bound := h.bound
  bound_pos := h.bound_pos
  null := by
    rw [Function.update_apply, h.null, ite_self]
  fresh q hq := by
    rw [Function.update_apply, h.fresh q hq, ite_self]

/-- The nodes, and a state `W` of the drivers. -/
structure Env (W : Type) where
  heap : NodeHeap
  world : W

/-- What the functions of the drivers do: `finddir` looks a name up in a node, and answers with
    a node or `NULL`. -/
structure Drivers (W : Type) where
  finddir : ℕ → Env W → ℕ → List UInt8 → Env W × ℕ
  open' : ℕ → Env W → ℕ → ℕ → Env W

variable {W : Type} (d : Drivers W)

/-- `VFS_DIRECTORY` -/
def vfsDirectory : ℕ := 1 <<< 1

/-- `finddir_vfs` -/
def finddirVfs (e : Env W) (node : ℕ) (name : List UInt8) : Option (Env W × ℕ) := do
  let n ← e.heap.node node
  if n.type &&& vfsDirectory ≠ 0 ∧ n.finddir ≠ 0 then return d.finddir n.finddir e node name
  else return (e, 0)

/-- `open_vfs` -/
def openVfs (e : Env W) (node : ℕ) (flags : ℕ) : Option (Env W) := do
  let n ← e.heap.node node
  if n.open' ≠ 0 then return d.open' n.open' e node flags
  else return e

/-- `struct dirent` -/
structure Dirent where
  name : List UInt8
  ino : ℕ

/-- `readdir_vfs`, where `readdir` is what the functions of the drivers do. A null pointer is
    `none`. -/
def readdirVfs (readdir : ℕ → Env W → ℕ → ℕ → Option (Env W × Option Dirent)) (e : Env W)
    (node index : ℕ) : Option (Env W × Option Dirent) := do
  let n ← e.heap.node node
  if n.type &&& vfsDirectory ≠ 0 ∧ n.readdir ≠ 0 then readdir n.readdir e node index
  else return (e, none)

/-! ## The heap of nodes -/

variable {h h' : NodeHeap} {g n : VfsNode} {p : ℕ}

theorem NodeHeap.lt_bound (hn : h.node p = some n) : p < h.bound := by
  by_contra hp
  rw [h.fresh p (Nat.not_lt.1 hp)] at hn
  cases hn

theorem NodeHeap.ne_zero (hn : h.node p = some n) : p ≠ 0 := by
  rintro rfl
  rw [h.null] at hn
  cases hn

theorem NodeHeap.memcpy_eq {dst src : ℕ} {a : VfsNode} (hd : h.node dst = some a)
    (hs : h.node src = some n) : ∃ h', h.memcpy dst src = some h' ∧
      h'.node = Function.update h.node dst (some n) := by
  rw [NodeHeap.memcpy]
  split
  · next b m hd' hs' =>
    rw [hs] at hs'
    obtain rfl := Option.some.inj hs'
    exact ⟨_, rfl, rfl⟩
  · next hno => exact absurd hs (hno a n hd)

/-- The null pointer is no node to copy. -/
theorem NodeHeap.memcpy_null {dst : ℕ} : h.memcpy dst 0 = none := by
  rw [NodeHeap.memcpy]
  split
  · next hsrc =>
    rw [h.null] at hsrc
    cases hsrc
  · rfl

/-- What `memcpy` does, where it goes through. -/
theorem NodeHeap.of_memcpy {dst src : ℕ} (hm : h.memcpy dst src = some h') :
    h'.bound = h.bound ∧ ∃ n, h'.node = Function.update h.node dst (some n) := by
  rw [NodeHeap.memcpy] at hm
  split at hm
  · next n hdst hsrc =>
    obtain rfl := Option.some.inj hm
    exact ⟨rfl, n, rfl⟩
  · cases hm

theorem NodeHeap.eq_of_node (hn : h.node = h'.node) (hb : h.bound = h'.bound) : h = h' := by
  cases h
  cases h'
  obtain rfl : _ = _ := hn
  obtain rfl : _ = _ := hb
  rfl

theorem NodeHeap.assign_eq {f : VfsNode → Option VfsNode} (hn : h.node p = some n)
    (hf : f n = some g) : ∃ h', h.assign p f = some h' ∧ h'.bound = h.bound ∧
      h'.node = Function.update h.node p (some g) := by
  rw [NodeHeap.assign]
  split
  · next hno => rw [hno] at hn; cases hn
  · next m hm =>
    rw [hn] at hm
    obtain rfl := Option.some.inj hm
    rw [hf]
    exact ⟨_, rfl, rfl, rfl⟩

theorem NodeHeap.assign_none {f : VfsNode → Option VfsNode} (hn : h.node p = none) :
    h.assign p f = none := by
  rw [NodeHeap.assign]
  split
  · rfl
  · next m hm => rw [hn] at hm; cases hm

/-- A clone of a node is a new node with the same contents. -/
theorem NodeHeap.clone_eq (g : VfsNode) (hn : h.node p = some n) :
    ∃ h', (h.malloc g).1.memcpy (h.malloc g).2 p = some h' ∧
      h'.node = Function.update h.node h.bound (some n) := by
  have hsrc : (h.malloc g).1.node p = some n := by
    rw [← hn]
    exact Function.update_of_ne (NodeHeap.lt_bound hn).ne ..
  have hdst : (h.malloc g).1.node h.bound = some g := Function.update_self ..
  obtain ⟨h', hm, hnode⟩ := NodeHeap.memcpy_eq hdst hsrc
  exact ⟨h', hm, by rw [hnode]; exact Function.update_idem ..⟩

/-- A clone of a node is made as if `malloc` returned the node. -/
theorem NodeHeap.clone_malloc (g : VfsNode) (hn : h.node p = some n) :
    (h.malloc g).1.memcpy h.bound p = some (h.malloc n).1 := by
  obtain ⟨h', hm, hnode⟩ := NodeHeap.clone_eq g hn
  have hm' : (h.malloc g).1.memcpy h.bound p = some h' := hm
  have hbound : h'.bound = (h.malloc g).1.bound := (NodeHeap.of_memcpy hm').1
  have hnode' : h'.node = (h.malloc n).1.node := hnode
  rw [hm', NodeHeap.eq_of_node hnode' hbound]

/-- The second of two new nodes is copied to the first. -/
theorem NodeHeap.memcpy_clone (g n : VfsNode) :
    ((h.malloc g).1.malloc n).1.memcpy h.bound (h.malloc g).1.bound =
      some ((h.malloc n).1.malloc n).1 := by
  have hdst : ((h.malloc g).1.malloc n).1.node h.bound = some g :=
    (Function.update_of_ne (Nat.succ_ne_self _).symm ..).trans (Function.update_self ..)
  have hsrc : ((h.malloc g).1.malloc n).1.node (h.malloc g).1.bound = some n :=
    Function.update_self ..
  obtain ⟨h', hm, hnode⟩ := NodeHeap.memcpy_eq hdst hsrc
  have hbound : h'.bound = ((h.malloc g).1.malloc n).1.bound := (NodeHeap.of_memcpy hm).1
  have hnode' : h'.node = ((h.malloc n).1.malloc n).1.node := by
    have hne : h.bound + 1 ≠ h.bound := Nat.succ_ne_self _
    have hg : ((h.malloc g).1.malloc n).1.node =
        Function.update (Function.update h.node h.bound (some g)) (h.bound + 1) (some n) := rfl
    rw [hnode, hg, Function.update_comm hne, Function.update_idem]
    rfl
  rw [hm, NodeHeap.eq_of_node hnode' hbound]

/-! ## Looking up names -/

/-- `finddir` returns `NULL` or a new node. -/
def Drivers.Fresh (d : Drivers W) : Prop :=
  ∀ fn e node name n, e.heap.node node = some n →
    (d.finddir fn e node name).2 = 0 ∨
    (e.heap.node (d.finddir fn e node name).2 = none ∧
      ∃ m, (d.finddir fn e node name).1.heap.node (d.finddir fn e node name).2 = some m)

/-- The lookups of the names `q`, one after the other, from a node on: each in the node that the
    one before has found, which is freed then, and none after one that finds `NULL`. -/
def finddirs : Env W → ℕ → List (List UInt8) → Option (Env W × ℕ)
  | e, node, [] => some (e, node)
  | e, node, x :: q => do
    let (e, next) ← finddirVfs d e node (x ++ [0])
    let e := { e with heap := e.heap.free node }
    if next = 0 then return (e, 0) else finddirs e next q

variable {d} {e : Env W} {q : List (List UInt8)} {x : List UInt8}

/-- A lookup in a node finds `NULL` or another node. -/
theorem finddirVfs_cases (hd : d.Fresh) (hn : e.heap.node p = some n) (name : List UInt8) :
    ∃ e' next, finddirVfs d e p name = some (e', next) ∧
      (next ≠ 0 → ∃ m, (e'.heap.free p).node next = some m) := by
  rw [finddirVfs, hn, Option.bind_eq_bind, Option.bind_some]
  split_ifs
  · refine ⟨_, _, rfl, fun hne => ?_⟩
    obtain ⟨hnew, m, hm⟩ := (hd n.finddir e p name n hn).resolve_left hne
    refine ⟨m, (Function.update_of_ne (fun heq => ?_) ..).trans hm⟩
    rw [heq, hn] at hnew
    cases hnew
  · exact ⟨e, 0, rfl, fun h => absurd rfl h⟩

theorem finddirs_cases (hd : d.Fresh) (hn : e.heap.node p = some n) :
    ∃ e' p', finddirs d e p q = some (e', p') ∧ (p' ≠ 0 → ∃ m, e'.heap.node p' = some m) := by
  induction q generalizing e p n with
  | nil => exact ⟨e, p, rfl, fun _ => ⟨n, hn⟩⟩
  | cons x q ih =>
    obtain ⟨e', next, hfind, hnext⟩ := finddirVfs_cases hd hn (x ++ [0])
    rw [finddirs, hfind]
    by_cases hz : next = 0
    · subst hz
      exact ⟨_, 0, rfl, fun h => absurd rfl h⟩
    · obtain ⟨m, hm⟩ := hnext hz
      simp only [Option.bind_eq_bind, Option.bind_some, if_neg hz]
      exact ih (e := { e' with heap := e'.heap.free p }) hm

/-- The result is `NULL` if and only if one of the lookups finds `NULL`. -/
theorem finddirs_null (hp : p ≠ 0) : (finddirs d e p q).map Prod.snd = some 0 ↔
    ∃ q₁ x q₂ e₁ p₁ e₂, q = q₁ ++ x :: q₂ ∧ finddirs d e p q₁ = some (e₁, p₁) ∧ p₁ ≠ 0 ∧
      finddirVfs d e₁ p₁ (x ++ [0]) = some (e₂, 0) := by
  induction q generalizing e p with
  | nil =>
    -- without a lookup the result is `p`
    refine ⟨fun h => absurd (Option.some.inj h) hp, ?_⟩
    rintro ⟨q₁, x, q₂, e₁, p₁, e₂, h, -⟩
    exact absurd h (by simp)
  | cons y q ih =>
    cases hfind : finddirVfs d e p (y ++ [0]) with
    | none =>
      rw [finddirs, hfind]
      refine ⟨fun h => absurd h (by simp), ?_⟩
      rintro ⟨q₁, x, q₂, e₁, p₁, e₂, h, h₁, -, h₂⟩
      cases q₁ with
      | nil =>
        obtain ⟨rfl, rfl⟩ := List.cons.inj h
        obtain ⟨rfl, rfl⟩ := Prod.mk.inj (Option.some.inj h₁)
        rw [hfind] at h₂
        cases h₂
      | cons z q₁ =>
        obtain ⟨rfl, rfl⟩ := List.cons.inj h
        rw [finddirs, hfind] at h₁
        cases h₁
    | some w =>
      obtain ⟨e', next⟩ := w
      have hstep : ∀ r, finddirs d e p (y :: r) =
          if next = 0 then some ({ e' with heap := e'.heap.free p }, 0)
          else finddirs d { e' with heap := e'.heap.free p } next r := fun r => by
        rw [finddirs, hfind]
        rfl
      rw [hstep]
      by_cases hz : next = 0
      · subst hz
        exact ⟨fun _ => ⟨[], y, q, e, p, e', rfl, rfl, hp, hfind⟩, fun _ => rfl⟩
      · -- the lookup that finds `NULL` is a later one
        rw [if_neg hz, ih hz]
        constructor
        · rintro ⟨q₁, x, q₂, e₁, p₁, e₂, rfl, h₁, hp₁, h₂⟩
          exact ⟨y :: q₁, x, q₂, e₁, p₁, e₂, rfl, by rw [hstep, if_neg hz, h₁], hp₁, h₂⟩
        · rintro ⟨q₁, x, q₂, e₁, p₁, e₂, h, h₁, hp₁, h₂⟩
          cases q₁ with
          | nil =>
            obtain ⟨rfl, rfl⟩ := List.cons.inj h
            obtain ⟨rfl, rfl⟩ := Prod.mk.inj (Option.some.inj h₁)
            rw [hfind] at h₂
            exact absurd (Prod.mk.inj (Option.some.inj h₂)).2 hz
          | cons z q₁ =>
            obtain ⟨rfl, rfl⟩ := List.cons.inj h
            rw [hstep, if_neg hz] at h₁
            exact ⟨q₁, x, q₂, e₁, p₁, e₂, rfl, h₁, hp₁, h₂⟩

theorem openVfs_some (flags : ℕ) (hn : e.heap.node p = some n) :
    ∃ e', openVfs d e p flags = some e' := by
  rw [openVfs, hn, Option.bind_eq_bind, Option.bind_some]
  split_ifs
  · exact ⟨_, rfl⟩
  · exact ⟨_, rfl⟩

end Beryllium

import Mathlib.Data.List.Basic
import Mathlib.Data.Nat.Notation
import Mathlib.Order.Nat
import Mathlib.Tactic.Common

/-!
# Trees

The trees of `kernel/lib/tree.c`. A node is the index of its `tree_node_t` among those
allocated for the tree so far (`Tree.arena`), so that an index that is at hand stays
valid when nodes are added. The list of children holds the indices of the children.
-/

namespace Beryllium

/-- `tree_node_t` -/
structure TreeNode (α : Type) where
  value : α
  children : List ℕ
  parent : Option ℕ

/-- `tree_t`, and the nodes allocated for it. -/
structure Tree (α : Type) where
  arena : List (TreeNode α)
  nodes : ℕ
  root : Option ℕ

variable {α : Type}

/-- `tree_create` -/
def treeCreate : Tree α := ⟨[], 0, none⟩

/-- `tree_node_create` -/
def treeNodeCreate (t : Tree α) (value : α) : Tree α × ℕ :=
  ({ t with arena := t.arena ++ [⟨value, [], none⟩] }, t.arena.length)

/-- `tree_set_root` -/
def treeSetRoot (t : Tree α) (value : α) : Tree α :=
  let r := treeNodeCreate t value
  { r.1 with root := some r.2, nodes := 1 }

/-- An assignment to the fields of a node. -/
def Tree.modify (t : Tree α) (i : ℕ) (f : TreeNode α → TreeNode α) : Tree α :=
  { t with arena := t.arena.modify i f }

/-- `tree_node_insert_child_node` -/
def treeNodeInsertChildNode (t : Tree α) (parent node : ℕ) : Tree α :=
  let t := t.modify parent fun n => { n with children := n.children ++ [node] }
  let t := t.modify node fun n => { n with parent := some parent }
  { t with nodes := t.nodes + 1 }

/-- `tree_node_insert_child` -/
def treeNodeInsertChild (t : Tree α) (parent : ℕ) (value : α) : Tree α × ℕ :=
  let out := treeNodeCreate t value
  (treeNodeInsertChildNode out.1 parent out.2, out.2)

/-! ## The nodes after an insertion -/

variable {t : Tree α} {i j : ℕ} {v : α} {n : TreeNode α}

theorem length_treeNodeInsertChild :
    (treeNodeInsertChild t i v).1.arena.length = t.arena.length + 1 := by
  simp [treeNodeInsertChild, treeNodeInsertChildNode, treeNodeCreate, Tree.modify]

theorem arena_insertChild_new (hi : i < t.arena.length) :
    (treeNodeInsertChild t i v).1.arena[t.arena.length]? = some ⟨v, [], some i⟩ := by
  simp [treeNodeInsertChild, treeNodeInsertChildNode, treeNodeCreate, Tree.modify, hi.ne]

/-- The new node is the last child of its parent. -/
theorem arena_insertChild_parent (h : t.arena[i]? = some n) :
    (treeNodeInsertChild t i v).1.arena[i]? =
      some { n with children := n.children ++ [t.arena.length] } := by
  have hi : i < t.arena.length := (List.getElem?_eq_some_iff.1 h).1
  simp [treeNodeInsertChild, treeNodeInsertChildNode, treeNodeCreate, Tree.modify,
    hi.ne', List.getElem?_append_left hi, h]

theorem arena_insertChild_other (hj : j < t.arena.length) (hji : j ≠ i) :
    (treeNodeInsertChild t i v).1.arena[j]? = t.arena[j]? := by
  simp [treeNodeInsertChild, treeNodeInsertChildNode, treeNodeCreate, Tree.modify,
    hj.ne', hji.symm, List.getElem?_append_left hj]

theorem arena_modify (f : TreeNode α → TreeNode α) :
    (t.modify i f).arena[j]? = if i = j then t.arena[j]?.map f else t.arena[j]? := by
  rw [Tree.modify, List.getElem?_modify]
  split_ifs <;> simp

end Beryllium

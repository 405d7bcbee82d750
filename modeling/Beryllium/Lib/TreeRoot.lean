import Beryllium.Lib.TreeSystem

/-!
# Removing the root of a tree

`tree_node_remove` frees the branch of the root, and then goes on to remove the root from the list
of its parent, as it does with any other node. It counts the children of the node it has just freed
(`treeNodeRemove_root`), so that removing the root never empties a tree.
-/

namespace Beryllium.LinkedTree

variable {α : Type} {m m' : TreeMem α} {tree : TreeT} {n : TreeNode α} {a fuel : ℕ}

/-- `tree_node_remove` of the root leaves an empty tree, and has freed all nodes. It does not get
    stuck, which is what touching a freed node or the null pointer, or freeing a node twice does. -/
def RemovesRoot (m : TreeMem α) (tree : TreeT) : Prop :=
  ∃ m' tree', treeNodeRemove m tree tree.root = some (m', tree') ∧ tree'.root = 0 ∧
    tree'.nodes = 0 ∧ ∀ a, TreeState.Reach ⟨m, tree⟩ a → m'.node a = none

/-- A node that is freed is gone. -/
theorem treeNodeFree_self (h : treeNodeFree fuel m a = some m') (ha : a ≠ 0) :
    m'.node a = none := by
  cases fuel with
  | zero => cases h
  | succ fuel =>
    rw [treeNodeFree, if_neg ha] at h
    obtain ⟨n, -, h⟩ := Option.bind_eq_some_iff.1 h
    obtain ⟨m₁, -, h⟩ := Option.bind_eq_some_iff.1 h
    obtain rfl := Option.some.inj h
    exact setNode_self

/-- Counting the children of a freed node gets stuck. -/
theorem treeCountChildren_freed (h : m.node a = none) (ha : a ≠ 0) :
    treeCountChildren m fuel a = none := by
  cases fuel with
  | zero => rfl
  | succ fuel =>
    rw [treeCountChildren, if_neg ha, h]
    rfl

/-- A root without a parent is freed, and its children are counted after that. -/
theorem treeNodeRemove_root (hn : m.node tree.root = some n) (hp : n.parent = 0)
    (h₀ : tree.root ≠ 0) : treeNodeRemove m tree tree.root = none := by
  rw [treeNodeRemove, hn, Option.bind_eq_bind, Option.bind_some, if_pos ⟨hp, rfl⟩]
  cases hfree : treeNodeFree treeFuel m tree.root with
  | none => rfl
  | some m' =>
    simp only [Option.bind_eq_bind, Option.bind_some]
    rw [treeNodeParentRemove, treeCountChildren_freed (treeNodeFree_self hfree h₀) h₀]
    rfl

/-- A root with a parent stays the root. -/
theorem treeNodeRemove_tree {r : TreeMem α × TreeT} (hn : m.node a = some n) (hp : n.parent ≠ 0)
    (h : treeNodeRemove m tree a = some r) : r.2.root = tree.root := by
  -- the end of the function only changes the other field of the tree
  obtain ⟨nodes, root⟩ := tree
  rw [treeNodeRemove, hn, Option.bind_eq_bind, Option.bind_some, if_neg fun hc => hp hc.1] at h
  simp only [Option.bind_eq_bind, Option.bind_some, treeNodeParentRemove, Option.bind_eq_some_iff,
    Option.some.injEq] at h
  obtain ⟨k, -, m₁, -, m₂, -, rfl⟩ := h
  rfl

/-- Removing the root never empties a tree, whatever the tree is. -/
theorem remove_root_never (hnull : m.node 0 = none) (tree : TreeT) : ¬RemovesRoot m tree := by
  rintro ⟨m', tree', hrun, hroot, -⟩
  cases hn : m.node tree.root with
  | none =>
    rw [treeNodeRemove, hn] at hrun
    cases hrun
  | some n =>
    have h₀ : tree.root ≠ 0 := by
      intro h₀
      rw [h₀, hnull] at hn
      cases hn
    by_cases hp : n.parent = 0
    · rw [treeNodeRemove_root hn hp h₀] at hrun
      cases hrun
    · exact h₀ ((treeNodeRemove_tree hn hp hrun).symm.trans hroot)

/-- A tree of its root alone. -/
def rootTree : TreeState ℕ :=
  ⟨(treeSetRoot ⟨fun _ => ⟨0, 0, 0⟩, fun _ => none⟩ treeCreate 4096 7).1,
    (treeSetRoot (⟨fun _ => ⟨0, 0, 0⟩, fun _ => none⟩ : TreeMem ℕ) treeCreate 4096 7).2⟩

/-- With a child. -/
theorem remove_root_never_alone : ∃ s, treeStep rootTree (.insertChild 4096 8 4112 8192) = some s ∧
    s.mem.node 4112 ≠ none ∧ ¬RemovesRoot s.mem s.tree :=
  ⟨_, rfl, nofun, remove_root_never rfl _⟩

/-- Removing the root gets stuck, and does not empty the tree. -/
theorem remove_root_stuck : treeSystem.init rootTree ∧
    treeNodeRemove rootTree.mem rootTree.tree rootTree.tree.root = none ∧
    ¬RemovesRoot rootTree.mem rootTree.tree := by
  have hn : rootTree.mem.node rootTree.tree.root = some ⟨7, listCreate, 0⟩ := rfl
  have hstuck : treeNodeRemove rootTree.mem rootTree.tree rootTree.tree.root = none :=
    treeNodeRemove_root hn rfl (by decide)
  refine ⟨⟨_, 4096, 7, by decide, by decide, rfl⟩, hstuck, ?_⟩
  rintro ⟨m', tree', hrun, -⟩
  rw [hstuck] at hrun
  cases hrun

end Beryllium.LinkedTree

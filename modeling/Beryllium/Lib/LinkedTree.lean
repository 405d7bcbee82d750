import Beryllium.Lib.List

/-!
# Trees in memory

The functions of `kernel/lib/tree.c` on the memory they work on: the nodes of trees and, for
their lists of children, the nodes of lists (`TreeMem`). A node that is freed is gone, and a
function that follows a pointer to no node gets stuck (`none`). A function that allocates gets the
addresses of the new nodes as arguments.

The walks through a tree are limited by a number of calls and rounds. `treeFuel` is enough for
every tree that fits into memory.
-/

namespace Beryllium.LinkedTree

open Machine

/-- `tree_node_t`. The list of children belongs to the node and is never null. -/
structure TreeNode (α : Type) where
  value : α
  children : ListT
  parent : ℕ

/-- `tree_t` -/
structure TreeT where
  nodes : ℕ
  root : ℕ

/-- The nodes of lists, whose values are nodes of trees, and the nodes of trees. -/
structure TreeMem (α : Type) where
  cells : ListMem ℕ
  node : ℕ → Option (TreeNode α)

variable {α : Type}

/-- The memory with `n` at the address `a`. -/
def TreeMem.setNode (m : TreeMem α) (a : ℕ) (n : Option (TreeNode α)) : TreeMem α :=
  { m with node := Function.update m.node a n }

section

variable {m : TreeMem α} {a b : ℕ} {n : Option (TreeNode α)}

@[simp] theorem setNode_cells : (m.setNode a n).cells = m.cells := rfl

@[simp] theorem setNode_self : (m.setNode a n).node a = n := Function.update_self ..

theorem setNode_of_ne (h : b ≠ a) : (m.setNode a n).node b = m.node b :=
  Function.update_of_ne h ..

end

/-- `tree_create` -/
def treeCreate : TreeT := ⟨0, 0⟩

/-- `tree_node_create` -/
def treeNodeCreate (m : TreeMem α) (out : ℕ) (value : α) : TreeMem α :=
  m.setNode out (some ⟨value, listCreate, 0⟩)

/-- `tree_set_root` -/
def treeSetRoot (m : TreeMem α) (tree : TreeT) (root : ℕ) (value : α) : TreeMem α × TreeT :=
  (treeNodeCreate m root value, { tree with root := root, nodes := 1 })

/-- `tree_node_insert_child_node`, where `cell` is the new node of the list. -/
def treeNodeInsertChildNode (m : TreeMem α) (tree : TreeT) (parent node cell : ℕ) :
    Option (TreeMem α × TreeT) := do
  let p ← m.node parent
  let r := listInsert m.cells p.children cell node
  let m := { m with cells := r.1 }.setNode parent (some { p with children := r.2 })
  let n ← m.node node
  let m := m.setNode node (some { n with parent := parent })
  some (m, { tree with nodes := add32 tree.nodes 1 })

/-- `tree_node_insert_child` -/
def treeNodeInsertChild (m : TreeMem α) (tree : TreeT) (parent : ℕ) (value : α) (out cell : ℕ) :
    Option (TreeMem α × TreeT) :=
  treeNodeInsertChildNode (treeNodeCreate m out value) tree parent out cell

/-! ## Walks through a tree -/

/-- More calls and rounds than a walk through a tree in memory has. -/
def treeFuel : ℕ := 2 ^ 34

mutual

/-- `tree_node_find_parent` -/
def treeNodeFindParent (m : TreeMem α) (needle : ℕ) : ℕ → ℕ → Option ℕ
  | 0, _ => none
  | fuel + 1, haystack => do
    let n ← m.node haystack
    findParentLoop m needle fuel haystack n.children.head

/-- Its loop, from `child` on. As long as it goes on, nothing is found. -/
def findParentLoop (m : TreeMem α) (needle : ℕ) : ℕ → ℕ → ℕ → Option ℕ
  | 0, _, _ => none
  | fuel + 1, haystack, child =>
    if child = 0 then some 0
    else if (m.cells child).value = needle then some haystack
    else do
      let found ← treeNodeFindParent m needle fuel (m.cells child).value
      if found ≠ 0 then some found
      else findParentLoop m needle fuel haystack (m.cells child).next

end

/-- `tree_find_parent` -/
def treeFindParent (m : TreeMem α) (tree : TreeT) (node : ℕ) : Option ℕ :=
  if tree.root = 0 then some 0 else treeNodeFindParent m node treeFuel tree.root

mutual

/-- `tree_count_children` -/
def treeCountChildren (m : TreeMem α) : ℕ → ℕ → Option ℕ
  | 0, _ => none
  | fuel + 1, node =>
    if node = 0 then some 0
    else do
      let n ← m.node node
      countLoop m fuel n.children.head n.children.length

/-- Its loop, from `child` and `out` on. -/
def countLoop (m : TreeMem α) : ℕ → ℕ → ℕ → Option ℕ
  | 0, _, _ => none
  | fuel + 1, child, out =>
    if child = 0 then some out
    else do
      let k ← treeCountChildren m fuel (m.cells child).value
      countLoop m fuel (m.cells child).next (add32 out k)

end

mutual

/-- `tree_node_free` -/
def treeNodeFree : ℕ → TreeMem α → ℕ → Option (TreeMem α)
  | 0, _, _ => none
  | fuel + 1, m, node =>
    if node = 0 then some m
    else do
      let n ← m.node node
      let m ← freeLoop fuel m n.children.head
      some (m.setNode node none)

/-- Its loop, from `child` on. -/
def freeLoop : ℕ → TreeMem α → ℕ → Option (TreeMem α)
  | 0, _, _ => none
  | fuel + 1, m, child =>
    if child = 0 then some m
    else do
      let m ← treeNodeFree fuel m (m.cells child).value
      freeLoop fuel m (m.cells child).next

end

/-! ## Removal -/

/-- `list_delete(parent->children, list_find(parent->children, node))` -/
def deleteChild (m : TreeMem α) (parent node : ℕ) : Option (TreeMem α) := do
  let p ← m.node parent
  let item ← listFind m.cells p.children node
  if item = 0 then none
  else
    let r := listDelete m.cells p.children item
    some ({ m with cells := r.1 }.setNode parent (some { p with children := r.2 }))

/-- `tree_node_parent_remove` -/
def treeNodeParentRemove (m : TreeMem α) (tree : TreeT) (parent node : ℕ) :
    Option (TreeMem α × TreeT) := do
  let k ← treeCountChildren m treeFuel node
  let tree := { tree with nodes := sub32 tree.nodes (add32 k 1) }
  let m ← deleteChild m parent node
  let m ← treeNodeFree treeFuel m node
  some (m, tree)

/-- `tree_node_remove` -/
def treeNodeRemove (m : TreeMem α) (tree : TreeT) (node : ℕ) : Option (TreeMem α × TreeT) := do
  let n ← m.node node
  let r ← if n.parent = 0 ∧ node = tree.root then do
      let m ← treeNodeFree treeFuel m node
      some (m, { tree with nodes := 0, root := 0 })
    else some (m, tree)
  treeNodeParentRemove r.1 r.2 n.parent node

/-- The loop of `tree_remove`: the children, from `child` on, get the parent `parent`. -/
def reparentLoop (parent : ℕ) : ℕ → TreeMem α → ℕ → Option (TreeMem α)
  | 0, _, _ => none
  | fuel + 1, m, child =>
    if child = 0 then some m
    else do
      let n ← m.node (m.cells child).value
      reparentLoop parent fuel (m.setNode (m.cells child).value (some { n with parent := parent }))
        (m.cells child).next

/-- `list_merge(parent->children, node->children)` -/
def mergeChildren (m : TreeMem α) (parent node : ℕ) : Option (TreeMem α) := do
  let p ← m.node parent
  let n ← m.node node
  let r := listMerge m.cells p.children n.children
  some ({ m with cells := r.1 }.setNode parent (some { p with children := r.2 }))

/-- `tree_remove` -/
def treeRemove (m : TreeMem α) (tree : TreeT) (node : ℕ) : Option (TreeMem α × TreeT) := do
  let n ← m.node node
  if n.parent = 0 then some (m, tree)
  else
    let tree := { tree with nodes := sub32 tree.nodes 1 }
    let m ← deleteChild m n.parent node
    let n' ← m.node node
    let m ← reparentLoop n.parent nodeFuel m n'.children.head
    let m ← mergeChildren m n.parent node
    some (m.setNode node none, tree)

end Beryllium.LinkedTree

import Beryllium.Lib.LinkedTree
import Beryllium.Machine.Forest

/-!
# Walks through a tree

A tree is in the memory if the row of each of its nodes is (`RowIn`): the node has its parent,
and its list of children leads to its children. Going down such a tree,

* `tree_count_children` counts the nodes under a node (`treeCountChildren_eq`);
* `tree_node_free` frees a node and all nodes under it (`treeNodeFree_eq`);
* `tree_node_find_parent` finds the parent of a node under a node (`findParent_spec`).

All are inductions on the forest that the loop goes along: a call goes to the children of the
first node, the next round to the trees after it.
-/

namespace Beryllium.LinkedTree

open Machine

/-- From the list node `p` on, the values of the list are `ns`. -/
def Spells (m : ListMem ℕ) : ℕ → List ℕ → Prop
  | p, [] => p = 0
  | p, a :: ns => p ≠ 0 ∧ (m p).value = a ∧ Spells m (m p).next ns

variable {α : Type} {m m' : TreeMem α} {f k r : Forest ℕ} {y : Row ℕ} {ns : List ℕ}
  {a b q x p child fuel out : ℕ}

/-- The row of a node is in the memory. -/
def RowIn (m : TreeMem α) (y : Row ℕ) : Prop :=
  ∃ n, m.node y.node = some n ∧ n.parent = y.parent ∧
    n.children.length = y.kids.length % 4294967296 ∧ Spells m.cells n.children.head y.kids

theorem RowIn.congr (h : RowIn m y) (hcells : m'.cells = m.cells)
    (hnode : m'.node y.node = m.node y.node) : RowIn m' y := by
  obtain ⟨n, hn, hrow⟩ := h
  rw [← hnode] at hn
  rw [← hcells] at hrow
  exact ⟨n, hn, hrow⟩

/-! ## Counting -/

/-- A call for a node runs the loop over its children. -/
theorem treeCountChildren_succ (hrow : RowIn m y) (h₀ : y.node ≠ 0)
    (hlen : y.kids.length < 4294967296) : ∃ head, Spells m.cells head y.kids ∧
      treeCountChildren m (fuel + 1) y.node = countLoop m fuel head y.kids.length := by
  obtain ⟨n, hn, -, hlength, hkids⟩ := hrow
  refine ⟨n.children.head, hkids, ?_⟩
  rw [treeCountChildren, if_neg h₀, hn, ← Nat.mod_eq_of_lt hlen, ← hlength]
  rfl

/-- The loop adds the number of nodes under the roots. -/
theorem countLoop_eq (hrows : ∀ y ∈ f.rows q, RowIn m y) (h₀ : 0 ∉ f.nodes)
    (hs : Spells m.cells child f.roots) (hfuel : 2 * f.nodes.length < fuel)
    (hout : out + f.nodes.length < 4294967296 + f.roots.length) :
    countLoop m fuel child out = some (out + (f.nodes.length - f.roots.length)) := by
  induction f generalizing q child fuel out with
  | nil =>
    obtain ⟨fuel, rfl⟩ := Nat.exists_eq_add_one_of_ne_zero (Nat.ne_zero_of_lt hfuel)
    have hchild : child = 0 := hs
    rw [countLoop, if_pos hchild]
    rfl
  | node a k r ihk ihr =>
    simp only [Forest.nodes, Forest.roots, List.length_cons, List.length_append] at hfuel hout
    obtain ⟨fuel, rfl⟩ : ∃ n, fuel = n + 2 := ⟨fuel - 2, by omega⟩
    obtain ⟨hchild, hvalue, hnext⟩ := hs
    rw [Forest.nodes, List.mem_cons, List.mem_append, not_or, not_or] at h₀
    have hk : k.roots.length ≤ k.nodes.length := Forest.roots_sublist.length_le
    have hr : r.roots.length ≤ r.nodes.length := Forest.roots_sublist.length_le
    obtain ⟨head, hkids, hcall⟩ : ∃ head, Spells m.cells head k.roots ∧
        treeCountChildren m (fuel + 1) a = countLoop m fuel head k.roots.length :=
      treeCountChildren_succ (hrows _ List.mem_cons_self) (Ne.symm h₀.1)
        (Nat.lt_of_le_of_lt hk (by omega))
    rw [ihk (fun y hy => hrows y (Forest.mem_rows_kids hy)) h₀.2.1
      hkids (by omega) (by omega), Nat.add_sub_cancel' hk] at hcall
    have hrest : countLoop m (fuel + 1) (m.cells child).next (out + k.nodes.length) =
        some (out + k.nodes.length + (r.nodes.length - r.roots.length)) :=
      ihr (fun y hy => hrows y (Forest.mem_rows_rest hy)) h₀.2.2 hnext
        (by omega) (by omega)
    rw [countLoop, if_neg hchild, hvalue, hcall, Option.bind_eq_bind, Option.bind_some,
      add32_eq (by omega), hrest, Forest.nodes, Forest.roots, List.length_cons, List.length_cons,
      List.length_append]
    congr 1
    omega

/-- `tree_count_children` counts the nodes under a node. -/
theorem treeCountChildren_eq (hrow : RowIn m ⟨q, a, k.roots⟩)
    (hrows : ∀ y ∈ k.rows a, RowIn m y) (ha : a ≠ 0) (h₀ : 0 ∉ k.nodes)
    (hlt : k.nodes.length < 4294967296) :
    treeCountChildren m treeFuel a = some k.nodes.length := by
  have hk : k.roots.length ≤ k.nodes.length := Forest.roots_sublist.length_le
  obtain ⟨head, hkids, hcall⟩ : ∃ head, Spells m.cells head k.roots ∧
      treeCountChildren m (2 ^ 34 - 1 + 1) a = countLoop m (2 ^ 34 - 1) head k.roots.length :=
    treeCountChildren_succ hrow ha (Nat.lt_of_le_of_lt hk hlt)
  rw [countLoop_eq hrows h₀ hkids (by omega) (by omega), Nat.add_sub_cancel' hk] at hcall
  exact hcall

/-! ## Freeing -/

/-- The memory without the nodes `ns`. -/
def TreeMem.freeAll (m : TreeMem α) (ns : List ℕ) : TreeMem α :=
  { m with node := fun a => if a ∈ ns then none else m.node a }

theorem freeAll_cons : (m.freeAll ns).setNode a none = m.freeAll (a :: ns) := by
  refine congrArg (TreeMem.mk m.cells) (funext fun b => ?_)
  rw [Function.update_apply]
  by_cases hba : b = a
  · rw [if_pos hba, if_pos (hba ▸ List.mem_cons_self)]
  · simp only [TreeMem.freeAll, List.mem_cons, hba, false_or, if_false]

theorem freeAll_append {ns' : List ℕ} : (m.freeAll ns).freeAll ns' = m.freeAll (ns ++ ns') := by
  refine congrArg (TreeMem.mk m.cells) (funext fun b => ?_)
  simp only [TreeMem.freeAll, List.mem_append]
  by_cases hb' : b ∈ ns' <;> by_cases hb : b ∈ ns <;> simp [hb, hb']

/-- A call for a node runs the loop over its children, and frees the node. -/
theorem treeNodeFree_succ (hrow : RowIn m y) (h₀ : y.node ≠ 0) :
    ∃ head, Spells m.cells head y.kids ∧ treeNodeFree (fuel + 1) m y.node =
      (freeLoop fuel m head).map fun m' => m'.setNode y.node none := by
  obtain ⟨n, hn, -, -, hkids⟩ := hrow
  refine ⟨n.children.head, hkids, ?_⟩
  rw [treeNodeFree, if_neg h₀, hn, Option.map_eq_bind]
  rfl

theorem freeLoop_eq (hrows : ∀ y ∈ f.rows q, RowIn m y) (h₀ : 0 ∉ f.nodes)
    (hnodup : f.nodes.Nodup) (hs : Spells m.cells child f.roots)
    (hfuel : 2 * f.nodes.length < fuel) :
    freeLoop fuel m child = some (m.freeAll f.nodes) := by
  induction f generalizing m q child fuel with
  | nil =>
    obtain ⟨fuel, rfl⟩ := Nat.exists_eq_add_one_of_ne_zero (Nat.ne_zero_of_lt hfuel)
    have hchild : child = 0 := hs
    rw [freeLoop, if_pos hchild]
    simp only [TreeMem.freeAll, Forest.nodes, List.not_mem_nil, if_false]
  | node a k r ihk ihr =>
    simp only [Forest.nodes, List.length_cons, List.length_append] at hfuel
    obtain ⟨fuel, rfl⟩ : ∃ n, fuel = n + 2 := ⟨fuel - 2, by omega⟩
    obtain ⟨hchild, hvalue, hnext⟩ := hs
    rw [Forest.nodes, List.mem_cons, List.mem_append, not_or, not_or] at h₀
    obtain ⟨ha, hkr⟩ := List.nodup_cons.1 hnodup
    obtain ⟨hk, hr, hdisj⟩ := List.nodup_append.1 hkr
    obtain ⟨head, hkids, hcall⟩ : ∃ head, Spells m.cells head k.roots ∧
        treeNodeFree (fuel + 1) m a = (freeLoop fuel m head).map fun m' => m'.setNode a none :=
      treeNodeFree_succ (hrows _ List.mem_cons_self) (Ne.symm h₀.1)
    rw [ihk (fun y hy => hrows y (Forest.mem_rows_kids hy)) h₀.2.1 hk
      hkids (by omega), Option.map_some, freeAll_cons] at hcall
    -- the nodes after `a` are not freed yet
    have hrest : ∀ y ∈ r.rows q, RowIn (m.freeAll (a :: k.nodes)) y := by
      intro y hy
      refine (hrows y (Forest.mem_rows_rest hy)).congr rfl (if_neg ?_)
      rw [List.mem_cons, not_or]
      refine ⟨fun hya => ha (List.mem_append_right _ ?_), fun hyk => ?_⟩
      · exact hya ▸ Forest.node_mem hy
      · exact hdisj _ hyk _ (Forest.node_mem hy) rfl
    rw [freeLoop, if_neg hchild, hvalue, hcall, Option.bind_eq_bind, Option.bind_some]
    refine (ihr hrest h₀.2.2 hr hnext (by omega)).trans ?_
    rw [freeAll_append]
    rfl

/-- `tree_node_free` frees a node and all nodes under it. -/
theorem treeNodeFree_eq (hrow : RowIn m ⟨q, a, k.roots⟩) (hrows : ∀ y ∈ k.rows a, RowIn m y)
    (ha : a ≠ 0) (h₀ : 0 ∉ k.nodes) (hnodup : k.nodes.Nodup)
    (hlt : k.nodes.length < 4294967296) :
    treeNodeFree treeFuel m a = some (m.freeAll (a :: k.nodes)) := by
  obtain ⟨head, hkids, hcall⟩ : ∃ head, Spells m.cells head k.roots ∧
      treeNodeFree (2 ^ 34 - 1 + 1) m a =
        (freeLoop (2 ^ 34 - 1) m head).map fun m' => m'.setNode a none :=
    treeNodeFree_succ hrow ha
  rw [freeLoop_eq hrows h₀ hnodup hkids (by omega), Option.map_some, freeAll_cons] at hcall
  exact hcall

/-! ## Searching -/

/-- The loop returns the parent of the node, or null if it is not there. -/
theorem findParentLoop_spec (hrows : ∀ y ∈ f.rows q, RowIn m y) (h₀ : 0 ∉ f.nodes)
    (hs : Spells m.cells child f.roots) (hfuel : 2 * f.nodes.length < fuel) (x : ℕ) :
    ∃ p, findParentLoop m x fuel q child = some p ∧
      ((∃ y ∈ f.rows q, y.node = x ∧ y.parent = p) ∨ x ∉ f.nodes ∧ p = 0) := by
  induction f generalizing q child fuel with
  | nil =>
    obtain ⟨fuel, rfl⟩ := Nat.exists_eq_add_one_of_ne_zero (Nat.ne_zero_of_lt hfuel)
    have hchild : child = 0 := hs
    exact ⟨0, by rw [findParentLoop, if_pos hchild], .inr ⟨List.not_mem_nil, rfl⟩⟩
  | node a k r ihk ihr =>
    simp only [Forest.nodes, List.length_cons, List.length_append] at hfuel
    obtain ⟨fuel, rfl⟩ : ∃ n, fuel = n + 2 := ⟨fuel - 2, by omega⟩
    obtain ⟨hchild, hvalue, hnext⟩ := hs
    rw [Forest.nodes, List.mem_cons, List.mem_append, not_or, not_or] at h₀
    rw [findParentLoop, if_neg hchild, hvalue]
    by_cases hax : a = x
    · exact ⟨q, if_pos hax, .inl ⟨_, List.mem_cons_self, hax, rfl⟩⟩
    rw [if_neg hax]
    obtain ⟨n, hn, -, -, hkids⟩ := hrows _ List.mem_cons_self
    have hcall : treeNodeFindParent m x (fuel + 1) a =
        findParentLoop m x fuel a n.children.head := by
      rw [treeNodeFindParent, hn]
      rfl
    obtain ⟨p, hp, hfound⟩ := ihk
      (fun y hy => hrows y (Forest.mem_rows_kids hy)) h₀.2.1 hkids
      (by omega : 2 * k.nodes.length < fuel)
    rw [hcall, hp, Option.bind_eq_bind, Option.bind_some]
    rcases hfound with ⟨y, hy, hyx, hyp⟩ | ⟨hk, rfl⟩
    · -- a parent that is found is no null pointer, so the loop ends
      have hp₀ : p ≠ 0 := by
        rintro rfl
        rcases List.mem_cons.1 (Forest.parent_mem hy) with hya | hyk
        · exact h₀.1 (hyp ▸ hya)
        · exact h₀.2.1 (hyp ▸ hyk)
      exact ⟨p, if_pos hp₀, .inl ⟨y, Forest.mem_rows_kids hy, hyx, hyp⟩⟩
    · -- nothing is found under `a`: the loop goes on after it
      rw [if_neg (not_not.2 rfl)]
      obtain ⟨p, hp, hfound⟩ := ihr
        (fun y hy => hrows y (Forest.mem_rows_rest hy)) h₀.2.2 hnext
        (by omega : 2 * r.nodes.length < fuel + 1)
      refine ⟨p, hp, ?_⟩
      rcases hfound with ⟨y, hy, hyx⟩ | ⟨hr, hp₀⟩
      · exact .inl ⟨y, Forest.mem_rows_rest hy, hyx⟩
      · refine .inr ⟨?_, hp₀⟩
        rw [Forest.nodes, List.mem_cons, List.mem_append, not_or, not_or]
        exact ⟨Ne.symm hax, hk, hr⟩

/-- `tree_node_find_parent` finds the parent of a node under `a`. -/
theorem treeNodeFindParent_spec (hrow : RowIn m ⟨q, a, k.roots⟩)
    (hrows : ∀ y ∈ k.rows a, RowIn m y) (h₀ : 0 ∉ k.nodes)
    (hlt : k.nodes.length < 4294967296) (x : ℕ) :
    ∃ p, treeNodeFindParent m x treeFuel a = some p ∧
      ((∃ y ∈ k.rows a, y.node = x ∧ y.parent = p) ∨ x ∉ k.nodes ∧ p = 0) := by
  obtain ⟨n, hn, -, -, hkids⟩ := hrow
  have hcall : treeNodeFindParent m x (2 ^ 34 - 1 + 1) a =
      findParentLoop m x (2 ^ 34 - 1) a n.children.head := by
    rw [treeNodeFindParent, hn]
    rfl
  obtain ⟨p, hp, hfound⟩ := findParentLoop_spec hrows h₀ hkids
    (by omega : 2 * k.nodes.length < 2 ^ 34 - 1) x
  exact ⟨p, hcall.trans hp, hfound⟩

end Beryllium.LinkedTree

import Beryllium.Lib.TreeBooks
import Beryllium.Machine.Search

/-!
# Searching a tree

`tree_find` of `kernel/lib/tree.c`, with a function that compares the value of a node with what is
searched for. It returns the first node in preorder for which the comparison succeeds, or null
(`tree_find_preorder`). `Forest.nodes` is the preorder.

A removal keeps the values of the nodes that stay (`treeNodeRemove_values`).
-/

namespace Beryllium.LinkedTree

open Machine

variable {α β : Type}

mutual

/-- `tree_node_find`. A comparison that gets stuck is `none`. -/
def treeNodeFind (m : TreeMem α) (comparator : α → β → Option UInt8) (search : β) : ℕ → ℕ → Option ℕ
  | 0, _ => none
  | fuel + 1, node => do
    let n ← m.node node
    if (← comparator n.value search) ≠ 0 then some node
    else findLoop m comparator search fuel n.children.head

/-- Its loop, from `child` on. -/
def findLoop (m : TreeMem α) (comparator : α → β → Option UInt8) (search : β) : ℕ → ℕ → Option ℕ
  | 0, _ => none
  | fuel + 1, child =>
    if child = 0 then some 0
    else do
      let found ← treeNodeFind m comparator search fuel (m.cells child).value
      if found ≠ 0 then some found
      else findLoop m comparator search fuel (m.cells child).next

end

/-- `tree_find` -/
def treeFind (m : TreeMem α) (tree : TreeT) (value : β) (comparator : α → β → Option UInt8) :
    Option ℕ :=
  treeNodeFind m comparator value treeFuel tree.root

variable {m m' : TreeMem α} {s s' : TreeState α} {tree : TreeT} {comparator : α → β → Option UInt8}
  {search : β} {P : ℕ → Prop} {f k t : Forest ℕ} {a b q x child fuel : ℕ} {loose : Prop}

/-- The comparison with the value of the node `a` succeeds if and only if `P a`. -/
def Compares (m : TreeMem α) (comparator : α → β → Option UInt8) (search : β) (P : ℕ → Prop)
    (a : ℕ) : Prop :=
  ∃ n v, m.node a = some n ∧ comparator n.value search = some v ∧ (v ≠ 0 ↔ P a)

/-- The first node of the list that the search is for, or null if there is none. -/
def FindsFirst (P : ℕ → Prop) (ns : List ℕ) (p : ℕ) : Prop :=
  FirstWith P ns p ∨ (∀ b ∈ ns, ¬P b) ∧ p = 0

/-- The children of a node are in the memory. -/
def KidsIn (m : TreeMem α) (y : Row ℕ) : Prop :=
  ∃ n, m.node y.node = some n ∧ Spells m.cells n.children.head y.kids

/-- The tree with the root `root` and the forest `f` under it: each node has its children, in order.
    No node is null, and none is there twice. -/
structure SpellsTree (m : TreeMem α) (root : ℕ) (f : Forest ℕ) : Prop where
  kids : ∀ y ∈ (Forest.node root f .nil).rows 0, KidsIn m y
  nodup : (root :: f.nodes).Nodup
  bound : ∀ a ∈ root :: f.nodes, a ≠ 0 ∧ a < 4294967296

/-- The comparator holds for the value of the node `a`. -/
def Matches (m : TreeMem α) (comparator : α → β → UInt8) (value : β) (a : ℕ) : Prop :=
  ∃ n, m.node a = some n ∧ comparator n.value value ≠ 0

theorem TreeInv.spellsTree {K : ℕ → List (ℕ × ℕ)} (h : TreeInv loose s f K) :
    SpellsTree s.mem s.tree.root f := by
  refine ⟨fun y hy => ?_, h.nodup, h.bound⟩
  obtain ⟨n, hn, -, -, hkids⟩ := (h.holds y hy).rowIn
  exact ⟨n, hn, hkids⟩

/-! ## Searching -/

/-- A call for a node compares its value, and then runs the loop over its children. -/
theorem treeNodeFind_succ {y : Row ℕ} (hrow : KidsIn m y)
    (hcmp : Compares m comparator search P y.node) : ∃ head, Spells m.cells head y.kids ∧
      (P y.node → treeNodeFind m comparator search (fuel + 1) y.node = some y.node) ∧
      (¬P y.node → treeNodeFind m comparator search (fuel + 1) y.node =
        findLoop m comparator search fuel head) := by
  obtain ⟨n, hn, hkids⟩ := hrow
  obtain ⟨n', v, hn', hv, hP⟩ := hcmp
  cases hn.symm.trans hn'
  refine ⟨n.children.head, hkids, fun h => ?_, fun h => ?_⟩
  · rw [treeNodeFind, hn, Option.bind_eq_bind, Option.bind_some, hv, Option.bind_eq_bind,
      Option.bind_some, if_pos (hP.2 h)]
  · rw [treeNodeFind, hn, Option.bind_eq_bind, Option.bind_some, hv, Option.bind_eq_bind,
      Option.bind_some, if_neg (mt hP.1 h)]

/-- The loop goes along the forest in preorder. -/
theorem findLoop_spec (hrows : ∀ y ∈ f.rows q, KidsIn m y) (h₀ : 0 ∉ f.nodes)
    (hcmp : ∀ a ∈ f.nodes, Compares m comparator search P a)
    (hs : Spells m.cells child f.roots) (hfuel : 2 * f.nodes.length < fuel) :
    ∃ p, findLoop m comparator search fuel child = some p ∧ FindsFirst P f.nodes p := by
  induction f generalizing q child fuel with
  | nil =>
    obtain ⟨fuel, rfl⟩ := Nat.exists_eq_add_one_of_ne_zero (Nat.ne_zero_of_lt hfuel)
    have hchild : child = 0 := hs
    exact ⟨0, by rw [findLoop, if_pos hchild], .inr ⟨fun b hb => absurd hb List.not_mem_nil, rfl⟩⟩
  | node a k r ihk ihr =>
    simp only [Forest.nodes, List.length_cons, List.length_append] at hfuel
    obtain ⟨fuel, rfl⟩ : ∃ n, fuel = n + 2 := ⟨fuel - 2, by omega⟩
    obtain ⟨hchild, hvalue, hnext⟩ := hs
    rw [Forest.nodes, List.mem_cons, List.mem_append, not_or, not_or] at h₀
    obtain ⟨hcmpa, hcmpkr⟩ := List.forall_mem_cons.1 hcmp
    obtain ⟨hcmpk, hcmpr⟩ := List.forall_mem_append.1 hcmpkr
    have hrowa := hrows _ List.mem_cons_self
    obtain ⟨head, hkids, hyes, hno⟩ : ∃ head, Spells m.cells head k.roots ∧
        (P a → treeNodeFind m comparator search (fuel + 1) a = some a) ∧
        (¬P a → treeNodeFind m comparator search (fuel + 1) a =
          findLoop m comparator search fuel head) :=
      treeNodeFind_succ hrowa hcmpa
    rw [findLoop, if_neg hchild, hvalue]
    by_cases ha : P a
    · rw [hyes ha, Option.bind_eq_bind, Option.bind_some, if_pos (Ne.symm h₀.1)]
      exact ⟨a, rfl, .inl (.head ha)⟩
    obtain ⟨p, hp, hfirst⟩ := ihk (fun y hy => hrows y (Forest.mem_rows_kids hy)) h₀.2.1 hcmpk hkids
      (by omega : 2 * k.nodes.length < fuel)
    rw [hno ha, hp, Option.bind_eq_bind, Option.bind_some]
    rcases hfirst with hfirst | ⟨hk, rfl⟩
    · -- a node that is found is no null pointer, so the loop ends
      have hp₀ : p ≠ 0 := by
        rintro rfl
        exact h₀.2.1 hfirst.mem
      exact ⟨p, if_pos hp₀, .inl (hfirst.append_left.cons ha)⟩
    · -- nothing is found under `a`: the loop goes on after it
      rw [if_neg (not_not.2 rfl)]
      obtain ⟨p, hp, hfirst⟩ :=
        ihr (fun y hy => hrows y (Forest.mem_rows_rest hy)) h₀.2.2 hcmpr hnext
        (by omega : 2 * r.nodes.length < fuel + 1)
      refine ⟨p, hp, ?_⟩
      rcases hfirst with hfirst | ⟨hr, rfl⟩
      · exact .inl ((hfirst.append_right hk).cons ha)
      · exact .inr ⟨List.forall_mem_cons.2 ⟨ha, List.forall_mem_append.2 ⟨hk, hr⟩⟩, rfl⟩

/-- `tree_find` goes along the tree in preorder. -/
theorem SpellsTree.find (h : SpellsTree m tree.root f)
    (hcmp : ∀ a ∈ tree.root :: f.nodes, Compares m comparator search P a) :
    ∃ p, treeFind m tree search comparator = some p ∧ FindsFirst P (tree.root :: f.nodes) p := by
  have h₀ : 0 ∉ f.nodes := fun h₀ => (h.bound 0 (List.mem_cons_of_mem _ h₀)).1 rfl
  have hlt := length_lt_of_bound h.nodup h.bound
  rw [List.length_cons] at hlt
  obtain ⟨hroot, hcmpf⟩ := List.forall_mem_cons.1 hcmp
  have hrow : KidsIn m ⟨0, tree.root, f.roots⟩ := h.kids _ List.mem_cons_self
  have hrows : ∀ y ∈ f.rows tree.root, KidsIn m y := fun y hy => h.kids y (Forest.mem_rows_kids hy)
  obtain ⟨head, hkids, hyes, hno⟩ : ∃ head, Spells m.cells head f.roots ∧
      (P tree.root → treeNodeFind m comparator search (2 ^ 34 - 1 + 1) tree.root = some tree.root) ∧
      (¬P tree.root → treeNodeFind m comparator search (2 ^ 34 - 1 + 1) tree.root =
        findLoop m comparator search (2 ^ 34 - 1) head) :=
    treeNodeFind_succ hrow hroot
  by_cases hP : P tree.root
  · exact ⟨tree.root, hyes hP, .inl (.head hP)⟩
  · obtain ⟨p, hp, hfirst⟩ := findLoop_spec hrows h₀ hcmpf hkids
      (by omega : 2 * f.nodes.length < 2 ^ 34 - 1)
    refine ⟨p, (hno hP).trans hp, ?_⟩
    rcases hfirst with hfirst | ⟨hf, rfl⟩
    · exact .inl (hfirst.cons hP)
    · exact .inr ⟨List.forall_mem_cons.2 ⟨hP, hf⟩, rfl⟩

/-- The trees that the operations build. -/
theorem treeFind_spec (h : Tree loose s t)
    (hcmp : ∀ a ∈ t.nodes, Compares s.mem comparator search P a) :
    ∃ p, treeFind s.mem s.tree search comparator = some p ∧ FindsFirst P t.nodes p := by
  obtain ⟨f, K, rfl, h⟩ := h
  rw [nodes_tree] at hcmp ⊢
  exact h.spellsTree.find hcmp

/-- `tree_find` is preorder search: it returns the first node in preorder for which the comparator
    holds, and null exactly when it holds for no node. -/
theorem tree_find_preorder (h : SpellsTree m tree.root f) (comparator : α → β → UInt8) (value : β) :
    ∃ p, treeFind m tree value (fun a b => some (comparator a b)) = some p ∧
      (p ≠ 0 → FirstWith (Matches m comparator value) (tree.root :: f.nodes) p) ∧
      (p = 0 ↔ ∀ a ∈ tree.root :: f.nodes, ¬Matches m comparator value a) := by
  have hcmp : ∀ a ∈ tree.root :: f.nodes, Compares m (fun a b => some (comparator a b)) value
      (Matches m comparator value) a := by
    intro a ha
    rw [← nodes_tree] at ha
    obtain ⟨y, hy, rfl⟩ := Forest.exists_row ha 0
    obtain ⟨n, hn, -⟩ := h.kids y hy
    refine ⟨n, comparator n.value value, hn, rfl, fun hv => ⟨n, hn, hv⟩, ?_⟩
    rintro ⟨n', hn', hv⟩
    cases hn.symm.trans hn'
    exact hv
  obtain ⟨p, hp, hfirst⟩ := h.find hcmp
  refine ⟨p, hp, ?_⟩
  rcases hfirst with hfirst | ⟨hnone, rfl⟩
  · have hp₀ : p ≠ 0 := (h.bound p hfirst.mem).1
    exact ⟨fun _ => hfirst, fun h₀ => absurd h₀ hp₀,
      fun hnone => absurd hfirst.holds (hnone p hfirst.mem)⟩
  · exact ⟨fun h₀ => absurd rfl h₀, fun _ => hnone, fun _ => rfl⟩

/-- A root with two children, a child of the first one, and two nodes that hold 7. -/
def sevens : TreeMem ℕ where
  cells a := if a = 80 then ⟨96, 0, 32⟩ else if a = 96 then ⟨0, 80, 64⟩ else ⟨0, 0, 48⟩
  node a :=
    if a = 16 then some ⟨5, ⟨80, 96, 2⟩, 0⟩ else if a = 32 then some ⟨6, ⟨112, 112, 1⟩, 16⟩
    else if a = 48 then some ⟨7, listCreate, 32⟩ else if a = 64 then some ⟨7, listCreate, 16⟩
      else none

theorem spellsTree_sevens :
    SpellsTree sevens 16 (.node 32 (.node 48 .nil .nil) (.node 64 .nil .nil)) where
  kids := by
    have h₁₆ : KidsIn sevens ⟨0, 16, [32, 64]⟩ := ⟨_, rfl, by decide, rfl, by decide, rfl, rfl⟩
    have h₃₂ : KidsIn sevens ⟨16, 32, [48]⟩ := ⟨_, rfl, by decide, rfl, rfl⟩
    have h₄₈ : KidsIn sevens ⟨32, 48, []⟩ := ⟨_, rfl, rfl⟩
    have h₆₄ : KidsIn sevens ⟨16, 64, []⟩ := ⟨_, rfl, rfl⟩
    intro y hy
    simp only [Forest.rows, Forest.roots, List.append_nil, List.nil_append, List.cons_append,
      List.mem_cons, List.not_mem_nil, or_false] at hy
    rcases hy with rfl | rfl | rfl | rfl
    · exact h₁₆
    · exact h₃₂
    · exact h₄₈
    · exact h₆₄
  nodup := by decide
  bound := by decide

/-- The first one in preorder is the one further down. -/
theorem tree_find_preorder_sevens : treeFind sevens ⟨4, 16⟩ 7
    (fun a b : ℕ => some (if a = b then 1 else 0)) = some 48 := by
  have htree : SpellsTree sevens (⟨4, 16⟩ : TreeT).root _ := spellsTree_sevens
  obtain ⟨p, hp, hfirst, hnull⟩ :=
    tree_find_preorder htree (fun a b : ℕ => if a = b then 1 else 0) 7
  have h₄₈ : Matches sevens (fun a b : ℕ => if a = b then 1 else 0) 7 48 := ⟨_, rfl, by decide⟩
  have hp₀ : p ≠ 0 := fun h₀ => hnull.1 h₀ 48 (by decide) h₄₈
  have hfirst' : FirstWith (Matches sevens (fun a b : ℕ => if a = b then 1 else 0) 7)
      [16, 32, 48, 64] 48 := by
    refine ⟨[16, 32], [64], rfl, h₄₈, ?_⟩
    rintro b hb ⟨n, hn, hv⟩
    rcases List.mem_pair.1 hb with rfl | rfl
    · cases hn
      exact hv rfl
    · cases hn
      exact hv rfl
  rw [hp, (hfirst hp₀).unique hfirst']

/-! ## What a removal keeps -/

/-- The nodes of the second memory are nodes of the first one, with the same values. -/
def KeepsValues (m m' : TreeMem α) : Prop :=
  ∀ b n', m'.node b = some n' → ∃ n, m.node b = some n ∧ n'.value = n.value

theorem KeepsValues.refl (m : TreeMem α) : KeepsValues m m := fun _ n hn => ⟨n, hn, rfl⟩

theorem KeepsValues.trans {m₂ : TreeMem α} (h : KeepsValues m m') (h' : KeepsValues m' m₂) :
    KeepsValues m m₂ := by
  intro b n₂ hn₂
  obtain ⟨n', hn', hv'⟩ := h' b n₂ hn₂
  obtain ⟨n, hn, hv⟩ := h b n' hn'
  exact ⟨n, hn, hv'.trans hv⟩

theorem keepsValues_freed (m : TreeMem α) (a : ℕ) : KeepsValues m (m.setNode a none) := by
  intro b n' hn'
  by_cases hba : b = a
  · rw [hba, setNode_self] at hn'
    cases hn'
  · rw [setNode_of_ne hba] at hn'
    exact ⟨n', hn', rfl⟩

/-- Freeing a branch touches no other node. The calls and rounds are by the fuel. -/
theorem free_values (fuel : ℕ) :
    (∀ (m m' : TreeMem α) (a : ℕ), treeNodeFree fuel m a = some m' → KeepsValues m m') ∧
    ∀ (m m' : TreeMem α) (child : ℕ), freeLoop fuel m child = some m' → KeepsValues m m' := by
  induction fuel with
  | zero => exact ⟨fun _ _ _ h => (by cases h), fun _ _ _ h => (by cases h)⟩
  | succ fuel ih =>
    refine ⟨fun m m' a h => ?_, fun m m' child h => ?_⟩
    · rw [treeNodeFree] at h
      split_ifs at h
      · obtain rfl := Option.some.inj h
        exact .refl m
      · obtain ⟨n, -, h⟩ := Option.bind_eq_some_iff.1 h
        obtain ⟨m₁, hloop, h⟩ := Option.bind_eq_some_iff.1 h
        obtain rfl := Option.some.inj h
        exact (ih.2 _ _ _ hloop).trans (keepsValues_freed m₁ a)
    · rw [freeLoop] at h
      split_ifs at h
      · obtain rfl := Option.some.inj h
        exact .refl m
      · obtain ⟨m₁, hfree, h⟩ := Option.bind_eq_some_iff.1 h
        exact (ih.1 _ _ _ hfree).trans (ih.2 _ _ _ h)

/-- Deleting a child changes the list of its parent only. -/
theorem deleteChild_values {parent node : ℕ} (h : deleteChild m parent node = some m') :
    KeepsValues m m' := by
  rw [deleteChild] at h
  obtain ⟨p, hp, h⟩ := Option.bind_eq_some_iff.1 h
  obtain ⟨item, -, h⟩ := Option.bind_eq_some_iff.1 h
  split_ifs at h
  obtain rfl := Option.some.inj h
  intro b n' hn'
  by_cases hb : b = parent
  · rw [hb, setNode_self] at hn'
    obtain rfl := Option.some.inj hn'
    exact ⟨p, hb ▸ hp, rfl⟩
  · rw [setNode_of_ne hb] at hn'
    exact ⟨n', hn', rfl⟩

theorem treeNodeParentRemove_values {parent node : ℕ} {r : TreeMem α × TreeT}
    (h : treeNodeParentRemove m tree parent node = some r) : KeepsValues m r.1 := by
  rw [treeNodeParentRemove] at h
  obtain ⟨k, -, h⟩ := Option.bind_eq_some_iff.1 h
  obtain ⟨m₁, hdelete, h⟩ := Option.bind_eq_some_iff.1 h
  obtain ⟨m₂, hfree, h⟩ := Option.bind_eq_some_iff.1 h
  obtain rfl := Option.some.inj h
  exact (deleteChild_values hdelete).trans ((free_values treeFuel).1 _ _ _ hfree)

/-- Where `tree_node_remove` goes through, the nodes that stay have their values. -/
theorem treeNodeRemove_values {node : ℕ} {r : TreeMem α × TreeT}
    (h : treeNodeRemove m tree node = some r) : KeepsValues m r.1 := by
  rw [treeNodeRemove] at h
  obtain ⟨n, -, h⟩ := Option.bind_eq_some_iff.1 h
  split_ifs at h
  · obtain ⟨m₁, hfree, h⟩ := Option.bind_eq_some_iff.1 h
    exact ((free_values treeFuel).1 _ _ _ hfree).trans (treeNodeParentRemove_values h)
  · exact treeNodeParentRemove_values h

end Beryllium.LinkedTree

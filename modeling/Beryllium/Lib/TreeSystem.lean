import Beryllium.Lib.TreeWalk
import Beryllium.Machine.System
import Mathlib.Data.List.Perm.Subperm

/-!
# Trees over whole runs

A client builds a tree with `tree_create` and `tree_set_root`, and goes on with
`tree_node_insert_child`, `tree_node_remove` and `tree_remove` in any order (`treeSystem`). Each
call is answered by an operation on an ordered forest with one root (`treeOp`).

The invariant (`TreeInv`): the rows of the forest are in the memory, where a ghost function says
which list nodes each list of children consists of, no list node is in two lists, and the counter
is the number of nodes. With `loose`, the lists may have lost back links: `list_merge` does not
set the one of the first node of the second list.

A call changes one row, and what stands at one place under it. `TreeInv.replug` does this once
for all calls.
-/

namespace Beryllium.LinkedTree

open Machine

/-- The memory, and the tree. -/
structure TreeState (α : Type) where
  mem : TreeMem α
  tree : TreeT

/-- The calls. The addresses of new nodes are what `malloc` answers. -/
inductive TreeOp (α : Type) where
  | insertChild (parent : ℕ) (value : α) (out cell : ℕ)
  | nodeRemove (node : ℕ)
  | remove (node : ℕ)

variable {α : Type}

/-- The list nodes from `p` on, along the links. -/
inductive OnList (m : ListMem ℕ) : ℕ → ℕ → Prop where
  | head {p : ℕ} : p ≠ 0 → OnList m p p
  | next {p c : ℕ} : p ≠ 0 → OnList m (m p).next c → OnList m p c

/-- `b` is in the list of children of `a`. -/
def TreeState.IsChild (s : TreeState α) (a b : ℕ) : Prop :=
  ∃ n c, s.mem.node a = some n ∧ OnList s.mem.cells n.children.head c ∧ (s.mem.cells c).value = b

/-- The nodes that are reachable from the root, through lists of children. -/
inductive TreeState.Reach (s : TreeState α) : ℕ → Prop where
  | root : s.tree.root ≠ 0 → Reach s s.tree.root
  | child {a b : ℕ} : Reach s a → s.IsChild a b → Reach s b

/-- The nodes of the tree, and of its lists. -/
def TreeState.InUse (s : TreeState α) (q : ℕ) : Prop :=
  s.Reach q ∨ ∃ a n, s.Reach a ∧ s.mem.node a = some n ∧ OnList s.mem.cells n.children.head q

/-- What `malloc` may return. -/
def TreeState.Fresh (s : TreeState α) (q : ℕ) : Prop := q ≠ 0 ∧ q < 4294967296 ∧ ¬s.InUse q

/-- What a call does to the state, `none` if it gets stuck. -/
def treeStep (s : TreeState α) : TreeOp α → Option (TreeState α)
  | .insertChild parent value out cell =>
    (treeNodeInsertChild s.mem s.tree parent value out cell).map fun r => ⟨r.1, r.2⟩
  | .nodeRemove node => (treeNodeRemove s.mem s.tree node).map fun r => ⟨r.1, r.2⟩
  | .remove node => (treeRemove s.mem s.tree node).map fun r => ⟨r.1, r.2⟩

/-- A tree with a root, and calls in any order: for nodes in the tree, and to remove a node not
    for the root. -/
def treeSystem : System (TreeState α) (TreeOp α) where
  init s := ∃ m root value, root ≠ 0 ∧ root < 4294967296 ∧
    s = ⟨(treeSetRoot m treeCreate root value).1, (treeSetRoot m treeCreate root value).2⟩
  guard s
    | .insertChild parent _ out cell =>
      s.Reach parent ∧ s.Fresh out ∧ s.Fresh cell ∧ out ≠ cell
    | .nodeRemove node => s.Reach node ∧ node ≠ s.tree.root
    | .remove node => s.Reach node ∧ node ≠ s.tree.root
  step := treeStep

/-- The operation on a forest that a call is for. -/
def treeOp (t : Forest ℕ) : TreeOp α → Forest ℕ
  | .insertChild parent _ out _ => t.insert parent out
  | .nodeRemove node => t.remove node
  | .remove node => t.splice node

/-! ## The invariant -/

/-- The list nodes of the list of children of `a`. -/
def cellsOf (K : ℕ → List (ℕ × ℕ)) (a : ℕ) : List ℕ := (K a).map Prod.fst

/-- The row of a node is in the memory, with the list nodes that `K` says. -/
def Holds (m : TreeMem α) (loose : Prop) (K : ℕ → List (ℕ × ℕ)) (y : Row ℕ) : Prop :=
  ∃ n, m.node y.node = some n ∧ n.parent = y.parent ∧
    IsList m.cells loose n.children (K y.node) ∧ (K y.node).map Prod.snd = y.kids

/-- The tree is the forest `f` under the root. -/
structure TreeInv (loose : Prop) (s : TreeState α) (f : Forest ℕ) (K : ℕ → List (ℕ × ℕ)) :
    Prop where
  holds : ∀ y ∈ (Forest.node s.tree.root f .nil).rows 0, Holds s.mem loose K y
  nodup : (s.tree.root :: f.nodes).Nodup
  bound : ∀ a ∈ s.tree.root :: f.nodes, a ≠ 0 ∧ a < 4294967296
  apart : ∀ a ∈ s.tree.root :: f.nodes, ∀ b ∈ s.tree.root :: f.nodes, a ≠ b →
    List.Disjoint (cellsOf K a) (cellsOf K b)
  nodes : s.tree.nodes = f.nodes.length + 1

variable {m m' : TreeMem α} {s s' : TreeState α} {loose : Prop} {K K' : ℕ → List (ℕ × ℕ)}
  {f k r h₁ h₂ : Forest ℕ} {c : Place ℕ} {y : Row ℕ} {a b p q x : ℕ} {xs : List (ℕ × ℕ)}
  {list : ListT}

/-! ### The rows in memory -/

theorem spells_of_dseg {cells : ListMem ℕ}
    (h : DSeg (fun a => (cells a).next) (fun a => (cells a).prev) loose p (xs.map Prod.fst) 0)
    (hv : ∀ x ∈ xs, (cells x.1).value = x.2) (h₀ : 0 ∉ xs.map Prod.fst) :
    Spells cells ((xs.map Prod.fst).headD 0) (xs.map Prod.snd) := by
  induction xs generalizing p with
  | nil => rfl
  | cons x xs ih =>
    obtain ⟨-, hnext, hrest⟩ := h
    rw [List.map_cons, List.mem_cons, not_or] at h₀
    have hspells := ih hrest (fun y hy => hv y (List.mem_cons_of_mem x hy)) h₀.2
    rw [← hnext] at hspells
    exact ⟨Ne.symm h₀.1, hv x List.mem_cons_self, hspells⟩

theorem spells_of_isList {cells : ListMem ℕ} (h : IsList cells loose list xs) :
    Spells cells list.head (xs.map Prod.snd) := by
  rw [h.links.head_eq]
  exact spells_of_dseg h.links.seg h.value h.links.ne_zero

theorem Holds.rowIn (h : Holds m loose K y) : RowIn m y := by
  obtain ⟨n, hn, hp, hlist, hkids⟩ := h
  have hspells := spells_of_isList hlist
  have hlen := hlist.length
  rw [hkids] at hspells
  rw [← List.length_map Prod.snd, hkids] at hlen
  exact ⟨n, hn, hp, hlen, hspells⟩

/-- A row stays if neither the node nor its list of children is changed. -/
theorem Holds.congr (h : Holds m loose K y) (hnode : m'.node y.node = m.node y.node)
    (hK : K' y.node = K y.node) (hcells : ∀ c ∈ cellsOf K y.node, m'.cells c = m.cells c) :
    Holds m' loose K' y := by
  obtain ⟨n, hn, hp, hlist, hkids⟩ := h
  refine ⟨n, hnode.trans hn, hp, ?_, ?_⟩
  · rw [hK]
    exact hlist.congr hcells
  · rw [hK]
    exact hkids

/-! ### What is reachable -/

theorem onList_iff {cells : ListMem ℕ} {ns : List ℕ} {i : ℕ}
    (h : Visits (fun a => (cells a).next) p ns) : OnList cells p i ↔ i ∈ ns := by
  constructor
  · intro hi
    induction hi generalizing ns with
    | head h₀ =>
      cases ns with
      | nil => exact absurd h h₀
      | cons a ns => exact h.1 ▸ List.mem_cons_self
    | next h₀ _ ih =>
      cases ns with
      | nil => exact absurd h h₀
      | cons a ns =>
        obtain ⟨rfl, -, h⟩ := h
        exact List.mem_cons_of_mem _ (ih h)
  · intro hi
    induction ns generalizing p with
    | nil => exact absurd hi List.not_mem_nil
    | cons a ns ih =>
      obtain ⟨rfl, h₀, h⟩ := h
      rcases List.mem_cons.1 hi with rfl | hi
      · exact .head h₀
      · exact .next h₀ (ih h hi)

theorem Holds.isChild (h : Holds s.mem loose K y) : s.IsChild y.node b ↔ b ∈ y.kids := by
  obtain ⟨n, hn, -, hlist, hkids⟩ := h
  rw [← hkids, List.mem_map]
  constructor
  · rintro ⟨n', i, hn', hi, rfl⟩
    cases hn.symm.trans hn'
    obtain ⟨x, hx, rfl⟩ := List.mem_map.1 ((onList_iff hlist.links.visits_next).1 hi)
    exact ⟨x, hx, (hlist.value x hx).symm⟩
  · rintro ⟨x, hx, rfl⟩
    exact ⟨n, x.1, hn, (onList_iff hlist.links.visits_next).2 (List.mem_map_of_mem hx),
      hlist.value x hx⟩

theorem reach_of_rows (hrows : ∀ y ∈ f.rows q, Holds s.mem loose K y)
    (hroots : ∀ b ∈ f.roots, s.Reach b) : ∀ b ∈ f.nodes, s.Reach b := by
  induction f generalizing q with
  | nil => exact fun b hb => absurd hb List.not_mem_nil
  | node a k r ihk ihr =>
    have ha : s.Reach a := hroots a List.mem_cons_self
    intro b hb
    rcases List.mem_cons.1 hb with rfl | hb
    · exact ha
    rcases List.mem_append.1 hb with hb | hb
    · refine ihk (fun y hy => hrows y (Forest.mem_rows_kids hy)) ?_ b hb
      exact fun i hi => ha.child ((hrows _ List.mem_cons_self).isChild.2 hi)
    · exact ihr (fun y hy => hrows y (Forest.mem_rows_rest hy))
        (fun i hi => hroots i (List.mem_cons_of_mem a hi)) b hb

theorem nodes_tree : (Forest.node a f .nil).nodes = a :: f.nodes := by
  rw [Forest.nodes, Forest.nodes, List.append_nil]

/-- The row of a node. -/
theorem TreeInv.exists_row (h : TreeInv loose s f K) (ha : a ∈ s.tree.root :: f.nodes) :
    ∃ y ∈ (Forest.node s.tree.root f .nil).rows 0, y.node = a ∧ Holds s.mem loose K y := by
  rw [← nodes_tree] at ha
  obtain ⟨y, hy, hya⟩ := Forest.exists_row ha 0
  exact ⟨y, hy, hya, h.holds y hy⟩

/-- The reachable nodes are those of the forest. -/
theorem TreeInv.reach (h : TreeInv loose s f K) : s.Reach b ↔ b ∈ s.tree.root :: f.nodes := by
  constructor
  · intro hb
    induction hb with
    | root => exact List.mem_cons_self
    | child _ hchild ih =>
      obtain ⟨y, hy, rfl, hrow⟩ := h.exists_row ih
      obtain ⟨z, hz, rfl, -⟩ := Forest.kid_row hy (hrow.isChild.1 hchild)
      rw [← nodes_tree]
      exact Forest.node_mem hz
  · intro hb
    have hroot : s.Reach s.tree.root := .root (h.bound _ List.mem_cons_self).1
    rw [← nodes_tree] at hb
    refine reach_of_rows h.holds (fun i hi => ?_) b hb
    rw [List.mem_singleton.1 hi]
    exact hroot

/-- A fresh address is neither a node of the tree nor in a list. -/
theorem TreeInv.fresh (h : TreeInv loose s f K) (hq : s.Fresh q) :
    q ∉ s.tree.root :: f.nodes ∧ ∀ a ∈ s.tree.root :: f.nodes, q ∉ cellsOf K a := by
  refine ⟨fun hmem => hq.2.2 (.inl (h.reach.2 hmem)), fun a ha hmem => hq.2.2 (.inr ?_)⟩
  obtain ⟨y, -, rfl, n, hn, -, hlist, -⟩ := h.exists_row ha
  exact ⟨y.node, n, h.reach.2 ha, hn, (onList_iff hlist.links.visits_next).2 hmem⟩

/-- There are fewer nodes than addresses. -/
theorem length_lt_of_bound {ns : List ℕ} (hnodup : ns.Nodup)
    (hb : ∀ a ∈ ns, a ≠ 0 ∧ a < 4294967296) : ns.length < 4294967296 := by
  have hnodup₀ : (0 :: ns).Nodup := List.nodup_cons.2 ⟨fun h₀ => (hb 0 h₀).1 rfl, hnodup⟩
  have hlt : ∀ a ∈ 0 :: ns, a < 4294967296 :=
    List.forall_mem_cons.2 ⟨Nat.zero_lt_succ _, fun a ha => (hb a ha).2⟩
  exact length_le_of_nodup hnodup₀ hlt

/-! ## Changes at one place -/

/-- The nodes of a tree with a hole filled: the parent, the others, and those in the hole. -/
theorem mem_plug_iff : a ∈ q :: (c.plug h₁).nodes ↔
    a = c.parent q ∨ a ∈ (c.others 0 q).map Row.node ∨ a ∈ h₁.nodes := by
  rw [(Place.nodes_plug c h₁ 0 q).mem_iff, List.mem_cons, List.mem_append]

theorem TreeInv.not_mem_hole (h : TreeInv loose s (c.plug h₁) K) :
    c.parent s.tree.root ∉ h₁.nodes := fun hp =>
  (List.nodup_cons.1 ((Place.nodes_plug c h₁ 0 _).nodup_iff.1 h.nodup)).1
    (List.mem_append_right _ hp)

/-- The other nodes are neither the parent nor in the hole. -/
theorem TreeInv.other (h : TreeInv loose s (c.plug h₁) K)
    (ha : a ∈ (c.others 0 s.tree.root).map Row.node) :
    a ≠ c.parent s.tree.root ∧ a ∉ h₁.nodes := by
  obtain ⟨hp, hnodup⟩ := List.nodup_cons.1 ((Place.nodes_plug c h₁ 0 _).nodup_iff.1 h.nodup)
  refine ⟨?_, fun hh => (List.nodup_append.1 hnodup).2.2 a ha a hh rfl⟩
  rintro rfl
  exact hp (List.mem_append_left _ ha)

/-- The row of the parent of a place. -/
theorem parent_row_mem : ⟨c.grand 0 q, c.parent q, c.pre ++ h₁.roots⟩ ∈
    (Forest.node q (c.plug h₁) .nil).rows 0 :=
  (Place.rows_plug c h₁ 0 q).mem_iff.2 List.mem_cons_self

theorem TreeInv.parent_holds (h : TreeInv loose s (c.plug h₁) K) : Holds s.mem loose K
    ⟨c.grand 0 s.tree.root, c.parent s.tree.root, c.pre ++ h₁.roots⟩ := h.holds _ parent_row_mem

/-- The children of a node are listed once. -/
theorem TreeInv.kids_nodup (h : TreeInv loose s f K)
    (hy : y ∈ (Forest.node s.tree.root f .nil).rows 0) : y.kids.Nodup := by
  have hsub := Forest.kids_sublist hy
  rw [nodes_tree] at hsub
  exact h.nodup.sublist hsub

/-- The list of children of a node has fewer list nodes than there are addresses. -/
theorem TreeInv.length_lt (h : TreeInv loose s f K) (ha : a ∈ s.tree.root :: f.nodes) :
    (K a).length < nodeFuel := by
  obtain ⟨y, hy, rfl, n, -, -, -, hkids⟩ := h.exists_row ha
  have hlt := length_lt_of_bound h.nodup h.bound
  have hle := (Forest.kids_sublist hy).length_le
  rw [nodes_tree, ← hkids, List.length_map] at hle
  exact Nat.lt_of_le_of_lt hle hlt

/-- The rows of what fills the hole. -/
theorem TreeInv.hole_holds (h : TreeInv loose s (c.plug h₁) K)
    (hy : y ∈ h₁.rows (c.parent s.tree.root)) : Holds s.mem loose K y :=
  h.holds _ ((Place.rows_plug c h₁ 0 _).mem_iff.2
    (List.mem_cons_of_mem _ (List.mem_append_right _ hy)))

/-- Lists that are apart stay apart if one of them changes, and the new ones are empty. -/
theorem apart_of_congr {nodes nodes' : List ℕ}
    (h : ∀ a ∈ nodes, ∀ b ∈ nodes, a ≠ b → List.Disjoint (cellsOf K a) (cellsOf K b))
    (hK : ∀ a ∈ nodes', a ≠ p → K' a = [] ∨ a ∈ nodes ∧ K' a = K a)
    (hdisj : ∀ a ∈ nodes', a ≠ p → List.Disjoint (cellsOf K' p) (cellsOf K' a)) :
    ∀ a ∈ nodes', ∀ b ∈ nodes', a ≠ b → List.Disjoint (cellsOf K' a) (cellsOf K' b) := by
  intro a ha b hb hab
  by_cases hap : a = p
  · subst hap
    exact hdisj b hb (Ne.symm hab)
  by_cases hbp : b = p
  · subst hbp
    exact List.disjoint_comm.1 (hdisj a ha hap)
  rcases hK a ha hap with ha | ⟨ha, hKa⟩
  · rw [cellsOf, ha]
    exact List.disjoint_nil_left _
  rcases hK b hb hbp with hb | ⟨hb, hKb⟩
  · rw [cellsOf, cellsOf, hb]
    exact List.disjoint_nil_right _
  rw [cellsOf, cellsOf, hKa, hKb]
  exact h a ha b hb hab

/-- The invariant with another forest in the hole. The row of the parent and the rows of the new
    forest are in the memory, the lists of the other nodes are left as they are, and the list of
    the parent has no list node of another list. -/
theorem TreeInv.replug (h : TreeInv loose s (c.plug h₁) K)
    (hroot : s'.tree.root = s.tree.root)
    (hcount : s'.tree.nodes + h₁.nodes.length = s.tree.nodes + h₂.nodes.length)
    (hparent : Holds s'.mem loose K'
      ⟨c.grand 0 s.tree.root, c.parent s.tree.root, c.pre ++ h₂.roots⟩)
    (hrows : ∀ y ∈ h₂.rows (c.parent s.tree.root), Holds s'.mem loose K' y)
    (hnodup : h₂.nodes.Nodup)
    (hnew : ∀ a ∈ h₂.nodes, (a ∈ h₁.nodes ∧ K' a = K a) ∨
      (a ∉ s.tree.root :: (c.plug h₁).nodes ∧ a ≠ 0 ∧ a < 4294967296 ∧ K' a = []))
    (hother : ∀ a ∈ s.tree.root :: (c.plug h₁).nodes, a ≠ c.parent s.tree.root → a ∉ h₁.nodes →
      s'.mem.node a = s.mem.node a ∧ K' a = K a ∧
        ∀ i ∈ cellsOf K a, s'.mem.cells i = s.mem.cells i)
    (hdisj : ∀ a ∈ s.tree.root :: (c.plug h₂).nodes, a ≠ c.parent s.tree.root →
      List.Disjoint (cellsOf K' (c.parent s.tree.root)) (cellsOf K' a)) :
    TreeInv loose s' (c.plug h₂) K' := by
  have hmem : ∀ a ∈ (c.others 0 s.tree.root).map Row.node,
      a ∈ s.tree.root :: (c.plug h₁).nodes := fun a ha => mem_plug_iff.2 (.inr (.inl ha))
  -- a node of the new tree that is not the parent has its old list, or none
  have hK : ∀ a ∈ s.tree.root :: (c.plug h₂).nodes, a ≠ c.parent s.tree.root → K' a = [] ∨
      a ∈ s.tree.root :: (c.plug h₁).nodes ∧ K' a = K a := by
    intro a ha hap
    rcases mem_plug_iff.1 ha with rfl | ha | ha
    · exact absurd rfl hap
    · exact .inr ⟨hmem a ha, (hother a (hmem a ha) (h.other ha).1 (h.other ha).2).2.1⟩
    · rcases hnew a ha with ⟨ha, hKa⟩ | ⟨-, -, -, hKa⟩
      · exact .inr ⟨mem_plug_iff.2 (.inr (.inr ha)), hKa⟩
      · exact .inl hKa
  refine ⟨?_, ?_, ?_, ?_, ?_⟩
  · rw [hroot]
    intro y hy
    rcases List.mem_cons.1 ((Place.rows_plug c h₂ 0 _).mem_iff.1 hy) with rfl | hy
    · exact hparent
    rcases List.mem_append.1 hy with hy | hy
    · have hrow := h.holds y ((Place.rows_plug c h₁ 0 _).mem_iff.2
        (List.mem_cons_of_mem _ (List.mem_append_left _ hy)))
      have hy := List.mem_map_of_mem (f := Row.node) hy
      obtain ⟨hnode, hKy, hcells⟩ := hother _ (hmem _ hy) (h.other hy).1 (h.other hy).2
      exact hrow.congr hnode hKy hcells
    · exact hrows y hy
  · rw [hroot]
    exact Place.nodup_plug h.nodup hnodup fun a ha => (hnew a ha).imp And.left And.left
  · rw [hroot]
    intro a ha
    rcases mem_plug_iff.1 ha with rfl | ha | ha
    · exact h.bound _ (mem_plug_iff.2 (.inl rfl))
    · exact h.bound a (hmem a ha)
    · rcases hnew a ha with ⟨ha, -⟩ | ⟨-, ha₀, hlt, -⟩
      · exact h.bound a (mem_plug_iff.2 (.inr (.inr ha)))
      · exact ⟨ha₀, hlt⟩
  · rw [hroot]
    exact apart_of_congr h.apart hK hdisj
  · have hlen := (Place.nodes_plug c h₁ 0 s.tree.root).length_eq
    have hlen' := (Place.nodes_plug c h₂ 0 s.tree.root).length_eq
    have hnodes := h.nodes
    simp only [List.length_cons, List.length_append] at hlen hlen'
    omega

end Beryllium.LinkedTree

import Beryllium.Lib.TreeStep

/-!
# What a tree keeps account of

Two results about the runs of a client of a tree:

* `tree_bookkeeping`: as long as nodes are only added and branches removed, the counter, the
  parents and the lists of children agree (`TreeBooks`);
* `tree_splices`: with `tree_remove` the tree is the one that the operations on a forest make
  (`TreeIs`), if no node is taken out of a list whose back link is lost. `tree_remove` itself
  makes such nodes: `list_merge` leaves the back link of the first child null.

The first is about lists that are not loose, the second about loose ones.
-/

namespace Beryllium.LinkedTree

open Machine

variable {α : Type} {s s' s₀ : TreeState α} {loose : Prop} {K : ℕ → List (ℕ × ℕ)} {t f : Forest ℕ}
  {op : TreeOp α} {ops : List (TreeOp α)} {a b x : ℕ}

/-- The tree in memory is the forest `t`. -/
def Tree (loose : Prop) (s : TreeState α) (t : Forest ℕ) : Prop :=
  ∃ f K, t = .node s.tree.root f .nil ∧ TreeInv loose s f K

/-- Only additions and removals of branches. -/
def NoSplice (_ : TreeState α) (op : TreeOp α) : Prop := ∀ node, op ≠ .remove node

/-- The back link of the list node of a node to be removed is not lost. -/
def LinksIntact (s : TreeState α) : TreeOp α → Prop
  | .insertChild _ _ _ _ => True
  | .nodeRemove node => s.BackLinked node
  | .remove node => s.BackLinked node

/-! ## The steps -/

theorem TreeInv.of_init (h : treeSystem.init s) : TreeInv loose s .nil fun _ => [] := by
  obtain ⟨m, root, value, h₀, hlt, rfl⟩ := h
  refine ⟨fun y hy => ?_, List.nodup_singleton _, fun a ha => ?_, fun a _ b _ _ => ?_, rfl⟩
  · rw [List.mem_singleton.1 hy]
    exact ⟨_, setNode_self, rfl, isList_create, rfl⟩
  · rw [List.mem_singleton.1 ha]
    exact ⟨h₀, hlt⟩
  · exact List.disjoint_nil_left _

theorem Tree.insertChild {parent out cell : ℕ} {value : α} (h : Tree loose s t)
    (hg : treeSystem.guard s (.insertChild parent value out cell)) :
    ∃ s', treeStep s (.insertChild parent value out cell) = some s' ∧
      Tree loose s' (t.insert parent out) := by
  obtain ⟨f, K, rfl, h⟩ := h
  obtain ⟨hparent, hout, hcell, -⟩ := hg
  obtain ⟨c, hc, rfl⟩ := Place.exists_plug_nil (List.mem_cons.1 (h.reach.1 hparent))
  obtain ⟨s', hstep, hroot, h'⟩ := h.insertChild hc hout hcell
  refine ⟨s', hstep, _, _, ?_, h'⟩
  have hnodup := h.nodup
  rw [← nodes_tree] at hnodup
  rw [hroot, ← hc, Place.insert_plug hnodup]

/-- The place of a node to be removed. -/
theorem Tree.exists_place (h : TreeInv loose s f K) (hx : s.Reach x) (hroot : x ≠ s.tree.root) :
    ∃ (c : Place ℕ) (k r : Forest ℕ), f = c.plug (.node x k r) ∧
      ∀ g, (Forest.node s.tree.root f .nil).cut g x =
        .node s.tree.root (c.plug (g k r)) .nil := by
  obtain ⟨c, k, r, rfl⟩ :=
    Place.exists_plug ((List.mem_cons.1 (h.reach.1 hx)).resolve_left hroot)
  refine ⟨c, k, r, rfl, fun g => ?_⟩
  rw [Forest.cut, if_neg hroot.symm, Place.cut_plug (List.nodup_cons.1 h.nodup).2, Forest.cut]

theorem Tree.nodeRemove (h : Tree loose s t) (hg : treeSystem.guard s (.nodeRemove x))
    (hback : ¬loose ∨ s.BackLinked x) :
    ∃ s', treeStep s (.nodeRemove x) = some s' ∧ Tree loose s' (t.remove x) := by
  obtain ⟨f, K, rfl, h⟩ := h
  obtain ⟨c, k, r, rfl, hcut⟩ := Tree.exists_place h hg.1 hg.2
  obtain ⟨s', K', hstep, hroot, h'⟩ := h.nodeRemove hback
  exact ⟨s', hstep, _, K', by rw [Forest.remove, hcut, hroot], h'⟩

theorem Tree.remove (h : Tree loose s t) (hg : treeSystem.guard s (.remove x)) (hloose : loose)
    (hback : s.BackLinked x) :
    ∃ s', treeStep s (.remove x) = some s' ∧ Tree loose s' (t.splice x) := by
  obtain ⟨f, K, rfl, h⟩ := h
  obtain ⟨c, k, r, rfl, hcut⟩ := Tree.exists_place h hg.1 hg.2
  obtain ⟨s', K', hstep, hroot, h'⟩ := h.remove hloose hback
  exact ⟨s', hstep, _, K', by rw [Forest.splice, hcut, hroot], h'⟩

/-- Without `tree_remove` the lists do not get loose. -/
theorem Tree.step_noSplice (h : Tree False s t) (hg : treeSystem.guard s op)
    (hop : NoSplice s op) : ∃ s', treeStep s op = some s' ∧ Tree False s' (treeOp t op) := by
  cases op with
  | insertChild parent value out cell => exact h.insertChild hg
  | nodeRemove x => exact h.nodeRemove hg (.inl id)
  | remove x => exact absurd rfl (hop x)

theorem Tree.step (h : Tree True s t) (hg : treeSystem.guard s op) (hop : LinksIntact s op) :
    ∃ s', treeStep s op = some s' ∧ Tree True s' (treeOp t op) := by
  cases op with
  | insertChild parent value out cell => exact h.insertChild hg
  | nodeRemove x => exact h.nodeRemove hg (.inr hop)
  | remove x => exact h.remove hg trivial hop

theorem Tree.of_init (h : treeSystem.init s) : Tree loose s (.node s.tree.root .nil .nil) :=
  ⟨_, _, rfl, .of_init h⟩

/-! ## The accounts -/

/-- The counter, the parents and the lists of children agree. -/
structure TreeBooks (s : TreeState α) : Prop where
  count : ∃ k, treeCountChildren s.mem treeFuel s.tree.root = some k ∧ s.tree.nodes = 1 + k
  nodes : ∃ ns : List ℕ, ns.Nodup ∧ (∀ a, s.Reach a ↔ a ∈ ns) ∧ s.tree.nodes = ns.length
  /-- A node other than the root is once in the list of its parent, and in no other list. -/
  once : ∀ b, s.Reach b → b ≠ s.tree.root → ∃ n, s.mem.node b = some n ∧ s.Reach n.parent ∧
    ∀ a, s.Reach a → ∃ na ns, s.mem.node a = some na ∧
      Spells s.mem.cells na.children.head ns ∧ ns.count b = if a = n.parent then 1 else 0
  findParent : ∀ b n, s.Reach b → b ≠ s.tree.root → s.mem.node b = some n →
    treeFindParent s.mem s.tree b = some n.parent
  findParent_root : treeFindParent s.mem s.tree s.tree.root = some 0
  findParent_outside : ∀ b, ¬s.Reach b → treeFindParent s.mem s.tree b = some 0

/-- The tree is the forest `t`. -/
structure TreeIs (s : TreeState α) (t : Forest ℕ) : Prop where
  reach : ∀ a, s.Reach a ↔ a ∈ t.nodes
  nodup : t.nodes.Nodup
  nodes : s.tree.nodes = t.nodes.length
  /-- Each node has the parent and the children of the forest, in order. -/
  rows : ∀ y ∈ t.rows 0, RowIn s.mem y

theorem Tree.treeIs (h : Tree loose s t) : TreeIs s t := by
  obtain ⟨f, K, rfl, h⟩ := h
  refine ⟨fun a => ?_, ?_, ?_, fun y hy => (h.holds y hy).rowIn⟩
  · rw [nodes_tree]
    exact h.reach
  · rw [nodes_tree]
    exact h.nodup
  · rw [nodes_tree, List.length_cons]
    exact h.nodes

/-- The row of a node is that of a node in the list of its parent. -/
theorem TreeInv.once (h : TreeInv loose s f K) (hb : s.Reach b) (hroot : b ≠ s.tree.root) :
    ∃ n, s.mem.node b = some n ∧ s.Reach n.parent ∧ ∀ a, s.Reach a → ∃ na ns,
      s.mem.node a = some na ∧ Spells s.mem.cells na.children.head ns ∧
        ns.count b = if a = n.parent then 1 else 0 := by
  have hnodup := h.nodup
  rw [← nodes_tree] at hnodup
  obtain ⟨y, hy, rfl, n, hn, hnp, -⟩ := h.exists_row (h.reach.1 hb)
  -- the row of the parent
  obtain ⟨z, hz, hzy, hzkids⟩ : ∃ z ∈ (Forest.node s.tree.root f .nil).rows 0,
      z.node = y.parent ∧ y.node ∈ z.kids := by
    rcases Forest.parent_row hy with ⟨-, hyroot⟩ | hz
    · exact absurd (List.mem_singleton.1 hyroot) hroot
    · exact hz
  refine ⟨n, hn, ?_, fun a ha => ?_⟩
  · rw [hnp, ← hzy, h.reach, ← nodes_tree]
    exact Forest.node_mem hz
  obtain ⟨w, hw, rfl, hwrow⟩ := h.exists_row (h.reach.1 ha)
  obtain ⟨na, hna, -, -, hspells⟩ := hwrow.rowIn
  refine ⟨na, w.kids, hna, hspells, ?_⟩
  split_ifs with hap
  · have hwz : w = z := Forest.row_unique hnodup hw hz (hap.trans (hnp.trans hzy.symm))
    rw [hwz]
    exact List.count_eq_one_of_mem (h.kids_nodup hz) hzkids
  · refine List.count_eq_zero.2 fun hkid => hap ?_
    obtain ⟨y', hy', hyy', hyw⟩ := Forest.kid_row hw hkid
    rw [hnp, ← Forest.row_unique hnodup hy' hy hyy', hyw]

/-- `tree_find_parent` goes through the rows under the root. -/
theorem TreeInv.findParent (h : TreeInv loose s f K) (b : ℕ) :
    ∃ p, treeFindParent s.mem s.tree b = some p ∧
      ((∃ y ∈ f.rows s.tree.root, y.node = b ∧ y.parent = p) ∨ b ∉ f.nodes ∧ p = 0) := by
  have hrow := (h.holds _ List.mem_cons_self).rowIn
  have hlt := length_lt_of_bound h.nodup h.bound
  rw [List.length_cons] at hlt
  rw [treeFindParent, if_neg (h.bound _ List.mem_cons_self).1]
  refine treeNodeFindParent_spec hrow (fun y hy => (h.holds y ?_).rowIn) ?_ (by omega) b
  · exact Forest.mem_rows_kids hy
  · exact fun h₀ => (h.bound 0 (List.mem_cons_of_mem _ h₀)).1 rfl

theorem TreeInv.findParent_none (h : TreeInv loose s f K) (hb : b ∉ f.nodes) :
    treeFindParent s.mem s.tree b = some 0 := by
  obtain ⟨p, hp, ⟨y, hy, rfl, -⟩ | ⟨-, rfl⟩⟩ := h.findParent b
  · exact absurd (Forest.node_mem hy) hb
  · exact hp

theorem TreeInv.books (h : TreeInv loose s f K) : TreeBooks s where
  count := by
    have hlt := length_lt_of_bound h.nodup h.bound
    rw [List.length_cons] at hlt
    refine ⟨f.nodes.length, ?_, by rw [h.nodes, Nat.add_comm]⟩
    refine treeCountChildren_eq (h.holds _ List.mem_cons_self).rowIn
      (fun y hy => (h.holds y ?_).rowIn) (h.bound _ List.mem_cons_self).1 ?_ (by omega)
    · exact Forest.mem_rows_kids hy
    · exact fun h₀ => (h.bound 0 (List.mem_cons_of_mem _ h₀)).1 rfl
  nodes := ⟨_, h.nodup, fun _ => h.reach, h.nodes⟩
  once _ hb hroot := h.once hb hroot
  findParent b n hb hroot hn := by
    obtain ⟨p, hp, ⟨y, hy, rfl, rfl⟩ | ⟨hb', -⟩⟩ := h.findParent b
    · obtain ⟨n', hn', hnp, -⟩ := h.holds y (Forest.mem_rows_kids hy)
      cases hn.symm.trans hn'
      rw [hp, hnp]
    · exact absurd ((List.mem_cons.1 (h.reach.1 hb)).resolve_left hroot) hb'
  findParent_root := h.findParent_none (List.nodup_cons.1 h.nodup).1
  findParent_outside b hb := h.findParent_none fun hmem =>
    hb (h.reach.2 (List.mem_cons_of_mem _ hmem))

/-- In every run of additions and removals of branches the counter, the parents and the lists of
    children agree, and every further call returns. -/
theorem tree_bookkeeping (h₀ : treeSystem.init s₀)
    (hrun : (treeSystem.restrict NoSplice).Run s₀ ops s) :
    TreeBooks s ∧ ∀ op, treeSystem.guard s op → NoSplice s op →
      ∃ s', treeSystem.step s op = some s' := by
  have htree : Tree False s (ops.foldl treeOp (.node s₀.tree.root .nil .nil)) := by
    refine hrun.refines (R := Tree False) (fun s t op s' ht hg hst => ?_) (.of_init h₀)
    obtain ⟨s₁, hs₁, ht₁⟩ := ht.step_noSplice hg.1 hg.2
    cases hs₁.symm.trans hst
    exact ht₁
  refine ⟨?_, fun op hg hop => ?_⟩
  · obtain ⟨f, K, -, h⟩ := htree
    exact h.books
  · obtain ⟨s', hs', -⟩ := htree.step_noSplice hg hop
    exact ⟨s', hs'⟩

/-- In every run in which no node is taken out of a list where its back link is lost, the tree is
    the one that the operations on a forest make, and every further call of this kind returns. -/
theorem tree_splices (h₀ : treeSystem.init s₀)
    (hrun : (treeSystem.restrict LinksIntact).Run s₀ ops s) :
    TreeIs s (ops.foldl treeOp (.node s₀.tree.root .nil .nil)) ∧
      ∀ op, treeSystem.guard s op → LinksIntact s op →
        ∃ s', treeSystem.step s op = some s' := by
  have htree : Tree True s (ops.foldl treeOp (.node s₀.tree.root .nil .nil)) := by
    refine hrun.refines (R := Tree True) (fun s t op s' ht hg hst => ?_) (.of_init h₀)
    obtain ⟨s₁, hs₁, ht₁⟩ := ht.step hg.1 hg.2
    cases hs₁.symm.trans hst
    exact ht₁
  refine ⟨htree.treeIs, fun op hg hop => ?_⟩
  obtain ⟨s', hs', -⟩ := htree.step hg hop
  exact ⟨s', hs'⟩

/-! ## A lost back link -/

/-- A root at 4096. -/
def seamTree : TreeState ℕ :=
  let r := treeSetRoot ⟨fun _ => ⟨0, 0, 0⟩, fun _ => none⟩ treeCreate 4096 0
  ⟨r.1, r.2⟩

/-- Two children of the root, and a child of the second one. -/
def seamOps : List (TreeOp ℕ) :=
  [.insertChild 4096 1 4112 8192, .insertChild 4096 2 4128 8208, .insertChild 4128 3 4144 8224]

theorem seamTree_init : treeSystem.init seamTree :=
  ⟨_, 4096, 0, by decide, by decide, rfl⟩

theorem TreeInv.fresh_of {q : ℕ} (h : TreeInv loose s f K) (h₀ : q ≠ 0) (hlt : q < 4294967296)
    (hn : q ∉ s.tree.root :: f.nodes) (hc : ∀ a ∈ s.tree.root :: f.nodes, q ∉ cellsOf K a) :
    s.Fresh q := by
  refine ⟨h₀, hlt, ?_⟩
  rintro (hq | ⟨a, n, ha, hn', hq⟩)
  · exact hn (h.reach.1 hq)
  · obtain ⟨y, -, rfl, n', hn, -, hlist, -⟩ := h.exists_row (h.reach.1 ha)
    cases hn.symm.trans hn'
    exact hc _ (h.reach.1 ha) ((onList_iff hlist.links.visits_next).1 hq)

/-- A new child with addresses that are nowhere in the tree. -/
theorem TreeInv.exists_insertChild {root : ℕ} (c : Place ℕ) (value : α) (out cell : ℕ)
    (h : TreeInv loose s (c.plug .nil) K) (hroot : s.tree.root = root)
    (hout : out ≠ 0 ∧ out < 4294967296) (hcell : cell ≠ 0 ∧ cell < 4294967296)
    (hne : out ≠ cell)
    (hn : ∀ a ∈ root :: (c.plug .nil).nodes, out ≠ a ∧ cell ≠ a ∧ out ∉ cellsOf K a ∧
      cell ∉ cellsOf K a) :
    ∃ s', treeSystem.guard s (.insertChild (c.parent root) value out cell) ∧
      treeStep s (.insertChild (c.parent root) value out cell) = some s' ∧
      s'.tree.root = root ∧ TreeInv loose s' (c.plug (.node out .nil .nil))
        (Function.update (Function.update K (c.parent root)
          (K (c.parent root) ++ [(cell, out)])) out []) := by
  subst hroot
  have hfresh : s.Fresh out := h.fresh_of hout.1 hout.2 (fun hmem => (hn _ hmem).1 rfl)
    fun a ha => (hn a ha).2.2.1
  have hfresh' : s.Fresh cell := h.fresh_of hcell.1 hcell.2 (fun hmem => (hn _ hmem).2.1 rfl)
    fun a ha => (hn a ha).2.2.2
  obtain ⟨s', hs', hr, h'⟩ := h.insertChild rfl hfresh hfresh'
  exact ⟨s', ⟨h.reach.2 (mem_plug_iff.2 (.inl rfl)), hfresh, hfresh', hne⟩, hs', hr, h'⟩

theorem seamTree_run {C : TreeState ℕ → TreeOp ℕ → Prop}
    (hC : ∀ s parent value out cell, C s (.insertChild parent value out cell)) :
    ∃ s, (treeSystem.restrict C).Run seamTree seamOps s ∧
      seamOps.foldlM treeStep seamTree = some s ∧ s.tree.root = 4096 ∧ ∃ K, TreeInv False s
        (.node 4112 .nil (.node 4128 (.node 4144 .nil .nil) .nil)) K := by
  have h₀ : TreeInv False seamTree .nil fun _ => [] := .of_init seamTree_init
  obtain ⟨s₁, hg₁, hs₁, hr₁, h₁⟩ := TreeInv.exists_insertChild (.row .nil) 1 4112 8192 h₀ rfl
    (by decide) (by decide) (by decide) (by decide)
  obtain ⟨s₂, hg₂, hs₂, hr₂, h₂⟩ := TreeInv.exists_insertChild (.row (.node 4112 .nil .nil)) 2
    4128 8208 h₁ hr₁ (by decide) (by decide) (by decide) (by decide)
  obtain ⟨s₃, hg₃, hs₃, hr₃, h₃⟩ := TreeInv.exists_insertChild
    (.under (.node 4112 .nil .nil) 4128 (.row .nil) .nil) 3 4144 8224 h₂ hr₂ (by decide)
    (by decide) (by decide) (by decide)
  refine ⟨s₃, .cons ⟨hg₁, hC ..⟩ hs₁ (.cons ⟨hg₂, hC ..⟩ hs₂ (.cons ⟨hg₃, hC ..⟩ hs₃ (.nil s₃))),
    ?_, hr₃, _, h₃⟩
  have hs₁ : treeStep seamTree (.insertChild 4096 1 4112 8192) = some s₁ := hs₁
  have hs₂ : treeStep s₁ (.insertChild 4096 2 4128 8208) = some s₂ := hs₂
  have hs₃ : treeStep s₂ (.insertChild 4128 3 4144 8224) = some s₃ := hs₃
  simp only [seamOps, List.foldlM_cons, List.foldlM_nil, hs₁, hs₂, hs₃, Option.bind_eq_bind,
    Option.bind_some, Option.pure_def]

theorem noSplice_insertChild {parent out cell : ℕ} {value : α} :
    NoSplice s (.insertChild parent value out cell) := fun _ h => by cases h

theorem noSplice_nodeRemove : NoSplice s (.nodeRemove x) := fun _ h => by cases h

/-- A branch is removed. -/
theorem tree_bookkeeping_seam : ∃ s : TreeState ℕ, TreeBooks s ∧ s.tree.nodes = 2 := by
  obtain ⟨s₃, hrun, -, hr, K, h⟩ :=
    seamTree_run (C := NoSplice) fun _ _ _ _ _ => noSplice_insertChild
  have hg : treeSystem.guard s₃ (.nodeRemove 4128) :=
    ⟨h.reach.2 (by simp [Forest.nodes]), by simp [hr]⟩
  obtain ⟨s, K', hs, -, h'⟩ := TreeInv.nodeRemove (c := .row (.node 4112 .nil .nil)) h (.inl id)
  exact ⟨s, (tree_bookkeeping seamTree_init (hrun.snoc ⟨hg, noSplice_nodeRemove⟩ hs)).1, h'.nodes⟩

/-- The back links of a list that is not loose are not lost. -/
theorem TreeInv.backLinked (h : TreeInv False s f K) (hx : s.Reach x) (hroot : x ≠ s.tree.root) :
    s.BackLinked x := by
  obtain ⟨c, k, r, rfl, -⟩ := Tree.exists_place h hx hroot
  intro n p i hn hp hi
  obtain ⟨p', hp', -, hlist, hkids⟩ := h.parent_holds
  obtain ⟨n', hn', hnp, -⟩ := h.hole_holds List.mem_cons_self
  cases hn.symm.trans hn'
  rw [hnp] at hp
  cases hp.symm.trans hp'
  obtain ⟨pre, j, post, hK, -, -, hxpre⟩ := h.parent_split hkids
  have hlen := h.length_lt (mem_plug_iff.2 (.inl rfl))
  rw [hK] at hlen hlist
  rw [listFind_split hlist hxpre hlen] at hi
  cases hi
  have hlinks := hlist.links
  rw [List.map_append, List.map_cons] at hlinks
  by_cases hnil : pre.map Prod.fst = []
  · exact .inl (hlinks.eq_head_iff.2 hnil)
  · refine .inr fun hz => ?_
    rw [hlinks.prev_eq.resolve_right fun hl => hl.1] at hz
    exact hlinks.ne_zero (List.mem_append_left _ (hz ▸ getLastD_mem hnil))

/-- A node with a child is taken out, while no back link is lost. -/
theorem tree_splices_seam : ∃ s : TreeState ℕ,
    TreeIs s (.node 4096 (.node 4112 .nil (.node 4144 .nil .nil)) .nil) := by
  obtain ⟨s₃, hrun, -, hr, K, h⟩ := seamTree_run (C := LinksIntact) fun _ _ _ _ _ => trivial
  have hg : treeSystem.guard s₃ (.remove 4128) :=
    ⟨h.reach.2 (by simp [Forest.nodes]), by simp [hr]⟩
  obtain ⟨-, hreturns⟩ := tree_splices seamTree_init hrun
  obtain ⟨s, hs⟩ := hreturns _ hg (h.backLinked hg.1 hg.2)
  exact ⟨s, (tree_splices seamTree_init
    (hrun.snoc ⟨hg, h.backLinked hg.1 hg.2⟩ hs)).1⟩

/-- The list of the root: its head, the list node after 8192, and the value of 8224. -/
def seamView (s : TreeState ℕ) : ℕ × Option ℕ × ℕ × ℕ :=
  (s.tree.root, (s.mem.node 4096).map fun n => n.children.head, (s.mem.cells 8192).next,
    (s.mem.cells 8224).value)

theorem reach_of_seamView {s : TreeState ℕ} (h : seamView s = (4096, some 8192, 8224, 4144)) :
    s.Reach 4144 ∧ s.tree.root = 4096 := by
  simp only [seamView, Prod.mk.injEq, Option.map_eq_some_iff] at h
  obtain ⟨hroot, ⟨n, hn, hhead⟩, hnext, hvalue⟩ := h
  have hreach : s.Reach 4096 := hroot ▸ .root (by rw [hroot]; decide)
  refine ⟨hreach.child ⟨n, 8224, hn, ?_, hvalue⟩, hroot⟩
  rw [hhead]
  refine .next (by decide) ?_
  rw [hnext]
  exact .head (by decide)

/-- After a node is taken out, the back link of its first child is lost. When that child is
    removed, it stays in the list, freed, and the list has no tail. -/
theorem tree_not_spliced : ∃ (s₀ : TreeState ℕ) (ops : List (TreeOp ℕ)) (s : TreeState ℕ),
    treeSystem.init s₀ ∧ treeSystem.Run s₀ ops s ∧
      ¬TreeIs s (ops.foldl treeOp (.node s₀.tree.root .nil .nil)) := by
  obtain ⟨s₃, hrun, hs₃, hr₃, K, h₃⟩ := seamTree_run (C := fun _ _ => True) fun _ _ _ _ _ => trivial
  have hview : ((seamOps.foldlM treeStep seamTree).bind fun s₃ =>
      (treeStep s₃ (.remove 4128)).bind fun s₄ => (treeStep s₄ (.nodeRemove 4144)).map fun s₅ =>
        (seamView s₄, seamView s₅)) =
      some ((4096, some 8192, 8224, 4144), (4096, some 8192, 8224, 4144)) := by decide +kernel
  rw [hs₃, Option.bind_some] at hview
  obtain ⟨s₄, hs₄, hview⟩ := Option.bind_eq_some_iff.1 hview
  obtain ⟨s₅, hs₅, hview⟩ := Option.map_eq_some_iff.1 hview
  obtain ⟨hview₄, hview₅⟩ := Prod.mk.inj hview
  obtain ⟨hreach₄, hr₄⟩ := reach_of_seamView hview₄
  have hg₄ : treeSystem.guard s₃ (.remove 4128) :=
    ⟨h₃.reach.2 (by simp [Forest.nodes]), by simp [hr₃]⟩
  have hg₅ : treeSystem.guard s₄ (.nodeRemove 4144) := ⟨hreach₄, by simp [hr₄]⟩
  refine ⟨seamTree, _, s₅, seamTree_init, (hrun.of_restrict.snoc hg₄ hs₄).snoc hg₅ hs₅, ?_⟩
  intro h
  have hmem := (h.reach 4144).1 (reach_of_seamView hview₅).1
  revert hmem
  decide

end Beryllium.LinkedTree

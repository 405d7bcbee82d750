import Beryllium.Lib.TreeSystem

/-!
# The calls on a tree keep the invariant

Each call is described by what it does to the memory (`treeNodeInsertChild_spec`,
`deleteChild_spec`, `reparentLoop_eq`, `mergeChildren_spec`), and then by the place where it
changes the forest: a new last child (`TreeInv.insertChild`), a branch taken out
(`TreeInv.nodeRemove`), a node taken out and its children moved up (`TreeInv.remove`).

A node is taken out of a list with the back link of its list node, which must not be lost
(`BackLinked`). In a list that is not loose none is.
-/

namespace Beryllium.LinkedTree

open Machine

variable {α : Type} {m m' : TreeMem α} {s s' : TreeState α} {tree : TreeT} {loose : Prop}
  {K K' : ℕ → List (ℕ × ℕ)} {f k r : Forest ℕ} {c : Place ℕ} {y : Row ℕ} {n : TreeNode α}
  {a b p q x parent node out cell i : ℕ} {value : α} {xs pre post : List (ℕ × ℕ)}

/-! ## A new child -/

/-- What `tree_node_insert_child` does to the memory. -/
theorem treeNodeInsertChild_spec (hn : m.node parent = some n) (hne : parent ≠ out) (tree : TreeT)
    (value : α) (cell : ℕ) :
    ∃ m', treeNodeInsertChild m tree parent value out cell =
        some (m', { tree with nodes := add32 tree.nodes 1 }) ∧
      m'.cells = (listInsert m.cells n.children cell out).1 ∧
      m'.node parent = some { n with children := (listInsert m.cells n.children cell out).2 } ∧
      m'.node out = some ⟨value, listCreate, parent⟩ ∧
      ∀ a, a ≠ parent → a ≠ out → m'.node a = m.node a := by
  have hcreate : ∀ a, a ≠ out → (treeNodeCreate m out value).node a = m.node a := fun a ha =>
    setNode_of_ne ha
  obtain ⟨r, hr⟩ : ∃ r, r = listInsert m.cells n.children cell out := ⟨_, rfl⟩
  rw [← hr]
  refine ⟨({ treeNodeCreate m out value with cells := r.1 }.setNode parent
    (some { n with children := r.2 })).setNode out (some ⟨value, listCreate, parent⟩), ?_, rfl,
    ?_, setNode_self, fun a hap hao => ?_⟩
  · rw [treeNodeInsertChild, treeNodeInsertChildNode, hcreate _ hne, hn, Option.bind_eq_bind,
      Option.bind_some]
    simp only [treeNodeCreate, setNode_cells, ← hr, setNode_of_ne (Ne.symm hne), setNode_self,
      Option.bind_some]
  · rw [setNode_of_ne hne, setNode_self]
  · rw [setNode_of_ne hao, setNode_of_ne hap]
    exact hcreate a hao

/-- A new child is the last one of its parent. -/
theorem TreeInv.insertChild (h : TreeInv loose s (c.plug .nil) K)
    (hp : c.parent s.tree.root = parent) (hout : s.Fresh out) (hcell : s.Fresh cell) :
    ∃ s', treeStep s (.insertChild parent value out cell) = some s' ∧
      s'.tree.root = s.tree.root ∧ TreeInv loose s' (c.plug (.node out .nil .nil))
        (Function.update (Function.update K parent (K parent ++ [(cell, out)])) out []) := by
  obtain ⟨n, hn, hnp, hlist, hkids⟩ := h.parent_holds
  simp only [hp] at hn hlist hkids
  have hmem : parent ∈ s.tree.root :: (c.plug .nil).nodes := mem_plug_iff.2 (.inl hp.symm)
  have hout' : ∀ a ∈ s.tree.root :: (c.plug .nil).nodes, a ≠ out := by
    rintro a ha rfl
    exact (h.fresh hout).1 ha
  obtain ⟨m', hstep, hcells, hm'parent, hm'out, hm'⟩ :=
    treeNodeInsertChild_spec hn (hout' _ hmem) s.tree value cell
  have hinsert : IsList (listInsert s.mem.cells n.children cell out).1 loose
      (listInsert s.mem.cells n.children cell out).2 (K parent ++ [(cell, out)]) ∧ _ :=
    hlist.insert ((h.fresh hcell).2 _ hmem) hcell.1
  obtain ⟨hlist', honly⟩ := hinsert
  -- the lists of children after the call
  obtain ⟨K', hK'⟩ : ∃ K', K' =
    Function.update (Function.update K parent (K parent ++ [(cell, out)])) out [] := ⟨_, rfl⟩
  have hKo : K' out = [] := by rw [hK', Function.update_self]
  have hKp : K' parent = K parent ++ [(cell, out)] := by
    rw [hK', Function.update_of_ne (hout' _ hmem), Function.update_self]
  have hKa : ∀ a ∈ s.tree.root :: (c.plug .nil).nodes, a ≠ parent → K' a = K a := by
    intro a ha hap
    rw [hK', Function.update_of_ne (hout' a ha), Function.update_of_ne hap]
  have hadd : add32 s.tree.nodes 1 = s.tree.nodes + 1 := by
    have hlt := length_lt_of_bound (List.nodup_cons.2 ⟨(h.fresh hout).1, h.nodup⟩)
      (List.forall_mem_cons.2 ⟨⟨hout.1, hout.2.1⟩, h.bound⟩)
    rw [h.nodes]
    exact add32_eq hlt
  rw [← hK']
  refine ⟨⟨m', { s.tree with nodes := add32 s.tree.nodes 1 }⟩, ?_, rfl,
    h.replug rfl ?_ ?_ ?_ (List.nodup_singleton out) ?_ ?_ ?_⟩
  · rw [treeStep, hstep]
    rfl
  · exact hadd
  · rw [hp]
    refine ⟨_, hm'parent, hnp, ?_, ?_⟩
    · rw [hcells, hKp]
      exact hlist'
    · rw [hKp, List.map_append, hkids, Forest.roots, List.append_nil]
      rfl
  · intro y hy
    rw [List.mem_singleton.1 hy, hp]
    refine ⟨_, hm'out, rfl, ?_, ?_⟩
    · rw [hKo]
      exact isList_create
    · rw [hKo]
      rfl
  · intro a ha
    rw [List.mem_singleton.1 ha]
    exact .inr ⟨(h.fresh hout).1, hout.1, hout.2.1, hKo⟩
  · intro a ha hap _
    rw [hp] at hap
    refine ⟨hm' a hap (hout' a ha), hKa a ha hap, fun i hi => ?_⟩
    have hnew : i ∉ cell :: (K parent).map Prod.fst := by
      rw [List.mem_cons, not_or]
      refine ⟨?_, h.apart a ha parent hmem hap hi⟩
      rintro rfl
      exact (h.fresh hcell).2 a ha hi
    rw [hcells]
    exact honly i hnew
  · intro a ha hap i hip hia
    rw [hp] at hap hip
    rcases mem_plug_iff.1 ha with ha | ha | ha
    · exact hap (ha.trans hp)
    · have ha : a ∈ s.tree.root :: (c.plug .nil).nodes := mem_plug_iff.2 (.inr (.inl ha))
      rw [cellsOf, hKa a ha hap] at hia
      rw [cellsOf, hKp, List.map_append, List.mem_append] at hip
      rcases hip with hip | hip
      · exact h.apart parent hmem a ha (Ne.symm hap) hip hia
      · rw [List.mem_singleton.1 hip] at hia
        exact (h.fresh hcell).2 a ha hia
    · rw [List.mem_singleton.1 ha, cellsOf, hKo] at hia
      exact List.not_mem_nil hia

/-! ## A node out of the list of its parent -/

/-- The back link of the list node of `x` is not lost: it is not null, or the list node is the
    first one. -/
def TreeState.BackLinked (s : TreeState α) (x : ℕ) : Prop :=
  ∀ n p i, s.mem.node x = some n → s.mem.node n.parent = some p →
    listFind s.mem.cells p.children x = some i → i = p.children.head ∨ (s.mem.cells i).prev ≠ 0

theorem find_split (h : q ∉ pre.map Prod.snd) :
    ((pre ++ (i, q) :: post).find? fun x => x.2 = q) = some (i, q) := by
  rw [List.find?_append, List.find?_eq_none.2, Option.none_or, List.find?_cons_of_pos (by simp)]
  intro x hx hxq
  exact h (List.mem_map.2 ⟨x, hx, by simpa using hxq⟩)

theorem listFind_split {cells : ListMem ℕ} {list : ListT}
    (hlist : IsList cells loose list (pre ++ (i, q) :: post)) (hq : q ∉ pre.map Prod.snd)
    (hlen : (pre ++ (i, q) :: post).length < nodeFuel) : listFind cells list q = some i := by
  rw [hlist.find hlen, find_split hq]
  rfl

/-- What `list_delete` of the list node of a child does to the memory. -/
theorem deleteChild_spec (hn : m.node parent = some n)
    (hlist : IsList m.cells loose n.children (pre ++ (i, q) :: post)) (hq : q ∉ pre.map Prod.snd)
    (hlen : (pre ++ (i, q) :: post).length < nodeFuel)
    (hprev : (m.cells i).prev = (pre.map Prod.fst).getLastD 0) :
    ∃ m' l, deleteChild m parent q = some m' ∧ IsList m'.cells loose l (pre ++ post) ∧
      OnlyChanges m.cells m'.cells ((pre ++ (i, q) :: post).map Prod.fst) ∧
      m'.node parent = some { n with children := l } ∧ ∀ a, a ≠ parent → m'.node a = m.node a := by
  obtain ⟨hdelete, honly⟩ := hlist.delete hprev
  have hi : i ≠ 0 := by
    rintro rfl
    exact hlist.links.ne_zero (by simp)
  refine ⟨{ m with cells := (listDelete m.cells n.children i).1 }.setNode parent
    (some { n with children := (listDelete m.cells n.children i).2 }), _, ?_, hdelete, honly,
    setNode_self, fun a ha => setNode_of_ne ha⟩
  rw [deleteChild, hn, Option.bind_eq_bind, Option.bind_some, listFind_split hlist hq hlen,
    Option.bind_eq_bind, Option.bind_some, if_neg hi]

/-- A back link that is not lost is to the node before. -/
theorem prev_of_backLinked {cells : ListMem ℕ} {list : ListT}
    (hlist : IsList cells loose list (pre ++ (i, q) :: post))
    (hback : ¬loose ∨ i = list.head ∨ (cells i).prev ≠ 0) :
    (cells i).prev = (pre.map Prod.fst).getLastD 0 := by
  have hlinks := hlist.links
  rw [List.map_append, List.map_cons] at hlinks
  rcases hlinks.prev_eq with hprev | ⟨hl, hprev⟩
  · exact hprev
  rcases hback with hl' | hhead | hne
  · exact absurd hl hl'
  · rw [hlinks.eq_head_iff.1 hhead]
    exact hprev
  · exact absurd hprev hne

/-- A row of another node than `p` stays when only the list nodes of `p` are changed. -/
theorem TreeInv.frame (h : TreeInv loose s f K) (hp : p ∈ s.tree.root :: f.nodes)
    (honly : OnlyChanges s.mem.cells m'.cells (cellsOf K p)) (hy : Holds s.mem loose K y)
    (ha : y.node ∈ s.tree.root :: f.nodes) (hap : y.node ≠ p)
    (hnode : m'.node y.node = s.mem.node y.node) :
    Holds m' loose (Function.update K p xs) y :=
  hy.congr hnode (Function.update_of_ne hap ..) fun i hi => honly i (h.apart _ ha p hp hap hi)

/-- The nodes in the hole are nodes of the tree, and not the parent. -/
theorem TreeInv.mem_hole (h : TreeInv loose s (c.plug k) K) (ha : a ∈ k.nodes) :
    a ∈ s.tree.root :: (c.plug k).nodes ∧ a ≠ c.parent s.tree.root := by
  refine ⟨mem_plug_iff.2 (.inr (.inr ha)), ?_⟩
  rintro rfl
  exact h.not_mem_hole ha

/-- The nodes in the hole are different ones. -/
theorem TreeInv.hole_nodup (h : TreeInv loose s (c.plug k) K) : k.nodes.Nodup := by
  obtain ⟨-, hnodup⟩ := List.nodup_cons.1 ((Place.nodes_plug c k 0 _).nodup_iff.1 h.nodup)
  exact (List.nodup_append.1 hnodup).2.1

theorem TreeInv.hole_length (h : TreeInv loose s (c.plug k) K) :
    k.nodes.length < s.tree.nodes ∧ s.tree.nodes < 4294967296 := by
  have hlen := (Place.nodes_plug c k 0 s.tree.root).length_eq
  have hlt := length_lt_of_bound h.nodup h.bound
  have hnodes := h.nodes
  simp only [List.length_cons, List.length_append] at hlen hlt
  omega

/-- The list node of the first node in the hole: no list node before it has that value. -/
theorem TreeInv.parent_split (h : TreeInv loose s (c.plug (.node x k r)) K)
    (hkids : (K (c.parent s.tree.root)).map Prod.snd = c.pre ++ (Forest.node x k r).roots) :
    ∃ pre i post, K (c.parent s.tree.root) = pre ++ (i, x) :: post ∧ pre.map Prod.snd = c.pre ∧
      post.map Prod.snd = r.roots ∧ x ∉ pre.map Prod.snd := by
  obtain ⟨pre, ys, hK, hpre, hys⟩ := List.map_eq_append_iff.1 hkids
  obtain ⟨⟨i, q⟩, post, rfl, hq, hpost⟩ := List.map_eq_cons_iff.1 hys
  have hq : q = x := hq
  subst hq
  have hnodup := h.kids_nodup parent_row_mem
  rw [Forest.roots, ← hpre] at hnodup
  exact ⟨pre, i, post, hK, hpre, hpost, fun hmem =>
    (List.nodup_append.1 hnodup).2.2 q hmem q List.mem_cons_self rfl⟩

/-- Deleting the list node of a child only changes the row of the parent. -/
theorem TreeInv.deleteChild (h : TreeInv loose s (c.plug (.node x k r)) K)
    (hback : ¬loose ∨ s.BackLinked x) :
    ∃ m' xs, deleteChild s.mem (c.parent s.tree.root) x = some m' ∧
      xs.map Prod.fst ⊆ cellsOf K (c.parent s.tree.root) ∧
      Holds m' loose (Function.update K (c.parent s.tree.root) xs)
        ⟨c.grand 0 s.tree.root, c.parent s.tree.root, c.pre ++ r.roots⟩ ∧
      (∀ y ∈ (Forest.node x k r).rows (c.parent s.tree.root),
        Holds m' loose (Function.update K (c.parent s.tree.root) xs) y) ∧
      (∀ a, a ≠ c.parent s.tree.root → m'.node a = s.mem.node a) ∧
      OnlyChanges s.mem.cells m'.cells (cellsOf K (c.parent s.tree.root)) := by
  obtain ⟨n, hn, hnp, hlist, hkids⟩ := h.parent_holds
  have hpmem : c.parent s.tree.root ∈ s.tree.root :: (c.plug (.node x k r)).nodes :=
    mem_plug_iff.2 (.inl rfl)
  obtain ⟨pre, i, post, hK, hpre, hpost, hxpre⟩ := h.parent_split hkids
  have hlen := h.length_lt hpmem
  rw [hK] at hlen hlist
  obtain ⟨nx, hnx, hnxp, -⟩ := h.hole_holds List.mem_cons_self
  have hprev := prev_of_backLinked hlist (hback.imp_right fun hb =>
    hb nx n i hnx (by rw [hnxp]; exact hn) (listFind_split hlist hxpre hlen))
  obtain ⟨m', l, hstep, hlist', honly, hparent, hnode⟩ :=
    deleteChild_spec hn hlist hxpre hlen hprev
  have honly : OnlyChanges s.mem.cells m'.cells (cellsOf K (c.parent s.tree.root)) := by
    rw [cellsOf, hK]
    exact honly
  refine ⟨m', pre ++ post, hstep, ?_, ⟨_, hparent, hnp, ?_, ?_⟩, fun y hy => ?_, hnode, honly⟩
  · rw [cellsOf, hK]
    exact List.map_subset _ ((List.sublist_cons_self _ post).append_left pre).subset
  · rw [Function.update_self]
    exact hlist'
  · rw [Function.update_self, List.map_append, hpre, hpost]
  · obtain ⟨hmem, hne⟩ := h.mem_hole (Forest.node_mem hy)
    exact h.frame hpmem honly (h.hole_holds hy) hmem hne (hnode _ hne)

/-! ## A branch taken out -/

/-- `tree_node_remove`: the memory after the deletion, in which the branch is freed. -/
theorem TreeInv.nodeRemove_memory (h : TreeInv loose s (c.plug (.node x k r)) K)
    (hback : ¬loose ∨ s.BackLinked x) (hp : p = c.parent s.tree.root) :
    ∃ (m : TreeMem α) (xs : List (ℕ × ℕ)), treeStep s (.nodeRemove x) =
        some ⟨m.freeAll (x :: k.nodes),
          { s.tree with nodes := s.tree.nodes - (k.nodes.length + 1) }⟩ ∧
      xs.map Prod.fst ⊆ cellsOf K p ∧
      Holds m loose (Function.update K p xs) ⟨c.grand 0 s.tree.root, p, c.pre ++ r.roots⟩ ∧
      (∀ y ∈ (Forest.node x k r).rows p, Holds m loose (Function.update K p xs) y) ∧
      (∀ a, a ≠ p → m.node a = s.mem.node a) ∧
      OnlyChanges s.mem.cells m.cells (cellsOf K p) := by
  have hpmem : p ∈ s.tree.root :: (c.plug (.node x k r)).nodes := mem_plug_iff.2 (.inl hp)
  obtain ⟨m, xs, hdelete, hxs, hparent, hhole, hnode, honly⟩ := h.deleteChild hback
  rw [← hp] at hdelete hxs hparent hhole hnode honly
  obtain ⟨hk, -, -⟩ := List.nodup_append.1 (List.nodup_cons.1 h.hole_nodup).2
  have h₀ : ∀ a ∈ (Forest.node x k r).nodes, a ≠ 0 := fun a ha => (h.bound a (h.mem_hole ha).1).1
  have hk₀ : 0 ∉ k.nodes := fun hz => h₀ 0 (Forest.mem_nodes_kids hz) rfl
  obtain ⟨hlen, hlt⟩ := h.hole_length
  rw [Forest.nodes, List.length_cons, List.length_append] at hlen
  -- the rows of the branch, before and after the deletion
  have hrow : ∀ y ∈ (Forest.node x k r).rows p, Holds s.mem loose K y ∧
      Holds m loose (Function.update K p xs) y := by
    intro y hy
    exact ⟨h.hole_holds (hp ▸ hy), hhole y hy⟩
  have hrowx := hrow _ List.mem_cons_self
  have hrowk : ∀ y ∈ k.rows x, Holds s.mem loose K y ∧
      Holds m loose (Function.update K p xs) y := fun y hy =>
    hrow y (Forest.mem_rows_kids hy)
  have hcount : treeCountChildren s.mem treeFuel x = some k.nodes.length :=
    treeCountChildren_eq hrowx.1.rowIn (fun y hy => (hrowk y hy).1.rowIn)
      (h₀ x List.mem_cons_self) hk₀ (by omega)
  have hfree : treeNodeFree treeFuel m x = some (m.freeAll (x :: k.nodes)) :=
    treeNodeFree_eq hrowx.2.rowIn (fun y hy => (hrowk y hy).2.rowIn)
      (h₀ x List.mem_cons_self) hk₀ hk (by omega)
  have hsub : sub32 s.tree.nodes (add32 k.nodes.length 1) =
      s.tree.nodes - (k.nodes.length + 1) := by
    rw [add32_eq (by omega), sub32_eq (by omega) (by omega)]
  have hremove : treeNodeParentRemove s.mem s.tree p x = some (m.freeAll (x :: k.nodes),
      { s.tree with nodes := s.tree.nodes - (k.nodes.length + 1) }) := by
    rw [treeNodeParentRemove, hcount, Option.bind_eq_bind, Option.bind_some, hdelete,
      Option.bind_eq_bind, Option.bind_some, hfree, Option.bind_some, hsub]
  refine ⟨m, xs, ?_, hxs, hparent, hhole, hnode, honly⟩
  obtain ⟨n, hn, hnp, -⟩ := hrowx.1
  have hnp : n.parent = p := hnp
  have hp₀ : p ≠ 0 := (h.bound p hpmem).1
  rw [treeStep, treeNodeRemove, hn, Option.bind_eq_bind, Option.bind_some, hnp,
    if_neg fun hz => hp₀ hz.1]
  exact congrArg (Option.map _) hremove

/-- `tree_node_remove` takes the branch out. -/
theorem TreeInv.nodeRemove (h : TreeInv loose s (c.plug (.node x k r)) K)
    (hback : ¬loose ∨ s.BackLinked x) :
    ∃ s' K', treeStep s (.nodeRemove x) = some s' ∧ s'.tree.root = s.tree.root ∧
      TreeInv loose s' (c.plug r) K' := by
  obtain ⟨p, hp⟩ : ∃ p, p = c.parent s.tree.root := ⟨_, rfl⟩
  have hpmem : p ∈ s.tree.root :: (c.plug (.node x k r)).nodes := mem_plug_iff.2 (.inl hp)
  obtain ⟨m, xs, hstep, hxs, hparent, hhole, hnode, honly⟩ := h.nodeRemove_memory hback hp
  obtain ⟨hx, hkr⟩ := List.nodup_cons.1 h.hole_nodup
  obtain ⟨-, hr, hdisj⟩ := List.nodup_append.1 hkr
  obtain ⟨hlen, -⟩ := h.hole_length
  rw [Forest.nodes, List.length_cons, List.length_append] at hlen
  have hfreed : ∀ a ∈ x :: k.nodes, a ∈ (Forest.node x k r).nodes := fun a ha =>
    (List.mem_cons.1 ha).elim (fun hax => hax ▸ List.mem_cons_self) Forest.mem_nodes_kids
  -- the nodes that stay
  have hrstay : ∀ a ∈ r.nodes, a ∉ x :: k.nodes := by
    intro a ha hax
    rcases List.mem_cons.1 hax with rfl | hax
    · exact hx (List.mem_append_right _ ha)
    · exact hdisj a hax a ha rfl
  have hpx : p ∉ x :: k.nodes := fun hpx => h.not_mem_hole (hp ▸ hfreed p hpx)
  refine ⟨_, Function.update K p xs, hstep, rfl, h.replug rfl ?_ ?_ (fun y hy => ?_) hr
    (fun a ha => ?_) (fun a ha hap hah => ?_) fun a ha hap i hip hia => ?_⟩
  · rw [Forest.nodes, List.length_cons, List.length_append]
    dsimp only
    omega
  · rw [← hp]
    exact hparent.congr (if_neg hpx) rfl fun _ _ => rfl
  · rw [← hp] at hy
    have hyr := Forest.node_mem hy
    exact (hhole y (Forest.mem_rows_rest hy)).congr (if_neg (hrstay _ hyr)) rfl fun _ _ => rfl
  · refine .inl ⟨Forest.mem_nodes_rest ha, Function.update_of_ne ?_ ..⟩
    rw [hp]
    exact (h.mem_hole (Forest.mem_nodes_rest ha)).2
  · rw [← hp] at hap
    refine ⟨(if_neg fun hax => hah (hfreed a hax)).trans (hnode a hap),
      Function.update_of_ne hap .., fun i hi => ?_⟩
    exact honly i (h.apart a ha p hpmem hap hi)
  · rw [← hp] at hap hip
    rw [cellsOf, Function.update_self] at hip
    rw [cellsOf, Function.update_of_ne hap] at hia
    refine h.apart p hpmem a ?_ (Ne.symm hap) (hxs hip) hia
    rcases mem_plug_iff.1 ha with ha | ha | ha
    · exact mem_plug_iff.2 (.inl ha)
    · exact mem_plug_iff.2 (.inr (.inl ha))
    · exact mem_plug_iff.2 (.inr (.inr (Forest.mem_nodes_rest ha)))

/-! ## A node taken out -/

/-- The memory where the nodes `ns` have the parent `parent`. -/
def TreeMem.reparent (m : TreeMem α) (ns : List ℕ) (parent : ℕ) : TreeMem α :=
  { m with node := fun a =>
      if a ∈ ns then (m.node a).map fun n => { n with parent := parent } else m.node a }

theorem reparentLoop_eq {ns : List ℕ} {child fuel : ℕ} (hs : Spells m.cells child ns)
    (hall : ∀ a ∈ ns, ∃ n, m.node a = some n) (hfuel : ns.length < fuel) :
    reparentLoop parent fuel m child = some (m.reparent ns parent) := by
  induction ns generalizing m child fuel with
  | nil =>
    obtain ⟨fuel, rfl⟩ := Nat.exists_eq_add_one_of_ne_zero (Nat.ne_zero_of_lt hfuel)
    have hchild : child = 0 := hs
    rw [reparentLoop, if_pos hchild]
    simp only [TreeMem.reparent, List.not_mem_nil, if_false]
  | cons a ns ih =>
    obtain ⟨fuel, rfl⟩ := Nat.exists_eq_add_one_of_ne_zero (Nat.ne_zero_of_lt hfuel)
    obtain ⟨hchild, hvalue, hnext⟩ := hs
    obtain ⟨n, hn⟩ := hall a List.mem_cons_self
    have hall' : ∀ b ∈ ns,
        ∃ n', (m.setNode a (some { n with parent := parent })).node b = some n' := by
      intro b hb
      by_cases hba : b = a
      · rw [hba, setNode_self]
        exact ⟨_, rfl⟩
      · rw [setNode_of_ne hba]
        exact hall b (List.mem_cons_of_mem a hb)
    rw [reparentLoop, if_neg hchild, hvalue, hn, Option.bind_eq_bind, Option.bind_some]
    refine (ih (m := m.setNode a (some { n with parent := parent })) hnext hall'
      (by simpa using hfuel)).trans (congrArg some ?_)
    refine congrArg (TreeMem.mk m.cells) (funext fun b => ?_)
    -- a node is given the parent once or twice
    by_cases hba : b = a
    · subst hba
      simp [hn]
    · simp [List.mem_cons, hba, setNode_of_ne hba]

/-- What `list_merge` of the children does to the memory. -/
theorem mergeChildren_spec {np nx : TreeNode α} {ys : List (ℕ × ℕ)} (hloose : loose)
    (hp : m.node p = some np) (hx : m.node x = some nx)
    (hxs : IsList m.cells loose np.children xs) (hys : IsList m.cells loose nx.children ys)
    (hdisj : List.Disjoint (xs.map Prod.fst) (ys.map Prod.fst)) :
    ∃ m' l, mergeChildren m p x = some m' ∧ IsList m'.cells loose l (xs ++ ys) ∧
      OnlyChanges m.cells m'.cells (xs.map Prod.fst) ∧
      m'.node p = some { np with children := l } ∧ ∀ a, a ≠ p → m'.node a = m.node a := by
  obtain ⟨hmerge, honly⟩ := hxs.merge hys hdisj hloose
  refine ⟨{ m with cells := (listMerge m.cells np.children nx.children).1 }.setNode p
    (some { np with children := (listMerge m.cells np.children nx.children).2 }), _, ?_, hmerge,
    honly, setNode_self, fun a ha => setNode_of_ne ha⟩
  rw [mergeChildren, hp, Option.bind_eq_bind, Option.bind_some, hx, Option.bind_some]

/-- What `tree_remove` does to the memory after the list node is deleted: the children get the
    parent, and the list of the parent their list nodes. -/
theorem treeRemove_spec {n np nx : TreeNode α} {ns : List ℕ} {ys : List (ℕ × ℕ)}
    (hloose : loose) (hn : s.mem.node x = some n) (hnp : n.parent = p) (hp₀ : p ≠ 0)
    (hdelete : deleteChild s.mem p x = some m) (hp : m.node p = some np)
    (hx : m.node x = some nx) (hxs : IsList m.cells loose np.children xs)
    (hys : IsList m.cells loose nx.children ys) (hns : ys.map Prod.snd = ns)
    (hall : ∀ a ∈ ns, ∃ n, m.node a = some n) (hlen : ns.length < nodeFuel) (hpns : p ∉ ns)
    (hxns : x ∉ ns) (hdisj : List.Disjoint (xs.map Prod.fst) (ys.map Prod.fst)) :
    ∃ (m' : TreeMem α) (l : ListT), treeStep s (.remove x) =
        some ⟨m'.setNode x none, { s.tree with nodes := sub32 s.tree.nodes 1 }⟩ ∧
      IsList m'.cells loose l (xs ++ ys) ∧
      OnlyChanges m.cells m'.cells (xs.map Prod.fst) ∧
      m'.node p = some { np with children := l } ∧
      ∀ a, a ≠ p → m'.node a = (m.reparent ns p).node a := by
  have hspells := spells_of_isList hys
  rw [hns] at hspells
  have hreparent : reparentLoop p nodeFuel m nx.children.head = some (m.reparent ns p) :=
    reparentLoop_eq hspells hall hlen
  obtain ⟨m', l, hmerge, hlist, honly, hp', hnode⟩ :=
    mergeChildren_spec (m := m.reparent ns p) hloose ((if_neg hpns).trans hp)
      ((if_neg hxns).trans hx) hxs hys hdisj
  refine ⟨m', l, ?_, hlist, honly, hp', hnode⟩
  rw [treeStep, treeRemove, hn, Option.bind_eq_bind, Option.bind_some, hnp, if_neg hp₀, hdelete,
    Option.bind_eq_bind, Option.bind_some, hx, Option.bind_some, hreparent, Option.bind_some,
    hmerge, Option.bind_some]
  rfl

/-- `tree_remove`: the memory after the deletion, and after the children have moved. -/
theorem TreeInv.remove_memory (h : TreeInv loose s (c.plug (.node x k r)) K) (hloose : loose)
    (hback : s.BackLinked x) (hp : p = c.parent s.tree.root) :
    ∃ (m m' : TreeMem α) (xs : List (ℕ × ℕ)), treeStep s (.remove x) =
        some ⟨m'.setNode x none, { s.tree with nodes := sub32 s.tree.nodes 1 }⟩ ∧
      xs.map Prod.fst ⊆ cellsOf K p ∧
      Holds m' loose (Function.update K p (xs ++ K x))
        ⟨c.grand 0 s.tree.root, p, c.pre ++ (r.append k).roots⟩ ∧
      (∀ y ∈ (Forest.node x k r).rows p, Holds m loose (Function.update K p xs) y) ∧
      (∀ a, a ≠ p → m.node a = s.mem.node a ∧ m'.node a = (m.reparent k.roots p).node a) ∧
      OnlyChanges s.mem.cells m.cells (cellsOf K p) ∧
      OnlyChanges m.cells m'.cells (xs.map Prod.fst) := by
  have hpmem : p ∈ s.tree.root :: (c.plug (.node x k r)).nodes := mem_plug_iff.2 (.inl hp)
  obtain ⟨m, xs, hdelete, hxs, hparent, hhole, hnode, honly⟩ := h.deleteChild (.inr hback)
  rw [← hp] at hdelete hxs hparent hhole hnode honly
  obtain ⟨hx, -⟩ := List.nodup_cons.1 h.hole_nodup
  obtain ⟨hxmem, hxp⟩ := h.mem_hole (a := x) List.mem_cons_self
  rw [← hp] at hxp
  have hkroot : ∀ a ∈ k.roots, a ∈ k.nodes := fun a ha => Forest.roots_sublist.subset ha
  have hrowx : Holds s.mem loose K ⟨p, x, k.roots⟩ := by
    rw [hp]
    exact h.hole_holds List.mem_cons_self
  obtain ⟨n, hn, hnp, -⟩ := hrowx
  obtain ⟨np, hnp', hgrand, hlistp, hkidsp⟩ := hparent
  rw [Function.update_self] at hlistp hkidsp
  have hkidsp : xs.map Prod.snd = c.pre ++ r.roots := hkidsp
  obtain ⟨nx, hnx, -, hlistx, hkidsx⟩ := hhole _ List.mem_cons_self
  rw [Function.update_of_ne hxp] at hlistx hkidsx
  have hkidsx : (K x).map Prod.snd = k.roots := hkidsx
  have hall : ∀ a ∈ k.roots, ∃ n, m.node a = some n := by
    intro a ha
    obtain ⟨y, hy, rfl, -⟩ := Forest.root_row ha x
    obtain ⟨n, hn, -⟩ := hhole y (Forest.mem_rows_kids hy)
    exact ⟨n, hn⟩
  have hlen : k.roots.length < nodeFuel := by
    rw [← hkidsx, List.length_map]
    exact h.length_lt hxmem
  have hpk : p ∉ k.roots := fun hmem =>
    (h.mem_hole (Forest.mem_nodes_kids (hkroot p hmem))).2 hp
  have hxk : x ∉ k.roots := fun hmem => hx (List.mem_append_left _ (hkroot x hmem))
  have hcells : List.Disjoint (xs.map Prod.fst) ((K x).map Prod.fst) := fun i hi hix =>
    h.apart x hxmem p hpmem hxp hix (hxs hi)
  obtain ⟨m', l, hstep, hlist, honly', hp'', hnode'⟩ := treeRemove_spec hloose hn hnp
    (h.bound p hpmem).1 hdelete hnp' hnx hlistp hlistx hkidsx hall hlen hpk hxk hcells
  refine ⟨m, m', xs, hstep, hxs, ⟨_, hp'', hgrand, ?_, ?_⟩, hhole,
    fun a ha => ⟨hnode a ha, hnode' a ha⟩, honly, honly'⟩
  · rw [Function.update_self]
    exact hlist
  · rw [Function.update_self, List.map_append, hkidsp, hkidsx, Forest.roots_append,
      List.append_assoc]

/-- The rows of the trees after `x` are as they were, and those of its children have the new
    parent. -/
theorem TreeInv.remove_rows {ys : List (ℕ × ℕ)}
    (h : TreeInv loose s (c.plug (.node x k r)) K) (hp : p = c.parent s.tree.root)
    (hhole : ∀ y ∈ (Forest.node x k r).rows p, Holds m loose (Function.update K p xs) y)
    (hnode : ∀ a, a ≠ p → m'.node a = (m.reparent k.roots p).node a)
    (hcells : ∀ a ∈ s.tree.root :: (c.plug (.node x k r)).nodes, a ≠ p → ∀ i ∈ cellsOf K a,
      m'.cells i = m.cells i) (hy : y ∈ (r.append k).rows p) :
    Holds (m'.setNode x none) loose (Function.update K p ys) y := by
  obtain ⟨hx, hkr⟩ := List.nodup_cons.1 h.hole_nodup
  obtain ⟨hk, -, hdisj⟩ := List.nodup_append.1 hkr
  have hhmem : ∀ a ∈ (Forest.node x k r).nodes,
      a ∈ s.tree.root :: (c.plug (.node x k r)).nodes ∧ a ≠ p := fun a ha => hp ▸ h.mem_hole ha
  -- a row that is as it was
  have hholds : ∀ y ∈ (Forest.node x k r).rows p, y.node ≠ x → y.node ∉ k.roots →
      Holds (m'.setNode x none) loose (Function.update K p ys) y := by
    intro y hy hyx hyk
    obtain ⟨hmem, hyp⟩ := hhmem _ (Forest.node_mem hy)
    have hKy : cellsOf (Function.update K p xs) y.node = cellsOf K y.node := by
      rw [cellsOf, Function.update_of_ne hyp, cellsOf]
    refine (hhole y hy).congr ?_ ?_ fun i hi => ?_
    · rw [setNode_of_ne hyx, hnode _ hyp]
      exact if_neg hyk
    · rw [Function.update_of_ne hyp, Function.update_of_ne hyp]
    · rw [hKy] at hi
      exact hcells _ hmem hyp i hi
  rw [Forest.rows_append, List.mem_append] at hy
  rcases hy with hy | hy
  · have hyr := Forest.node_mem hy
    refine hholds y (Forest.mem_rows_rest hy) ?_ fun hyk => ?_
    · rintro hyx
      exact hx (List.mem_append_right _ (hyx ▸ hyr))
    · exact hdisj _ (Forest.roots_sublist.subset hyk) _ hyr rfl
  · have hyk := Forest.node_mem hy
    have hyx : y.node ≠ x := by
      rintro hyx
      exact hx (List.mem_append_left _ (hyx ▸ hyk))
    rcases Forest.rows_reparent (q := x) hk hy with ⟨hroot, hparent, hrow⟩ | ⟨hroot, hrow⟩
    · -- a child of `x`, which has the new parent
      obtain ⟨hmem, hyp⟩ := hhmem _ (Forest.mem_nodes_kids hyk)
      obtain ⟨ny, hny, -, hlisty, hkidsy⟩ := hhole _ (Forest.mem_rows_kids hrow)
      have hny : m.node y.node = some ny := hny
      rw [Function.update_of_ne hyp] at hlisty hkidsy
      refine ⟨{ ny with parent := p }, ?_, hparent.symm, ?_, ?_⟩
      · rw [setNode_of_ne hyx, hnode _ hyp]
        refine (if_pos hroot).trans ?_
        rw [hny, Option.map_some]
      · rw [Function.update_of_ne hyp]
        exact hlisty.congr (hcells _ hmem hyp)
      · rw [Function.update_of_ne hyp]
        exact hkidsy
    · exact hholds y (Forest.mem_rows_kids hrow) hyx hroot

/-- `tree_remove` moves the children to the end of the list of the parent. The back link of the
    first one may be lost. -/
theorem TreeInv.remove (h : TreeInv loose s (c.plug (.node x k r)) K) (hloose : loose)
    (hback : s.BackLinked x) :
    ∃ s' K', treeStep s (.remove x) = some s' ∧ s'.tree.root = s.tree.root ∧
      TreeInv loose s' (c.plug (r.append k)) K' := by
  obtain ⟨p, hp⟩ : ∃ p, p = c.parent s.tree.root := ⟨_, rfl⟩
  have hpmem : p ∈ s.tree.root :: (c.plug (.node x k r)).nodes := mem_plug_iff.2 (.inl hp)
  obtain ⟨m, m', xs, hstep, hxs, hparent, hhole, hnode, honly, honly'⟩ :=
    h.remove_memory hloose hback hp
  obtain ⟨hx, hkr⟩ := List.nodup_cons.1 h.hole_nodup
  obtain ⟨hk, hr, hdisj⟩ := List.nodup_append.1 hkr
  have hhmem : ∀ a ∈ (Forest.node x k r).nodes,
      a ∈ s.tree.root :: (c.plug (.node x k r)).nodes ∧ a ≠ p := fun a ha => hp ▸ h.mem_hole ha
  have hmoved : ∀ a ∈ (r.append k).nodes, a ∈ (Forest.node x k r).nodes ∧ a ≠ x := by
    intro a ha
    rw [Forest.nodes_append, List.mem_append] at ha
    refine ⟨ha.elim Forest.mem_nodes_rest Forest.mem_nodes_kids, ?_⟩
    rintro rfl
    exact hx (List.mem_append.2 ha.symm)
  obtain ⟨hxmem, hxp⟩ := hhmem x List.mem_cons_self
  obtain ⟨nodes, hnodes⟩ : ∃ nodes, nodes = sub32 s.tree.nodes 1 := ⟨_, rfl⟩
  rw [← hnodes] at hstep
  obtain ⟨hlenh, hlt⟩ := h.hole_length
  rw [Forest.nodes, List.length_cons, List.length_append] at hlenh
  have hcount : nodes + (k.nodes.length + r.nodes.length + 1) =
      s.tree.nodes + (r.nodes.length + k.nodes.length) := by
    rw [hnodes, sub32_eq (by omega) hlt]
    omega
  have hcells : ∀ a ∈ s.tree.root :: (c.plug (.node x k r)).nodes, a ≠ p → ∀ i ∈ cellsOf K a,
      m'.cells i = m.cells i := fun a ha hap i hi =>
    honly' i fun hix => h.apart a ha p hpmem hap hi (hxs hix)
  refine ⟨_, Function.update K p (xs ++ K x), hstep, rfl, h.replug rfl ?_ ?_ (fun y hy => ?_) ?_
    (fun a ha => ?_) (fun a ha hap hah => ?_) fun a ha hap i hip hia => ?_⟩
  · rw [Forest.nodes, List.length_cons, List.length_append, Forest.nodes_append,
      List.length_append]
    exact hcount
  · rw [← hp]
    exact hparent.congr (setNode_of_ne hxp.symm) rfl fun _ _ => rfl
  · rw [← hp] at hy
    exact h.remove_rows hp hhole (fun a ha => (hnode a ha).2) hcells hy
  · rw [Forest.nodes_append, List.nodup_append]
    exact ⟨hr, hk, fun a ha b hb hab => hdisj b hb a ha hab.symm⟩
  · have hah := (hmoved a ha).1
    exact .inl ⟨hah, Function.update_of_ne (hhmem a hah).2 ..⟩
  · -- a node outside the hole
    rw [← hp] at hap
    have hax : a ≠ x := by
      rintro rfl
      exact hah List.mem_cons_self
    have hak : a ∉ k.roots := fun hak =>
      hah (Forest.mem_nodes_kids (Forest.roots_sublist.subset hak))
    refine ⟨?_, Function.update_of_ne hap .., fun i hi => ?_⟩
    · rw [← (hnode a hap).1]
      refine (setNode_of_ne hax).trans ((hnode a hap).2.trans ?_)
      exact if_neg hak
    · exact (hcells a ha hap i hi).trans (honly i (h.apart a ha p hpmem hap hi))
  · rw [← hp] at hap hip
    rw [cellsOf, Function.update_self, List.map_append, List.mem_append] at hip
    rw [cellsOf, Function.update_of_ne hap] at hia
    -- `a` is a node of the old tree, and not `x`
    have hold : a ∈ s.tree.root :: (c.plug (.node x k r)).nodes ∧ a ≠ x := by
      rcases mem_plug_iff.1 ha with ha | ha | ha
      · exact absurd (ha.trans hp.symm) hap
      · refine ⟨mem_plug_iff.2 (.inr (.inl ha)), ?_⟩
        rintro rfl
        exact (h.other ha).2 List.mem_cons_self
      · exact ⟨(hhmem a (hmoved a ha).1).1, (hmoved a ha).2⟩
    rcases hip with hip | hip
    · exact h.apart p hpmem a hold.1 (Ne.symm hap) (hxs hip) hia
    · exact h.apart x hxmem a hold.1 (Ne.symm hold.2) hip hia

end Beryllium.LinkedTree

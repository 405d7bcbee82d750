import Mathlib.Data.List.Basic
import Mathlib.Data.List.Nodup
import Mathlib.Data.List.Perm.Basic
import Mathlib.Tactic.Common

/-!
# Ordered forests

A forest is seen in two ways: as a tree of trees, along which recursive functions go, and as the
flat list of its nodes, each with its parent and its children (`Forest.rows`), which is how
it is stored.

A forest is changed at one place. A *place* (`Place`) is a forest with a hole at the end of a row
of siblings, that is filled by `Place.plug`. Adding a child is filling it with one node
(`Forest.insert_plug`), taking a node out is filling it with what stays of the node and of the
siblings after it (`Forest.cut_plug`). In the flat list this only changes the row of the parent,
and the rows of what fills the hole (`Place.rows_plug`).
-/

namespace Machine

/-- A forest is empty, or the children of a first node and the trees after it. -/
inductive Forest (β : Type*) where
  | nil
  | node (a : β) (kids rest : Forest β)

/-- A node with its parent and its children. -/
structure Row (β : Type*) where
  parent : β
  node : β
  kids : List β

variable {β : Type*} {a b p q x : β}

namespace Forest

/-- The nodes. -/
def nodes : Forest β → List β
  | nil => []
  | node a k r => a :: (k.nodes ++ r.nodes)

/-- The roots of the trees. -/
def roots : Forest β → List β
  | nil => []
  | node a _ r => a :: r.roots

/-- The rows of the nodes, where `q` is the parent of the roots. -/
def rows : Forest β → β → List (Row β)
  | nil, _ => []
  | node a k r, q => ⟨q, a, k.roots⟩ :: (k.rows a ++ r.rows q)

/-- The trees of one forest, then those of the other. -/
def append : Forest β → Forest β → Forest β
  | nil, g => g
  | node a k r, g => node a k (r.append g)

section

variable [DecidableEq β]

/-- A new last child `b` of the node `p`. -/
def insert (p b : β) : Forest β → Forest β
  | nil => nil
  | node a k r =>
    if a = p then node a (k.append (node b nil nil)) r else node a (k.insert p b) (r.insert p b)

/-- The node `x` is taken out: `g` says what becomes of its children and the trees after it. -/
def cut (g : Forest β → Forest β → Forest β) (x : β) : Forest β → Forest β
  | nil => nil
  | node a k r => if a = x then g k r else node a (k.cut g x) (r.cut g x)

/-- The node `x` and all nodes under it are removed. -/
def remove (x : β) : Forest β → Forest β := cut (fun _ r => r) x

/-- The node `x` is removed, and its children become the last ones of its parent. -/
def splice (x : β) : Forest β → Forest β := cut (fun k r => r.append k) x

end

variable {f g k r : Forest β} {y z : Row β}

/-! ## Rows -/

theorem nodes_append : (f.append g).nodes = f.nodes ++ g.nodes := by
  induction f with
  | nil => rfl
  | node a k r _ ih => rw [append, nodes, ih, nodes, List.cons_append, List.append_assoc]

theorem roots_append : (f.append g).roots = f.roots ++ g.roots := by
  induction f with
  | nil => rfl
  | node a k r _ ih => rw [append, roots, ih, roots, List.cons_append]

theorem rows_append : (f.append g).rows q = f.rows q ++ g.rows q := by
  induction f with
  | nil => rfl
  | node a k r _ ih => rw [append, rows, ih, rows, List.cons_append, List.append_assoc]

theorem append_nil : f.append nil = f := by
  induction f with
  | nil => rfl
  | node a k r _ ih => rw [append, ih]

theorem append_assoc {h : Forest β} : (f.append g).append h = f.append (g.append h) := by
  induction f with
  | nil => rfl
  | node a k r _ ih => rw [append, append, append, ih]

theorem mem_nodes_kids (h : b ∈ k.nodes) : b ∈ (node a k r).nodes :=
  List.mem_cons_of_mem a (List.mem_append_left _ h)

theorem mem_nodes_rest (h : b ∈ r.nodes) : b ∈ (node a k r).nodes :=
  List.mem_cons_of_mem a (List.mem_append_right _ h)

theorem mem_rows_kids (h : y ∈ k.rows a) : y ∈ (node a k r).rows q :=
  List.mem_cons_of_mem _ (List.mem_append_left _ h)

theorem mem_rows_rest (h : y ∈ r.rows q) : y ∈ (node a k r).rows q :=
  List.mem_cons_of_mem _ (List.mem_append_right _ h)

/-- There is one row for each node. -/
theorem map_node_rows : (f.rows q).map Row.node = f.nodes := by
  induction f generalizing q with
  | nil => rfl
  | node a k r ihk ihr => rw [rows, List.map_cons, List.map_append, ihk, ihr, nodes]

theorem exists_row (h : a ∈ f.nodes) (q : β) : ∃ y ∈ f.rows q, y.node = a := by
  rw [← map_node_rows (q := q)] at h
  exact List.mem_map.1 h

theorem node_mem (h : y ∈ f.rows q) : y.node ∈ f.nodes := by
  rw [← map_node_rows (q := q)]
  exact List.mem_map_of_mem h

theorem row_unique (h : f.nodes.Nodup) (hy : y ∈ f.rows q) (hz : z ∈ f.rows q)
    (hyz : y.node = z.node) : y = z := by
  rw [← map_node_rows (q := q)] at h
  exact List.inj_on_of_nodup_map h hy hz hyz

theorem roots_sublist : f.roots.Sublist f.nodes := by
  induction f with
  | nil => exact List.Sublist.refl []
  | node a k r _ ih => exact (ih.trans (List.sublist_append_right _ _)).cons_cons a

theorem kids_sublist (h : y ∈ f.rows q) : y.kids.Sublist f.nodes := by
  induction f generalizing q with
  | nil => exact absurd h List.not_mem_nil
  | node a k r ihk ihr =>
    rcases List.mem_cons.1 h with rfl | h
    · exact ((roots_sublist (f := k)).trans (List.sublist_append_left _ _)).cons a
    · rcases List.mem_append.1 h with h | h
      · exact ((ihk h).trans (List.sublist_append_left _ _)).cons a
      · exact ((ihr h).trans (List.sublist_append_right _ _)).cons a

/-- A node is a root, or a child in the row of its parent. -/
theorem parent_row (h : y ∈ f.rows q) : (y.parent = q ∧ y.node ∈ f.roots) ∨
    ∃ z ∈ f.rows q, z.node = y.parent ∧ y.node ∈ z.kids := by
  induction f generalizing q with
  | nil => exact absurd h List.not_mem_nil
  | node a k r ihk ihr =>
    rcases List.mem_cons.1 h with rfl | h
    · exact .inl ⟨rfl, List.mem_cons_self⟩
    rcases List.mem_append.1 h with h | h
    · refine .inr ?_
      rcases ihk h with ⟨hp, hroot⟩ | ⟨z, hz, hzy⟩
      · exact ⟨⟨q, a, k.roots⟩, List.mem_cons_self, hp.symm, hroot⟩
      · exact ⟨z, mem_rows_kids hz, hzy⟩
    · rcases ihr h with ⟨hp, hroot⟩ | ⟨z, hz, hzy⟩
      · exact .inl ⟨hp, List.mem_cons_of_mem a hroot⟩
      · exact .inr ⟨z, mem_rows_rest hz, hzy⟩

theorem parent_mem (h : y ∈ f.rows q) : y.parent ∈ q :: f.nodes := by
  rcases parent_row h with ⟨hp, -⟩ | ⟨z, hz, hp, -⟩
  · exact hp ▸ List.mem_cons_self
  · exact List.mem_cons_of_mem q (hp ▸ node_mem hz)

theorem root_row (h : b ∈ f.roots) (q : β) : ∃ y ∈ f.rows q, y.node = b ∧ y.parent = q := by
  induction f with
  | nil => exact absurd h List.not_mem_nil
  | node a k r _ ih =>
    rcases List.mem_cons.1 h with rfl | h
    · exact ⟨⟨q, b, k.roots⟩, List.mem_cons_self, rfl, rfl⟩
    · obtain ⟨y, hy, hyb⟩ := ih h
      exact ⟨y, mem_rows_rest hy, hyb⟩

/-- A child has the node of the row for its parent. -/
theorem kid_row (h : z ∈ f.rows q) (hb : b ∈ z.kids) :
    ∃ y ∈ f.rows q, y.node = b ∧ y.parent = z.node := by
  induction f generalizing q with
  | nil => exact absurd h List.not_mem_nil
  | node a k r ihk ihr =>
    rcases List.mem_cons.1 h with rfl | h
    · obtain ⟨y, hy, hyb⟩ := root_row hb a
      exact ⟨y, mem_rows_kids hy, hyb⟩
    rcases List.mem_append.1 h with h | h
    · obtain ⟨y, hy, hyb⟩ := ihk h
      exact ⟨y, mem_rows_kids hy, hyb⟩
    · obtain ⟨y, hy, hyb⟩ := ihr h
      exact ⟨y, mem_rows_rest hy, hyb⟩

/-- Under another parent only the rows of the roots change. -/
theorem rows_reparent (hnodup : f.nodes.Nodup) (h : y ∈ f.rows p) :
    (y.node ∈ f.roots ∧ y.parent = p ∧ ⟨q, y.node, y.kids⟩ ∈ f.rows q) ∨
      (y.node ∉ f.roots ∧ y ∈ f.rows q) := by
  induction f generalizing p with
  | nil => exact absurd h List.not_mem_nil
  | node a k r _ ihr =>
    obtain ⟨ha, hkr⟩ := List.nodup_cons.1 hnodup
    obtain ⟨-, hr, hdisj⟩ := List.nodup_append.1 hkr
    rcases List.mem_cons.1 h with rfl | h
    · exact .inl ⟨List.mem_cons_self, rfl, List.mem_cons_self⟩
    have hne : y.node ≠ a := by
      intro hya
      rw [← hya] at ha
      refine ha (List.mem_append.2 ?_)
      exact (List.mem_append.1 h).imp node_mem node_mem
    rcases List.mem_append.1 h with h | h
    · refine .inr ⟨fun hroot => ?_, mem_rows_kids h⟩
      rcases List.mem_cons.1 hroot with hya | hroot
      · exact hne hya
      · exact hdisj _ (node_mem h) _ (roots_sublist.subset hroot) rfl
    · rcases ihr hr h with ⟨hroot, hp, hrow⟩ | ⟨hroot, hrow⟩
      · exact .inl ⟨List.mem_cons_of_mem a hroot, hp,
          mem_rows_rest hrow⟩
      · refine .inr ⟨fun hy => ?_, mem_rows_rest hrow⟩
        exact (List.mem_cons.1 hy).elim hne hroot

/-! ## Changes elsewhere -/

section

variable [DecidableEq β] {c : Forest β → Forest β → Forest β}

theorem insert_of_not_mem (h : p ∉ f.nodes) : f.insert p b = f := by
  induction f with
  | nil => rfl
  | node a k r ihk ihr =>
    rw [nodes, List.mem_cons, List.mem_append, not_or, not_or] at h
    rw [insert, if_neg (Ne.symm h.1), ihk h.2.1, ihr h.2.2]

theorem cut_of_not_mem (h : x ∉ f.nodes) : f.cut c x = f := by
  induction f with
  | nil => rfl
  | node a k r ihk ihr =>
    rw [nodes, List.mem_cons, List.mem_append, not_or, not_or] at h
    rw [cut, if_neg (Ne.symm h.1), ihk h.2.1, ihr h.2.2]

theorem insert_append (h : p ∉ f.nodes) :
    (f.append g).insert p b = f.append (g.insert p b) := by
  induction f with
  | nil => rfl
  | node a k r _ ih =>
    rw [nodes, List.mem_cons, List.mem_append, not_or, not_or] at h
    rw [append, insert, if_neg (Ne.symm h.1), insert_of_not_mem h.2.1, ih h.2.2, append]

/-- The nodes after a node is added. -/
theorem mem_nodes_insert : x ∈ (f.insert p b).nodes ↔ x ∈ f.nodes ∨ (p ∈ f.nodes ∧ x = b) := by
  induction f with
  | nil => exact ⟨.inl, fun h => h.elim id fun h => absurd h.1 List.not_mem_nil⟩
  | node a k r ihk ihr =>
    have hkids : x ∈ (node a k r).nodes ↔ x = a ∨ x ∈ k.nodes ∨ x ∈ r.nodes := by
      rw [nodes, List.mem_cons, List.mem_append]
    have hp : p ∈ (node a k r).nodes ↔ p = a ∨ p ∈ k.nodes ∨ p ∈ r.nodes := by
      rw [nodes, List.mem_cons, List.mem_append]
    rw [insert]
    split_ifs with ha
    · have hb : x ∈ (node b nil nil).nodes ↔ x = b := List.mem_singleton
      rw [nodes, nodes_append, List.mem_cons, List.mem_append, List.mem_append, hb, hkids,
        and_iff_right (hp.2 (.inl ha.symm))]
      constructor
      · rintro (hx | (hx | hx) | hx)
        · exact .inl (.inl hx)
        · exact .inl (.inr (.inl hx))
        · exact .inr hx
        · exact .inl (.inr (.inr hx))
      · rintro ((hx | hx | hx) | hx)
        · exact .inl hx
        · exact .inr (.inl (.inl hx))
        · exact .inr (.inr hx)
        · exact .inr (.inl (.inr hx))
    · rw [nodes, List.mem_cons, List.mem_append, ihk, ihr, hkids, hp, or_iff_right (Ne.symm ha)]
      constructor
      · rintro (hx | (hx | ⟨hk, hx⟩) | hx | ⟨hr, hx⟩)
        · exact .inl (.inl hx)
        · exact .inl (.inr (.inl hx))
        · exact .inr ⟨.inl hk, hx⟩
        · exact .inl (.inr (.inr hx))
        · exact .inr ⟨.inr hr, hx⟩
      · rintro ((hx | hx | hx) | ⟨hk | hr, hx⟩)
        · exact .inl hx
        · exact .inr (.inl (.inl hx))
        · exact .inr (.inr (.inl hx))
        · exact .inr (.inl (.inr ⟨hk, hx⟩))
        · exact .inr (.inr (.inr ⟨hr, hx⟩))

theorem mem_nodes_remove (h : b ∈ (f.remove x).nodes) : b ∈ f.nodes := by
  induction f with
  | nil => exact h
  | node a k r ihk ihr =>
    rw [remove, cut] at h
    split_ifs at h
    · exact mem_nodes_rest h
    · rcases List.mem_cons.1 h with rfl | h
      · exact List.mem_cons_self
      · rcases List.mem_append.1 h with h | h
        · exact mem_nodes_kids (ihk h)
        · exact mem_nodes_rest (ihr h)

theorem cut_append (h : x ∉ f.nodes) : (f.append g).cut c x = f.append (g.cut c x) := by
  induction f with
  | nil => rfl
  | node a k r _ ih =>
    rw [nodes, List.mem_cons, List.mem_append, not_or, not_or] at h
    rw [append, cut, if_neg (Ne.symm h.1), cut_of_not_mem h.2.1, ih h.2.2, append]

end

end Forest

/-! ## Places -/

/-- A hole at the end of a row of siblings. -/
inductive Place (β : Type*) where
  /-- After the trees `left`. -/
  | row (left : Forest β)
  /-- Under the node `a`, which stands between the trees `left` and `rest`. -/
  | under (left : Forest β) (a : β) (place : Place β) (rest : Forest β)

namespace Place

/-- The forest with `h` in the hole. -/
def plug : Place β → Forest β → Forest β
  | row left, h => left.append h
  | under left a c rest, h => left.append (.node a (c.plug h) rest)

/-- The parent of what fills the hole, where `q` is the parent of the roots. -/
def parent : Place β → β → β
  | row _, q => q
  | under _ a c _, _ => c.parent a

/-- The parent of that node, where `g` is the parent of `q`. -/
def grand : Place β → β → β → β
  | row _, g, _ => g
  | under _ a c _, _, q => c.grand q a

/-- The siblings before the hole. -/
def pre : Place β → List β
  | row left => left.roots
  | under _ _ c _ => c.pre

/-- The other rows: all but the one of the parent and those of what fills the hole. -/
def others : Place β → β → β → List (Row β)
  | row left, _, q => left.rows q
  | under left a c rest, g, q =>
    ⟨g, q, left.roots ++ a :: rest.roots⟩ :: (left.rows q ++ (c.others q a ++ rest.rows q))

variable {c : Place β} {f g h : Forest β}

/-- What fills the hole only adds its rows, and changes the row of the parent. -/
theorem rows_plug (c : Place β) (h : Forest β) (g q : β) :
    ((Forest.node q (c.plug h) .nil).rows g).Perm
      (⟨c.grand g q, c.parent q, c.pre ++ h.roots⟩ :: (c.others g q ++ h.rows (c.parent q))) := by
  induction c generalizing g q with
  | row left =>
    simp only [plug, Forest.rows, Forest.rows_append, Forest.roots_append, List.append_nil]
    exact List.Perm.refl _
  | under left a c rest ih =>
    have hrows := ih q a
    simp only [Forest.rows, List.append_nil] at hrows
    simp only [plug, Forest.rows, Forest.rows_append, Forest.roots_append, Forest.roots,
      List.append_nil, others, List.cons_append, List.append_assoc]
    -- the row of the parent is among those of the children of `a`
    refine (List.Perm.cons _ ?_).trans (List.Perm.swap ..)
    refine (((hrows.append_right (rest.rows q)).append_left (left.rows q)).trans ?_)
    have hrest : (c.others q a ++ h.rows (c.parent a) ++ rest.rows q).Perm
        (c.others q a ++ (rest.rows q ++ h.rows (c.parent a))) := by
      rw [List.append_assoc]
      exact List.Perm.append_left _ List.perm_append_comm
    exact List.perm_middle.trans (List.Perm.cons _ (List.Perm.append_left _ hrest))

theorem nodes_plug (c : Place β) (h : Forest β) (g q : β) :
    (q :: (c.plug h).nodes).Perm (c.parent q :: ((c.others g q).map Row.node ++ h.nodes)) := by
  have hperm := (rows_plug c h g q).map Row.node
  rw [Forest.map_node_rows, Forest.nodes, Forest.nodes, List.append_nil, List.map_cons,
    List.map_append, Forest.map_node_rows] at hperm
  exact hperm

/-- What fills the hole may have nodes that were there before, and new ones. -/
theorem nodup_plug {h h' : Forest β} (hold : (q :: (c.plug h).nodes).Nodup)
    (hnodup : h'.nodes.Nodup) (hnew : ∀ a ∈ h'.nodes, a ∈ h.nodes ∨ a ∉ q :: (c.plug h).nodes) :
    (q :: (c.plug h').nodes).Nodup := by
  have hperm := nodes_plug c h q q
  obtain ⟨hp, hrest⟩ := List.nodup_cons.1 (hperm.nodup_iff.1 hold)
  obtain ⟨hothers, -, hdisj⟩ := List.nodup_append.1 hrest
  rw [(nodes_plug c h' q q).nodup_iff, List.nodup_cons, List.mem_append, not_or]
  refine ⟨⟨fun hmem => hp (List.mem_append_left _ hmem), fun hmem => ?_⟩,
    List.nodup_append.2 ⟨hothers, hnodup, ?_⟩⟩
  · rcases hnew _ hmem with hmem | hmem
    · exact hp (List.mem_append_right _ hmem)
    · exact hmem (hperm.mem_iff.2 List.mem_cons_self)
  · rintro a ha b hb rfl
    rcases hnew a hb with hmem | hmem
    · exact hdisj a ha a hmem rfl
    · exact hmem (hperm.mem_iff.2 (List.mem_cons_of_mem _ (List.mem_append_left _ ha)))

theorem parent_mem : c.parent q = q ∨ c.parent q ∈ (c.plug h).nodes := by
  cases c with
  | row left => exact .inl rfl
  | under left a c rest =>
    have hmem : (c.parent a) ∈ a :: (c.plug h).nodes :=
      (nodes_plug c h a a).mem_iff.2 List.mem_cons_self
    refine .inr ?_
    rw [plug, Forest.nodes_append, Forest.nodes]
    refine List.mem_append_right _ ?_
    rw [← List.cons_append]
    exact List.mem_append_left _ hmem

/-- The nodes of what fills the hole. -/
theorem mem_plug (hx : x ∈ h.nodes) : x ∈ (c.plug h).nodes := by
  induction c with
  | row left =>
    rw [plug, Forest.nodes_append]
    exact List.mem_append_right _ hx
  | under left a c rest ih =>
    rw [plug, Forest.nodes_append]
    exact List.mem_append_right _ (List.mem_cons_of_mem a (List.mem_append_left _ ih))

/-- The place of a node. -/
theorem exists_plug (hx : x ∈ f.nodes) :
    ∃ (c : Place β) (k r : Forest β), f = c.plug (.node x k r) := by
  induction f with
  | nil => exact absurd hx List.not_mem_nil
  | node a k r ihk ihr =>
    rcases List.mem_cons.1 hx with rfl | hx
    · exact ⟨.row .nil, k, r, rfl⟩
    rcases List.mem_append.1 hx with hx | hx
    · obtain ⟨c, k', r', rfl⟩ := ihk hx
      exact ⟨.under .nil a c r, k', r', rfl⟩
    · obtain ⟨c, k', r', rfl⟩ := ihr hx
      cases c with
      | row left => exact ⟨.row (.node a k left), k', r', rfl⟩
      | under left b c rest => exact ⟨.under (.node a k left) b c rest, k', r', rfl⟩

/-- The place after the last child of a node. -/
theorem exists_plug_nil (hp : p = q ∨ p ∈ f.nodes) :
    ∃ c : Place β, c.parent q = p ∧ f = c.plug .nil := by
  rcases hp with rfl | hp
  · exact ⟨.row f, rfl, Forest.append_nil.symm⟩
  obtain ⟨c, k, r, rfl⟩ := exists_plug hp
  clear hp
  induction c generalizing q with
  | row left =>
    refine ⟨.under left p (.row k) r, rfl, ?_⟩
    rw [plug, plug, plug, Forest.append_nil]
  | under left a c rest ih =>
    obtain ⟨c', hc', hplug⟩ := ih (q := a)
    exact ⟨.under left a c' rest, hc', by rw [plug, plug, hplug]⟩

section

variable [DecidableEq β] {cut : Forest β → Forest β → Forest β} {k r : Forest β}

/-- A new child fills the hole after the last one. -/
theorem insert_plug (hnodup : (Forest.node q (c.plug .nil) r).nodes.Nodup) :
    (Forest.node q (c.plug .nil) r).insert (c.parent q) b =
      .node q (c.plug (.node b .nil .nil)) r := by
  induction c generalizing q r with
  | row left => rw [parent, Forest.insert, if_pos rfl, plug, plug, Forest.append_nil]
  | under left a c rest ih =>
    rw [Forest.nodes, plug, Forest.nodes_append, List.nodup_cons, List.append_assoc,
      List.nodup_append, List.nodup_append] at hnodup
    obtain ⟨hq, -, ⟨ha, -, hdisj⟩, hleft⟩ := hnodup
    have hmem : c.parent a ∈ (Forest.node a (c.plug .nil) rest).nodes := by
      rcases parent_mem (c := c) (q := a) (h := .nil) with hp | hp
      · rw [hp]
        exact List.mem_cons_self
      · exact List.mem_cons_of_mem a (List.mem_append_left _ hp)
    have hp : q ≠ c.parent a := by
      rintro rfl
      exact hq (List.mem_append_right _ (List.mem_append_left _ hmem))
    have hpleft : c.parent a ∉ left.nodes := fun hl =>
      hleft _ hl _ (List.mem_append_left _ hmem) rfl
    have hpr : c.parent a ∉ r.nodes := fun hr => hdisj _ hmem _ hr rfl
    rw [parent, Forest.insert, if_neg hp, Forest.insert_of_not_mem hpr, plug,
      Forest.insert_append hpleft, ih ha, plug]

/-- A node is taken out by filling its place with what stays. -/
theorem cut_plug (hnodup : (c.plug (.node x k r)).nodes.Nodup) :
    (c.plug (.node x k r)).cut cut x = c.plug (cut k r) := by
  induction c with
  | row left =>
    rw [plug, Forest.nodes_append, List.nodup_append] at hnodup
    have hleft : x ∉ left.nodes := fun hl => hnodup.2.2 _ hl _ List.mem_cons_self rfl
    rw [plug, Forest.cut_append hleft, Forest.cut, if_pos rfl, plug]
  | under left a c rest ih =>
    rw [plug, Forest.nodes_append, List.nodup_append, Forest.nodes, List.nodup_cons,
      List.nodup_append] at hnodup
    obtain ⟨-, ⟨ha, hc, -, hdisj⟩, hleft⟩ := hnodup
    have hmem : x ∈ (c.plug (.node x k r)).nodes := mem_plug List.mem_cons_self
    have hax : a ≠ x := by
      rintro rfl
      exact ha (List.mem_append_left _ hmem)
    have hxleft : x ∉ left.nodes := fun hl =>
      hleft _ hl _ (List.mem_cons_of_mem a (List.mem_append_left _ hmem)) rfl
    have hxrest : x ∉ rest.nodes := fun hr => hdisj _ hmem _ hr rfl
    rw [plug, Forest.cut_append hxleft, Forest.cut, if_neg hax, ih hc,
      Forest.cut_of_not_mem hxrest, plug]

end

end Place

end Machine

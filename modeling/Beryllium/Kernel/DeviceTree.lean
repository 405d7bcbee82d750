import Beryllium.Lib.Str
import Beryllium.Lib.TreeFind
import Beryllium.Lib.TreeRoot

/-!
# The device tree

The device manager of `kernel/device.c`: a tree whose nodes hold devices, that are looked up by
name or by identity. A device is the address of its `device_t`; the names are given by a function
on these. The messages are left out.

`device_manager_insert` gets the parent itself, and looks it up by its name (`insertsDevice_iff`).
`device_search` and `device_manager_remove` follow the node that is found without a look at it
(`searchMeets_iff`, `removeMeets_iff`).

`device_manager_start` makes a tree of one device, and whatever comes and goes, it stays a tree of
named devices (`deviceTree_of_reachable`).
-/

namespace Beryllium

open Machine LinkedTree

/-- `name` of each `device_t`, `none` for what is no device. -/
abbrev DeviceNames := ℕ → Option (List UInt8)

variable (names : DeviceNames) (s : TreeState ℕ)

/-- `device_search_tree_comparator` -/
def deviceSearchTreeComparator (a b : ℕ) : Option UInt8 := some (if a = b then 1 else 0)

/-- `device_search_name_comparator` -/
def deviceSearchNameComparator (a : ℕ) (b : List UInt8) : Option UInt8 := do
  let name ← names a
  return if (← strcmp name b) = 0 then 1 else 0

/-- `device_search_tree_node` -/
def deviceSearchTreeNode (device : ℕ) : Option ℕ :=
  treeFind s.mem s.tree device deviceSearchTreeComparator

/-- `device_search_node` -/
def deviceSearchNode (name : List UInt8) : Option ℕ :=
  treeFind s.mem s.tree name (deviceSearchNameComparator names)

/-- `device_search` -/
def deviceSearch (name : List UInt8) : Option ℕ := do
  let result ← treeFind s.mem s.tree name (deviceSearchNameComparator names)
  let n ← s.mem.node result
  return n.value

/-- The tree that `device_manager_start` makes, where `root` is its node and `device` is `dev_root`.
    -/
def deviceManagerStart (m : TreeMem ℕ) (root device : ℕ) : TreeState ℕ :=
  let r := LinkedTree.treeSetRoot m LinkedTree.treeCreate root device
  ⟨r.1, r.2⟩

/-- `device_manager_insert`, where `out` and `cell` are the new nodes of the tree and of the list.
    -/
def deviceManagerInsert (device parent out cell : ℕ) : Option (TreeState ℕ) := do
  let res ← deviceSearchNode names s (← names parent)
  if res = 0 then return s
  else (LinkedTree.treeNodeInsertChild s.mem s.tree res device out cell).map fun r => ⟨r.1, r.2⟩

/-- `device_manager_remove` -/
def deviceManagerRemove (device : ℕ) : Option (TreeState ℕ) := do
  let node ← deviceSearchTreeNode s device
  (treeNodeRemove s.mem s.tree node).map fun r => ⟨r.1, r.2⟩

/-! ## What they are for -/

/-- The device `d` is called `x`. -/
def HasName (d : ℕ) (x : List UInt8) : Prop := ∃ b, names d = some b ∧ CStr b x

/-- The node `a` holds the device `d`. -/
def HoldsDevice (a d : ℕ) : Prop := ∃ n, s.mem.node a = some n ∧ n.value = d

/-- The node `a` holds a device called `x`. -/
def NodeNamed (x : List UInt8) (a : ℕ) : Prop := ∃ d, HoldsDevice s a d ∧ HasName names d x

/-- A device tree: its devices have names, not necessarily distinct ones. -/
structure DeviceTree (t : Forest ℕ) : Prop where
  tree : LinkedTree.Tree False s t
  null : s.mem.node 0 = none
  named : ∀ a ∈ t.nodes, ∃ x, NodeNamed names s x a

variable {names s} {s' : TreeState ℕ} {t : Forest ℕ} {a b d e p out cell : ℕ} {name x : List UInt8}

/-- The tree has one more node, with the device `d`, which is the last child of `a`. -/
structure AddsChild (s : TreeState ℕ) (t : Forest ℕ) (a d out : ℕ) (s' : TreeState ℕ) : Prop where
  tree : LinkedTree.Tree False s' (t.insert a out)
  node : ∃ n, s'.mem.node out = some n ∧ n.value = d ∧ n.parent = a
  values : ∀ b ∈ t.nodes, ∀ e, HoldsDevice s' b e ↔ HoldsDevice s b e

/-- The branch of the node `a` is gone, and the other nodes hold what they did. -/
structure RemovesBranch (s : TreeState ℕ) (t : Forest ℕ) (a : ℕ) (s' : TreeState ℕ) : Prop where
  tree : LinkedTree.Tree False s' (t.remove a)
  values : ∀ b ∈ (t.remove a).nodes, ∀ e, HoldsDevice s' b e ↔ HoldsDevice s b e

/-- `device_manager_insert` adds the device under a node that holds the parent itself, and does
    nothing if there is none. -/
def InsertsDevice (names : DeviceNames) (s : TreeState ℕ) (t : Forest ℕ)
    (d p out cell : ℕ) : Prop :=
  ∃ s', deviceManagerInsert names s d p out cell = some s' ∧
    ((∃ a ∈ t.nodes, HoldsDevice s a p ∧ AddsChild s t a d out s') ∨
      (∀ a ∈ t.nodes, ¬HoldsDevice s a p) ∧ s' = s)

/-- `device_search` returns the device of the first node of that name, or null if there is none. -/
def SearchMeets (names : DeviceNames) (s : TreeState ℕ) (t : Forest ℕ)
    (name x : List UInt8) : Prop :=
  ∃ d, deviceSearch names s name = some d ∧
    ((∃ a, FirstWith (NodeNamed names s x) t.nodes a ∧ HoldsDevice s a d) ∨
      (∀ a ∈ t.nodes, ¬NodeNamed names s x a) ∧ d = 0)

/-- `device_manager_remove` returns, removes the branch of a device that is at a node other than the
    root, and does nothing if the device is not in the tree. -/
def RemoveMeets (s : TreeState ℕ) (t : Forest ℕ) (d : ℕ) : Prop :=
  ∃ s', deviceManagerRemove s d = some s' ∧
    ((∃ a ∈ t.nodes, a ≠ s.tree.root ∧ HoldsDevice s a d) →
      ∃ a ∈ t.nodes, a ≠ s.tree.root ∧ HoldsDevice s a d ∧ RemovesBranch s t a s') ∧
    ((∀ a ∈ t.nodes, ¬HoldsDevice s a d) → s' = s)

/-! ## Looking up devices -/

theorem HoldsDevice.unique (h : HoldsDevice s a d) (h' : HoldsDevice s a e) : d = e := by
  obtain ⟨n, hn, rfl⟩ := h
  obtain ⟨n', hn', rfl⟩ := h'
  cases hn.symm.trans hn'
  rfl

theorem HasName.unique {y : List UInt8} (h : HasName names d x) (h' : HasName names d y) :
    x = y := by
  obtain ⟨b, hb, hx⟩ := h
  obtain ⟨b', hb', hy⟩ := h'
  cases hb.symm.trans hb'
  exact hx.unique hy

/-- The node of a tree that holds a device. -/
theorem DeviceTree.exists_holds (h : DeviceTree names s t) (ha : a ∈ t.nodes) :
    ∃ d, HoldsDevice s a d := by
  obtain ⟨x, d, hd, -⟩ := h.named a ha
  exact ⟨d, hd⟩

/-- The comparison of names succeeds for the nodes of that name. -/
theorem DeviceTree.compares_name (h : DeviceTree names s t) (hname : CStr name x)
    (ha : a ∈ t.nodes) :
    Compares s.mem (deviceSearchNameComparator names) name (NodeNamed names s x) a := by
  obtain ⟨y, d, ⟨n, hn, rfl⟩, b, hb, hy⟩ := h.named a ha
  obtain ⟨v, hv, hzero⟩ := strcmp_spec hy hname
  refine ⟨n, if v = 0 then 1 else 0, hn, ?_, ?_⟩
  · rw [deviceSearchNameComparator, hb, Option.bind_eq_bind, Option.bind_some, hv]
    rfl
  · have hnamed : NodeNamed names s x a ↔ y = x := by
      refine ⟨?_, fun hyx => ⟨_, ⟨n, hn, rfl⟩, b, hb, hyx ▸ hy⟩⟩
      rintro ⟨e, he, hx⟩
      obtain rfl := he.unique ⟨n, hn, rfl⟩
      exact HasName.unique ⟨b, hb, hy⟩ hx
    rw [hnamed, ← hzero]
    split_ifs with hv₀
    · exact iff_of_true (by decide) hv₀
    · exact iff_of_false (fun hc => hc rfl) hv₀

theorem DeviceTree.searchNode (h : DeviceTree names s t) (hname : CStr name x) :
    ∃ q, deviceSearchNode names s name = some q ∧ FindsFirst (NodeNamed names s x) t.nodes q :=
  treeFind_spec h.tree fun _ => h.compares_name hname

theorem DeviceTree.searchTreeNode (h : DeviceTree names s t) (d : ℕ) :
    ∃ q, deviceSearchTreeNode s d = some q ∧ FindsFirst (fun a => HoldsDevice s a d) t.nodes q := by
  refine treeFind_spec h.tree fun a ha => ?_
  obtain ⟨e, n, hn, rfl⟩ := h.exists_holds ha
  refine ⟨n, if n.value = d then 1 else 0, hn, rfl, ?_⟩
  split_ifs with hd
  · exact iff_of_true (by decide) ⟨n, hn, hd⟩
  · refine iff_of_false (fun hc => hc rfl) fun hc => hd ?_
    exact HoldsDevice.unique ⟨n, hn, rfl⟩ hc

/-! ## The first device -/

/-- The tree of `device_manager_start`. -/
theorem DeviceTree.of_start {m : TreeMem ℕ} {root : ℕ} (hm : m.node 0 = none) (h₀ : root ≠ 0)
    (hlt : root < 4294967296) (hd : HasName names d x) :
    DeviceTree names (deviceManagerStart m root d) (.node root .nil .nil) where
  tree := LinkedTree.Tree.of_init ⟨m, root, d, h₀, hlt, rfl⟩
  null := (setNode_of_ne h₀.symm).trans hm
  named a ha := by
    obtain rfl := List.mem_singleton.1 ha
    exact ⟨x, d, ⟨_, setNode_self, rfl⟩, hd⟩

/-- All devices are called `r`. -/
def sameNames : DeviceNames := fun _ => some [114, 0]

theorem hasName_sameNames (d : ℕ) : HasName sameNames d [114] := ⟨_, rfl, CStr.mk (by decide) []⟩

/-- The device 7 alone. -/
theorem deviceTree_rootTree : DeviceTree sameNames rootTree (.node 4096 .nil .nil) :=
  .of_start rfl (by decide) (by decide) (hasName_sameNames 7)

/-! ## Inserting -/

/-- A new child of a node of the tree. -/
theorem DeviceTree.addsChild (h : DeviceTree names s t) (ha : a ∈ t.nodes) (hout : s.Fresh out)
    (hcell : s.Fresh cell) (hne : out ≠ cell) (d : ℕ) :
    ∃ s', (LinkedTree.treeNodeInsertChild s.mem s.tree a d out cell).map
        (fun r => (⟨r.1, r.2⟩ : TreeState ℕ)) = some s' ∧
      AddsChild s t a d out s' ∧ s'.mem.node 0 = none := by
  have hreach : s.Reach a := (h.tree.treeIs.reach a).2 ha
  have hg : treeSystem.guard s (.insertChild a d out cell) := ⟨hreach, hout, hcell, hne⟩
  obtain ⟨s', hstep, htree⟩ := h.tree.insertChild hg
  have hold : ∀ b ∈ t.nodes, b ≠ out := by
    rintro b hb rfl
    exact hout.2.2 (.inl ((h.tree.treeIs.reach b).2 hb))
  obtain ⟨e, n, hn, -⟩ := h.exists_holds ha
  obtain ⟨m', hmem, -, hparent, hnew, hother⟩ :=
    treeNodeInsertChild_spec hn (hold a ha) s.tree d cell
  obtain rfl : (⟨m', { s.tree with nodes := add32 s.tree.nodes 1 }⟩ : TreeState ℕ) = s' := by
    rw [treeStep, hmem] at hstep
    exact Option.some.inj hstep
  refine ⟨_, hstep, ⟨htree, ⟨_, hnew, rfl, rfl⟩, fun b hb f => ?_⟩, ?_⟩
  · by_cases hba : b = a
    · subst hba
      refine ⟨?_, ?_⟩
      · rintro ⟨n', hn', rfl⟩
        cases hparent.symm.trans hn'
        exact ⟨n, hn, rfl⟩
      · rintro ⟨n', hn', rfl⟩
        cases hn.symm.trans hn'
        exact ⟨_, hparent, rfl⟩
    · rw [HoldsDevice, HoldsDevice, hother b hba (hold b hb)]
  · rw [hother 0 ?_ hout.1.symm, h.null]
    rintro rfl
    rw [h.null] at hn
    cases hn

/-- With the new child it is a device tree again. -/
theorem AddsChild.deviceTree (hs : AddsChild s t a d out s') (h : DeviceTree names s t)
    (hnull : s'.mem.node 0 = none) (hd : HasName names d x) :
    DeviceTree names s' (t.insert a out) where
  tree := hs.tree
  null := hnull
  named b hb := by
    rcases Forest.mem_nodes_insert.1 hb with hb | ⟨-, rfl⟩
    · obtain ⟨y, e, he, hy⟩ := h.named b hb
      exact ⟨y, e, (hs.values b hb e).2 he, hy⟩
    · obtain ⟨n, hn, hv, -⟩ := hs.node
      exact ⟨x, d, ⟨n, hn, hv⟩, hd⟩

/-- The new node has one parent. -/
theorem AddsChild.unique (hs : AddsChild s t a d out s') (hs' : AddsChild s t b e out s') :
    a = b := by
  obtain ⟨n, hn, -, ha⟩ := hs.node
  obtain ⟨n', hn', -, hb⟩ := hs'.node
  cases hn.symm.trans hn'
  exact ha.symm.trans hb

/-- What `device_manager_insert` does: it adds a child to the first node of the name of the
    parent, if there is one. -/
theorem DeviceTree.insert_cases (h : DeviceTree names s t) (hp : HasName names p x)
    (hout : s.Fresh out) (hcell : s.Fresh cell) (hne : out ≠ cell) (d : ℕ) :
    (∃ a s', FirstWith (NodeNamed names s x) t.nodes a ∧
      deviceManagerInsert names s d p out cell = some s' ∧ AddsChild s t a d out s' ∧
      s'.mem.node 0 = none) ∨
    (∀ a ∈ t.nodes, ¬NodeNamed names s x a) ∧
    deviceManagerInsert names s d p out cell = some s := by
  obtain ⟨b, hb, hname⟩ := hp
  obtain ⟨q, hq, hfirst⟩ := h.searchNode hname
  rcases hfirst with hfirst | ⟨hnone, rfl⟩
  · obtain ⟨s', hs', hadds, hnull⟩ := h.addsChild hfirst.mem hout hcell hne d
    have hq₀ : q ≠ 0 := by
      rintro rfl
      obtain ⟨e, n, hn, -⟩ := h.exists_holds hfirst.mem
      rw [h.null] at hn
      cases hn
    refine .inl ⟨q, s', hfirst, ?_, hadds, hnull⟩
    rw [deviceManagerInsert, hb, Option.bind_eq_bind, Option.bind_some, hq, Option.bind_eq_bind,
      Option.bind_some, if_neg hq₀]
    exact hs'
  · refine .inr ⟨hnone, ?_⟩
    rw [deviceManagerInsert, hb, Option.bind_eq_bind, Option.bind_some, hq, Option.bind_eq_bind,
      Option.bind_some, if_pos rfl]
    rfl

/-- Where a device is inserted under its parent, the first node with the name of the parent holds
    the parent itself. -/
theorem InsertsDevice.holds (hs : InsertsDevice names s t d p out cell) (h : DeviceTree names s t)
    (hp : HasName names p x) (hout : s.Fresh out) (hcell : s.Fresh cell) (hne : out ≠ cell)
    (hfirst : FirstWith (NodeNamed names s x) t.nodes a) : HoldsDevice s a p := by
  rcases h.insert_cases hp hout hcell hne d with ⟨b, s₁, hb, hs₁, hadds, -⟩ | ⟨hnone, -⟩
  · obtain rfl := hb.unique hfirst
    obtain ⟨s', hs', hcase⟩ := hs
    cases hs₁.symm.trans hs'
    rcases hcase with ⟨c, -, hc, hadds'⟩ | ⟨-, rfl⟩
    · rwa [hadds.unique hadds']
    · -- nothing is inserted, but the new node is there
      have hmem : out ∈ (t.insert b out).nodes := Forest.mem_nodes_insert.2 (.inr ⟨hb.mem, rfl⟩)
      exact absurd (.inl ((hadds.tree.treeIs.reach out).2 hmem)) hout.2.2
  · exact absurd hfirst.holds (hnone a hfirst.mem)

/-- A device is inserted under its parent if and only if the first node with the name of the parent,
    if there is one, holds the parent itself: an equally named device that comes earlier gets it
    otherwise. -/
theorem insertsDevice_iff (h : DeviceTree names s t) (hp : HasName names p x) (hout : s.Fresh out)
    (hcell : s.Fresh cell) (hne : out ≠ cell) (d : ℕ) :
    InsertsDevice names s t d p out cell ↔
      ∀ a, FirstWith (NodeNamed names s x) t.nodes a → HoldsDevice s a p := by
  refine ⟨fun hs a ha => hs.holds h hp hout hcell hne ha, fun hall => ?_⟩
  rcases h.insert_cases hp hout hcell hne d with ⟨a, s₁, hfirst, hs₁, hadds, -⟩ | ⟨hnone, hs⟩
  · exact ⟨s₁, hs₁, .inl ⟨a, hfirst.mem, hall a hfirst, hadds⟩⟩
  · exact ⟨s, hs, .inr ⟨fun a ha hold => hnone a ha ⟨p, hold, hp⟩, rfl⟩⟩

/-- The device 8 under the device 7. -/
theorem exists_twoDevices : ∃ s : TreeState ℕ,
    treeStep rootTree (.insertChild 4096 8 4112 8192) = some s ∧
    DeviceTree sameNames s (.node 4096 (.node 4112 .nil .nil) .nil) ∧
    HoldsDevice s 4096 7 ∧ HoldsDevice s 4112 8 ∧ s.tree.root = 4096 ∧
    s.Fresh 4128 ∧ s.Fresh 8208 := by
  have h₀ : TreeInv False rootTree .nil fun _ => [] :=
    .of_init ⟨_, 4096, 7, by decide, by decide, rfl⟩
  obtain ⟨s, ⟨-, hout, hcell, hne⟩, hs, hroot, h₁⟩ := TreeInv.exists_insertChild (.row .nil) 8 4112
    8192 h₀ rfl (by decide) (by decide) (by decide) (by decide)
  obtain ⟨-, ⟨-, hout', hcell', -⟩, -⟩ := TreeInv.exists_insertChild
    (.row (.node 4112 .nil .nil)) 9 4128 8208 h₁ hroot (by decide) (by decide) (by decide)
      (by decide)
  obtain ⟨s', hs', hadds, hnull⟩ :=
    deviceTree_rootTree.addsChild List.mem_cons_self hout hcell hne 8
  obtain rfl : s' = s := Option.some.inj (hs'.symm.trans hs)
  obtain ⟨n, hn, hv, -⟩ := hadds.node
  exact ⟨s', hs, hadds.deviceTree deviceTree_rootTree hnull (hasName_sameNames 8),
    (hadds.values 4096 List.mem_cons_self 7).2 ⟨_, rfl, rfl⟩, ⟨n, hn, hv⟩, hroot, hout', hcell'⟩

/-- A device goes under the root, next to another one. -/
theorem insertsDevice_iff_root : ∃ s : TreeState ℕ,
    DeviceTree sameNames s (.node 4096 (.node 4112 .nil .nil) .nil) ∧
    InsertsDevice sameNames s (.node 4096 (.node 4112 .nil .nil) .nil) 9 7 4128 8208 := by
  obtain ⟨s, -, htree, hroot, -, -, hout, hcell⟩ := exists_twoDevices
  refine ⟨s, htree, (insertsDevice_iff htree (hasName_sameNames 7) hout hcell (by decide) 9).2
    fun a ha => ?_⟩
  -- the root comes first
  obtain rfl := ha.unique (.head ⟨7, hroot, hasName_sameNames 7⟩)
  exact hroot

/-- The device 8, under an equally named root, gets no child: it goes under the root. -/
theorem insertsDevice_false : ∃ (s : TreeState ℕ) (t : Forest ℕ) (out cell : ℕ),
    DeviceTree sameNames s t ∧ s.Fresh out ∧ s.Fresh cell ∧ out ≠ cell ∧
      (∃ a ∈ t.nodes, HoldsDevice s a 8) ∧ ¬InsertsDevice sameNames s t 9 8 out cell := by
  obtain ⟨s, -, htree, hroot, hchild, -, hout, hcell⟩ := exists_twoDevices
  have hne : 4128 ≠ 8208 := by decide
  refine ⟨s, _, 4128, 8208, htree, hout, hcell, hne, ⟨4112, by decide, hchild⟩, fun hs => ?_⟩
  have hholds : HoldsDevice s 4096 8 := hs.holds htree (hasName_sameNames 8) hout hcell hne
    (.head ⟨7, hroot, hasName_sameNames 7⟩)
  cases hroot.unique hholds

/-! ## Searching and removing -/

theorem deviceSearch_eq : deviceSearch names s name =
    (deviceSearchNode names s name).bind fun q => (s.mem.node q).map LinkedTree.TreeNode.value := by
  rw [deviceSearch, deviceSearchNode, Option.bind_eq_bind]
  simp only [Option.map_eq_bind]
  rfl

/-- `device_search` does what it is for if and only if some device has the name. -/
theorem searchMeets_iff (h : DeviceTree names s t) (hname : CStr name x) :
    SearchMeets names s t name x ↔ ∃ a ∈ t.nodes, NodeNamed names s x a := by
  obtain ⟨q, hq, hfirst⟩ := h.searchNode hname
  rw [SearchMeets, deviceSearch_eq, hq, Option.bind_some]
  rcases hfirst with hfirst | ⟨hnone, rfl⟩
  · obtain ⟨d, n, hn, rfl⟩ := h.exists_holds hfirst.mem
    rw [hn]
    exact iff_of_true ⟨n.value, rfl, .inl ⟨q, hfirst, n, hn, rfl⟩⟩ ⟨q, hfirst.mem, hfirst.holds⟩
  · rw [h.null]
    refine iff_of_false ?_ fun ⟨a, ha, hnamed⟩ => hnone a ha hnamed
    rintro ⟨d, hd, -⟩
    cases hd

/-- The branch of a node other than the root. -/
theorem DeviceTree.removesBranch (h : DeviceTree names s t) (ha : a ∈ t.nodes)
    (hroot : a ≠ s.tree.root) :
    ∃ s', (treeNodeRemove s.mem s.tree a).map (fun r => (⟨r.1, r.2⟩ : TreeState ℕ)) = some s' ∧
      RemovesBranch s t a s' ∧ s'.mem.node 0 = none := by
  obtain ⟨s', hstep, htree⟩ := h.tree.nodeRemove ⟨(h.tree.treeIs.reach a).2 ha, hroot⟩ (.inl id)
  obtain ⟨r, hr, rfl⟩ := Option.map_eq_some_iff.1 hstep
  have hvalues := treeNodeRemove_values hr
  refine ⟨_, hstep, ⟨htree, fun b hb e => ?_⟩, ?_⟩
  · -- a node that stays has its value
    obtain ⟨y, hy, rfl⟩ := Forest.exists_row hb 0
    obtain ⟨n', hn', -⟩ := htree.treeIs.rows y hy
    obtain ⟨n, hn, hv⟩ := hvalues _ _ hn'
    refine ⟨?_, ?_⟩
    · rintro ⟨n₁, hn₁, rfl⟩
      cases hn'.symm.trans hn₁
      exact ⟨n, hn, hv.symm⟩
    · rintro ⟨n₁, hn₁, rfl⟩
      cases hn.symm.trans hn₁
      exact ⟨n', hn', hv⟩
  · cases hz : r.1.node 0 with
    | none => rfl
    | some n =>
      obtain ⟨n', hn', -⟩ := hvalues 0 n hz
      rw [h.null] at hn'
      cases hn'

/-- Without the branch it is a device tree again. -/
theorem RemovesBranch.deviceTree (hs : RemovesBranch s t a s') (h : DeviceTree names s t)
    (hnull : s'.mem.node 0 = none) : DeviceTree names s' (t.remove a) where
  tree := hs.tree
  null := hnull
  named b hb := by
    obtain ⟨y, e, he, hy⟩ := h.named b (Forest.mem_nodes_remove hb)
    exact ⟨y, e, (hs.values b hb e).2 he, hy⟩

/-- The root is a node of the tree, and has no parent. -/
theorem DeviceTree.root (h : DeviceTree names s t) : s.tree.root ∈ t.nodes ∧ s.tree.root ≠ 0 ∧
    ∃ n, s.mem.node s.tree.root = some n ∧ n.parent = 0 := by
  obtain ⟨f, K, rfl, hinv⟩ := h.tree
  obtain ⟨n, hn, hp, -⟩ := hinv.holds _ List.mem_cons_self
  exact ⟨List.mem_cons_self, (hinv.bound _ List.mem_cons_self).1, n, hn, hp⟩

/-- What `device_manager_remove` does: it removes the branch of the first node of the device, and
    gets stuck if that is the root, or there is none. -/
theorem DeviceTree.remove_cases (h : DeviceTree names s t) (d : ℕ) :
    (∃ a s', FirstWith (fun a => HoldsDevice s a d) t.nodes a ∧ a ≠ s.tree.root ∧
      deviceManagerRemove s d = some s' ∧ RemovesBranch s t a s' ∧ s'.mem.node 0 = none) ∨
    ((∀ a ∈ t.nodes, ¬HoldsDevice s a d) ∨ HoldsDevice s s.tree.root d) ∧
    deviceManagerRemove s d = none := by
  obtain ⟨q, hq, hfirst⟩ := h.searchTreeNode d
  rw [deviceManagerRemove, hq, Option.bind_eq_bind, Option.bind_some]
  rcases hfirst with hfirst | ⟨hnone, rfl⟩
  · by_cases hroot : q = s.tree.root
    · obtain ⟨-, h₀, n, hn, hp⟩ := h.root
      have hholds : HoldsDevice s q d := hfirst.holds
      rw [hroot] at hholds ⊢
      rw [treeNodeRemove_root hn hp h₀]
      exact .inr ⟨.inr hholds, rfl⟩
    · obtain ⟨s', hs', hremoves, hnull⟩ := h.removesBranch hfirst.mem hroot
      exact .inl ⟨q, s', hfirst, hroot, hs', hremoves, hnull⟩
  · rw [treeNodeRemove, h.null]
    exact .inr ⟨.inl hnone, rfl⟩

/-- The root comes first in preorder. -/
theorem DeviceTree.first_root {P : ℕ → Prop} (h : DeviceTree names s t) (hP : P s.tree.root) :
    FirstWith P t.nodes s.tree.root := by
  obtain ⟨f, K, rfl, -⟩ := h.tree
  exact .head hP

/-- `device_manager_remove` does what it is for if and only if the device is in the tree, and not at
    the root. -/
theorem removeMeets_iff (h : DeviceTree names s t) (d : ℕ) :
    RemoveMeets s t d ↔ (∃ a ∈ t.nodes, HoldsDevice s a d) ∧ ¬HoldsDevice s s.tree.root d := by
  rcases h.remove_cases d with ⟨a, s', hfirst, hroot, hs', hremoves, -⟩ | ⟨hwhy, hs⟩
  · refine iff_of_true ⟨s', hs', fun _ => ⟨a, hfirst.mem, hroot, hfirst.holds, hremoves⟩,
      fun hnone => ?_⟩ ⟨⟨a, hfirst.mem, hfirst.holds⟩, fun hd => hroot ?_⟩
    · exact absurd hfirst.holds (hnone a hfirst.mem)
    · exact hfirst.unique (h.first_root (P := fun a => HoldsDevice s a d) hd)
  · refine iff_of_false ?_ ?_
    · rintro ⟨s', hs', -⟩
      cases hs.symm.trans hs'
    · rintro ⟨⟨a, ha, hd⟩, hno⟩
      exact hwhy.elim (fun hnone => hnone a ha hd) hno

/-- Looking up and removing devices is harmless if and only if there is a device of that name, and
    the device to be removed is in the tree, but not at its root. -/
theorem device_absent_iff (h : DeviceTree names s t) (hname : CStr name x) (d : ℕ) :
    (SearchMeets names s t name x ↔ ∃ a ∈ t.nodes, NodeNamed names s x a) ∧
    (RemoveMeets s t d ↔ (∃ a ∈ t.nodes, HoldsDevice s a d) ∧ ¬HoldsDevice s s.tree.root d) :=
  ⟨searchMeets_iff h hname, removeMeets_iff h d⟩

/-- Of two devices, the root can be found, and the other one can be removed. -/
theorem device_absent_iff_root : ∃ s : TreeState ℕ,
    DeviceTree sameNames s (.node 4096 (.node 4112 .nil .nil) .nil) ∧
    SearchMeets sameNames s (.node 4096 (.node 4112 .nil .nil) .nil) [114, 0] [114] ∧
    RemoveMeets s (.node 4096 (.node 4112 .nil .nil) .nil) 8 := by
  obtain ⟨s, -, htree, hroot, hchild, hfirst, -⟩ := exists_twoDevices
  obtain ⟨hsearch, hremove⟩ := device_absent_iff htree (CStr.mk (s := [114]) (by decide) []) 8
  refine ⟨s, htree, hsearch.2 ⟨4096, List.mem_cons_self, 7, hroot, hasName_sameNames 7⟩,
    hremove.2 ⟨⟨4112, by decide, hchild⟩, fun hold => ?_⟩⟩
  rw [hfirst] at hold
  cases hroot.unique hold

/-- Looking up a name that no device has, and removing a device that is not in the tree. -/
theorem device_absent_false : DeviceTree sameNames rootTree (.node 4096 .nil .nil) ∧
    ¬SearchMeets sameNames rootTree (.node 4096 .nil .nil) [115, 0] [115] ∧
    ¬RemoveMeets rootTree (.node 4096 .nil .nil) 9 := by
  have hroot : HoldsDevice rootTree 4096 7 := ⟨_, rfl, rfl⟩
  have hname : CStr [115, 0] [115] := CStr.mk (by decide) []
  refine ⟨deviceTree_rootTree, fun h => ?_, fun h => ?_⟩
  · obtain ⟨a, ha, d, -, hd⟩ := (searchMeets_iff deviceTree_rootTree hname).1 h
    cases hd.unique (hasName_sameNames d)
  · obtain ⟨⟨a, ha, hd⟩, -⟩ := (removeMeets_iff deviceTree_rootTree 9).1 h
    obtain rfl := List.mem_singleton.1 ha
    cases hroot.unique hd

/-! ## Runs -/

/-- The calls of the device manager, with the new nodes. -/
inductive DeviceManagerOp where
  | insert (device parent out cell : ℕ)
  | remove (device : ℕ)

/-- Named devices come and go after `device_manager_start`. -/
def deviceManagerSystem (names : DeviceNames) : System (TreeState ℕ) DeviceManagerOp where
  init s := ∃ m root d x, m.node 0 = none ∧ root ≠ 0 ∧ root < 4294967296 ∧ HasName names d x ∧
    s = deviceManagerStart m root d
  guard s
    | .insert device parent out cell =>
      (∃ x, HasName names device x) ∧ (∃ x, HasName names parent x) ∧
      s.Fresh out ∧ s.Fresh cell ∧ out ≠ cell
    | .remove _ => True
  step s
    | .insert device parent out cell => deviceManagerInsert names s device parent out cell
    | .remove device => deviceManagerRemove s device

/-- A call keeps a device tree. -/
theorem DeviceTree.step {op : DeviceManagerOp} (h : DeviceTree names s t)
    (hg : (deviceManagerSystem names).guard s op)
    (hs : (deviceManagerSystem names).step s op = some s') : ∃ t', DeviceTree names s' t' := by
  cases op with
  | insert device parent out cell =>
    obtain ⟨⟨y, hd⟩, ⟨x, hp⟩, hout, hcell, hne⟩ := hg
    have hs : deviceManagerInsert names s device parent out cell = some s' := hs
    rcases h.insert_cases hp hout hcell hne device with ⟨a, s₁, -, hs₁, hadds, hnull⟩ | ⟨-, hs₁⟩
    · cases hs₁.symm.trans hs
      exact ⟨_, hadds.deviceTree h hnull hd⟩
    · cases hs₁.symm.trans hs
      exact ⟨t, h⟩
  | remove device =>
    have hs : deviceManagerRemove s device = some s' := hs
    rcases h.remove_cases device with ⟨a, s₁, -, -, hs₁, hremoves, hnull⟩ | ⟨-, hs₁⟩
    · cases hs₁.symm.trans hs
      exact ⟨_, hremoves.deviceTree h hnull⟩
    · cases hs₁.symm.trans hs

/-- Whatever devices come and go, they are in a device tree. -/
theorem deviceTree_of_reachable (h : (deviceManagerSystem names).Reachable s) :
    ∃ t, DeviceTree names s t := by
  refine h.of_step (P := fun s => ∃ t, DeviceTree names s t) ?_ ?_
  · rintro s ⟨m, root, d, x, hm, h₀, hlt, hd, rfl⟩
    exact ⟨_, .of_start hm h₀ hlt hd⟩
  · rintro s op s' ⟨t, ht⟩ hg hs
    exact ht.step hg hs

end Beryllium

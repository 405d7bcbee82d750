import Beryllium.Lib.Tree
import Beryllium.Vfs.Path
import Mathlib.Data.List.Induction

/-!
# Mounting

`vfs_init` and `vfs_mount` of `kernel/vfs.c`: the tree of mount points, whose nodes have a
name and a file, the mounted node, or `NULL`. Nodes of the file system are
pointers here, and never looked into.

The path of a tree node is the list of the names above it; in the trees that
`vfs_mount` makes, no two nodes have the same path (`MountTree`). So the tree is a
partial map from paths to the files mounted there (`binding`), which grows when a
file is stored (`MountTree.binding_setFile`), and not when a node is made
(`MountExt.binding_eq`).
-/

namespace Beryllium

open Machine

/-- `struct vfs_entry` -/
structure VfsEntry where
  name : List UInt8
  file : ℕ

/-- The globals `vfs_tree` and `vfs_root_node`. -/
structure Vfs where
  tree : Option (Tree VfsEntry)
  rootNode : ℕ

/-- `"[root]"` -/
def rootName : List UInt8 := [91, 114, 111, 111, 116, 93, 0]

/-- `vfs_init` -/
def vfsInit : Vfs := ⟨some (treeSetRoot treeCreate ⟨rootName, 0⟩), 0⟩

/-- The loop that chops up the path: the separators before `path_len` become NULs. -/
def chopPath (p : List UInt8) (pathLen : ℕ) : List UInt8 :=
  (p.mapIdx fun i c => if i < pathLen ∧ c = pathSeparator then 0 else c).set pathLen 0

/-- The loop that searches the children of a node for the name `at`. -/
def findChild (t : Tree VfsEntry) (children : List ℕ) (str : List UInt8) : Option (Option ℕ) :=
  match children with
  | [] => some none
  | c :: children => do
    let n ← t.arena[c]?
    let v ← strcmp n.value.name str
    if v = 0 then return some c else findChild t children str

/-- The loop of `vfs_mount` that walks down the tree, and makes the nodes that are missing. -/
def mountLoop (p : List UInt8) (pathLen : ℕ) :
    ℕ → Tree VfsEntry → ℕ → ℕ → Option (Tree VfsEntry × ℕ)
  | 0, _, _, _ => none
  | fuel + 1, t, node, pos =>
    if pos ≥ pathLen then some (t, node)
    else do
      let n ← t.arena[node]?
      let found ← findChild t n.children (p.drop pos)
      let next ← match found with
        | some c => some (t, c)
        | none => (copyString (p.drop pos)).map fun name => treeNodeInsertChild t node ⟨name, 0⟩
      let len ← strlen (p.drop pos)
      mountLoop p pathLen fuel next.1 next.2 (pos + len + 1)

/-- The end of `vfs_mount`: the file is stored unless there is one already. -/
def setFile (t : Tree VfsEntry) (node : ℕ) (localRoot : ℕ) : Option (Tree VfsEntry × ℤ) := do
  let n ← t.arena[node]?
  if n.value.file ≠ 0 then return (t, 3)
  else return (t.modify node fun n => { n with value.file := localRoot }, 0)

/-- `vfs_mount` -/
def vfsMount (s : Vfs) (path : Option (List UInt8)) (localRoot : ℕ) : Option (Vfs × ℤ) :=
  match s.tree with
  | none => some (s, 1)
  | some t =>
    match path with
    | none => some (s, 2)
    | some path => do
      let c ← path.head?
      if c ≠ pathSeparator then return (s, 2)
      else do
        let p ← copyString path
        let pathLen ← strlen p
        let p := chopPath p pathLen
        let root ← t.root
        let c ← p[1]?
        if c = 0 then do
          let r ← setFile t root localRoot
          -- the shortcut for the root
          return (⟨some r.1, if r.2 = 0 then localRoot else s.rootNode⟩, r.2)
        else do
          let w ← mountLoop p pathLen (pathLen + 1) t root 1
          let r ← setFile w.1 w.2 localRoot
          return ({ s with tree := some r.1 }, r.2)

/-! ## The bindings -/

/-- The node that the names `q` lead to from the node `i`. -/
def Tree.find (t : Tree VfsEntry) : ℕ → List (List UInt8) → Option ℕ
  | i, [] => some i
  | i, x :: q => do
    let n ← t.arena[i]?
    let c ← n.children.find? fun c => (t.arena[c]?.map (·.value.name)) = some (x ++ [0])
    Tree.find t c q

/-- The file mounted at the path with the components `q`. -/
def binding (s : Vfs) (q : List (List UInt8)) : Option ℕ := do
  let t ← s.tree
  let r ← t.root
  let i ← t.find r q
  let n ← t.arena[i]?
  if n.value.file = 0 then none else some n.value.file

/-- A tree of mount points: `path` labels its nodes with their paths, no two with the same, and
    the children of a node are those whose path is one name longer. -/
structure MountTree (t : Tree VfsEntry) (path : ℕ → List (List UInt8)) : Prop where
  root : t.root = some 0
  root_lt : 0 < t.arena.length
  path_root : path 0 = []
  path_inj : ∀ i < t.arena.length, ∀ j < t.arena.length, path i = path j → i = j
  mem_children : ∀ (i : ℕ) (n : TreeNode VfsEntry), t.arena[i]? = some n → ∀ c, c ∈ n.children ↔
    c < t.arena.length ∧ ∃ x, path c = path i ++ [x]
  nodup : ∀ (i : ℕ) (n : TreeNode VfsEntry), t.arena[i]? = some n → n.children.Nodup
  name : ∀ (i : ℕ) (n : TreeNode VfsEntry), t.arena[i]? = some n → ∀ q x, path i = q ++ [x] →
    n.value.name = x ++ [0] ∧ 0 ∉ x
  closed : ∀ i < t.arena.length, ∀ q x, path i = q ++ [x] → ∃ j < t.arena.length, path j = q

variable {t : Tree VfsEntry} {path : ℕ → List (List UInt8)} {i j : ℕ} {x : List UInt8}
  {q : List (List UInt8)} {n : TreeNode VfsEntry}

theorem lt_of_arena (h : t.arena[i]? = some n) : i < t.arena.length :=
  (List.getElem?_eq_some_iff.1 h).1

theorem exists_node (h : i < t.arena.length) : ∃ n, t.arena[i]? = some n :=
  ⟨_, List.getElem?_eq_getElem h⟩

theorem append_singleton_inj {q q' : List (List UInt8)} {x y : List UInt8} :
    q ++ [x] = q' ++ [y] ↔ q = q' ∧ x = y := by
  refine ⟨fun h => ?_, fun ⟨h, h'⟩ => by rw [h, h']⟩
  obtain ⟨hq, hx⟩ := List.append_inj' h rfl
  exact ⟨hq, List.singleton_inj.1 hx⟩

/-- The search among some of the children. -/
theorem MountTree.findChild_among (h : MountTree t path) (hn : t.arena[i]? = some n)
    {str : List UInt8} (hx : CStr str x) (cs : List ℕ) (hcs : ∀ c ∈ cs, c ∈ n.children) :
    (∃ c, Beryllium.findChild t cs str = some (some c) ∧ c ∈ cs ∧ path c = path i ++ [x]) ∨
    (Beryllium.findChild t cs str = some none ∧ ∀ c ∈ cs, path c ≠ path i ++ [x]) := by
  induction cs with
  | nil => exact .inr ⟨rfl, fun c hc => absurd hc List.not_mem_nil⟩
  | cons c cs ih =>
    obtain ⟨hc, y, hy⟩ := (h.mem_children i n hn c).1 (hcs c List.mem_cons_self)
    obtain ⟨m, hm⟩ := exists_node hc
    obtain ⟨hname, hzero⟩ := h.name c m hm _ _ hy
    obtain ⟨v, hv, hiff⟩ := strcmp_spec (hname ▸ CStr.mk hzero []) hx
    simp only [Beryllium.findChild, hm, hv, Option.bind_eq_bind, Option.bind_some]
    by_cases hyx : y = x
    · rw [if_pos (hiff.2 hyx)]
      exact .inl ⟨c, rfl, List.mem_cons_self, by rw [hy, hyx]⟩
    · -- a child is found by its name, which is the last one of its path
      rw [if_neg (mt hiff.1 hyx)]
      rcases ih fun d hd => hcs d (List.mem_cons_of_mem c hd) with ⟨d, hd, hmem, hp⟩ | ⟨hd, hp⟩
      · exact .inl ⟨d, hd, List.mem_cons_of_mem c hmem, hp⟩
      · refine .inr ⟨hd, fun e he => ?_⟩
        rcases List.mem_cons.1 he with rfl | he
        · rw [hy]
          exact fun heq => hyx (append_singleton_inj.1 heq).2
        · exact hp e he

/-- The search finds the child with the given name, if there is one. -/
theorem MountTree.findChild (h : MountTree t path) (hn : t.arena[i]? = some n) {str : List UInt8}
    (hx : CStr str x) :
    (∃ c, findChild t n.children str = some (some c) ∧ c < t.arena.length ∧
      path c = path i ++ [x]) ∨ (Beryllium.findChild t n.children str = some none ∧
      ∀ c < t.arena.length, path c ≠ path i ++ [x]) := by
  rcases h.findChild_among hn hx n.children fun _ h => h with ⟨c, hc, hmem, hp⟩ | ⟨hc, hp⟩
  · exact .inl ⟨c, hc, ((h.mem_children i n hn c).1 hmem).1, hp⟩
  · refine .inr ⟨hc, fun c hlt heq => hp c ?_ heq⟩
    exact (h.mem_children i n hn c).2 ⟨hlt, x, heq⟩

/-- Every prefix of a path in the tree is the path of a node. -/
theorem MountTree.exists_prefix (h : MountTree t path) {r : List (List UInt8)}
    (hj : j < t.arena.length) (hp : path j = q ++ r) : ∃ c < t.arena.length, path c = q := by
  induction r using List.reverseRecOn generalizing j with
  | nil => exact ⟨j, hj, by rw [hp, List.append_nil]⟩
  | append_singleton r y ih =>
    rw [← List.append_assoc] at hp
    obtain ⟨k, hk, hpk⟩ := h.closed j hj _ _ hp
    exact ih hk hpk

/-- The names `q` lead from a node to the node whose path is longer by `q`. -/
theorem MountTree.find_eq (h : MountTree t path) (hi : i < t.arena.length) :
    t.find i q = some j ↔ j < t.arena.length ∧ path j = path i ++ q := by
  induction q generalizing i with
  | nil =>
    rw [Tree.find, List.append_nil, Option.some.injEq]
    exact ⟨fun hij => hij ▸ ⟨hi, rfl⟩, fun ⟨hj, hp⟩ => (h.path_inj j hj i hi hp).symm⟩
  | cons x q ih =>
    obtain ⟨n, hn⟩ := exists_node hi
    rw [Tree.find, hn, Option.bind_eq_bind, Option.bind_some]
    have hmem := h.mem_children i n hn
    have hname : ∀ c ∈ n.children, (t.arena[c]?.map (·.value.name)) = some (x ++ [0]) ↔
        path c = path i ++ [x] := by
      intro c hc
      obtain ⟨hlt, y, hy⟩ := (hmem c).1 hc
      obtain ⟨m, hm⟩ := exists_node hlt
      rw [hm, Option.map_some, (h.name c m hm _ _ hy).1, hy, append_singleton_inj,
        Option.some.injEq]
      simp
    cases hf : n.children.find? fun c => (t.arena[c]?.map (·.value.name)) = some (x ++ [0]) with
    | some c =>
      have hc := List.mem_of_find?_eq_some hf
      have hp := (hname c hc).1 (by simpa using List.find?_some hf)
      rw [Option.bind_eq_bind, Option.bind_some, ih ((hmem c).1 hc).1, hp, List.append_assoc]
      rfl
    | none =>
      refine ⟨fun h => absurd h (by simp), fun ⟨hj, hp⟩ => ?_⟩
      rw [← List.singleton_append, ← List.append_assoc] at hp
      obtain ⟨c, hc, hpc⟩ := h.exists_prefix hj hp
      have hmem' := (hmem c).2 ⟨hc, x, hpc⟩
      have := List.find?_eq_none.1 hf c hmem'
      exact absurd ((hname c hmem').2 hpc) (by simpa using this)

/-! ## Adding nodes and files -/

/-- Only nodes without a file are added. -/
structure MountExt (t : Tree VfsEntry) (path : ℕ → List (List UInt8)) (t' : Tree VfsEntry)
    (path' : ℕ → List (List UInt8)) : Prop where
  length_le : t.arena.length ≤ t'.arena.length
  path_eq : ∀ j < t.arena.length, path' j = path j
  value_eq : ∀ j < t.arena.length, t'.arena[j]?.map (·.value) = t.arena[j]?.map (·.value)
  new : ∀ (j : ℕ) (n : TreeNode VfsEntry), t.arena.length ≤ j → t'.arena[j]? = some n →
    n.value.file = 0

variable {t' t'' : Tree VfsEntry} {path' path'' : ℕ → List (List UInt8)}

theorem MountExt.refl : MountExt t path t path where
  length_le := le_rfl
  path_eq _ _ := rfl
  value_eq _ _ := rfl
  new _ _ hj hn := absurd (lt_of_arena hn) (Nat.not_lt.2 hj)

theorem MountExt.trans (h : MountExt t path t' path') (h' : MountExt t' path' t'' path'') :
    MountExt t path t'' path'' where
  length_le := h.length_le.trans h'.length_le
  path_eq j hj := (h'.path_eq j (hj.trans_le h.length_le)).trans (h.path_eq j hj)
  value_eq j hj := (h'.value_eq j (hj.trans_le h.length_le)).trans (h.value_eq j hj)
  new j n hj hn := by
    by_cases hj' : j < t'.arena.length
    · obtain ⟨m, hm⟩ := exists_node hj'
      have hv := h'.value_eq j hj'
      rw [hn, hm] at hv
      have hv' : n.value = m.value := Option.some.inj hv
      rw [hv']
      exact h.new j m hj hm
    · exact h'.new j n (Nat.not_lt.1 hj') hn

/-- A node of the new tree is the new one, its parent, or another that is as it was. -/
theorem insert_cases {m : TreeNode VfsEntry} {v : VfsEntry} (hm : t.arena[i]? = some m) (j : ℕ)
    (n : TreeNode VfsEntry) (hn : (treeNodeInsertChild t i v).1.arena[j]? = some n) :
    (j = t.arena.length ∧ n = ⟨v, [], some i⟩) ∨
    (j = i ∧ n = { m with children := m.children ++ [t.arena.length] }) ∨
    (j < t.arena.length ∧ j ≠ i ∧ t.arena[j]? = some n) := by
  have hj := lt_of_arena hn
  rw [length_treeNodeInsertChild] at hj
  rcases (Nat.lt_succ_iff.1 hj).eq_or_lt with rfl | hj
  · rw [arena_insertChild_new (lt_of_arena hm)] at hn
    exact .inl ⟨rfl, (Option.some.inj hn).symm⟩
  · by_cases hji : j = i
    · subst hji
      rw [arena_insertChild_parent hm] at hn
      exact .inr (.inl ⟨rfl, (Option.some.inj hn).symm⟩)
    · rw [arena_insertChild_other hj hji] at hn
      exact .inr (.inr ⟨hj, hji, hn⟩)

/-- A node with a new path is added below the node `i`. -/
theorem MountTree.insert (h : MountTree t path) (hi : i < t.arena.length) (hx : 0 ∉ x)
    (hnew : ∀ c < t.arena.length, path c ≠ path i ++ [x]) :
    MountTree (treeNodeInsertChild t i ⟨x ++ [0], 0⟩).1
      (Function.update path t.arena.length (path i ++ [x])) := by
  obtain ⟨m, hm⟩ := exists_node hi
  have hold : ∀ j < t.arena.length,
      Function.update path t.arena.length (path i ++ [x]) j = path j :=
    fun j hj => Function.update_of_ne hj.ne ..
  have hself : Function.update path t.arena.length (path i ++ [x]) t.arena.length = path i ++ [x] :=
    Function.update_self ..
  have hlen := @length_treeNodeInsertChild _ t i ⟨x ++ [0], 0⟩
  generalize Function.update path t.arena.length (path i ++ [x]) = path' at *
  have hlt : ∀ j, j < (treeNodeInsertChild t i ⟨x ++ [0], 0⟩).1.arena.length ↔
      j < t.arena.length ∨ j = t.arena.length := fun j => by
    rw [hlen, Nat.lt_succ_iff_lt_or_eq]
  refine ⟨h.root, (hlt 0).2 (.inl h.root_lt), (hold 0 h.root_lt).trans h.path_root, ?_, ?_,
    ?_, ?_, ?_⟩
  · intro j hj k hk hjk
    rcases (hlt j).1 hj with hj | rfl <;> rcases (hlt k).1 hk with hk | rfl
    · rw [hold j hj, hold k hk] at hjk
      exact h.path_inj j hj k hk hjk
    · rw [hold j hj, hself] at hjk
      exact absurd hjk (hnew j hj)
    · rw [hold k hk, hself] at hjk
      exact absurd hjk.symm (hnew k hk)
    · rfl
  · intro j n hn c
    rw [hlt c]
    rcases insert_cases hm j n hn with ⟨rfl, rfl⟩ | ⟨rfl, rfl⟩ | ⟨hj, hji, hn⟩
    · -- the paths below the new one are not in the tree, as it is closed
      refine ⟨fun hc => absurd hc List.not_mem_nil, ?_⟩
      rintro ⟨hc | rfl, y, hy⟩
      · rw [hold c hc, hself] at hy
        obtain ⟨k, hk, hp⟩ := h.closed c hc _ y hy
        exact absurd hp (hnew k hk)
      · exact absurd (congrArg List.length hy) (by simp)
    · rw [hold _ hi, List.mem_append, List.mem_singleton, h.mem_children _ m hm c]
      constructor
      · rintro (⟨hc, y, hy⟩ | rfl)
        · exact ⟨.inl hc, y, (hold c hc).trans hy⟩
        · exact ⟨.inr rfl, x, hself⟩
      · rintro ⟨hc | hc, y, hy⟩
        · exact .inl ⟨hc, y, (hold c hc).symm.trans hy⟩
        · exact .inr hc
    · rw [hold j hj, h.mem_children j n hn c]
      constructor
      · rintro ⟨hc, y, hy⟩
        exact ⟨.inl hc, y, (hold c hc).trans hy⟩
      · rintro ⟨hc | rfl, y, hy⟩
        · exact ⟨hc, y, (hold c hc).symm.trans hy⟩
        · rw [hself, append_singleton_inj] at hy
          exact absurd (h.path_inj j hj i hi hy.1.symm) hji
  · intro j n hn
    rcases insert_cases hm j n hn with ⟨rfl, rfl⟩ | ⟨rfl, rfl⟩ | ⟨hj, hji, hn⟩
    · exact List.nodup_nil
    · have hnot : t.arena.length ∉ m.children :=
        fun hmem => absurd ((h.mem_children _ m hm _).1 hmem).1 (Nat.lt_irrefl _)
      exact List.nodup_append.2
        ⟨h.nodup _ m hm, List.nodup_cons.2 ⟨List.not_mem_nil, List.nodup_nil⟩, fun a ha b hb hab =>
        hnot (List.mem_singleton.1 hb ▸ hab ▸ ha)⟩
    · exact h.nodup j n hn
  · intro j n hn q y hy
    rcases insert_cases hm j n hn with ⟨rfl, rfl⟩ | ⟨rfl, rfl⟩ | ⟨hj, hji, hn⟩
    · rw [hself, append_singleton_inj] at hy
      exact hy.2 ▸ ⟨rfl, hx⟩
    · rw [hold _ hi] at hy
      exact h.name _ m hm q y hy
    · rw [hold j hj] at hy
      exact h.name j n hn q y hy
  · intro j hj q y hy
    rcases (hlt j).1 hj with hj | rfl
    · rw [hold j hj] at hy
      obtain ⟨k, hk, hp⟩ := h.closed j hj q y hy
      exact ⟨k, (hlt k).2 (.inl hk), (hold k hk).trans hp⟩
    · rw [hself, append_singleton_inj] at hy
      exact ⟨i, (hlt i).2 (.inl hi), (hold i hi).trans hy.1⟩

theorem MountExt.insert (hi : i < t.arena.length) :
    MountExt t path (treeNodeInsertChild t i ⟨x ++ [0], 0⟩).1
      (Function.update path t.arena.length (path i ++ [x])) := by
  obtain ⟨m, hm⟩ := exists_node hi
  have hlen := @length_treeNodeInsertChild _ t i ⟨x ++ [0], 0⟩
  refine ⟨by rw [hlen]; exact Nat.le_succ _, fun j hj => Function.update_of_ne hj.ne .., ?_, ?_⟩
  · intro j hj
    have hj' : j < (treeNodeInsertChild t i ⟨x ++ [0], 0⟩).1.arena.length := by
      rw [hlen]
      exact Nat.lt_succ_of_lt hj
    obtain ⟨n, hn⟩ := exists_node hj'
    rcases insert_cases hm j n hn with ⟨rfl, -⟩ | ⟨rfl, rfl⟩ | ⟨-, -, hn'⟩
    · exact absurd hj (Nat.lt_irrefl _)
    · rw [hn, hm]
      rfl
    · rw [hn, hn']
  · intro j n hj hn
    rcases insert_cases hm j n hn with ⟨-, rfl⟩ | ⟨rfl, -⟩ | ⟨hj', -⟩
    · rfl
    · exact absurd hi (Nat.not_lt.2 hj)
    · exact absurd hj' (Nat.not_lt.2 hj)

/-- The nodes after a file is stored in the node `i`. -/
theorem setFile_cases {f : ℕ}
    (hn : (t.modify i fun n => { n with value.file := f }).arena[j]? = some n) :
    (j = i ∧ ∃ m, t.arena[i]? = some m ∧ n = { m with value.file := f }) ∨
    (j ≠ i ∧ t.arena[j]? = some n) := by
  rw [arena_modify] at hn
  by_cases hij : i = j
  · subst hij
    rw [if_pos rfl] at hn
    obtain ⟨m, hm, rfl⟩ := Option.map_eq_some_iff.1 hn
    exact .inl ⟨rfl, m, hm, rfl⟩
  · rw [if_neg hij] at hn
    exact .inr ⟨Ne.symm hij, hn⟩

theorem MountTree.setFile (h : MountTree t path) (i f : ℕ) :
    MountTree (t.modify i fun n => { n with value.file := f }) path := by
  have hlen : (t.modify i fun n => { n with value.file := f }).arena.length = t.arena.length :=
    List.length_modify ..
  have hsame : ∀ (j : ℕ) (n : TreeNode VfsEntry),
      (t.modify i fun n => { n with value.file := f }).arena[j]? = some n →
      ∃ m, t.arena[j]? = some m ∧ n.children = m.children ∧ n.value.name = m.value.name := by
    intro j n hn
    rcases setFile_cases hn with ⟨rfl, m, hm, rfl⟩ | ⟨-, hm⟩
    · exact ⟨m, hm, rfl, rfl⟩
    · exact ⟨n, hm, rfl, rfl⟩
  refine ⟨h.root, hlen ▸ h.root_lt, h.path_root, hlen ▸ h.path_inj, ?_, ?_, ?_, hlen ▸ h.closed⟩
  · intro j n hn c
    obtain ⟨m, hm, hc, -⟩ := hsame j n hn
    rw [hc, hlen]
    exact h.mem_children j m hm c
  · intro j n hn
    obtain ⟨m, hm, hc, -⟩ := hsame j n hn
    exact hc ▸ h.nodup j m hm
  · intro j n hn
    obtain ⟨m, hm, -, hv⟩ := hsame j n hn
    exact hv ▸ h.name j m hm

/-! ## The bindings of a tree -/

variable {r f : ℕ}

/-- The files of a tree are its bindings. -/
theorem MountTree.binding_eq (h : MountTree t path) :
    binding ⟨some t, r⟩ q = some f ↔
      f ≠ 0 ∧ ∃ j n, t.arena[j]? = some n ∧ path j = q ∧ n.value.file = f := by
  have hfind := fun {j} => h.find_eq (j := j) (q := q) h.root_lt
  rw [h.path_root, List.nil_append] at hfind
  simp only [binding, h.root, Option.bind_eq_bind, Option.bind_some]
  constructor
  · intro hb
    obtain ⟨j, hj, hb⟩ := Option.bind_eq_some_iff.1 hb
    obtain ⟨n, hn, hb⟩ := Option.bind_eq_some_iff.1 hb
    split_ifs at hb with hf
    obtain rfl := Option.some.inj hb
    exact ⟨hf, j, n, hn, (hfind.1 hj).2, rfl⟩
  · rintro ⟨hf, j, n, hn, hp, rfl⟩
    rw [hfind.2 ⟨lt_of_arena hn, hp⟩, Option.bind_some, hn, Option.bind_some, if_neg hf]

/-- Nodes without a file are not bound. -/
theorem MountExt.binding_eq (he : MountExt t path t' path') (h : MountTree t path)
    (h' : MountTree t' path') {r r' : ℕ} : binding ⟨some t', r'⟩ = binding ⟨some t, r⟩ := by
  funext q
  refine Option.ext fun f => ?_
  rw [h.binding_eq, h'.binding_eq]
  refine and_congr_right fun hf => ⟨?_, ?_⟩
  · rintro ⟨j, n, hn, hp, hv⟩
    by_cases hj : j < t.arena.length
    · obtain ⟨m, hm⟩ := exists_node hj
      have hval := he.value_eq j hj
      rw [hn, hm] at hval
      have hval : n.value = m.value := Option.some.inj hval
      exact ⟨j, m, hm, (he.path_eq j hj).symm.trans hp, hval ▸ hv⟩
    · exact absurd ((he.new j n (Nat.not_lt.1 hj) hn).symm.trans hv) (Ne.symm hf)
  · rintro ⟨j, m, hm, hp, hv⟩
    have hj := lt_of_arena hm
    obtain ⟨n, hn⟩ := exists_node (hj.trans_le he.length_le)
    have hval := he.value_eq j hj
    rw [hn, hm] at hval
    have hval : n.value = m.value := Option.some.inj hval
    exact ⟨j, n, hn, (he.path_eq j hj).trans hp, hval ▸ hv⟩

/-- A file that is stored in a node is bound to the path of the node. -/
theorem MountTree.binding_setFile (h : MountTree t path) (hi : i < t.arena.length) (hf : f ≠ 0)
    {r r' : ℕ} : binding ⟨some (t.modify i fun n => { n with value.file := f }), r'⟩ =
      Function.update (binding ⟨some t, r⟩) (path i) (some f) := by
  obtain ⟨m, hm⟩ := exists_node hi
  funext q
  refine Option.ext fun g => ?_
  rw [(h.setFile i f).binding_eq]
  by_cases hq : q = path i
  · subst hq
    rw [Function.update_self, Option.some.injEq]
    constructor
    · rintro ⟨-, j, n, hn, hp, rfl⟩
      rcases setFile_cases hn with ⟨-, m, -, rfl⟩ | ⟨hji, hn⟩
      · rfl
      · exact absurd (h.path_inj j (lt_of_arena hn) i hi hp) hji
    · rintro rfl
      refine ⟨hf, i, { m with value.file := f }, ?_, rfl, rfl⟩
      rw [arena_modify, if_pos rfl, hm]
      rfl
  · rw [Function.update_of_ne hq, h.binding_eq]
    refine and_congr_right fun _ => exists_congr fun j => exists_congr fun n => ?_
    rw [arena_modify]
    by_cases hij : i = j
    · subst hij
      exact ⟨fun hn => absurd hn.2.1.symm hq, fun hn => absurd hn.2.1.symm hq⟩
    · rw [if_neg hij]

end Beryllium

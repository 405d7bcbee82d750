import Beryllium.Vfs.MountMap
import Beryllium.Vfs.Node
import Mathlib.Data.Nat.Find

/-!
# Mount points

`get_mount_point` of `kernel/vfs.c`: it walks down the mount tree along a chopped path, and
keeps the last node with a file that it has come by (`Found`). When the walk ends, this is
the node at the longest prefix of the path with a file mounted at it
(`getMountPoint_eq`).
-/

namespace Beryllium

open Machine

variable {W : Type} {n : VfsNode}

/-! ## get_mount_point -/

/-- The first loop of `get_mount_point`, which skips `n` strings. -/
def skipStrings (block : List UInt8) : ℕ → ℕ → Option ℕ
  | 0, path => some path
  | n + 1, path => do
    let len ← strlen (block.drop path)
    skipStrings block n (path + len + 1)

/-- The locals `last` and `_tree_depth` of `get_mount_point`, and `*outpath`. -/
structure MountPoint where
  last : ℕ
  treeDepth : ℕ
  outpath : ℕ

/-- The second loop of `get_mount_point`, which walks down the tree. -/
def mountPointLoop (t : Tree VfsEntry) (block : List UInt8) (path : ℕ) :
    ℕ → ℕ → ℕ → ℕ → MountPoint → Option MountPoint
  | 0, _, _, _, _ => none
  | fuel + 1, node, pos, depth, m =>
    if pos ≥ path then some m
    else do
      let n ← t.arena[node]?
      match ← findChild t n.children (block.drop pos) with
      | none => some m
      | some c => do
        let len ← strlen (block.drop pos)
        let pos := pos + len + 1
        let ent ← t.arena[c]?
        let m := if ent.value.file ≠ 0 then ⟨ent.value.file, depth, pos⟩ else m
        mountPointLoop t block path fuel c pos (depth + 1) m

/-- `get_mount_point`: the clone of the node, `*outdepth` and `*outpath`. -/
def getMountPoint (garbage : VfsNode) (s : Vfs) (e : Env W) (block : List UInt8)
    (path pathDepth outpath : ℕ) : Option (Env W × ℕ × ℕ × ℕ) := do
  let path ← skipStrings block (pathDepth + 1) path
  let t ← s.tree
  let root ← t.root
  let m ← mountPointLoop t block path (block.length + 1) root outpath 1 ⟨s.rootNode, 0, outpath⟩
  if m.last ≠ 0 then do
    let (h, lastClone) := e.heap.malloc garbage
    let h ← h.memcpy lastClone m.last
    return ({ e with heap := h }, lastClone, m.treeDepth, m.outpath)
  else return (e, m.last, m.treeDepth, m.outpath)

/-! ## The longest mounted prefix -/

variable {s : Vfs} {q r : List (List UInt8)} {t : Tree VfsEntry} {path : ℕ → List (List UInt8)}
  {i k f : ℕ} {m : MountPoint}

/-- The longest prefix of `q` with a file mounted at it has `k` names. -/
def IsLongest (s : Vfs) (q : List (List UInt8)) (k : ℕ) : Prop :=
  k ≤ q.length ∧ binding s (q.take k) ≠ none ∧ ∀ j, k < j → j ≤ q.length →
    binding s (q.take j) = none

theorem exists_isLongest (h : ∃ k ≤ q.length, binding s (q.take k) ≠ none) :
    ∃ k, IsLongest s q k := by
  obtain ⟨k, hk, hb⟩ := h
  refine ⟨_, Nat.findGreatest_le q.length,
    Nat.findGreatest_spec (P := fun k => binding s (q.take k) ≠ none) hk hb, fun j hj hjq => ?_⟩
  exact not_not.1 (Nat.findGreatest_is_greatest hj hjq)

/-- What the loop of `get_mount_point` has found among the prefixes of `q`. -/
def Found (s : Vfs) (q : List (List UInt8)) (m : MountPoint) : Prop :=
  if m.last = 0 then ∀ j ≤ q.length, binding s (q.take j) = none
  else IsLongest s q m.treeDepth ∧ binding s (q.take m.treeDepth) = some m.last ∧
    m.outpath = 1 + (chopped (q.take m.treeDepth)).length

theorem Found.append (h : Found s q m)
    (hr : ∀ j, q.length < j → j ≤ (q ++ r).length → binding s ((q ++ r).take j) = none) :
    Found s (q ++ r) m := by
  have htake : ∀ j ≤ q.length, (q ++ r).take j = q.take j :=
    fun j hj => List.take_append_of_le_length hj
  rw [Found] at h ⊢
  split_ifs at h ⊢ with hm
  · intro j hj
    by_cases hjq : j ≤ q.length
    · rw [htake j hjq]
      exact h j hjq
    · exact hr j (Nat.not_le.1 hjq) hj
  · obtain ⟨⟨hk, hb, hmax⟩, hlast, hout⟩ := h
    rw [htake _ hk]
    refine ⟨⟨hk.trans (by rw [List.length_append]; exact Nat.le_add_right _ _),
      by rwa [htake _ hk], fun j hj hjq => ?_⟩, hlast, hout⟩
    by_cases hjq' : j ≤ q.length
    · rw [htake j hjq']
      exact hmax j hj hjq'
    · exact hr j (Nat.not_le.1 hjq') hjq

theorem found_self (hb : binding s q = some f) (hf : f ≠ 0) {pos : ℕ}
    (hpos : pos = 1 + (chopped q).length) : Found s q ⟨f, q.length, pos⟩ := by
  rw [Found, if_neg hf]
  rw [List.take_length]
  exact ⟨⟨le_rfl, by rw [List.take_length, hb]; exact Option.some_ne_none f,
    fun j hj hjq => absurd hjq (Nat.not_le.2 hj)⟩, hb, hpos⟩

theorem MountTree.binding_none {v : ℕ} (h : MountTree t path) {c : ℕ} {ent : TreeNode VfsEntry}
    (hc : t.arena[c]? = some ent) (hf : ent.value.file = 0) :
    binding ⟨some t, v⟩ (path c) = none := by
  refine Option.eq_none_iff_forall_ne_some.2 fun f hb => ?_
  obtain ⟨hf', j, n, hn, hp, rfl⟩ := h.binding_eq.1 hb
  obtain rfl := h.path_inj j (lt_of_arena hn) c (lt_of_arena hc) hp
  rw [hn] at hc
  exact hf' (Option.some.inj hc ▸ hf)

/-- The walk ends with the longest prefix of the path. -/
theorem mountPointLoop_eq {v : ℕ} (h : MountTree t path) (hi : i < t.arena.length) (hp : path i = q)
    {block : List UInt8} {pos fuel : ℕ} (hblock : block.drop pos = chopped r)
    (hpos : pos = 1 + (chopped q).length) (hr : ∀ x ∈ r, 0 ∉ x) (hfuel : r.length < fuel)
    (hm : Found ⟨some t, v⟩ q m) :
    ∃ m', mountPointLoop t block (pos + (chopped r).length) fuel i pos (q.length + 1) m = some m' ∧
      Found ⟨some t, v⟩ (q ++ r) m' := by
  induction fuel generalizing i q r pos m with
  | zero => exact absurd hfuel (Nat.not_lt_zero _)
  | succ fuel ih =>
    rw [mountPointLoop]
    cases r with
    | nil => exact ⟨m, if_pos le_rfl, by rwa [List.append_nil]⟩
    | cons x r =>
      have hblock := hblock.trans (List.append_nil _).symm
      have hstr : CStr (block.drop pos) x := cstr_chopped hblock (hr x List.mem_cons_self)
      have hlen : (chopped (x :: r)).length = x.length + 1 + (chopped r).length :=
        length_chopped_cons
      obtain ⟨n, hn⟩ := exists_node hi
      rw [if_neg (by omega)]
      simp only [hn, strlen_eq hstr, Option.bind_eq_bind, Option.bind_some]
      rcases h.findChild hn hstr with ⟨c, hc, hlt, hpc⟩ | ⟨hc, hnone⟩
      · obtain ⟨ent, hent⟩ := exists_node hlt
        rw [hp] at hpc
        have hblock' : block.drop (pos + x.length + 1) = chopped r :=
          (drop_chopped hblock).trans (List.append_nil _)
        have hpos' : pos + x.length + 1 = 1 + (chopped (q ++ [x])).length := by
          rw [hpos, chopped, chopped, List.flatMap_append, List.length_append]
          simp
          omega
        have hfound : Found ⟨some t, v⟩ (q ++ [x]) (if ent.value.file ≠ 0 then
            ⟨ent.value.file, q.length + 1, pos + x.length + 1⟩ else m) := by
          by_cases hf : ent.value.file = 0
          · rw [if_neg (not_not.2 hf)]
            refine hm.append fun j hj hjq => ?_
            rw [List.take_of_length_le (by rw [List.length_append]; exact hj), ← hpc]
            exact h.binding_none hent hf
          · rw [if_pos hf]
            have := found_self (h.binding_eq (r := v).2 ⟨hf, c, ent, hent, hpc, rfl⟩) hf hpos'
            rwa [List.length_append] at this
        obtain ⟨m', hloop, hm'⟩ := ih hlt hpc hblock' hpos'
          (fun y hy => hr y (List.mem_cons_of_mem x hy)) (Nat.lt_of_succ_lt_succ hfuel) hfound
        rw [List.append_assoc] at hm'
        refine ⟨m', ?_, hm'⟩
        rw [hc, hlen, ← hloop, List.length_append]
        simp only [Option.bind_some, hent]
        congr 1
        omega
      · rw [hc]
        refine ⟨m, rfl, hm.append fun j hj hjq => ?_⟩
        -- no node has a path that starts with `q` and the name that is missing
        refine Option.eq_none_iff_forall_ne_some.2 fun f hb => ?_
        obtain ⟨-, k, ent, hk, hpk, -⟩ := h.binding_eq.1 hb
        obtain ⟨l, hl⟩ := Nat.exists_eq_add_of_lt hj
        have htake : (q ++ x :: r).take j = (q ++ [x]) ++ r.take l := by
          rw [hl, Nat.add_assoc, List.take_length_add_append, List.take_succ_cons,
            List.append_assoc]
          rfl
        rw [htake] at hpk
        obtain ⟨c, hc, hpc⟩ := h.exists_prefix (lt_of_arena hk) hpk
        exact hnone c hc (hp ▸ hpc)

theorem skipStrings_eq {block rest : List UInt8} {pos : ℕ}
    (hblock : block.drop pos = chopped r ++ rest)
    (hr : ∀ x ∈ r, 0 ∉ x) : skipStrings block r.length pos = some (pos + (chopped r).length) := by
  induction r generalizing pos with
  | nil => rfl
  | cons x r ih =>
    have hstr : CStr (block.drop pos) x := cstr_chopped hblock (hr x List.mem_cons_self)
    rw [List.length_cons, skipStrings, strlen_eq hstr, Option.bind_eq_bind, Option.bind_some,
      ih (drop_chopped hblock) fun y hy => hr y (List.mem_cons_of_mem x hy), length_chopped_cons]
    congr 1
    omega

/-- A walk that ends without a file has not changed what it started with. -/
theorem mountPointLoop_last {block : List UInt8} {l fuel pos depth : ℕ} {m' : MountPoint}
    (h : mountPointLoop t block l fuel i pos depth m = some m') (hlast : m'.last = 0) : m' = m := by
  induction fuel generalizing i pos depth m with
  | zero => cases h
  | succ fuel ih =>
    rw [mountPointLoop] at h
    split_ifs at h
    · exact (Option.some.inj h).symm
    · obtain ⟨n, -, h⟩ := Option.bind_eq_some_iff.1 h
      obtain ⟨found, -, h⟩ := Option.bind_eq_some_iff.1 h
      cases found with
      | none => exact (Option.some.inj h).symm
      | some c =>
        obtain ⟨len, -, h⟩ := Option.bind_eq_some_iff.1 h
        obtain ⟨ent, -, h⟩ := Option.bind_eq_some_iff.1 h
        by_cases hf : ent.value.file = 0
        · rw [if_neg (not_not.2 hf)] at h
          exact ih h
        · rw [if_pos hf] at h
          -- the file would be the last one found
          have := ih h
          rw [this] at hlast
          exact absurd hlast hf

/-- `get_mount_point` walks to the longest mounted prefix of the path, and clones what it has found
    there. Without a mounted prefix it does nothing. -/
theorem getMountPoint_walk (hs : MountInv s) (hq : ∀ x ∈ q, 0 ∉ x) :
    ∃ m, Found s q m ∧ (m.last = 0 → m = ⟨0, 0, 1⟩) ∧ ∀ (g : VfsNode) (e : Env W),
      getMountPoint g s e (0 :: chopped q) 0 q.length 1 =
        if m.last ≠ 0 then ((e.heap.malloc g).1.memcpy e.heap.bound m.last).map fun h =>
          ({ e with heap := h }, e.heap.bound, m.treeDepth, m.outpath)
        else some (e, m.last, m.treeDepth, m.outpath) := by
  obtain ⟨t, path, root, ht, h, hroot, hrootNode⟩ := hs
  obtain ⟨tree, rootNode⟩ := s
  obtain rfl : tree = some t := ht
  obtain rfl : root.value.file = rootNode := hrootNode
  have hskip : skipStrings (0 :: chopped q) (q.length + 1) 0 = some (1 + (chopped q).length) := by
    have hmem : ∀ x ∈ [] :: q, 0 ∉ x := fun x hx =>
      (List.mem_cons.1 hx).elim (fun hx => hx ▸ List.not_mem_nil) (hq x)
    have := skipStrings_eq (show (0 :: chopped q).drop 0 = chopped ([] :: q) ++ [] by
      rw [List.append_nil, chopped_cons]; rfl) hmem
    rw [List.length_cons] at this
    rw [this, chopped_cons, List.nil_append, List.length_cons, Nat.zero_add, Nat.add_comm]
  -- the walk starts with the file of the root, which may be null
  have hfound : Found ⟨some t, root.value.file⟩ [] ⟨root.value.file, 0, 1⟩ := by
    by_cases hr : root.value.file = 0
    · rw [Found, if_pos hr]
      intro j _
      rw [List.take_nil, ← h.path_root]
      exact h.binding_none hroot hr
    · exact found_self (h.binding_eq.2 ⟨hr, 0, root, hroot, h.path_root, rfl⟩) hr rfl
  have hlen : q.length < (0 :: chopped q).length + 1 :=
    Nat.lt_succ_of_lt (Nat.lt_succ_of_le (length_le_chopped q))
  obtain ⟨m, hloop, hm⟩ := mountPointLoop_eq h h.root_lt h.path_root
    (show List.drop 1 (0 :: chopped q) = chopped q from rfl) rfl hq hlen hfound
  refine ⟨m, hm, fun hlast => ?_, fun g e => ?_⟩
  · have := mountPointLoop_last hloop hlast
    rw [this] at hlast
    rw [this, show root.value.file = 0 from hlast]
  · simp only [getMountPoint, hskip, Option.bind_eq_bind, Option.bind_some, h.root]
    rw [List.length_nil, Nat.zero_add] at hloop
    rw [hloop, Option.bind_some]
    split_ifs
    · rw [Option.map_eq_bind]
      rfl
    · rfl

theorem IsLongest.eq {k' : ℕ} (h : IsLongest s q k) (h' : IsLongest s q k') : k = k' := by
  rcases Nat.lt_trichotomy k k' with hlt | heq | hlt
  · exact absurd (h.2.2 k' hlt h'.1) h'.2.1
  · exact heq
  · exact absurd (h'.2.2 k hlt h.1) h.2.1

/-- `get_mount_point` clones the node at the longest mounted prefix of the path, and moves
    `*outpath` to the name after it. -/
theorem getMountPoint_clone (g : VfsNode) (hs : MountInv s) (hq : ∀ x ∈ q, 0 ∉ x)
    (hk : IsLongest s q k) (hf : binding s (q.take k) = some f) {e : Env W}
    (hn : e.heap.node f = some n) :
    getMountPoint g s e (0 :: chopped q) 0 q.length 1 =
      some ({ e with heap := (e.heap.malloc n).1 }, e.heap.bound, k,
        1 + (chopped (q.take k)).length) := by
  obtain ⟨m, hm, -, hget⟩ := getMountPoint_walk (W := W) hs hq
  rw [hget]
  -- the prefix that the walk has found is the longest one
  rw [Found] at hm
  split_ifs at hm with hlast
  · exact absurd (hm k hk.1) hk.2.1
  obtain ⟨hk', hb, hout⟩ := hm
  obtain rfl : m.treeDepth = k := hk'.eq hk
  obtain rfl : m.last = f := Option.some.inj (hb.symm.trans hf)
  rw [if_pos hlast, NodeHeap.clone_malloc g hn, hout]
  rfl

theorem getMountPoint_eq (g : VfsNode) (hs : MountInv s) (hq : ∀ x ∈ q, 0 ∉ x)
    (hk : IsLongest s q k)
    (hf : binding s (q.take k) = some f) {e : Env W} (hn : e.heap.node f = some n) :
    ∃ h', getMountPoint g s e (0 :: chopped q) 0 q.length 1 =
        some ({ e with heap := h' }, e.heap.bound, k, 1 + (chopped (q.take k)).length) ∧
      h'.node = Function.update e.heap.node e.heap.bound (some n) :=
  ⟨_, getMountPoint_clone g hs hq hk hf hn, rfl⟩

/-- What `get_mount_point` does depends only on the files mounted at the prefixes of the path. -/
theorem getMountPoint_congr {s' : Vfs} (hs : MountInv s) (hs' : MountInv s') (hq : ∀ x ∈ q, 0 ∉ x)
    (h : ∀ j ≤ q.length, binding s (q.take j) = binding s' (q.take j)) (g : VfsNode) (e : Env W) :
    getMountPoint g s e (0 :: chopped q) 0 q.length 1 =
      getMountPoint g s' e (0 :: chopped q) 0 q.length 1 := by
  obtain ⟨m, hm, hnull, hget⟩ := getMountPoint_walk (W := W) hs hq
  obtain ⟨m', hm', hnull', hget'⟩ := getMountPoint_walk (W := W) hs' hq
  suffices heq : m = m' by rw [hget, hget', heq]
  rw [Found] at hm hm'
  split_ifs at hm hm' with hlast hlast' hlast'
  · rw [hnull hlast, hnull' hlast']
  · exact absurd ((h _ hm'.1.1).symm.trans (hm _ hm'.1.1)) hm'.1.2.1
  · exact absurd ((h _ hm.1.1).trans (hm' _ hm.1.1)) hm.1.2.1
  · obtain ⟨⟨hk, hb, hmax⟩, hfile, hout⟩ := hm
    obtain ⟨hk', hfile', hout'⟩ := hm'
    have hlong : IsLongest s' q m.treeDepth :=
      ⟨hk, h _ hk ▸ hb, fun j hj hjq => (h j hjq).symm.trans (hmax j hj hjq)⟩
    have hdepth := hlong.eq hk'
    rw [h _ hk, hdepth, hfile'] at hfile
    rw [hdepth, ← hout'] at hout
    cases m
    cases m'
    simp only [MountPoint.mk.injEq] at hdepth hfile hout ⊢
    exact ⟨(Option.some.inj hfile).symm, hdepth, hout⟩

end Beryllium

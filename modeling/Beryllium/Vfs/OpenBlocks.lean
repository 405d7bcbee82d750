import Beryllium.Vfs.MountOpen
import Beryllium.Vfs.PathBlocks

/-!
# The blocks of kopen

`kopen` of `kernel/vfs.c` once more, with the blocks that it allocates and frees: the buffers of
`canonicalize_path`, and the nodes. It does the same as without the blocks, and frees only live ones
(`kopen_blocks`).

But `node_ptr` is allocated before the mount point is known. If this is all of the path, it is not
needed, and otherwise the clone of the mount point is not, and neither is freed
(`kopen_leaks`). Only the root is opened without a leak (`kopen_balanced_iff`).
-/

namespace Beryllium.Alloc

open Machine

variable {W : Type}

/-! ## Live nodes -/

/-- The nodes that are allocated. -/
def nodes (e : Env W) : Set ℕ := { p | ∃ n, e.heap.node p = some n }

/-- The live blocks: buffers and nodes. -/
def live (blocks : Blocks) (e : Env W) : Set (ℕ ⊕ ℕ) := Sum.inl '' ↑blocks.live ∪ Sum.inr '' nodes e

/-- `finddir` allocates one node and returns it, or allocates none and returns `NULL`. To open a
    node allocates and frees nothing. -/
structure Balanced (d : Drivers W) : Prop where
  finddir : ∀ fn e node name, node ∈ nodes e →
    ((d.finddir fn e node name).2 = 0 ∧ nodes (d.finddir fn e node name).1 = nodes e) ∨
    ((d.finddir fn e node name).2 ∉ nodes e ∧
      nodes (d.finddir fn e node name).1 = insert (d.finddir fn e node name).2 (nodes e))
  open' : ∀ fn e node flags, node ∈ nodes e → nodes (d.open' fn e node flags) = nodes e

variable {d : Drivers W} {e e' : Env W} {n : VfsNode} {p : ℕ} {q : List (List UInt8)}

theorem zero_notMem_nodes : 0 ∉ nodes e := by
  rintro ⟨n, hn⟩
  exact NodeHeap.ne_zero hn rfl

theorem bound_notMem_nodes : e.heap.bound ∉ nodes e := by
  rintro ⟨n, hn⟩
  exact (NodeHeap.lt_bound hn).false

theorem nodes_malloc (n : VfsNode) :
    nodes { e with heap := (e.heap.malloc n).1 } = insert e.heap.bound (nodes e) := by
  ext p
  change (∃ m, Function.update e.heap.node e.heap.bound (some n) p = some m) ↔ _
  by_cases hp : p = e.heap.bound
  · subst hp
    rw [Function.update_self]
    exact ⟨fun _ => Set.mem_insert _ _, fun _ => ⟨n, rfl⟩⟩
  · rw [Function.update_of_ne hp, Set.mem_insert_iff, or_iff_right hp]
    rfl

theorem nodes_free : nodes { e with heap := e.heap.free p } = nodes e \ {p} := by
  ext q
  change (∃ m, Function.update e.heap.node p none q = some m) ↔ _
  by_cases hq : q = p
  · subst hq
    rw [Function.update_self]
    refine ⟨?_, fun h => absurd rfl h.2⟩
    rintro ⟨m, hm⟩
    cases hm
  · rw [Function.update_of_ne hq]
    exact ⟨fun h => ⟨h, hq⟩, fun h => h.1⟩

/-- One lookup: no node more, or the node that it has found. -/
theorem finddirVfs_balanced (hd : Balanced d) (hp : p ∈ nodes e) {name : List UInt8} {next : ℕ}
    (h : finddirVfs d e p name = some (e', next)) :
    (next = 0 ∧ nodes e' = nodes e) ∨
      (next ≠ 0 ∧ next ∉ nodes e ∧ nodes e' = insert next (nodes e)) := by
  obtain ⟨n, hn⟩ := hp
  rw [finddirVfs, hn, Option.bind_eq_bind, Option.bind_some] at h
  split_ifs at h
  · obtain ⟨rfl, rfl⟩ := Prod.mk.inj (Option.some.inj h)
    rcases hd.finddir n.finddir e p name ⟨n, hn⟩ with hnull | ⟨hnew, hnodes⟩
    · exact .inl hnull
    · refine .inr ⟨fun hz => ?_, hnew, hnodes⟩
      -- the null pointer is no node
      rw [hz] at hnodes
      exact zero_notMem_nodes (hnodes ▸ Set.mem_insert 0 _)
  · obtain ⟨rfl, rfl⟩ := Prod.mk.inj (Option.some.inj h)
    exact .inl ⟨rfl, rfl⟩

/-- The lookups free the node that they start from, and allocate what they return. -/
theorem finddirs_balanced (hd : Balanced d) (hp : p ∈ nodes e) {p' : ℕ}
    (h : finddirs d e p q = some (e', p')) :
    (p' = 0 ∧ nodes e' = nodes e \ {p}) ∨
      (p' ≠ 0 ∧ p' ∉ nodes e \ {p} ∧ nodes e' = insert p' (nodes e \ {p})) := by
  induction q generalizing e p with
  | nil =>
    obtain ⟨rfl, rfl⟩ := Prod.mk.inj (Option.some.inj h)
    exact .inr ⟨fun h => zero_notMem_nodes (h ▸ hp),
      fun h => h.2 rfl, by rw [Set.insert_sdiff_singleton, Set.insert_eq_of_mem hp]⟩
  | cons x q ih =>
    obtain ⟨⟨e₁, next⟩, hfind, h⟩ := Option.bind_eq_some_iff.1 h
    have hfree : nodes { e₁ with heap := e₁.heap.free p } = nodes e₁ \ {p} := nodes_free
    rcases finddirVfs_balanced hd hp hfind with ⟨rfl, hnodes⟩ | ⟨hz, hnew, hnodes⟩
    · obtain ⟨rfl, rfl⟩ := Prod.mk.inj (Option.some.inj h)
      exact .inl ⟨rfl, by rw [hfree, hnodes]⟩
    · have h : finddirs d { e₁ with heap := e₁.heap.free p } next q = some (e', p') :=
        (if_neg hz).symm.trans h
      have hne : next ≠ p := fun h => hnew (h ▸ hp)
      have hrest : nodes e₁ \ {p} = insert next (nodes e \ {p}) := by
        rw [hnodes, Set.insert_sdiff_of_notMem _ (Set.mem_singleton_iff.not.2 hne)]
      have hdiff : insert next (nodes e \ {p}) \ {next} = nodes e \ {p} := by
        rw [Set.insert_sdiff_self_of_notMem fun h => hnew h.1]
      have hmem : next ∈ nodes { e₁ with heap := e₁.heap.free p } := by
        rw [hfree, hrest]
        exact Set.mem_insert next _
      have := ih hmem h
      rwa [hfree, hrest, hdiff] at this

/-! ## kopen -/

/-- `free` of a node, `none` if it is not live. -/
def freeNode (e : Env W) (p : ℕ) : Option (Env W) :=
  (e.heap.node p).map fun _ => { e with heap := e.heap.free p }

/-- The loop of `kopen`, where `path` is the block of the path. -/
def kopenLoop (d : Drivers W) (block : List UInt8) (pathDepth flags path : ℕ) (blocks : Blocks) :
    ℕ → Env W → ℕ → ℕ → ℕ → Option (Blocks × Env W × ℕ)
  | 0, e, _, _, _ => do
    let blocks ← blocks.free path
    return (blocks, e, 0)
  | n + 1, e, depth, nodePtr, pos => do
    let name ← copyString (block.drop pos)
    let (e, nodeNext) ← finddirVfs d e nodePtr name
    let e ← freeNode e nodePtr
    if nodeNext = 0 then do
      let blocks ← blocks.free path
      return (blocks, e, 0)
    else if depth = pathDepth - 1 then do
      let e ← openVfs d e nodeNext flags
      let blocks ← blocks.free path
      return (blocks, e, nodeNext)
    else do
      let len ← strlen (block.drop pos)
      kopenLoop d block pathDepth flags path blocks n e (depth + 1) nodeNext (pos + len + 1)

/-- `kopen`: the live buffers, the nodes, and the node returned. -/
def kopen (d : Drivers W) (malloc : Malloc) (garbage : VfsNode) (s : Vfs) (blocks : Blocks)
    (e : Env W) (filename : Option (List UInt8)) (flags : ℕ) : Option (Blocks × Env W × ℕ) := do
  let t ← s.tree
  match t.root, filename with
  | some _, some filename => do
    let (blocks, output, path) ← canonicalizePath malloc blocks pathSeparatorString filename
    let pathLen ← strlen path
    if pathLen = 1 then do
      let (h, rootClone) := e.heap.malloc garbage
      let h ← h.memcpy rootClone s.rootNode
      let blocks ← blocks.free output
      return (blocks, { e with heap := h }, rootClone)
    else do
      let pathDepth := (path.take pathLen).count pathSeparator
      let path := chopPath path pathLen
      let (h, nodePtr) := e.heap.malloc garbage
      let (e, mountPoint, depth, pathOffset) ←
        getMountPoint garbage s { e with heap := h } path 0 pathDepth 1
      if pathOffset ≥ pathLen then do
        let blocks ← blocks.free output
        return (blocks, e, mountPoint)
      else do
        let h ← e.heap.memcpy nodePtr mountPoint
        kopenLoop d path pathDepth flags output blocks (pathDepth - depth)
          { e with heap := h } depth nodePtr pathOffset
  | _, _ => return (blocks, e, 0)

/-! ## What is freed -/

variable {blocks : Blocks} {block : List UInt8} {pathDepth flags path : ℕ} {m : Multiset ℕ}

theorem freeNode_eq (hp : p ∈ nodes e) : freeNode e p = some { e with heap := e.heap.free p } := by
  obtain ⟨n, hn⟩ := hp
  rw [freeNode, hn]
  rfl

/-- The loop of `kopen` frees live nodes only, and the block of the path. -/
theorem kopenLoop_blocks (hd : Balanced d) (hlive : blocks.live.val = path ::ₘ m) (hp : p ∈ nodes e)
    {k depth pos : ℕ} {r : Env W × ℕ}
    (hrun : Beryllium.kopenLoop d block pathDepth flags k e depth p pos = some r) :
    ∃ blocks', kopenLoop d block pathDepth flags path blocks k e depth p pos = some (blocks', r) ∧
      blocks'.live.val = m := by
  obtain ⟨b', hfree, hlive'⟩ := Blocks.free_eq hlive
  induction k generalizing e p depth pos with
  | zero =>
    obtain rfl := Option.some.inj hrun
    exact ⟨b', by rw [kopenLoop, hfree]; rfl, hlive'⟩
  | succ k ih =>
    obtain ⟨name, hname, hrun⟩ := Option.bind_eq_some_iff.1 hrun
    obtain ⟨⟨e₁, next⟩, hfind, hrun⟩ := Option.bind_eq_some_iff.1 hrun
    have hfound := finddirVfs_balanced hd hp hfind
    have hp₁ : p ∈ nodes e₁ := by
      rcases hfound with ⟨-, h⟩ | ⟨-, -, h⟩ <;> rw [h]
      · exact hp
      · exact Set.mem_insert_of_mem next hp
    simp only [kopenLoop, hname, hfind, freeNode_eq hp₁, Option.bind_eq_bind, Option.bind_some]
    dsimp only at hrun
    split_ifs at hrun ⊢ with hz hlast
    · obtain rfl := Option.some.inj hrun
      exact ⟨b', by rw [hfree]; rfl, hlive'⟩
    · obtain ⟨e₂, hopen, hrun⟩ := Option.bind_eq_some_iff.1 hrun
      obtain rfl := Option.some.inj hrun
      exact ⟨b', by simp only [hopen, hfree, Option.bind_some]; rfl, hlive'⟩
    · obtain ⟨len, hlen, hrun⟩ := Option.bind_eq_some_iff.1 hrun
      rw [hlen, Option.bind_some]
      refine ih ?_ hrun
      -- what was found is not what is freed
      obtain ⟨-, hnew, hnodes⟩ := hfound.resolve_left fun h => hz h.1
      rw [nodes_free, hnodes]
      exact ⟨Set.mem_insert next _, fun h => hnew (h ▸ hp)⟩

/-- Where `kopen` goes through, it frees live blocks only, and all of its buffers. -/
theorem kopen_blocks (blocks : Blocks) (malloc : Malloc) (g : VfsNode) (hd : Balanced d) {s : Vfs}
    {filename : Option (List UInt8)} {r : Env W × ℕ}
    (hrun : Beryllium.kopen d malloc g s e filename flags = some r) :
    ∃ blocks', kopen d malloc g s blocks e filename flags = some (blocks', r) ∧
      blocks'.live = blocks.live := by
  obtain ⟨t, ht, hrun⟩ := Option.bind_eq_some_iff.1 hrun
  rw [kopen, ht, Option.bind_eq_bind, Option.bind_some]
  cases hroot : t.root with
  | none =>
    rw [hroot] at hrun
    obtain rfl := Option.some.inj hrun
    exact ⟨blocks, rfl, rfl⟩
  | some root =>
    rw [hroot] at hrun
    cases filename with
    | none =>
      obtain rfl := Option.some.inj hrun
      exact ⟨blocks, rfl, rfl⟩
    | some b =>
      obtain ⟨path, hpath, hrun⟩ := Option.bind_eq_some_iff.1 hrun
      obtain ⟨pathLen, hlen, hrun⟩ := Option.bind_eq_some_iff.1 hrun
      obtain ⟨b₁, output, hcanon, hlive⟩ := canonicalizePath_blocks malloc blocks hpath
      obtain ⟨b₂, hfree, hlive'⟩ := Blocks.free_eq hlive
      have hsame : b₂.live = blocks.live := Finset.val_injective hlive'
      simp only [hcanon, hlen, Option.bind_eq_bind, Option.bind_some]
      dsimp only at hrun
      split_ifs at hrun ⊢ with hone
      · obtain ⟨h, hclone, hrun⟩ := Option.bind_eq_some_iff.1 hrun
        obtain rfl := Option.some.inj hrun
        exact ⟨b₂, by rw [hclone, Option.bind_some, hfree]; rfl, hsame⟩
      · obtain ⟨⟨e₁, mountPoint, depth, pathOffset⟩, hget, hrun⟩ := Option.bind_eq_some_iff.1 hrun
        simp only [hget, Option.bind_some]
        dsimp only at hrun
        split_ifs at hrun ⊢ with hend
        · obtain rfl := Option.some.inj hrun
          exact ⟨b₂, by rw [hfree]; rfl, hsame⟩
        · obtain ⟨h, hcopy, hrun⟩ := Option.bind_eq_some_iff.1 hrun
          obtain ⟨-, n, hnode⟩ := NodeHeap.of_memcpy hcopy
          obtain ⟨b₃, hloop, hlive₃⟩ := kopenLoop_blocks (e := { e₁ with heap := h }) hd hlive
            ⟨n, by rw [hnode, Function.update_self]⟩ hrun
          exact ⟨b₃, by rw [hcopy, Option.bind_some, hloop], Finset.val_injective hlive₃⟩

/-! ## What is leaked -/

theorem Balanced.fresh (hd : Balanced d) : d.Fresh := by
  intro fn e node name n hn
  rcases hd.finddir fn e node name ⟨n, hn⟩ with hnull | ⟨hnew, hnodes⟩
  · exact .inl hnull.1
  · have hmem : (d.finddir fn e node name).2 ∈ nodes (d.finddir fn e node name).1 := by
      rw [hnodes]
      exact Set.mem_insert _ _
    exact .inr ⟨Option.eq_none_iff_forall_ne_some.2 fun m hm => hnew ⟨m, hm⟩, hmem⟩

theorem openVfs_balanced (hd : Balanced d) (h : openVfs d e p flags = some e') :
    nodes e' = nodes e := by
  obtain ⟨n, hn, h⟩ := Option.bind_eq_some_iff.1 h
  split_ifs at h
  · obtain rfl := Option.some.inj h
    exact hd.open' n.open' e p flags ⟨n, hn⟩
  · obtain rfl := Option.some.inj h
    rfl

theorem nodes_malloc_malloc (g n : VfsNode) :
    nodes { e with heap := ((e.heap.malloc g).1.malloc n).1 } =
      insert (e.heap.bound + 1) (insert e.heap.bound (nodes e)) := by
  rw [← nodes_malloc (e := e) g]
  exact nodes_malloc (e := { e with heap := (e.heap.malloc g).1 }) n

theorem bound_succ_notMem_nodes : e.heap.bound + 1 ∉ nodes e := by
  rintro ⟨n, hn⟩
  exact absurd (NodeHeap.lt_bound hn) (by omega)

section

variable {s : Vfs} {b str : List UInt8}

/-- A path that is not the root is opened with one node that is neither returned nor freed. -/
theorem kopen_leaks (malloc : Malloc) (g : VfsNode) (hd : Balanced d) (hs : MountInv s)
    (hroot : binding s [] ≠ none)
    (hmounted : ∀ p f, binding s p = some f → f ∈ nodes e) (hb : CStr b str)
    (hq : resolve [] (components str) = q) (hne : q ≠ []) (flags : ℕ) :
    ∃ e' p leaked, Beryllium.kopen d malloc g s e (some b) flags = some (e', p) ∧ leaked ∉ nodes e ∧
      ((p = 0 ∧ nodes e' = insert leaked (nodes e)) ∨
        (p ∉ insert leaked (nodes e) ∧ nodes e' = insert p (insert leaked (nodes e)))) := by
  obtain ⟨k, hk⟩ := exists_isLongest ⟨0, Nat.zero_le q.length, by rwa [List.take_zero]⟩
  obtain ⟨f, hf⟩ := Option.ne_none_iff_exists'.1 hk.2.1
  obtain ⟨n, hn⟩ := hmounted _ f hf
  have hsucc : e.heap.bound + 1 ≠ e.heap.bound := Nat.succ_ne_self _
  rcases hk.1.eq_or_lt with hkq | hkq
  · -- the node allocated first
    rw [hkq, List.take_length] at hf
    refine ⟨_, _, e.heap.bound, kopen_mount_point malloc g hs hb hq hne hf hn flags,
      bound_notMem_nodes, .inr ⟨?_, nodes_malloc_malloc g n⟩⟩
    rw [Set.mem_insert_iff, not_or]
    exact ⟨hsucc, bound_succ_notMem_nodes⟩
  · -- the clone of the mount point
    obtain ⟨e₁, p₁, hfind, hlive⟩ :=
      finddirs_cases (q := q.drop k) hd.fresh (e.clones_node (n := n))
    have hclones : nodes (e.clones n) \ {e.heap.bound} = insert (e.heap.bound + 1) (nodes e) := by
      rw [Env.clones, nodes_malloc_malloc,
        Set.insert_sdiff_of_notMem _ (Set.mem_singleton_iff.not.2 hsucc),
        Set.insert_sdiff_self_of_notMem bound_notMem_nodes]
    have hbound : e.heap.bound ∈ nodes (e.clones n) := ⟨n, Env.clones_node⟩
    have hfound := finddirs_balanced hd hbound hfind
    rw [hclones] at hfound
    have hopen := kopen_lookup (d := d) malloc g hs hb hq hk hf hn hkq flags
    rw [hfind, Option.bind_some, openFound] at hopen
    rcases hfound with ⟨rfl, hnodes⟩ | ⟨hz, hnew, hnodes⟩
    · exact ⟨e₁, 0, _, hopen, bound_succ_notMem_nodes, .inl ⟨rfl, hnodes⟩⟩
    · obtain ⟨e₂, hopened⟩ := openVfs_some flags (hlive hz).choose_spec
      rw [if_neg hz, hopened] at hopen
      exact ⟨e₂, p₁, _, hopen, bound_succ_notMem_nodes,
        .inr ⟨hnew, (openVfs_balanced hd hopened).trans hnodes⟩⟩

/-- `kopen` frees live blocks only, and the node that it returns, if any, is the only new live
    block. -/
def Balances (d : Drivers W) (malloc : Malloc) (g : VfsNode) (s : Vfs) (blocks : Blocks) (e : Env W)
    (filename : Option (List UInt8)) (flags : ℕ) : Prop :=
  ∃ blocks' e' p, kopen d malloc g s blocks e filename flags = some (blocks', e', p) ∧
    (p = 0 → live blocks' e' = live blocks e) ∧
    (p ≠ 0 → .inr p ∉ live blocks e ∧ live blocks' e' = insert (.inr p) (live blocks e))

theorem inr_mem_live : Sum.inr p ∈ live blocks e ↔ p ∈ nodes e := by
  simp [live]

theorem live_insert {blocks' : Blocks} (hb : blocks'.live = blocks.live)
    (hn : nodes e' = insert p (nodes e)) :
    live blocks' e' = insert (Sum.inr p) (live blocks e) := by
  rw [live, live, hb, hn, Set.image_insert_eq, Set.union_insert]

theorem not_balances (blocks : Blocks) (malloc : Malloc) (g : VfsNode) (hd : Balanced d)
    (hs : MountInv s)
    (hroot : binding s [] ≠ none) (hmounted : ∀ p f, binding s p = some f → f ∈ nodes e)
    (hb : CStr b str) (hne : resolve [] (components str) ≠ []) (flags : ℕ) :
    ¬ Balances d malloc g s blocks e (some b) flags := by
  rintro ⟨blocks', e', p, hopen, hnull, hnode⟩
  obtain ⟨e₁, p₁, leaked, hopen₁, hnew, hleak⟩ :=
    kopen_leaks malloc g hd hs hroot hmounted hb rfl hne flags
  obtain ⟨blocks₁, hopen₂, -⟩ := kopen_blocks blocks malloc g hd hopen₁
  obtain ⟨rfl, h⟩ := Prod.mk.inj (Option.some.inj (hopen.symm.trans hopen₂))
  obtain ⟨rfl, rfl⟩ := Prod.mk.inj h
  rcases hleak with ⟨rfl, hnodes⟩ | ⟨hp, hnodes⟩
  · have hmem : Sum.inr leaked ∈ live blocks' e' :=
      inr_mem_live.2 (hnodes ▸ Set.mem_insert leaked _)
    rw [hnull rfl] at hmem
    exact hnew (inr_mem_live.1 hmem)
  · have hself : p ∈ nodes e' := hnodes ▸ Set.mem_insert p _
    have hp₀ : p ≠ 0 := fun h => zero_notMem_nodes (h ▸ hself)
    have hmem : Sum.inr leaked ∈ live blocks' e' :=
      inr_mem_live.2 (hnodes ▸ Set.mem_insert_of_mem p (Set.mem_insert leaked _))
    rw [(hnode hp₀).2] at hmem
    rcases Set.mem_insert_iff.1 hmem with heq | hmem
    · exact hp (Sum.inr.inj heq ▸ Set.mem_insert leaked _)
    · exact hnew (inr_mem_live.1 hmem)

/-- With a file system at the root, the blocks of `kopen` are balanced if and only if it is called
    with `NULL` or opens the root: with any other path, it leaks a node. -/
theorem kopen_balanced_iff (malloc : Malloc) (g : VfsNode) (hd : Balanced d)
    (hs : anyMountSystem.Reachable s) (hroot : binding s [] ≠ none)
    (hmounted : ∀ p f, binding s p = some f → f ∈ nodes e) (blocks : Blocks)
    (filename : Option (List UInt8)) (hfile : ∀ b, filename = some b → ∃ str, CStr b str)
    (flags : ℕ) :
    Balances d malloc g s blocks e filename flags ↔
      ∀ b str, filename = some b → CStr b str → resolve [] (components str) = [] := by
  have hinv := mountInv_of_reachable hs
  cases filename with
  | none =>
    obtain ⟨blocks', hopen, hblocks⟩ := kopen_blocks blocks malloc g hd
      (kopen_none (d := d) (e := e) malloc g hinv flags)
    refine ⟨fun _ b str h => absurd h (Option.some_ne_none b).symm, fun _ => ?_⟩
    exact ⟨blocks', e, 0, hopen, fun _ => by rw [live, live, hblocks], fun h => absurd rfl h⟩
  | some b =>
    obtain ⟨str, hb⟩ := hfile b rfl
    constructor
    · intro h c str' hc hstr'
      obtain rfl := Option.some.inj hc
      by_contra hne
      exact not_balances blocks malloc g hd hinv hroot hmounted hstr' hne flags h
    · intro h
      obtain ⟨f, hf⟩ := Option.ne_none_iff_exists'.1 hroot
      obtain ⟨n, hn⟩ := hmounted [] f hf
      obtain ⟨blocks', hopen, hblocks⟩ := kopen_blocks blocks malloc g hd
        (kopen_root_clone (d := d) malloc g hinv hb (h b str rfl hb) hf hn flags)
      refine ⟨blocks', _, e.heap.bound, hopen, fun h => absurd h e.heap.bound_pos.ne', fun _ => ?_⟩
      exact ⟨inr_mem_live.not.2 bound_notMem_nodes, live_insert hblocks (nodes_malloc n)⟩

end

theorem dirDriver_balanced : Balanced dirDriver where
  finddir _ _ _ _ _ := .inr ⟨bound_notMem_nodes, nodes_malloc dirNode⟩
  open' _ _ _ _ _ := rfl

theorem emptyDriver_balanced : Balanced emptyDriver where
  finddir _ _ _ _ _ := .inl ⟨rfl, rfl⟩
  open' _ _ _ _ _ := rfl

/-- No buffers. -/
def noBlocks : Blocks where
  live := ∅
  next := 0
  lt_next p hp := absurd hp (Finset.notMem_empty p)

/-- The directory is mounted at `/`, and its node is in the heap. -/
theorem exists_mounted_root_nodes : ∃ s, anyMountSystem.Reachable s ∧
    binding s = Function.update (fun _ => none) [] (some 1) ∧ binding s [] ≠ none ∧
    ∀ p f, binding s p = some f → f ∈ nodes ⟨dirHeap, ()⟩ := by
  obtain ⟨s, hs, hbind, hnode⟩ := exists_mounted_root
  refine ⟨s, hs, hbind, ?_, fun p f hb => ⟨dirNode, hnode p f hb⟩⟩
  rw [hbind, Function.update_self]
  exact Option.some_ne_none 1

/-- `/.` is opened without a leak. -/
theorem kopen_balanced_root : ∃ s, anyMountSystem.Reachable s ∧ binding s [] ≠ none ∧
    Balances dirDriver (Malloc.filled 0xCC) dirNode s noBlocks ⟨dirHeap, ()⟩
    (some [47, 46, 0]) 0 := by
  obtain ⟨s, hs, -, hroot, hmounted⟩ := exists_mounted_root_nodes
  have hdot : CStr [47, 46, 0] [47, 46] := CStr.mk (by decide) []
  refine ⟨s, hs, hroot, (kopen_balanced_iff (Malloc.filled 0xCC) dirNode dirDriver_balanced hs hroot
    hmounted noBlocks (some [47, 46, 0]) (fun b hb => ⟨[47, 46], Option.some.inj hb ▸ hdot⟩) 0).2
      ?_⟩
  intro b str hb hstr
  obtain rfl := Option.some.inj hb
  rw [hstr.unique hdot]
  decide

/-- `/a` is not found in the empty directory at `/`, but the clone of the directory is still there.
    -/
theorem kopen_leaks_clone : ∃ s blocks' e', anyMountSystem.Reachable s ∧ binding s [] ≠ none ∧
    Balanced emptyDriver ∧ kopen emptyDriver (Malloc.filled 0xCC) dirNode s noBlocks ⟨dirHeap, ()⟩
      (some [47, 97, 0]) 0 = some (blocks', e', 0) ∧
    live blocks' e' ≠ live noBlocks ⟨dirHeap, ()⟩ ∧
    ¬ Balances emptyDriver (Malloc.filled 0xCC) dirNode s noBlocks ⟨dirHeap, ()⟩
      (some [47, 97, 0]) 0 := by
  obtain ⟨s, hs, hbind, hroot, hmounted⟩ := exists_mounted_root_nodes
  have hinv := mountInv_of_reachable hs
  have ha : CStr [47, 97, 0] [47, 97] := CStr.mk (by decide) []
  obtain ⟨e', hopen⟩ := kopen_below_empty hinv ha hbind (by decide) (by decide)
  obtain ⟨blocks', hopen', -⟩ := kopen_blocks noBlocks (Malloc.filled 0xCC) dirNode
    emptyDriver_balanced hopen
  have hnot := not_balances noBlocks (Malloc.filled 0xCC) dirNode emptyDriver_balanced hinv hroot
    hmounted ha (by decide) 0
  refine ⟨s, blocks', e', hs, hroot, emptyDriver_balanced, hopen', fun h => ?_, hnot⟩
  exact hnot ⟨blocks', e', 0, hopen', fun _ => h, fun h => absurd rfl h⟩

end Beryllium.Alloc

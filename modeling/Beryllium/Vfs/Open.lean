import Beryllium.Vfs.MountPoint

/-!
# Opening files

`kopen` of `kernel/vfs.c`. It finds the mount point of the canonical path, and looks the rest of
the path up from there with `finddir_vfs`, one name after the other (`kopenLoop_eq`).
-/

namespace Beryllium

open Machine

variable {W : Type} (d : Drivers W)

/-- The loop of `kopen` over the names that are left, `n` of them. -/
def kopenLoop (block : List UInt8) (pathDepth flags : ℕ) :
    ℕ → Env W → ℕ → ℕ → ℕ → Option (Env W × ℕ)
  | 0, e, _, _, _ => some (e, 0)
  | n + 1, e, depth, nodePtr, pos => do
    let name ← copyString (block.drop pos)
    let (e, nodeNext) ← finddirVfs d e nodePtr name
    let e := { e with heap := e.heap.free nodePtr }
    if nodeNext = 0 then return (e, 0)
    else if depth = pathDepth - 1 then do
      let e ← openVfs d e nodeNext flags
      return (e, nodeNext)
    else do
      let len ← strlen (block.drop pos)
      kopenLoop block pathDepth flags n e (depth + 1) nodeNext (pos + len + 1)

/-- `kopen` -/
def kopen (malloc : Malloc) (garbage : VfsNode) (s : Vfs) (e : Env W)
    (filename : Option (List UInt8)) (flags : ℕ) : Option (Env W × ℕ) := do
  let t ← s.tree
  match t.root, filename with
  | some _, some filename => do
    let path ← canonicalizePath malloc pathSeparatorString filename
    let pathLen ← strlen path
    if pathLen = 1 then do
      let (h, rootClone) := e.heap.malloc garbage
      let h ← h.memcpy rootClone s.rootNode
      return ({ e with heap := h }, rootClone)
    else do
      let pathDepth := (path.take pathLen).count pathSeparator
      let path := chopPath path pathLen
      let (h, nodePtr) := e.heap.malloc garbage
      let (e, mountPoint, depth, pathOffset) ←
        getMountPoint garbage s { e with heap := h } path 0 pathDepth 1
      if pathOffset ≥ pathLen then return (e, mountPoint)
      else do
        let h ← e.heap.memcpy nodePtr mountPoint
        kopenLoop d path pathDepth flags (pathDepth - depth) { e with heap := h } depth nodePtr
          pathOffset
  | _, _ => return (e, 0)

variable {d} {e : Env W} {q : List (List UInt8)} {n : VfsNode} {p : ℕ}

/-- The nodes when `kopen` starts to look names up: two of them are copies of the node mounted. -/
def Env.clones (e : Env W) (n : VfsNode) : Env W :=
  { e with heap := ((e.heap.malloc n).1.malloc n).1 }

theorem Env.clones_node : (e.clones n).heap.node e.heap.bound = some n := by
  rw [Env.clones]
  exact (Function.update_of_ne (Nat.succ_ne_self _).symm ..).trans (Function.update_self ..)

/-- The end of the loop of `kopen`: the node that the lookups have found is opened. -/
def openFound (d : Drivers W) (flags : ℕ) (r : Env W × ℕ) : Option (Env W × ℕ) :=
  if r.2 = 0 then some (r.1, 0) else (openVfs d r.1 r.2 flags).map fun e => (e, r.2)

/-- The loop of `kopen` does the lookups, and opens the node that the last one finds. -/
theorem kopenLoop_finddirs (flags : ℕ) {block : List UInt8} {pathDepth depth pos : ℕ}
    (hblock : block.drop pos = chopped q) (hq : ∀ x ∈ q, 0 ∉ x)
    (hdepth : depth + q.length = pathDepth) (hne : q ≠ []) :
    kopenLoop d block pathDepth flags q.length e depth p pos =
      (finddirs d e p q).bind (openFound d flags) := by
  induction q generalizing e p depth pos with
  | nil => exact absurd rfl hne
  | cons x q ih =>
    have hblock := hblock.trans (List.append_nil _).symm
    have hstr : CStr (block.drop pos) x := cstr_chopped hblock (hq x List.mem_cons_self)
    rw [List.length_cons] at hdepth
    simp only [finddirs, kopenLoop, List.length_cons, copyString_eq hstr, strlen_eq hstr,
      Option.bind_eq_bind, Option.bind_some, Option.bind_assoc]
    congr 1
    funext r
    obtain ⟨e', next⟩ := r
    by_cases hz : next = 0
    · simp only [if_pos hz]
      rfl
    · simp only [if_neg hz]
      cases q with
      | nil =>
        -- the last name: the node is opened
        have hlast : depth = pathDepth - 1 := by
          rw [← hdepth]
          rfl
        rw [if_pos hlast, finddirs, Option.bind_some, openFound, if_neg hz, Option.map_eq_bind]
        rfl
      | cons y q =>
        have hblock' : block.drop (pos + x.length + 1) = chopped (y :: q) :=
          (drop_chopped hblock).trans (List.append_nil _)
        rw [List.length_cons] at hdepth
        rw [if_neg (by omega)]
        exact ih hblock' (fun y hy => hq y (List.mem_cons_of_mem x hy))
          (by rw [List.length_cons]; omega) (List.cons_ne_nil y q)

/-! ## kopen -/

theorem count_render (h : Canonical q) (hq : q ≠ []) :
    (render q).count pathSeparator = q.length := by
  rw [render, if_neg hq]
  clear hq
  induction q with
  | nil => rfl
  | cons x q ih =>
    have hx : x.count pathSeparator = 0 := List.count_eq_zero.2 (h x List.mem_cons_self).2.1
    rw [List.flatMap_cons, List.count_append, List.count_cons_self, hx, List.length_cons,
      ih fun y hy => h y (List.mem_cons_of_mem x hy)]
    omega

theorem chopPath_render (h : Canonical q) (hq : q ≠ []) :
    chopPath (render q ++ [0]) (render q).length = 0 :: chopped q := by
  rw [chopPath_eq, chop_render h hq]

theorem length_render (h : Canonical q) (hq : q ≠ []) : (render q).length = (chopped q).length := by
  have := congrArg List.length (chop_render h hq)
  rw [List.length_append, List.length_map] at this
  exact Nat.succ_injective this

theorem chopped_split (q : List (List UInt8)) (k : ℕ) :
    chopped q = chopped (q.take k) ++ chopped (q.drop k) := by
  rw [chopped, chopped, chopped, ← List.flatMap_append, List.take_append_drop]

/-- The names up to a depth end before the path does, unless they are all of them. -/
theorem chopped_take_lt (h : Canonical q) {k : ℕ} (hk : k < q.length) :
    1 + (chopped (q.take k)).length < (chopped q).length := by
  obtain ⟨x, r, hr⟩ := List.exists_cons_of_ne_nil (List.drop_eq_nil_iff.not.2 (Nat.not_le.2 hk))
  have hx : x ∈ q := List.mem_of_mem_drop (hr ▸ List.mem_cons_self)
  have hpos := List.length_pos_iff.2 (h x hx).1
  rw [chopped_split q k, hr, chopped_cons, List.length_append, List.length_append, List.length_cons]
  omega

section

variable {s : Vfs} {filename str : List UInt8} {k f : ℕ}

/-- The path that `kopen` breaks up is canonical. -/
theorem kopen_path (malloc : Malloc) (hs : CStr filename str) :
    canonicalizePath malloc pathSeparatorString filename =
      some (render (resolve [] (components str)) ++ [0]) ∧ Canonical
      (resolve [] (components str)) := by
  have hcwd : CStr pathSeparatorString [pathSeparator] := cstr_pathSeparatorString
  have hroot : components [pathSeparator] = [] := by decide
  have hstart : startDir [pathSeparator] str = [] := by
    rw [startDir, hroot, ite_self]
  have hc := canonical_resolve hcwd hs (by rw [hroot]; exact fun x hx => absurd hx List.not_mem_nil)
  rw [hstart] at hc
  exact ⟨hstart ▸ canonicalizePath_eq malloc hcwd hs, hc⟩

theorem MountInv.binding_root (hinv : MountInv s) :
    binding s [] = if s.rootNode = 0 then none else some s.rootNode := by
  obtain ⟨t, path, root, ht, h, hroot, hrootNode⟩ := hinv
  obtain ⟨tree, rootNode⟩ := s
  obtain rfl : tree = some t := ht
  obtain rfl : root.value.file = rootNode := hrootNode
  split_ifs with hr
  · rw [← h.path_root]
    exact h.binding_none hroot hr
  · exact h.binding_eq.2 ⟨hr, 0, root, hroot, h.path_root, rfl⟩

/-- What `kopen` does with the root. -/
theorem kopen_root_eq (malloc : Malloc) (g : VfsNode) (hinv : MountInv s) (hs : CStr filename str)
    (hq : resolve [] (components str) = []) (flags : ℕ) :
    kopen d malloc g s e (some filename) flags =
      ((e.heap.malloc g).1.memcpy e.heap.bound s.rootNode).map fun h =>
        ({ e with heap := h }, e.heap.bound) := by
  obtain ⟨t, path, root, ht, h, -⟩ := hinv
  obtain ⟨hpath, -⟩ := kopen_path malloc hs
  rw [hq] at hpath
  have hlen : strlen (render [] ++ [0]) = some 1 := rfl
  simp only [kopen, ht, h.root, hpath, hlen, Option.bind_eq_bind, Option.bind_some, if_true]
  rw [Option.map_eq_bind]
  rfl

/-- `kopen` returns `NULL` without a path. -/
theorem kopen_none (malloc : Malloc) (g : VfsNode) (hinv : MountInv s) (flags : ℕ) :
    kopen d malloc g s e none flags = some (e, 0) := by
  obtain ⟨t, path, root, ht, h, -⟩ := hinv
  simp only [kopen, ht, h.root, Option.bind_eq_bind, Option.bind_some]
  rfl

/-- The root is opened. -/
theorem kopen_root_clone (malloc : Malloc) (g : VfsNode) (hinv : MountInv s)
    (hs : CStr filename str)
    (hq : resolve [] (components str) = []) (hf : binding s [] = some f)
    (hn : e.heap.node f = some n) (flags : ℕ) :
    kopen d malloc g s e (some filename) flags =
      some ({ e with heap := (e.heap.malloc n).1 }, e.heap.bound) := by
  have hroot : s.rootNode = f := by
    rw [hinv.binding_root] at hf
    split_ifs at hf
    exact Option.some.inj hf
  rw [kopen_root_eq malloc g hinv hs hq, hroot, NodeHeap.clone_malloc g hn]
  rfl

theorem kopen_root (malloc : Malloc) (g : VfsNode) (hinv : MountInv s) (hs : CStr filename str)
    (hq : resolve [] (components str) = []) (hf : binding s [] = some f)
    (hn : e.heap.node f = some n) (flags : ℕ) :
    ∃ h', kopen d malloc g s e (some filename) flags = some ({ e with heap := h' }, e.heap.bound) ∧
      h'.node = Function.update e.heap.node e.heap.bound (some n) :=
  ⟨_, kopen_root_clone malloc g hinv hs hq hf hn flags, rfl⟩

/-- What `kopen` does with a path that is not the root. -/
theorem kopen_eq (malloc : Malloc) (g : VfsNode) (hinv : MountInv s) (hs : CStr filename str)
    {q : List (List UInt8)} (hq : resolve [] (components str) = q) (hne : q ≠ []) (flags : ℕ) :
    kopen d malloc g s e (some filename) flags =
      (getMountPoint g s { e with heap := (e.heap.malloc g).1 } (0 :: chopped q) 0 q.length 1).bind
      fun r => if r.2.2.2 ≥ (chopped q).length then some (r.1, r.2.1)
        else (r.1.heap.memcpy e.heap.bound r.2.1).bind fun h =>
          kopenLoop d (0 :: chopped q) q.length flags (q.length - r.2.2.1) { r.1 with heap := h }
            r.2.2.1 e.heap.bound r.2.2.2 := by
  obtain ⟨t, path, root, ht, h, -⟩ := hinv
  obtain ⟨hpath, hc⟩ := kopen_path malloc hs
  rw [hq] at hpath hc
  have hlen := strlen_eq (cstr_render hc)
  have hone : (render q).length ≠ 1 := by
    have := chopped_take_lt hc (List.length_pos_iff.2 hne)
    rw [length_render hc hne]
    omega
  have htake : (render q ++ [0]).take (render q).length = render q := List.take_left
  simp only [kopen, ht, h.root, hpath, hlen, hone, Option.bind_eq_bind, Option.bind_some, if_false,
    htake, count_render hc hne, chopPath_render hc hne]
  rw [length_render hc hne]
  rfl

/-- A path other than the root that a node is mounted at is opened with the clone that
    `get_mount_point` returns. The node allocated before it is not used. -/
theorem kopen_mount_point (malloc : Malloc) (g : VfsNode) (hinv : MountInv s)
    (hs : CStr filename str)
    {q : List (List UInt8)} (hq : resolve [] (components str) = q) (hne : q ≠ [])
    (hf : binding s q = some f) (hn : e.heap.node f = some n) (flags : ℕ) :
    kopen d malloc g s e (some filename) flags =
      some ({ e with heap := ((e.heap.malloc g).1.malloc n).1 }, e.heap.bound + 1) := by
  let e₀ : Env W := { e with heap := (e.heap.malloc g).1 }
  have hfirst : e₀.heap.node f = some n :=
    (Function.update_of_ne (NodeHeap.lt_bound hn).ne ..).trans hn
  have hc : Canonical q := hq ▸ (kopen_path malloc hs).2
  have hk : IsLongest s q q.length :=
    ⟨le_rfl, by rw [List.take_length, hf]; exact Option.some_ne_none f,
      fun j hj hjq => absurd hjq (Nat.not_le.2 hj)⟩
  have hget := getMountPoint_clone (e := e₀) g hinv (fun x hx => (hc x hx).2.2.1) hk
    (by rw [List.take_length, hf]) hfirst
  rw [kopen_eq malloc g hinv hs hq hne, hget, Option.bind_some, List.take_length,
    if_pos (Nat.le_add_left _ _)]
  rfl

/-- A path that a node is mounted at is opened with a copy of the node. -/
theorem kopen_mounted (malloc : Malloc) (g : VfsNode) (hinv : MountInv s) (hs : CStr filename str)
    {q : List (List UInt8)} (hq : resolve [] (components str) = q) (hf : binding s q = some f)
    (hn : e.heap.node f = some n) (flags : ℕ) :
    ∃ h' p, kopen d malloc g s e (some filename) flags = some ({ e with heap := h' }, p) ∧
      e.heap.node p = none ∧ h'.node p = some n := by
  by_cases hne : q = []
  · subst hne
    obtain ⟨h', hopen, hnode⟩ := kopen_root malloc g hinv hs hq hf hn flags
    exact ⟨h', _, hopen, e.heap.fresh _ le_rfl, by rw [hnode, Function.update_self]⟩
  · exact ⟨_, _, kopen_mount_point malloc g hinv hs hq hne hf hn flags,
      e.heap.fresh _ (Nat.le_succ _), Function.update_self ..⟩

/-- The names below the longest mounted prefix of a path are looked up from a copy of the node
    mounted there. There is a second copy, which `get_mount_point` has returned. -/
theorem kopen_lookup (malloc : Malloc) (g : VfsNode) (hinv : MountInv s) (hs : CStr filename str)
    {q : List (List UInt8)} (hq : resolve [] (components str) = q) (hk : IsLongest s q k)
    (hf : binding s (q.take k) = some f) (hn : e.heap.node f = some n) (hkq : k < q.length)
    (flags : ℕ) :
    kopen d malloc g s e (some filename) flags =
      (finddirs d (e.clones n) e.heap.bound (q.drop k)).bind (openFound d flags) := by
  have hc : Canonical q := hq ▸ (kopen_path malloc hs).2
  have hmem : ∀ x ∈ q, 0 ∉ x := fun x hx => (hc x hx).2.2.1
  have hne : q ≠ [] := List.length_pos_iff.1 (Nat.zero_lt_of_lt hkq)
  let e₀ : Env W := { e with heap := (e.heap.malloc g).1 }
  have hfirst : e₀.heap.node f = some n :=
    (Function.update_of_ne (NodeHeap.lt_bound hn).ne ..).trans hn
  have hget := getMountPoint_clone (e := e₀) g hinv hmem hk hf hfirst
  have hcopy : (e₀.heap.malloc n).1.memcpy e.heap.bound e₀.heap.bound =
      some ((e.heap.malloc n).1.malloc n).1 := NodeHeap.memcpy_clone g n
  have hblock : (0 :: chopped q).drop (1 + (chopped (q.take k)).length) = chopped (q.drop k) := by
    rw [Nat.add_comm, List.drop_succ_cons, chopped_split q k, List.drop_left]
  have hlen : (q.drop k).length = q.length - k := List.length_drop
  rw [kopen_eq malloc g hinv hs hq hne, hget, Option.bind_some,
    if_neg (Nat.not_le.2 (chopped_take_lt hc hkq))]
  simp only [hcopy, Option.bind_some]
  rw [← hlen]
  exact kopenLoop_finddirs flags hblock (fun x hx => hmem x (List.mem_of_mem_drop hx))
    (by omega) (List.drop_eq_nil_iff.not.2 (Nat.not_le.2 hkq))

/-- The node that the lookups find is opened. -/
theorem kopen_below (malloc : Malloc) (g : VfsNode) (hd : d.Fresh) (hinv : MountInv s)
    (hs : CStr filename str) {q : List (List UInt8)} (hq : resolve [] (components str) = q)
    (hk : IsLongest s q k) (hf : binding s (q.take k) = some f) (hn : e.heap.node f = some n)
    (hkq : k < q.length) (flags : ℕ) :
    ∃ h' p e₁ p₁, e.heap.node p = none ∧ h'.node p = some n ∧
      finddirs d { e with heap := h' } p (q.drop k) = some (e₁, p₁) ∧
      if p₁ = 0 then kopen d malloc g s e (some filename) flags = some (e₁, 0)
      else ∃ e₂, openVfs d e₁ p₁ flags = some e₂ ∧
        kopen d malloc g s e (some filename) flags = some (e₂, p₁) := by
  have hp : (e.clones n).heap.node e.heap.bound = some n := Env.clones_node
  obtain ⟨e₁, p₁, hfind, hlive⟩ := finddirs_cases hd hp
  refine ⟨(e.clones n).heap, e.heap.bound, e₁, p₁, e.heap.fresh _ le_rfl, hp, hfind, ?_⟩
  rw [kopen_lookup malloc g hinv hs hq hk hf hn hkq, hfind, Option.bind_some, openFound]
  dsimp only
  split_ifs with hz
  · rfl
  · obtain ⟨m, hm⟩ := hlive hz
    obtain ⟨e₂, hopen⟩ := openVfs_some flags hm
    exact ⟨e₂, hopen, by rw [hopen]; rfl⟩

/-- `kopen` returns a copy of the node at the longest mounted prefix of the path if that is all of
    the path, and otherwise what the lookups of the rest find from the copy on, opened. It
    returns `NULL` exactly when one of the lookups does. -/
theorem kopen_longest_prefix (malloc : Malloc) (g : VfsNode) (hd : d.Fresh)
    (h : mountSystem.Reachable s) (hs : CStr filename str) {q : List (List UInt8)}
    (hq : q = resolve [] (components str)) (hmount : ∃ k ≤ q.length, binding s (q.take k) ≠ none)
    (hlive : ∀ p f, binding s p = some f → ∃ n, e.heap.node f = some n) (flags : ℕ) :
    ∃ k f n, IsLongest s q k ∧ binding s (q.take k) = some f ∧ e.heap.node f = some n ∧
      (∀ e₁ : Env W, e₁.heap.node f = some n → ∃ h' p,
        getMountPoint g s e₁ (0 :: chopped q) 0 q.length 1 =
          some ({ e₁ with heap := h' }, p, k, 1 + (chopped (q.take k)).length) ∧
        e₁.heap.node p = none ∧ h'.node = Function.update e₁.heap.node p (some n)) ∧
      (k = q.length → ∃ h' p, kopen d malloc g s e (some filename) flags =
          some ({ e with heap := h' }, p) ∧ e.heap.node p = none ∧ h'.node p = some n) ∧
      (k < q.length → ∃ h' p e₁ p₁, e.heap.node p = none ∧ h'.node p = some n ∧
        finddirs d { e with heap := h' } p (q.drop k) = some (e₁, p₁) ∧
        (p₁ = 0 ↔ ∃ q₁ x q₂ e₂ p₂ e₃, q.drop k = q₁ ++ x :: q₂ ∧
          finddirs d { e with heap := h' } p q₁ = some (e₂, p₂) ∧ p₂ ≠ 0 ∧
          finddirVfs d e₂ p₂ (x ++ [0]) = some (e₃, 0)) ∧
        if p₁ = 0 then kopen d malloc g s e (some filename) flags = some (e₁, 0)
        else ∃ e₂, openVfs d e₁ p₁ flags = some e₂ ∧
          kopen d malloc g s e (some filename) flags = some (e₂, p₁)) := by
  have hinv : MountInv s := h.of_step (fun s hs => hs ▸ mountInv_init) mountInv_step
  have hc : Canonical q := hq ▸ (kopen_path malloc hs).2
  obtain ⟨k, hk⟩ := exists_isLongest hmount
  obtain ⟨f, hf⟩ := Option.ne_none_iff_exists'.1 hk.2.1
  obtain ⟨n, hn⟩ := hlive _ f hf
  refine ⟨k, f, n, hk, hf, hn, ?_, ?_, ?_⟩
  · intro e₁ hn₁
    obtain ⟨h', hget, hnode⟩ := getMountPoint_eq g hinv (fun x hx => (hc x hx).2.2.1) hk hf hn₁
    exact ⟨h', _, hget, e₁.heap.fresh _ le_rfl, hnode⟩
  · intro hkq
    rw [hkq, List.take_length] at hf
    exact kopen_mounted malloc g hinv hs hq.symm hf hn flags
  · -- the lookups start at the copy of the node
    intro hkq
    obtain ⟨h', p, e₁, p₁, hnew, hp, hfind, hopen⟩ :=
      kopen_below malloc g hd hinv hs hq.symm hk hf hn hkq flags
    have hnull := finddirs_null (d := d) (e := { e with heap := h' }) (q := q.drop k)
      (NodeHeap.ne_zero hp)
    rw [hfind, Option.map_some, Option.some.injEq] at hnull
    exact ⟨h', p, e₁, p₁, hnew, hp, hfind, hnull, hopen⟩

end

/-- A directory node. -/
def dirNode : VfsNode where
  name := [0]
  type := vfsDirectory
  flags := 0
  permissions := 0
  uid := 0
  gid := 0
  inode := 0
  length := 0
  device := 0
  deviceType := 0
  read := 0
  write := 0
  open' := 0
  close := 0
  ioctl := 0
  readdir := 0
  finddir := 1
  create := 0
  ptr := 0

/-- A driver whose directories have a directory of every name. -/
def dirDriver : Drivers Unit where
  finddir _ e _ _ := ({ e with heap := (e.heap.malloc dirNode).1 }, e.heap.bound)
  open' _ e _ _ := e

/-- Two directory nodes. -/
def dirHeap : NodeHeap where
  node p := if p = 1 ∨ p = 2 then some dirNode else none
  bound := 3
  bound_pos := Nat.succ_pos 2
  null := rfl
  fresh p hp := if_neg (by omega)

theorem dirDriver_fresh : dirDriver.Fresh := fun _ e _ _ _ _ =>
  .inr ⟨e.heap.fresh _ le_rfl, dirNode, Function.update_self ..⟩

theorem exists_mount {s : Vfs} {b str : List UInt8} {f : ℕ} (h : mountSystem.Reachable s)
    (hb : CStr b str) (hc : Canonical q) (ha : AbsolutePath str q) (hf : f ≠ 0)
    (hq : binding s q = none) : ∃ s', mountSystem.Reachable s' ∧
      binding s' = Function.update (binding s) q (some f) := by
  have hinv : MountInv s := h.of_step (fun s hs => hs ▸ mountInv_init) mountInv_step
  obtain ⟨s', hs', -, hbind⟩ := (vfsMount_absolute hinv hb hc ha hf).1 hq
  have hg : mountSystem.guard s ⟨some b, f⟩ := ⟨⟨str, hb, .inr ⟨q, hc, ha⟩⟩, hf⟩
  exact ⟨s', h.step hg (congrArg (Option.map Prod.fst) hs'), hbind⟩

/-- A mount tree with files at `/` and `/a`. -/
theorem exists_mounted : ∃ s, mountSystem.Reachable s ∧
    binding s = Function.update (Function.update (fun _ => none) [] (some 1)) [[97]] (some 2) := by
  have hroot : Canonical [] := by unfold Canonical; decide
  have ha : Canonical [[97]] := by unfold Canonical; decide
  have hinit : mountSystem.Reachable vfsInit := ⟨vfsInit, [], rfl, .nil _⟩
  obtain ⟨s, hs, hbind⟩ := exists_mount hinit (cstr_render hroot) hroot (.inl rfl) Nat.one_ne_zero
    (by rw [binding_init])
  obtain ⟨s', hs', hbind'⟩ := exists_mount hs (cstr_render ha) ha (.inl rfl) (Nat.succ_ne_zero 1)
    (by rw [hbind, binding_init]; rfl)
  exact ⟨s', hs', by rw [hbind', hbind, binding_init]⟩

/-- With files mounted at `/` and `/a`, `b` is looked up in the one at `/a` to open `//a/./b`. -/
theorem kopen_longest_prefix_dir : ∃ s p e, mountSystem.Reachable s ∧
    binding s [[97]] = some 2 ∧ kopen dirDriver (Malloc.filled 0xCC) dirNode s ⟨dirHeap, ()⟩
      (some [47, 47, 97, 47, 46, 47, 98, 0]) 0 = some (e, p) ∧ p ≠ 0 := by
  obtain ⟨s, hs, hbind⟩ := exists_mounted
  have hlive : ∀ p f, binding s p = some f → ∃ n, dirHeap.node f = some n := by
    intro p f hb
    rw [hbind, Function.update_apply, Function.update_apply] at hb
    refine ⟨dirNode, if_pos ?_⟩
    split_ifs at hb
    · exact .inr (Option.some.inj hb).symm
    · exact .inl (Option.some.inj hb).symm
  have hstr : CStr [47, 47, 97, 47, 46, 47, 98, 0] [47, 47, 97, 47, 46, 47, 98] :=
    CStr.mk (by decide) []
  have hq : [[97], [98]] = resolve [] (components [47, 47, 97, 47, 46, 47, 98]) := by decide
  have hroot : binding s [] ≠ none := by
    rw [hbind]
    decide
  obtain ⟨k, f, n, ⟨hle, hb, hmax⟩, -, hn, -, -, hbelow⟩ :=
    kopen_longest_prefix (e := ⟨dirHeap, ()⟩)
    (Malloc.filled 0xCC) dirNode dirDriver_fresh hs hstr hq ⟨0, Nat.zero_le _, hroot⟩ hlive 0
  -- nothing is mounted at `/a/b`
  have hk : k < 2 := by
    refine lt_of_le_of_ne hle fun h => hb ?_
    rw [h, hbind]
    decide
  have hk₁ : 1 ≤ k := by
    by_contra hk₁
    have := hmax 1 (by omega) (by decide)
    rw [hbind] at this
    exact absurd this (by decide)
  obtain rfl : k = 1 := by omega
  obtain ⟨h', p, e₁, p₁, -, hp, hfind, -, hres⟩ := hbelow hk
  obtain rfl : dirNode = n := by
    change (if f = 1 ∨ f = 2 then some dirNode else none) = some n at hn
    split_ifs at hn
    exact Option.some.inj hn
  have hp₁ : p₁ = h'.bound := by
    change finddirs dirDriver ⟨h', ()⟩ p [[98]] = some (e₁, p₁) at hfind
    have hlook : finddirVfs dirDriver ⟨h', ()⟩ p ([98] ++ [0]) =
        some (⟨(h'.malloc dirNode).1, ()⟩, h'.bound) := by
      rw [finddirVfs, hp]
      rfl
    simp only [finddirs, hlook, Option.bind_eq_bind, Option.bind_some,
      if_neg h'.bound_pos.ne'] at hfind
    exact (Prod.mk.inj (Option.some.inj hfind)).2.symm
  have hne : p₁ ≠ 0 := hp₁ ▸ h'.bound_pos.ne'
  rw [if_neg hne] at hres
  obtain ⟨e₂, -, hopen⟩ := hres
  exact ⟨s, p₁, e₂, hs, by rw [hbind]; rfl, hopen, hne⟩

end Beryllium

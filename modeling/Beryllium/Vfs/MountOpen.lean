import Beryllium.Vfs.Open

/-!
# Mounting and opening

`kopen` makes its path canonical before it splits it, `vfs_mount` does not: it mounts at the names
between the separators (`mountNames`), be they empty or dots. What `kopen` returns depends
on the files mounted at the prefixes of the canonical path only (`kopen_congr`), so a node can be
opened by the path it was mounted at exactly if both split the path into the same names
(`kopen_finds_mounted`).
-/

namespace Beryllium

open Machine

variable {str b : List UInt8} {q : List (List UInt8)}

/-! ## Two ways to split a path -/

theorem components_absolute {parts : List (List UInt8)}
    (h : str.splitOn pathSeparator = [] :: parts) : components str = parts.filter (· ≠ []) := by
  rw [components, h]
  rfl

theorem AbsolutePath.resolve_eq (h : AbsolutePath str q) (hc : Canonical q) :
    resolve [] (components str) = q := by
  have hfilter : q.filter (· ≠ []) = q :=
    List.filter_eq_self.2 fun x hx => decide_eq_true (hc x hx).1
  have hcomp : components str = q := by
    by_cases hq : q = []
    · subst hq
      rcases h with rfl | rfl <;> decide
    · rcases h.splitOn hc hq with h | h
      · rw [components_absolute h, hfilter]
      · rw [List.cons_append] at h
        rw [components_absolute h, List.filter_append, hfilter]
        exact List.append_nil q
  rw [hcomp, resolve_canonical hc, List.nil_append]

/-- `vfs_mount` and `kopen` take the same names from an absolute path if it is written as a
    canonical one, with a trailing separator or not, or if it starts with two separators and is the
    root. -/
theorem mountNames_eq_iff (hb : CStr b str) (hstr : str.head? = some pathSeparator) :
    mountNames str = resolve [] (components str) ↔
      (∃ q, Canonical q ∧ AbsolutePath str q) ∨
      ([pathSeparator, pathSeparator] <+: str ∧ resolve [] (components str) = []) := by
  obtain ⟨parts, hsplit, hne, hparts⟩ := splitOn_absolute hstr
  constructor
  · intro h
    by_cases hhead : parts.head? = some []
    · rw [mountNames_root hsplit hhead] at h
      obtain ⟨ps, rfl⟩ := List.head?_eq_some_iff.1 hhead
      cases ps with
      | nil => exact .inl ⟨[], fun _ hx => absurd hx List.not_mem_nil, .inl hparts⟩
      | cons x ps => exact .inr ⟨⟨x ++ ps.flatMap (pathSeparator :: ·), hparts.symm⟩, h.symm⟩
    · have hc : Canonical (mountNames str) := h ▸ (kopen_path (Malloc.filled 0) hb).2
      refine .inl ⟨_, hc, ?_⟩
      rw [AbsolutePath, render]
      rcases mountNames_cases hsplit hhead with ⟨hq, -⟩ | hq
      · rw [hq, if_neg hne]
        exact .inl hparts
      · have hq₀ : mountNames str ≠ [] := by
          intro h₀
          rw [hq, h₀] at hhead
          exact hhead rfl
        rw [if_neg hq₀]
        right
        conv_lhs => rw [hparts, hq, List.flatMap_append]
        rfl
  · rintro (⟨q, hc, ha⟩ | ⟨⟨rest, rfl⟩, h⟩)
    · rw [ha.mountNames_eq hc, ha.resolve_eq hc]
    · rw [h]
      refine mountNames_root hsplit ?_
      -- nothing is between the first two separators
      have hsplit' : [pathSeparator, pathSeparator] ++ rest =
          [] ++ pathSeparator :: ([] ++ pathSeparator :: rest) := rfl
      rw [hsplit', List.splitOn_append_cons_self, List.splitOn_append_cons_self] at hsplit
      obtain rfl := (List.cons.inj hsplit).2
      rfl

/-! ## What kopen depends on -/

section

variable {W : Type} {d : Drivers W} {s s' : Vfs} {e : Env W} {filename : List UInt8}

/-- `kopen` does the same in two mount trees with the same files at the prefixes of the path. -/
theorem kopen_congr (malloc : Malloc) (g : VfsNode) (hs : MountInv s) (hs' : MountInv s')
    (hstr : CStr filename str) (hq : resolve [] (components str) = q)
    (h : ∀ j ≤ q.length, binding s (q.take j) = binding s' (q.take j)) (flags : ℕ) :
    kopen d malloc g s e (some filename) flags = kopen d malloc g s' e (some filename) flags := by
  by_cases hne : q = []
  · subst hne
    have hroot := h 0 le_rfl
    rw [List.take_nil, hs.binding_root, hs'.binding_root] at hroot
    have hroot' : s.rootNode = s'.rootNode := by
      split_ifs at hroot with h₁ h₂ h₂
      · rw [h₁, h₂]
      · exact Option.some.inj hroot
    rw [kopen_root_eq malloc g hs hstr hq, kopen_root_eq malloc g hs' hstr hq, hroot']
  · have hc : Canonical q := hq ▸ (kopen_path malloc hstr).2
    rw [kopen_eq malloc g hs hstr hq hne, kopen_eq malloc g hs' hstr hq hne,
      getMountPoint_congr hs hs' (fun x hx => (hc x hx).2.2.1) h]

/-- `kopen` gets stuck if nothing is mounted at a prefix of the path: it copies from the null
    pointer. -/
theorem kopen_unmounted (malloc : Malloc) (g : VfsNode) (hs : MountInv s) (hstr : CStr filename str)
    (hq : resolve [] (components str) = q) (h : ∀ j ≤ q.length, binding s (q.take j) = none)
    (flags : ℕ) : kopen d malloc g s e (some filename) flags = none := by
  by_cases hne : q = []
  · subst hne
    have hroot := h 0 le_rfl
    rw [List.take_nil, hs.binding_root] at hroot
    split_ifs at hroot with hr
    rw [kopen_root_eq malloc g hs hstr hq, hr, NodeHeap.memcpy_null]
    rfl
  · -- the walk finds no file, so the mount point is the null pointer
    have hc : Canonical q := hq ▸ (kopen_path malloc hstr).2
    obtain ⟨m, hm, hlast, hget⟩ := getMountPoint_walk (W := W) hs fun x hx => (hc x hx).2.2.1
    obtain rfl : m = ⟨0, 0, 1⟩ := by
      refine hlast ?_
      rw [Found] at hm
      split_ifs at hm with h₀
      · exact h₀
      · exact absurd (h _ hm.1.1) hm.1.2.1
    rw [kopen_eq malloc g hs hstr hq hne, hget, if_neg (not_not.2 rfl), Option.bind_some,
      if_neg (Nat.not_le.2 ?_), NodeHeap.memcpy_null]
    · rfl
    · have := chopped_take_lt hc (List.length_pos_iff.2 hne)
      rwa [List.take_zero] at this

end

/-! ## Opening what was mounted -/

/-- Calls of `vfs_mount` after `vfs_init`, with any path. -/
def anyMountSystem : System Vfs MountCall where
  init s := s = vfsInit
  guard _ op := ∀ b, op.path = some b → ∃ str, CStr b str
  step s op := (vfsMount s op.path op.localRoot).map Prod.fst

theorem mountInv_of_reachable {s : Vfs} (h : anyMountSystem.Reachable s) : MountInv s := by
  refine h.of_step (fun s hs => hs ▸ mountInv_init) fun s op s' hs hg hstep => ?_
  obtain ⟨⟨s'', ret⟩, hm, rfl⟩ := Option.map_eq_some_iff.1 hstep
  exact hs.mount hg hm

/-- After a node is mounted at the path in `b`, the path is opened with a copy of the node, and a
    path whose canonical form does not go on from that of `b` is opened as before. -/
def OpensMounted (b str : List UInt8) : Prop :=
  ∀ (W : Type) (d : Drivers W) (malloc : Malloc) (g : VfsNode) (flags : ℕ) (s s' : Vfs) (e : Env W)
    (f : ℕ) (n : VfsNode), anyMountSystem.Reachable s → e.heap.node f = some n →
    vfsMount s (some b) f = some (s', 0) →
    (∃ h p, kopen d malloc g s' e (some b) flags = some ({ e with heap := h }, p) ∧
      e.heap.node p = none ∧ h.node p = some n) ∧
    ∀ r str', CStr r str' → ¬ resolve [] (components str) <+: resolve [] (components str') →
      kopen d malloc g s' e (some r) flags = kopen d malloc g s e (some r) flags

theorem opensMounted_of_names (hb : CStr b str) (hstr : str.head? = some pathSeparator)
    (hnames : mountNames str = resolve [] (components str)) : OpensMounted b str := by
  intro W d malloc g flags s s' e f n hreach hn hm
  have hs : MountInv s := mountInv_of_reachable hreach
  obtain ⟨hfree, hbound⟩ := vfsMount_names (f := f) hs hb hstr
  obtain ⟨s'', hm', hs', hbind⟩ := hfree <| by
    by_contra hq
    exact absurd (Prod.mk.inj (Option.some.inj (hm.symm.trans (hbound hq)))).2 (by decide)
  obtain rfl : s' = s'' := (Prod.mk.inj (Option.some.inj (hm.symm.trans hm'))).1
  have hbind := hbind (NodeHeap.ne_zero hn)
  rw [hnames] at hbind
  refine ⟨kopen_mounted malloc g hs' hb rfl (by rw [hbind, Function.update_self]) hn flags, ?_⟩
  intro r str' hr hbelow
  refine kopen_congr malloc g hs' hs hr rfl (fun j _ => ?_) flags
  rw [hbind, Function.update_of_ne]
  rintro hj
  exact hbelow (hj ▸ List.take_prefix j _)

/-- A driver whose directories are empty. -/
def emptyDriver : Drivers Unit where
  finddir _ e _ _ := (e, 0)
  open' _ e _ _ := e

theorem emptyDriver_fresh : emptyDriver.Fresh := fun _ _ _ _ _ _ => .inl rfl

theorem finddirs_empty {e : Env Unit} {p : ℕ} (hp : e.heap.node p = some dirNode) (hq : q ≠ []) :
    (finddirs emptyDriver e p q).map Prod.snd = some 0 := by
  obtain ⟨x, q, rfl⟩ := List.exists_cons_of_ne_nil hq
  rw [finddirs, finddirVfs, hp]
  rfl

section

variable {s : Vfs}

/-- `kopen` looks the names below an empty directory up in it, and finds nothing. -/
theorem kopen_below_empty (hs : MountInv s) (hb : CStr b str)
    (hbind : binding s = Function.update (fun _ => none) q (some 1))
    (hbelow : q <+: resolve [] (components str)) (hne : q ≠ resolve [] (components str)) :
    ∃ e, kopen emptyDriver (Malloc.filled 0xCC) dirNode s ⟨dirHeap, ()⟩ (some b) 0 = some
    (e, 0) := by
  obtain ⟨r, hr⟩ := hbelow
  have hr₀ : r ≠ [] := by
    rintro rfl
    exact hne (by rw [← hr, List.append_nil])
  have htake : (resolve [] (components str)).take q.length = q := by rw [← hr, List.take_left]
  have hlt : q.length < (resolve [] (components str)).length := by
    rw [← hr, List.length_append]
    exact Nat.lt_add_of_pos_right (List.length_pos_iff.2 hr₀)
  -- `q` is the only path with a file
  have hself : binding s q = some 1 := by rw [hbind, Function.update_self]
  have hk : IsLongest s (resolve [] (components str)) q.length := by
    refine ⟨hlt.le, by rw [htake, hself]; exact Option.some_ne_none 1, fun j hj hjq => ?_⟩
    rw [hbind, Function.update_of_ne]
    intro heq
    have := congrArg List.length heq
    rw [List.length_take, Nat.min_eq_left hjq] at this
    exact hj.ne' this
  obtain ⟨h', p, e₁, p₁, -, hp, hfind, hres⟩ := kopen_below (e := ⟨dirHeap, ()⟩)
    (Malloc.filled 0xCC) dirNode emptyDriver_fresh hs hb rfl hk (by rw [htake, hself]) rfl hlt 0
  have hnull := finddirs_empty (e := ⟨h', ()⟩) hp
    (List.drop_eq_nil_iff.not.2 (Nat.not_le.2 hlt))
  rw [hfind] at hnull
  obtain rfl : p₁ = 0 := Option.some.inj hnull
  rw [if_pos rfl] at hres
  exact ⟨e₁, hres⟩

theorem vfsMount_first (hb : CStr b str) (hstr : str.head? = some pathSeparator) :
    ∃ s, vfsMount vfsInit (some b) 1 = some (s, 0) ∧ MountInv s ∧
      binding s = Function.update (fun _ => none) (mountNames str) (some 1) := by
  obtain ⟨s, hm, hs, hbind⟩ :=
    (vfsMount_names (f := 1) mountInv_init hb hstr).1 (by rw [binding_init])
  exact ⟨s, hm, hs, binding_init ▸ hbind Nat.one_ne_zero⟩

theorem vfsInit_reachable : anyMountSystem.Reachable vfsInit := ⟨vfsInit, [], rfl, .nil _⟩

/-- A mount tree with a directory at `/` only. -/
theorem exists_mounted_root : ∃ s, anyMountSystem.Reachable s ∧
    binding s = Function.update (fun _ => none) [] (some 1) ∧
    ∀ p f, binding s p = some f → dirHeap.node f = some dirNode := by
  have hroot : CStr [47, 0] [47] := CStr.mk (by decide) []
  obtain ⟨s, hm, -, hbind⟩ := vfsMount_first hroot rfl
  have hg : anyMountSystem.guard vfsInit ⟨some [47, 0], 1⟩ := fun b hb =>
    ⟨[47], Option.some.inj hb ▸ hroot⟩
  refine ⟨s, vfsInit_reachable.step hg (congrArg (Option.map Prod.fst) hm), hbind, ?_⟩
  intro p f hb
  rw [hbind, Function.update_apply] at hb
  split_ifs at hb
  exact if_pos (.inl (Option.some.inj hb).symm)

end

/-- In the empty mount tree, a directory that is mounted at other names than those that `kopen`
    takes from the path is not found by the path. -/
theorem not_opensMounted_of_names (hb : CStr b str) (hstr : str.head? = some pathSeparator)
    (hnames : mountNames str ≠ resolve [] (components str)) : ¬ OpensMounted b str := by
  intro h
  have hreach : anyMountSystem.Reachable vfsInit := vfsInit_reachable
  obtain ⟨s, hm, hs, hbind⟩ := vfsMount_first hb hstr
  obtain ⟨⟨h', p, hopen, -, hp⟩, -⟩ := h Unit emptyDriver (Malloc.filled 0xCC) dirNode 0 vfsInit s
    ⟨dirHeap, ()⟩ 1 dirNode hreach rfl hm
  by_cases hbelow : mountNames str <+: resolve [] (components str)
  · -- the names below the mount point are looked up in the directory
    obtain ⟨e, hnull⟩ := kopen_below_empty hs hb hbind hbelow hnames
    rw [hopen] at hnull
    exact NodeHeap.ne_zero hp (Prod.mk.inj (Option.some.inj hnull)).2
  · -- nothing is mounted at a prefix of the canonical path
    have hstuck := kopen_unmounted (d := emptyDriver) (e := ⟨dirHeap, ()⟩) (Malloc.filled 0xCC)
      dirNode hs hb rfl (fun j _ => ?_) 0
    · rw [hopen] at hstuck
      cases hstuck
    · rw [hbind, Function.update_of_ne]
      exact fun hj => hbelow (hj ▸ List.take_prefix j _)

/-- A node can be opened by the path it was mounted at, and the paths beside it are opened as
    before, if and only if the path is written as a canonical one, with a trailing separator or not,
    or it starts with two separators and is the root. -/
theorem kopen_finds_mounted (hb : CStr b str) (hstr : str.head? = some pathSeparator) :
    OpensMounted b str ↔ (∃ q, Canonical q ∧ AbsolutePath str q) ∨
      ([pathSeparator, pathSeparator] <+: str ∧ resolve [] (components str) = []) := by
  rw [← mountNames_eq_iff hb hstr]
  refine ⟨fun h => ?_, opensMounted_of_names hb hstr⟩
  by_contra hnames
  exact not_opensMounted_of_names hb hstr hnames h

/-- What is mounted at `/a/` is found there. -/
theorem kopen_finds_mounted_slash : OpensMounted [47, 97, 47, 0] [47, 97, 47] :=
  (kopen_finds_mounted (CStr.mk (by decide) []) rfl).2
    (.inl ⟨[[97]], by unfold Canonical; decide, .inr rfl⟩)

/-- After `vfs_init`, an empty directory is mounted at `//a`. It is mounted at the root, so `a` is
    looked up in it to open `//a`, and nothing is found. -/
theorem kopen_misses_mounted : ¬ OpensMounted [47, 47, 97, 0] [47, 47, 97] ∧
    ∃ s e, vfsMount vfsInit (some [47, 47, 97, 0]) 1 = some (s, 0) ∧ binding s [] = some 1 ∧
      kopen emptyDriver (Malloc.filled 0xCC) dirNode s ⟨dirHeap, ()⟩ (some [47, 47, 97, 0]) 0 =
        some (e, 0) := by
  have hb : CStr [47, 47, 97, 0] [47, 47, 97] := CStr.mk (by decide) []
  have hnames : mountNames [47, 47, 97] ≠ resolve [] (components [47, 47, 97]) := by decide
  refine ⟨not_opensMounted_of_names hb rfl hnames, ?_⟩
  obtain ⟨s, hm, hs, hbind⟩ := vfsMount_first hb rfl
  obtain ⟨e, hopen⟩ := kopen_below_empty hs hb hbind (by decide) hnames
  exact ⟨s, e, hm, by rw [hbind]; rfl, hopen⟩

end Beryllium

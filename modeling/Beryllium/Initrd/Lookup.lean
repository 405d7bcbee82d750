import Beryllium.Initrd.RoundTrip

/-!
# Looking up files in the ramdisk

The files of a valid image through `finddir_vfs` and `readdir_vfs` at the mountpoint
(`Listed`). Both look for `VFS_DIRECTORY` in the field `type` of a node, but `initrd_init` sets it
in the field `flags` of the mountpoint, and leaves the `type` 0: no file is ever found
(`listed_iff`).

The callbacks themselves find the files (`finddirLoop_cases`, `initrdReaddir_eq`): with the bit
in the `type` of the mountpoint all files would be listed (`listed_of_directory`).
-/

namespace Beryllium

open Machine

/-- What the functions of the ramdisk do as callbacks. After `initrd_init` of a valid image
    `initrd_finddir` never gets stuck. -/
def initrdDrivers : Drivers Initrd where
  finddir fn e _ name := if fn = initrdFinddirFn then (e, (initrdFinddir e name).getD 0) else (e, 0)
  open' _ e _ _ := e

/-- The callback `readdir`, where new entries hold `garbage`. -/
def initrdReaddirs (garbage : { d : Dirent // d.name.length = 128 }) (fn : ℕ) (e : Env Initrd)
    (_node index : ℕ) : Option (Env Initrd × Option Dirent) :=
  if fn = initrdReaddirFn then (initrdReaddir garbage e index).map fun r => (e, r)
  else some (e, none)

/-- The first of the `n` files called `s` is the file `j`. -/
structure FirstNamed (image : List UInt8) (n : ℕ) (s : List UInt8) (j : ℕ) : Prop where
  lt : j < n
  name : FileName image j s
  first : ∀ i < j, ¬FileName image i s

/-- The `n` files of the image are found by name and by index at `initrd_mountpoint`, and no
    others are. -/
structure Listed (d : Drivers Initrd)
    (readdir : ℕ → Env Initrd → ℕ → ℕ → Option (Env Initrd × Option Dirent)) (e : Env Initrd)
    (image : List UInt8) (n : ℕ) : Prop where
  files : ∀ i < n, ∀ s, FileName image i s → ∃ e' p nd j,
    finddirVfs d e e.world.initrdMountpoint (s ++ [0]) = some (e', p) ∧ p ≠ 0 ∧
    e'.heap.node p = some nd ∧ FirstNamed image n s j ∧ CStr nd.name s ∧ nd.inode = j ∧
    loadWord image (124 + 64 * j) = some nd.length
  files_null : ∀ s, 0 ∉ s → (∀ i < n, ¬FileName image i s) →
    ∃ e', finddirVfs d e e.world.initrdMountpoint (s ++ [0]) = some (e', 0)
  entries : ∀ i < n, ∀ s, FileName image i s → ∃ e' entry,
    readdirVfs readdir e e.world.initrdMountpoint i = some (e', some entry) ∧
    CStr entry.name s ∧ entry.ino = i
  entries_null : ∀ i, n ≤ i → ∃ e',
    readdirVfs readdir e e.world.initrdMountpoint i = some (e', none)

variable {image s : List UInt8} {start p k n i index : ℕ} {h₀ heap heap' : NodeHeap}
  {e : Env Initrd} {a : InitrdMalloc} {nd : VfsNode} {d : Drivers Initrd}
  {readdir : ℕ → Env Initrd → ℕ → ℕ → Option (Env Initrd × Option Dirent)}
  {garbage : { d : Dirent // d.name.length = 128 }}

/-! ## The callbacks -/

/-- The loop of `initrd_finddir` finds the first file with the name, or none. -/
theorem finddirLoop_cases (hv : ValidImage image n) (h : Populated start p image h₀ n e)
    (hs : 0 ∉ s) {fuel : ℕ} (hk : k ≤ n) (hfuel : n - k < fuel)
    (hbefore : ∀ i < k, ¬FileName image i s) :
    (∃ j, FirstNamed image n s j ∧ finddirLoop e (s ++ [0]) fuel k = some (p + j)) ∨
    ((∀ i < n, ¬FileName image i s) ∧ finddirLoop e (s ++ [0]) fuel k = some 0) := by
  induction fuel generalizing k with
  | zero => exact absurd hfuel (Nat.not_lt_zero _)
  | succ fuel ih =>
    rw [finddirLoop, h.headers hv, Option.bind_eq_bind, Option.bind_some]
    by_cases hlt : k < n
    · obtain ⟨nd, t, hnode, ht, hname, -⟩ := h.node k hlt
      obtain ⟨v, hcmp, hiff⟩ := strcmp_spec (CStr.mk hs []) hname
      rw [if_pos hlt, h.nodes, hnode, Option.bind_eq_bind, Option.bind_some, hcmp]
      simp only [Option.bind_eq_bind, Option.bind_some]
      by_cases hvz : v = 0
      · rw [if_pos hvz]
        exact .inl ⟨k, ⟨hlt, hiff.1 hvz ▸ ht, hbefore⟩, rfl⟩
      · rw [if_neg hvz]
        refine ih hlt (by omega) fun i hi => ?_
        rcases Nat.lt_succ_iff_lt_or_eq.1 hi with hi | rfl
        · exact hbefore i hi
        · exact fun hs' => hvz (hiff.2 (CStr.unique hs' ht))
    · rw [if_neg hlt]
      obtain rfl : k = n := by omega
      exact .inr ⟨hbefore, rfl⟩

theorem initrdFinddir_cases (hv : ValidImage image n) (h : Populated start p image h₀ n e)
    (hs : 0 ∉ s) :
    (∃ j, FirstNamed image n s j ∧ initrdFinddir e (s ++ [0]) = some (p + j)) ∨
    ((∀ i < n, ¬FileName image i s) ∧ initrdFinddir e (s ++ [0]) = some 0) := by
  have hlt := hv.lt
  exact finddirLoop_cases hv h hs (Nat.zero_le n) (by omega) fun i hi =>
    absurd hi (Nat.not_lt_zero i)

/-- `initrd_readdir` returns an entry for each file. -/
theorem initrdReaddir_eq (garbage : { d : Dirent // d.name.length = 128 }) (hv : ValidImage image n)
    (h : Populated start p image h₀ n e) (hi : i < n) (hs : FileName image i s) : ∃ entry,
      initrdReaddir garbage e i = some (some entry) ∧ CStr entry.name s ∧ entry.ino = i := by
  obtain ⟨nd, t, hnode, ht, hname, -, hino⟩ := h.node i hi
  obtain rfl := CStr.unique hs ht
  have hlt := hs.length_lt
  have hcopy := strcpy_eq hname (show s.length + 1 ≤ garbage.1.name.length by
    rw [garbage.2]
    omega)
  have hset : (s ++ 0 :: garbage.1.name.drop (s.length + 1)).set s.length 0 =
      s ++ 0 :: garbage.1.name.drop (s.length + 1) := by
    rw [List.set_append_right _ _ le_rfl, Nat.sub_self, List.set_cons_zero]
  rw [initrdReaddir, h.headers hv, Option.bind_eq_bind, Option.bind_some, if_neg (by omega)]
  simp only [h.nodes, hnode, hcopy, strlen_eq hname, Option.bind_eq_bind, Option.bind_some,
    Option.pure_def, hset]
  exact ⟨_, rfl, CStr.mk hs.1 _, hino⟩

theorem initrdReaddir_null (hv : ValidImage image n) (h : Populated start p image h₀ n e)
    (hi : n ≤ index) : initrdReaddir garbage e index = some none := by
  rw [initrdReaddir, h.headers hv, Option.bind_eq_bind, Option.bind_some, if_pos hi]
  rfl

/-! ## The mountpoint -/

/-- The state after `initrd_init` of a valid image. -/
theorem ValidImage.of_run (hv : ValidImage image n)
    (he : Beryllium.initrdInit a ⟨heap, initrdAt start image⟩ = some e) : ∃ h₀ p,
      e.world.initrdMountpoint = heap.bound ∧ e.heap.node heap.bound = some ramdiskNode ∧
      (∀ i < n, p + i ≠ heap.bound) ∧ (0 < n → 0 < p) ∧ Populated start p image h₀ n e := by
  have hfits : 328 * n < 4294967296 ∧ (a.hasRoom = true ∨ n = 0) := by
    by_contra hno
    rw [hv.initrdInit_none hno] at he
    cases he
  obtain ⟨h₀, p, e', he', hnode, hlt, hmount, hpop⟩ :=
    hv.initrdInit a heap start hfits.1 hfits.2
  rw [he, Option.some.injEq] at he'
  subst he'
  have hne : ∀ i < n, p + i ≠ heap.bound := fun i hi => by
    have := hlt (Nat.zero_lt_of_lt hi)
    omega
  exact ⟨h₀, p, hmount, (hpop.other _ fun i hi => (hne i hi).symm).trans hnode, hne,
    fun hpos => lt_of_le_of_lt (Nat.zero_le _) (hlt hpos), hpop⟩

/-- `finddir_vfs` finds nothing in a node without a type. -/
theorem finddirVfs_of_type (hnode : e.heap.node i = some nd) (ht : nd.type = 0)
    (name : List UInt8) : finddirVfs d e i name = some (e, 0) := by
  rw [finddirVfs, hnode, Option.bind_eq_bind, Option.bind_some, if_neg]
  · rfl
  · rw [ht, Nat.zero_and]
    exact fun h => h.1 rfl

theorem readdirVfs_of_type (hnode : e.heap.node i = some nd) (ht : nd.type = 0) (index : ℕ) :
    readdirVfs readdir e i index = some (e, none) := by
  rw [readdirVfs, hnode, Option.bind_eq_bind, Option.bind_some, if_neg]
  · rfl
  · rw [ht, Nat.zero_and]
    exact fun h => h.1 rfl

/-- No file is found at the mountpoint, whatever the callbacks do. -/
theorem not_listed (hv : ValidImage image n)
    (he : initrdInit a ⟨heap, initrdAt start image⟩ = some e) (hn : 0 < n) :
    ¬Listed d readdir e image n := by
  obtain ⟨h₀, p, hmount, hnode, -⟩ := hv.of_run he
  intro h
  obtain ⟨s, hs⟩ := hv.names 0 hn
  obtain ⟨e', q, nd, j, hfind, hq, -⟩ := h.files 0 hn s hs
  rw [hmount, finddirVfs_of_type hnode rfl] at hfind
  cases hfind
  exact hq rfl

/-- After `initrd_init` of a valid image the files are listed at the mountpoint exactly if
    there are none. -/
theorem listed_iff (hv : ValidImage image n)
    (he : initrdInit a ⟨heap, initrdAt start image⟩ = some e) :
    Listed initrdDrivers (initrdReaddirs garbage) e image n ↔ n = 0 := by
  constructor
  · intro h
    by_contra hn
    exact not_listed hv he (Nat.pos_of_ne_zero hn) h
  · rintro rfl
    obtain ⟨h₀, p, hmount, hnode, -⟩ := hv.of_run he
    refine ⟨fun i hi => absurd hi (Nat.not_lt_zero i), fun s _ _ => ⟨e, ?_⟩,
      fun i hi => absurd hi (Nat.not_lt_zero i), fun i _ => ⟨e, ?_⟩⟩
    · rw [hmount]
      exact finddirVfs_of_type hnode rfl _
    · rw [hmount]
      exact readdirVfs_of_type hnode rfl _

/-- Had `initrd_init` set `VFS_DIRECTORY` in the `type` of the mountpoint, all files would be
    listed there. -/
theorem listed_of_directory (hv : ValidImage image n)
    (he : initrdInit a ⟨heap, initrdAt start image⟩ = some e)
    (hassign : e.heap.assign e.world.initrdMountpoint
      (fun nd => some { nd with type := vfsDirectory }) = some heap') :
    Listed initrdDrivers (initrdReaddirs garbage) ⟨heap', e.world⟩ image n := by
  obtain ⟨h₀, p, hmount, hnode, hne, hpos, hpop⟩ := hv.of_run he
  obtain ⟨heap'', hassign', -, hnode'⟩ := NodeHeap.assign_eq hnode
    (f := fun nd => some { nd with type := vfsDirectory }) rfl
  rw [hmount, hassign', Option.some.injEq] at hassign
  subst hassign
  have hdir : heap''.node e.world.initrdMountpoint =
      some { ramdiskNode with type := vfsDirectory } := by
    rw [hmount, hnode', Function.update_self]
  -- the nodes of the files are still there
  have hfile : ∀ i < n, heap''.node (p + i) = e.heap.node (p + i) := fun i hi => by
    rw [hnode', Function.update_of_ne (hne i hi)]
  have hpop' : Populated start p image heap'' n ⟨heap'', e.world⟩ :=
    ⟨hpop.startaddr, hpop.header, hpop.fileheaders, hpop.nodes, hpop.length, hpop.frame,
      hpop.offset, fun i hi => by rw [hfile i hi]; exact hpop.node i hi, fun _ _ => rfl⟩
  have hfind : ∀ s, finddirVfs initrdDrivers ⟨heap'', e.world⟩ e.world.initrdMountpoint (s ++ [0]) =
      some (⟨heap'', e.world⟩, (initrdFinddir ⟨heap'', e.world⟩ (s ++ [0])).getD 0) := fun s => by
    rw [finddirVfs, hdir]
    rfl
  have hread : ∀ index, readdirVfs (initrdReaddirs garbage) ⟨heap'', e.world⟩
      e.world.initrdMountpoint index =
      (initrdReaddir garbage ⟨heap'', e.world⟩ index).map fun r => (⟨heap'', e.world⟩, r) :=
    fun index => by
      rw [readdirVfs, hdir]
      rfl
  refine ⟨fun i hi s hs => ?_, fun s hs hno => ⟨⟨heap'', e.world⟩, ?_⟩, fun i hi s hs => ?_,
    fun i hi => ⟨⟨heap'', e.world⟩, ?_⟩⟩
  · rcases initrdFinddir_cases hv hpop' hs.1 with ⟨j, hj, hjeq⟩ | ⟨hno, -⟩
    · obtain ⟨nd, t, hnd, ht, hname, hlength, hino⟩ := hpop'.node j hj.lt
      obtain rfl := CStr.unique hj.name ht
      refine ⟨_, p + j, nd, j, by rw [hfind, hjeq]; rfl, ?_, hnd, hj, hname, hino, hlength⟩
      have := hpos (Nat.zero_lt_of_lt hi)
      omega
    · exact absurd hs (hno i hi)
  · rcases initrdFinddir_cases hv hpop' hs with ⟨j, hj, -⟩ | ⟨-, hnull⟩
    · exact absurd hj.name (hno j hj.lt)
    · rw [hfind, hnull]
      rfl
  · obtain ⟨entry, hentry, hname, hino⟩ := initrdReaddir_eq garbage hv hpop' hi hs
    exact ⟨_, entry, by rw [hread, hentry]; rfl, hname, hino⟩
  · rw [hread, initrdReaddir_null hv hpop' hi]
    rfl

/-! ## Two images -/

/-- A stack full of zeros. -/
def zeroStack : Stack := fun _ => ⟨List.replicate 52 0, List.length_replicate⟩

/-- A directory entry full of zeros. -/
def zeroDirent : { d : Dirent // d.name.length = 128 } :=
  ⟨⟨List.replicate 128 0, 0⟩, List.length_replicate⟩

/-- The image without files. -/
def emptyImage : List UInt8 := imageOf zeroStack []

theorem emptyImage_valid : ValidImage emptyImage 0 :=
  validImage_imageOf zeroStack (fun _ hf => absurd hf List.not_mem_nil) (by decide)

theorem listed_iff_empty :
    ∃ e, initrdInit zeroMalloc ⟨noNodes, initrdAt 0x100000 emptyImage⟩ = some e ∧
    Listed initrdDrivers (initrdReaddirs zeroDirent) e emptyImage 0 := by
  obtain ⟨-, -, e, he, -⟩ :=
    emptyImage_valid.initrdInit zeroMalloc noNodes 0x100000 (by decide) (.inr rfl)
  exact ⟨e, he, (listed_iff emptyImage_valid he).2 rfl⟩

/-- The image of one file, called `a`, of one byte. -/
def oneFileImage : List UInt8 := imageOf zeroStack [⟨[1], [97]⟩]

theorem oneFileImage_valid : ValidImage oneFileImage 1 := by
  refine validImage_imageOf zeroStack (fun f hf => ?_) (by decide)
  obtain rfl := List.mem_singleton.1 hf
  exact ⟨by decide, by decide⟩

/-- The file of the image is not found. -/
theorem one_file_not_listed : ∃ e,
    initrdInit zeroMalloc ⟨noNodes, initrdAt 0x100000 oneFileImage⟩ = some e ∧
    ValidImage oneFileImage 1 ∧
    ¬Listed initrdDrivers (initrdReaddirs zeroDirent) e oneFileImage 1 := by
  obtain ⟨-, -, e, he, -⟩ :=
    oneFileImage_valid.initrdInit zeroMalloc noNodes 0x100000 (by decide) (.inl rfl)
  exact ⟨e, he, oneFileImage_valid, not_listed oneFileImage_valid he Nat.one_pos⟩

end Beryllium

import Beryllium.Initrd.Init

/-!
# The table of sysfs

`kernel/fs/sysfs.c`: the files of `sysfs` are the entries of a table, which `readdir_sysfs` lists by
index and `finddir_sysfs` looks up by name. Both count up to 7 by a constant of their own, but
the table has 6 entries: a full listing, and the lookup of a name that is not there, go on to
an entry behind the last one.

A function that reads an entry outside the table answers `none`.
-/

namespace Beryllium

open Machine

/-- `struct sys_entry` -/
structure SysEntry where
  id : ℕ
  name : List UInt8
  func : ℕ

/-- The function `null_func`. -/
def nullFunc : ℕ := 1

/-- `sys_entries`: `cpu`, `mem`, `uptime`, `vfsinit`, `version` and `release`. -/
def sysEntries : List SysEntry :=
  [⟨1, [99, 112, 117], nullFunc⟩,
    ⟨2, [109, 101, 109], nullFunc⟩,
    ⟨3, [117, 112, 116, 105, 109, 101], nullFunc⟩,
    ⟨4, [118, 102, 115, 105, 110, 105, 116], nullFunc⟩,
    ⟨5, [118, 101, 114, 115, 105, 111, 110], nullFunc⟩,
    ⟨6, [114, 101, 108, 101, 97, 115, 101], nullFunc⟩]

/-- `readdir_sysfs`. A null pointer is `none`. -/
def readdirSysfs (index : ℕ) : Option (Option Dirent) :=
  if index < 7 then do
    let entry ← sysEntries[index]?
    let name ← strcpy (List.replicate 128 0) (entry.name ++ [0])
    return some ⟨name, entry.id⟩
  else some none

/-- The assignments to `*fnode` after the `memset`. -/
def sysfsNode (name : List UInt8) (readFunc : ℕ) (n : VfsNode) : Option VfsNode := do
  let name ← strcpy n.name name
  return { n with
    name, inode := 0, uid := 0, gid := 0, type := vfsFile
    read := readFunc, write := 0, open' := 0, close := 0, readdir := 0, finddir := 0 }

variable (garbage : VfsNode) (h : NodeHeap) (node : ℕ) (name : List UInt8)

/-- `sysfs_generic_create`, where the new node holds `garbage`. -/
def sysfsGenericCreate (readFunc : ℕ) : Option (NodeHeap × ℕ) := do
  let m := h.malloc garbage
  let heap ← m.1.assign m.2 fun _ => some zeroNode
  let heap ← heap.assign m.2 (sysfsNode name readFunc)
  return (heap, m.2)

/-- The body of the `if` in `finddir_sysfs`: a new node for the entry that has the name. -/
def sysfsFound (entry : SysEntry) : Option (NodeHeap × ℕ) := do
  let (heap, out) ← sysfsGenericCreate garbage h (entry.name ++ [0]) entry.func
  let n ← heap.node node
  let heap ← heap.assign out fun m => some { m with inode := n.inode }
  return (heap, out)

/-- `for (int i = 0; i < 7; ++i)` of `finddir_sysfs`, the last `k` times. -/
def finddirSysfsLoop : ℕ → ℕ → Option (NodeHeap × ℕ)
  | 0, _ => some (h, 0)
  | k + 1, i => do
    let entry ← sysEntries[i]?
    if (← strcmp name (entry.name ++ [0])) = 0 then sysfsFound garbage h node entry
    else finddirSysfsLoop k (i + 1)

/-- `finddir_sysfs`, with a name that may be a null pointer. -/
def finddirSysfs (name : Option (List UInt8)) : Option (NodeHeap × ℕ) :=
  match name with
  | none => some (h, 0)
  | some name => finddirSysfsLoop garbage h node name 7 0

/-! ## What they are for -/

/-- `readdir_sysfs` stays in the table, and returns `NULL` behind its end only. -/
def ReaddirMeets (index : ℕ) : Prop :=
  ∃ r, readdirSysfs index = some r ∧ (r = none ↔ sysEntries.length ≤ index)

/-- The listing has an entry called `s`. -/
def ListsName (s : List UInt8) : Prop := ∃ i d, readdirSysfs i = some (some d) ∧ CStr d.name s

/-- `finddir_sysfs` stays in the table, and finds a node called `s` if the listing has that
    name, and otherwise `NULL`. -/
def FinddirMeets (s : List UInt8) : Prop :=
  ∃ h' q, finddirSysfs garbage h node (some name) = some (h', q) ∧
    (ListsName s → q ≠ 0 ∧ ∃ m, h'.node q = some m ∧ CStr m.name s) ∧ (¬ListsName s → q = 0)

variable {garbage h node name} {s : List UInt8} {entry : SysEntry} {index i k : ℕ} {n : VfsNode}

/-! ## The table -/

/-- The names are strings, and fit in an entry of the listing. -/
theorem sysEntries_names : ∀ entry ∈ sysEntries, 0 ∉ entry.name ∧ entry.name.length < 128 := by
  decide

/-- Inside the table, `readdir_sysfs` gives an entry with the name and the number. -/
theorem readdirSysfs_eq (he : sysEntries[index]? = some entry) :
    ∃ d, readdirSysfs index = some (some d) ∧ CStr d.name entry.name ∧ d.ino = entry.id := by
  obtain ⟨hz, hlen⟩ := sysEntries_names entry (List.mem_of_getElem? he)
  have hi : index < 6 := (List.getElem?_eq_some_iff.1 he).1
  have hroom : entry.name.length + 1 ≤ (List.replicate 128 (0 : UInt8)).length := by
    rw [List.length_replicate]
    omega
  have hcopy := strcpy_eq (CStr.mk hz []) hroom
  rw [readdirSysfs, if_pos (Nat.lt_succ_of_lt hi), he]
  simp only [Option.bind_eq_bind, Option.bind_some, hcopy, Option.pure_def]
  exact ⟨_, rfl, CStr.mk hz _, rfl⟩

theorem readdirSysfs_end : readdirSysfs 6 = none := rfl

theorem readdirSysfs_past (hi : 7 ≤ index) : readdirSysfs index = some none :=
  if_neg (Nat.not_lt.2 hi)

/-- The names that are listed are those of the table. -/
theorem listsName_iff : ListsName s ↔ ∃ entry ∈ sysEntries, entry.name = s := by
  refine ⟨?_, ?_⟩
  · rintro ⟨i, d, hd, hs⟩
    cases he : sysEntries[i]? with
    | some entry =>
      obtain ⟨d', hd', hs', -⟩ := readdirSysfs_eq he
      obtain rfl : d' = d := Option.some.inj (Option.some.inj (hd'.symm.trans hd))
      exact ⟨entry, List.mem_of_getElem? he, hs'.unique hs⟩
    | none =>
      -- behind the table there is no entry
      rw [readdirSysfs, he] at hd
      split_ifs at hd <;> cases hd
  · rintro ⟨entry, hmem, rfl⟩
    obtain ⟨i, he⟩ := List.getElem?_of_mem hmem
    obtain ⟨d, hd, hs, -⟩ := readdirSysfs_eq he
    exact ⟨i, d, hd, hs⟩

/-! ## The lookup -/

theorem sysfsNode_eq (hmem : entry ∈ sysEntries) (f : ℕ) :
    ∃ m, sysfsNode (entry.name ++ [0]) f zeroNode = some m ∧ CStr m.name entry.name := by
  obtain ⟨hz, hlen⟩ := sysEntries_names entry hmem
  rw [sysfsNode, strcpy_eq (CStr.mk hz []) (by rw [zeroNode, List.length_replicate]; omega)]
  exact ⟨_, rfl, CStr.mk hz _⟩

/-- The node that is made for an entry. -/
theorem sysfsGenericCreate_eq (garbage : VfsNode) (h : NodeHeap) (hmem : entry ∈ sysEntries)
    (f : ℕ) : ∃ h' m,
    sysfsGenericCreate garbage h (entry.name ++ [0]) f = some (h', h.bound) ∧
    h'.node = Function.update h.node h.bound (some m) ∧ CStr m.name entry.name := by
  obtain ⟨m, hfields, hname⟩ := sysfsNode_eq hmem f
  have hnew : (h.malloc garbage).1.node h.bound = some garbage := Function.update_self ..
  obtain ⟨h₁, hzero, -, hnode₁⟩ := NodeHeap.assign_eq (f := fun _ => some zeroNode) hnew rfl
  have hat : h₁.node h.bound = some zeroNode := by
    rw [hnode₁]
    exact Function.update_self ..
  obtain ⟨h₂, hset, -, hnode₂⟩ := NodeHeap.assign_eq hat hfields
  have hsnd : (h.malloc garbage).2 = h.bound := rfl
  have hmalloc : (h.malloc garbage).1.node = Function.update h.node h.bound (some garbage) := rfl
  refine ⟨h₂, m, ?_, ?_, hname⟩
  · rw [sysfsGenericCreate]
    simp only [hsnd, hzero, hset, Option.bind_eq_bind, Option.bind_some, Option.pure_def]
  · rw [hnode₂, hnode₁, hmalloc, Function.update_idem, Function.update_idem]

/-- The entry that has the name: a new node, with the inode of the directory. -/
theorem sysfsFound_eq (garbage : VfsNode) (hn : h.node node = some n)
    (hmem : entry ∈ sysEntries) : ∃ h' m, sysfsFound garbage h node entry = some (h', h.bound) ∧
    h'.node h.bound = some m ∧ CStr m.name entry.name ∧ m.inode = n.inode := by
  obtain ⟨h₁, m, hcreate, hnode₁, hname⟩ :=
    sysfsGenericCreate_eq garbage h hmem entry.func
  have hdir : h₁.node node = some n := by
    rw [hnode₁, Function.update_of_ne (NodeHeap.lt_bound hn).ne]
    exact hn
  have hat : h₁.node h.bound = some m := by
    rw [hnode₁]
    exact Function.update_self ..
  obtain ⟨h₂, hset, -, hnode₂⟩ := NodeHeap.assign_eq
    (f := fun m => some { m with inode := n.inode }) hat rfl
  refine ⟨h₂, { m with inode := n.inode }, ?_, ?_, hname, rfl⟩
  · rw [sysfsFound]
    simp only [hcreate, hdir, hset, Option.bind_eq_bind, Option.bind_some, Option.pure_def]
  · rw [hnode₂]
    exact Function.update_self ..

/-- The loop from `i` on: it ends at the first entry of the name, and otherwise runs out of
    the table. -/
theorem finddirSysfsLoop_cases (garbage : VfsNode) (hn : h.node node = some n) (hs : CStr name s)
    (hi : i + k = 7) :
    ((∃ entry ∈ sysEntries.drop i, entry.name = s) ∧
      ∃ h' m, finddirSysfsLoop garbage h node name k i = some (h', h.bound) ∧
        h'.node h.bound = some m ∧ CStr m.name s) ∨
    ((∀ entry ∈ sysEntries.drop i, entry.name ≠ s) ∧ (i < 7 →
      finddirSysfsLoop garbage h node name k i = none)) := by
  induction k generalizing i with
  | zero =>
    obtain rfl : i = 7 := hi
    exact .inr ⟨fun entry hmem => absurd hmem List.not_mem_nil, fun h => absurd h (lt_irrefl 7)⟩
  | succ k ih =>
    rw [finddirSysfsLoop]
    cases he : sysEntries[i]? with
    | none =>
      rw [List.drop_eq_nil_of_le (List.getElem?_eq_none_iff.1 he)]
      exact .inr ⟨fun entry hmem => absurd hmem List.not_mem_nil, fun _ => rfl⟩
    | some entry =>
      obtain ⟨hlt, hget⟩ := List.getElem?_eq_some_iff.1 he
      have hmem : entry ∈ sysEntries := List.mem_of_getElem? he
      have hdrop : sysEntries.drop i = entry :: sysEntries.drop (i + 1) := by
        rw [List.drop_eq_getElem_cons hlt, hget]
      have hsix : i < 6 := hlt
      obtain ⟨v, hcmp, hv⟩ := strcmp_spec hs (CStr.mk (sysEntries_names entry hmem).1 [])
      simp only [hcmp, Option.bind_eq_bind, Option.bind_some, hdrop, List.exists_mem_cons_iff,
        List.forall_mem_cons]
      by_cases hz : v = 0
      · obtain rfl := hv.1 hz
        obtain ⟨h', m, hfound, hm, hname, -⟩ := sysfsFound_eq garbage hn hmem
        rw [if_pos hz]
        exact .inl ⟨.inl rfl, h', m, hfound, hm, hname⟩
      · have hne : entry.name ≠ s := fun heq => hz (hv.2 heq.symm)
        rw [if_neg hz]
        rcases ih (i := i + 1) (by omega) with ⟨hex, hloop⟩ | ⟨hall, hloop⟩
        · exact .inl ⟨.inr hex, hloop⟩
        · exact .inr ⟨⟨hne, hall⟩, fun _ => hloop (by omega)⟩

/-! ## Staying in the table -/

theorem readdirMeets_iff : ReaddirMeets index ↔ index ≠ 6 := by
  refine ⟨?_, fun hne => ?_⟩
  · rintro ⟨r, hr, -⟩ rfl
    rw [readdirSysfs_end] at hr
    cases hr
  · rcases Nat.lt_or_ge index 6 with hlt | hge
    · obtain ⟨d, hd, -⟩ := readdirSysfs_eq (List.getElem?_eq_getElem (l := sysEntries) hlt)
      exact ⟨some d, hd, by simp, fun hle => absurd hlt (Nat.not_lt.2 hle)⟩
    · exact ⟨none, readdirSysfs_past (by omega), fun _ => hge, fun _ => rfl⟩

theorem finddirMeets_iff (hn : h.node node = some n) (hs : CStr name s) :
    FinddirMeets garbage h node name s ↔ ∃ entry ∈ sysEntries, entry.name = s := by
  rw [FinddirMeets, finddirSysfs, listsName_iff]
  rcases finddirSysfsLoop_cases garbage hn hs (Nat.zero_add 7) with
    ⟨hex, h', m, hloop, hm, hname⟩ | ⟨hall, hloop⟩
  · refine ⟨fun _ => hex, fun _ => ⟨h', h.bound, hloop, fun _ => ?_, fun hno => absurd hex hno⟩⟩
    exact ⟨h.bound_pos.ne', m, hm, hname⟩
  · refine ⟨?_, fun ⟨entry, hmem, heq⟩ => absurd heq (hall entry hmem)⟩
    rintro ⟨h', q, hfind, -⟩
    rw [hloop (by decide)] at hfind
    cases hfind

/-- Listing and looking up agree and stay in the table, for every index but the one behind the
    last entry, and for the names of the table only: the lookup of any other name runs out of
    the table. -/
theorem sysfs_iff (garbage : VfsNode) (h : NodeHeap) (node index : ℕ) (name s : List UInt8)
    (hnode : (h.node node).isSome) (hs : CStr name s) :
    (ReaddirMeets index ↔ index ≠ 6) ∧
    (FinddirMeets garbage h node name s ↔ ∃ entry ∈ sysEntries, entry.name = s) := by
  obtain ⟨n, hn⟩ := Option.isSome_iff_exists.1 hnode
  exact ⟨readdirMeets_iff, finddirMeets_iff hn hs⟩

/-- The heap with one node, a zeroed one. -/
def sysfsHeap : NodeHeap where
  node := Function.update (fun _ => none) 1 (some zeroNode)
  bound := 2
  bound_pos := Nat.two_pos
  null := Function.update_of_ne Nat.zero_ne_one _ _
  fresh _ hp := Function.update_of_ne (Nat.lt_of_succ_le hp).ne' _ _

/-- The index 5, and the name `cpu`. -/
theorem sysfs_iff_cpu : ReaddirMeets 5 ∧
    FinddirMeets zeroNode sysfsHeap 1 [99, 112, 117, 0] [99, 112, 117] := by
  have hiff := sysfs_iff zeroNode sysfsHeap 1 5 [99, 112, 117, 0] [99, 112, 117] rfl
    (CStr.mk (by decide) [])
  exact ⟨hiff.1.2 (by decide), hiff.2.2 ⟨_, List.mem_cons_self, rfl⟩⟩

/-- The index 6 is behind the last entry, and is read. -/
theorem sysfs_false : ¬∀ (garbage : VfsNode) (h : NodeHeap) (node index : ℕ) (name s : List UInt8),
    index < 4294967296 → (h.node node).isSome → CStr name s →
      ReaddirMeets index ∧ FinddirMeets garbage h node name s := by
  intro h
  obtain ⟨⟨r, hr, -⟩, -⟩ :=
    h zeroNode sysfsHeap 1 6 [99, 112, 117, 0] [99, 112, 117] (by decide) rfl
    (CStr.mk (by decide) [])
  rw [readdirSysfs_end] at hr
  cases hr

end Beryllium

import Beryllium.Initrd.Init
import Beryllium.Vfs.MountOpen

/-!
# The files of the devices

`init_vfs_devices` of `kernel/fs/device_man.c` mounts the nodes of the devices (`kernel/fs/null.c`,
`zero.c`, `serial.c` and `devfs.c`), which `read_vfs`, `write_vfs` and `close_vfs` of `kernel/vfs.c`
call the functions of. The port, to which `serial_write` sends a character, is a state of its own.

* `kopen_device`: the paths that resolve to `/dev` or to one of the devices are opened with a new
  node of the device, the others below `/dev` with `NULL`, and all others get stuck, as nothing is
  mounted at `/`;
* `device_files`: in every run of calls, each node is the one of the device that was opened, and
  what was sent to the port is what was written to the nodes of `/dev/serial0`.
-/

namespace Beryllium

open Machine

variable {W : Type}

/-! ## The nodes -/

/-- `VFS_CHARDEVICE` -/
def vfsChardevice : ℕ := 1 <<< 2

/-- `VFS_PERMISSION_WRITE` -/
def vfsPermissionWrite : ℕ := 2

/-- A node with the functions `fns` of a device. -/
def deviceCreate (name : List UInt8) (permissions flags fns : ℕ) (garbage : VfsNode)
    (h : NodeHeap) : Option (NodeHeap × ℕ) := do
  let (h, fnode) := h.malloc garbage
  let h ← h.assign fnode fun _ => some zeroNode
  let h ← h.assign fnode fun n => do
    let name ← strcpy n.name (name ++ [0])
    return { n with
      inode := 0, name, uid := 0, gid := 0, permissions, flags
      read := fns, write := fns, open' := fns, close := fns, readdir := 0, finddir := 0 }
  return (h, fnode)

/-- `null_device_create` -/
def nullDeviceCreate := deviceCreate [110, 117, 108, 108] vfsPermissionRead
    (vfsFile ||| vfsChardevice) 3

/-- `zero_device_create` -/
def zeroDeviceCreate := deviceCreate [122, 101, 114, 111] vfsPermissionRead
    (vfsFile ||| vfsChardevice) 4

/-- `serial_device_create` -/
def serialDeviceCreate :=
  deviceCreate [115, 101, 114, 105, 97, 108] (vfsPermissionRead ||| vfsPermissionWrite)
    (vfsFile ||| vfsChardevice) 5

/-- `dev_device_create` -/
def devDeviceCreate := deviceCreate [100, 101, 118, 102, 115] vfsPermissionRead vfsDirectory 6

/-- `init_vfs_devices`, where the new nodes hold `garbage`. -/
def initVfsDevices (garbage : VfsNode) (s : Vfs) (h : NodeHeap) : Option (Vfs × NodeHeap) := do
  let (h, node) ← nullDeviceCreate garbage h
  let (s, _) ← vfsMount s (some [47, 100, 101, 118, 47, 110, 117, 108, 108, 0]) node
  let (h, node) ← zeroDeviceCreate garbage h
  let (s, _) ← vfsMount s (some [47, 100, 101, 118, 47, 122, 101, 114, 111, 0]) node
  let (h, node) ← serialDeviceCreate garbage h
  let (s, _) ← vfsMount s (some [47, 100, 101, 118, 47, 115, 101, 114, 105, 97, 108, 48, 0]) node
  let (h, node) ← devDeviceCreate garbage h
  let (s, _) ← vfsMount s (some [47, 100, 101, 118, 47, 0]) node
  return (s, h)

/-! ## The functions of the devices -/

/-- The functions that do nothing and return 0. -/
def readNothing (e : Env W) (_offset _size : ℕ) (buffer : List UInt8) :
    Option (Env W × ℕ × List UInt8) :=
  some (e, 0, buffer)

def writeNothing (e : Env W) (_offset _size : ℕ) (_buffer : List UInt8) : Option (Env W × ℕ) :=
  some (e, 0)

/-- `read_null` -/
def readNull (e : Env W) := readNothing e

/-- `read_zero` -/
def readZero (e : Env W) := readNothing e

/-- `read_serial` -/
def readSerial (e : Env W) := readNothing e

/-- `read_dev` -/
def readDev (e : Env W) := readNothing e

/-- `write_null` -/
def writeNull (e : Env W) := writeNothing e

/-- `write_zero` -/
def writeZero (e : Env W) := writeNothing e

/-- `write_dev` -/
def writeDev (e : Env W) := writeNothing e

/-- `for(int i = 0; i != size; i++)` of `write_serial`, from `i` on. -/
def writeSerialLoop (serialWrite : UInt8 → W → Option W) (size : ℕ) (buffer : List UInt8) :
    ℕ → ℕ → W → Option W
  | 0, _, _ => none
  | fuel + 1, i, w =>
    if i = size then some w
    else do
      let c ← buffer[i]?
      writeSerialLoop serialWrite size buffer fuel (i + 1) (← serialWrite c w)

/-- `write_serial`, which returns no value: `ret` is what the caller takes for it. The `int` of the
    loop does not get to 2^31. -/
def writeSerial (serialWrite : UInt8 → W → Option W) (ret : ℕ) (e : Env W) (_offset size : ℕ)
    (buffer : List UInt8) : Option (Env W × ℕ) := do
  let w ← writeSerialLoop serialWrite size buffer 2147483648 0 e.world
  return ({ e with world := w }, ret)

/-- What the functions do that the nodes point to, by their number. -/
def deviceReads (fn : ℕ) (e : Env W) (offset size : ℕ) (buffer : List UInt8) :
    Option (Env W × ℕ × List UInt8) :=
  match fn with
  | 3 => readNull e offset size buffer
  | 4 => readZero e offset size buffer
  | 5 => readSerial e offset size buffer
  | 6 => readDev e offset size buffer
  | _ => none

def deviceWrites (serialWrite : UInt8 → W → Option W) (ret fn : ℕ) (e : Env W) (offset size : ℕ)
    (buffer : List UInt8) : Option (Env W × ℕ) :=
  match fn with
  | 3 => writeNull e offset size buffer
  | 4 => writeZero e offset size buffer
  | 5 => writeSerial serialWrite ret e offset size buffer
  | 6 => writeDev e offset size buffer
  | _ => none

/-- `close_null`, `close_zero`, `close_serial` and `close_dev`, which do nothing. -/
def deviceCloses (fn : ℕ) (e : Env W) : Option (Env W) :=
  match fn with
  | 3 | 4 | 5 | 6 => some e
  | _ => none

/-- `read_vfs` -/
def readVfs (e : Env W) (node offset size : ℕ) (buffer : List UInt8) :
    Option (Env W × ℕ × List UInt8) := do
  let n ← e.heap.node node
  if n.read ≠ 0 then deviceReads n.read e offset size buffer else return (e, 0, buffer)

/-- `write_vfs` -/
def writeVfs (serialWrite : UInt8 → W → Option W) (ret : ℕ) (e : Env W) (node offset size : ℕ)
    (buffer : List UInt8) : Option (Env W × ℕ) := do
  let n ← e.heap.node node
  if n.write ≠ 0 then deviceWrites serialWrite ret n.write e offset size buffer else return (e, 0)

/-- `close_vfs` -/
def closeVfs (s : Vfs) (e : Env W) (node : ℕ) : Option (Env W) :=
  if node = s.rootNode then some e
  else do
    let n ← e.heap.node node
    if n.close ≠ 0 then deviceCloses n.close e else return e

/-! ## The devices -/

/-- The devices that are mounted. -/
inductive DevFile
  | null
  | zero
  | serial
  | dev
  deriving DecidableEq

/-- `"dev"` -/
def devName : List UInt8 := [100, 101, 118]

/-- Where the device is mounted. -/
def DevFile.path : DevFile → List (List UInt8)
  | null => [devName, [110, 117, 108, 108]]
  | zero => [devName, [122, 101, 114, 111]]
  | serial => [devName, [115, 101, 114, 105, 97, 108, 48]]
  | dev => [devName]

/-- The node of a device. -/
def DevFile.node : DevFile → VfsNode
  | null => { zeroNode with
      name := [110, 117, 108, 108] ++ List.replicate 252 0
      permissions := vfsPermissionRead, flags := vfsFile ||| vfsChardevice
      read := 3, write := 3, open' := 3, close := 3 }
  | zero => { zeroNode with
      name := [122, 101, 114, 111] ++ List.replicate 252 0
      permissions := vfsPermissionRead, flags := vfsFile ||| vfsChardevice
      read := 4, write := 4, open' := 4, close := 4 }
  | serial => { zeroNode with
      name := [115, 101, 114, 105, 97, 108] ++ List.replicate 250 0
      permissions := vfsPermissionRead ||| vfsPermissionWrite, flags := vfsFile ||| vfsChardevice
      read := 5, write := 5, open' := 5, close := 5 }
  | dev => { zeroNode with
      name := [100, 101, 118, 102, 115] ++ List.replicate 251 0
      permissions := vfsPermissionRead, flags := vfsDirectory
      read := 6, write := 6, open' := 6, close := 6 }

/-- The device at a path. -/
def deviceAt (q : List (List UInt8)) : Option DevFile :=
  [.null, .zero, .serial, .dev].find? fun k => k.path = q

/-- The devices are mounted, and the nodes are where `place` says. -/
structure DevicesMounted (s : Vfs) (h : NodeHeap) (place : DevFile → ℕ) : Prop where
  inv : MountInv s
  binding : ∀ q, binding s q = (deviceAt q).map place
  node : ∀ k, h.node (place k) = some k.node

variable {s s' : Vfs} {h h' : NodeHeap} {k : DevFile} {q : List (List UInt8)} {p : ℕ}
  {place : DevFile → ℕ}

theorem deviceAt_path (k : DevFile) : deviceAt k.path = some k := by
  cases k <;> decide

theorem path_of_deviceAt (hk : deviceAt q = some k) : k.path = q := by
  simpa using List.find?_some hk

/-- Nothing is mounted but below `/dev`. -/
theorem deviceAt_of_head (hq : q.head? ≠ some devName) : deviceAt q = none := by
  rw [Option.eq_none_iff_forall_ne_some]
  intro k hk
  obtain rfl := path_of_deviceAt hk
  refine hq ?_
  cases k <;> rfl

/-- A new node. -/
theorem deviceCreate_eq {name : List UInt8} (hname : 0 ∉ name) (hlen : name.length < 256)
    (permissions flags fns : ℕ) (g : VfsNode) (h : NodeHeap) :
    ∃ h', deviceCreate name permissions flags fns g h = some (h', h.bound) ∧
    h'.bound = h.bound + 1 ∧
      h'.node = Function.update h.node h.bound (some { zeroNode with
        name := name ++ List.replicate (256 - name.length) 0
        permissions, flags, read := fns, write := fns, open' := fns, close := fns }) := by
  obtain ⟨h₁, hh₁, hbound₁, hnode₁⟩ :=
    NodeHeap.assign_eq (h := (h.malloc g).1) (p := h.bound) (n := g)
    (f := fun _ => some zeroNode) (Function.update_self ..) rfl
  have hcopy : strcpy zeroNode.name (name ++ [0]) =
      some (name ++ List.replicate (256 - name.length) 0) := by
    have hfits : name.length + 1 ≤ zeroNode.name.length := by
      rw [show zeroNode.name.length = 256 from List.length_replicate]
      exact hlen
    rw [strcpy_eq (CStr.mk hname []) hfits, zeroNode, List.drop_replicate, ← List.replicate_succ]
    congr 3
    omega
  obtain ⟨h₂, hh₂, hbound₂, hnode₂⟩ := NodeHeap.assign_eq (h := h₁) (p := h.bound) (n := zeroNode)
    (f := fun n => do
      let name ← strcpy n.name (name ++ [0])
      return { n with
        inode := 0, name, uid := 0, gid := 0, permissions, flags
        read := fns, write := fns, open' := fns, close := fns, readdir := 0, finddir := 0 })
    (by rw [hnode₁, Function.update_self]) (by rw [hcopy]; rfl)
  refine ⟨h₂, ?_, hbound₂.trans hbound₁, ?_⟩
  · change ((h.malloc g).1.assign h.bound _).bind _ = _
    rw [hh₁, Option.bind_some]
    change (h₁.assign h.bound _).bind _ = _
    rw [hh₂]
    rfl
  · rw [hnode₂, hnode₁]
    change Function.update (Function.update (Function.update h.node h.bound _) _ _) _ _ = _
    rw [Function.update_idem, Function.update_idem]
    rfl

/-! ## init_vfs_devices -/

/-- How the node of a device is made, and the path that it is mounted at. -/
def DevFile.create : DevFile → VfsNode → NodeHeap → Option (NodeHeap × ℕ)
  | null => nullDeviceCreate
  | zero => zeroDeviceCreate
  | serial => serialDeviceCreate
  | dev => devDeviceCreate

def DevFile.mountPath : DevFile → List UInt8
  | null => [47, 100, 101, 118, 47, 110, 117, 108, 108]
  | zero => [47, 100, 101, 118, 47, 122, 101, 114, 111]
  | serial => [47, 100, 101, 118, 47, 115, 101, 114, 105, 97, 108, 48]
  | dev => [47, 100, 101, 118, 47]

/-- Where the nodes are, from `b` on. -/
def placeFrom (b : ℕ) : DevFile → ℕ
  | .null => b
  | .zero => b + 1
  | .serial => b + 2
  | .dev => b + 3

/-- The devices `ks` are mounted, with their nodes from `b` on. -/
structure MountedFrom (b : ℕ) (ks : List DevFile) (s : Vfs) (h : NodeHeap) : Prop where
  inv : MountInv s
  binding : ∀ q, binding s q = (ks.find? fun k => k.path = q).map (placeFrom b)
  node : ∀ k ∈ ks, h.node (placeFrom b k) = some k.node
  bound : h.bound = b + ks.length

theorem path_injective : Function.Injective DevFile.path := by
  intro k k' heq
  rw [← Option.some_inj, ← deviceAt_path k, heq, deviceAt_path]

theorem DevFile.create_eq (k : DevFile) (g : VfsNode) (h : NodeHeap) :
    ∃ h', k.create g h = some (h', h.bound) ∧
    h'.bound = h.bound + 1 ∧ h'.node = Function.update h.node h.bound (some k.node) := by
  cases k with
  | null => exact deviceCreate_eq (by decide) (by decide) _ _ _ g h
  | zero => exact deviceCreate_eq (by decide) (by decide) _ _ _ g h
  | serial => exact deviceCreate_eq (by decide) (by decide) _ _ _ g h
  | dev => exact deviceCreate_eq (by decide) (by decide) _ _ _ g h

theorem DevFile.mountPath_spec (k : DevFile) :
    CStr (k.mountPath ++ [0]) k.mountPath ∧ Canonical k.path ∧ AbsolutePath k.mountPath k.path := by
  refine ⟨CStr.mk ?_ [], ?_, ?_⟩
  · cases k <;> decide
  · unfold Canonical
    cases k <;> decide
  · cases k with
    | null | zero | serial => exact .inl rfl
    | dev => exact .inr rfl

/-- One more device is mounted. -/
theorem MountedFrom.add {b : ℕ} {ks : List DevFile} (hm : MountedFrom b ks s h) (hk : k ∉ ks)
    (hplace : placeFrom b k = b + ks.length) (g : VfsNode) :
    ∃ s' h', k.create g h = some (h', h.bound) ∧
      vfsMount s (some (k.mountPath ++ [0])) h.bound = some (s', 0) ∧
      MountedFrom b (ks ++ [k]) s' h' := by
  obtain ⟨h', hcreate, hbound, hnode⟩ := k.create_eq g h
  obtain ⟨hstr, hcanonical, habsolute⟩ := k.mountPath_spec
  have hother : (ks.find? fun k' => k'.path = k.path) = none := by
    rw [List.find?_eq_none]
    intro k' hk' heq
    exact hk (path_injective (of_decide_eq_true heq) ▸ hk')
  have hfree : Beryllium.binding s k.path = none := by rw [hm.binding, hother, Option.map_none]
  obtain ⟨s', hs', hinv, hbind⟩ :=
    (vfsMount_absolute hm.inv hstr hcanonical habsolute h.bound_pos.ne').1 hfree
  refine ⟨s', h', hcreate, hs', hinv, fun q => ?_, fun k' hk' => ?_, ?_⟩
  · rw [hbind, List.find?_append, Function.update_apply]
    split_ifs with hq
    · rw [hq, hother, Option.none_or, List.find?_singleton, if_pos (by simp), Option.map_some,
        hplace, hm.bound]
    · rw [hm.binding, List.find?_singleton, if_neg (by simpa using Ne.symm hq), Option.or_none]
  · rw [hnode]
    rcases List.mem_append.1 hk' with hmem | hmem
    · have hlt : placeFrom b k' < h.bound := NodeHeap.lt_bound (hm.node k' hmem)
      rw [Function.update_of_ne hlt.ne]
      exact hm.node k' hmem
    · obtain rfl := List.mem_singleton.1 hmem
      rw [hplace, ← hm.bound, Function.update_self]
  · rw [hbound, hm.bound, List.length_append, List.length_singleton]
    omega

/-- `init_vfs_devices` after `vfs_init` mounts the devices. -/
theorem initVfsDevices_eq (g : VfsNode) (h : NodeHeap) :
    ∃ s' h', initVfsDevices g vfsInit h = some (s', h') ∧
    DevicesMounted s' h' (placeFrom h.bound) := by
  have hm₀ : MountedFrom h.bound [] vfsInit h :=
    ⟨mountInv_init, fun q => by rw [binding_init]; rfl, fun k hk => absurd hk List.not_mem_nil, rfl⟩
  obtain ⟨s₁, h₁, hc₁, hs₁, hm₁⟩ := hm₀.add (k := .null) (by decide) rfl g
  obtain ⟨s₂, h₂, hc₂, hs₂, hm₂⟩ := hm₁.add (k := .zero) (by decide) rfl g
  obtain ⟨s₃, h₃, hc₃, hs₃, hm₃⟩ := hm₂.add (k := .serial) (by decide) rfl g
  obtain ⟨s₄, h₄, hc₄, hs₄, hm₄⟩ := hm₃.add (k := .dev) (by decide) rfl g
  refine ⟨s₄, h₄, ?_, hm₄.inv, hm₄.binding, fun k => hm₄.node k (by cases k <;> decide)⟩
  change (DevFile.null.create g h).bind (fun r =>
      (vfsMount vfsInit (some (DevFile.null.mountPath ++ [0])) r.2).bind
    fun m => (DevFile.zero.create g r.1).bind fun r =>
      (vfsMount m.1 (some (DevFile.zero.mountPath ++ [0])) r.2).bind
    fun m => (DevFile.serial.create g r.1).bind fun r =>
      (vfsMount m.1 (some (DevFile.serial.mountPath ++ [0])) r.2).bind
    fun m => (DevFile.dev.create g r.1).bind fun r =>
      (vfsMount m.1 (some (DevFile.dev.mountPath ++ [0])) r.2).bind
    fun m => some (m.1, r.1)) = _
  simp only [hc₁, hs₁, hc₂, hs₂, hc₃, hs₃, hc₄, hs₄, Option.bind_some]

/-! ## kopen -/

section

variable {d : Drivers W} {e : Env W} {malloc : Malloc} {g : VfsNode} {filename str : List UInt8}
  {flags : ℕ}

/-- The nodes are still there. -/
def NodeHeap.Keeps (h h' : NodeHeap) : Prop := ∀ p n, h.node p = some n → h'.node p = some n

theorem NodeHeap.keeps_malloc (h : NodeHeap) (n : VfsNode) : h.Keeps (h.malloc n).1 := fun _ _ hp =>
  (Function.update_of_ne (NodeHeap.lt_bound hp).ne ..).trans hp

theorem NodeHeap.Keeps.trans {h h' h'' : NodeHeap} (hk : h.Keeps h') (hk' : h'.Keeps h'') :
    h.Keeps h'' :=
  fun p n hp => hk' p n (hk p n hp)

/-- Freeing a node that was not there keeps the others. -/
theorem NodeHeap.Keeps.free (hk : h.Keeps h') (hp : h.node p = none) : h.Keeps (h'.free p) :=
  fun p' n hp' => by
  have hne : p' ≠ p := by
    rintro rfl
    rw [hp] at hp'
    cases hp'
  exact (Function.update_of_ne hne ..).trans (hk p' n hp')

/-- What `kopen` does with a path, when the devices are mounted. -/
def OpensDevice (d : Drivers W) (malloc : Malloc) (g : VfsNode) (s : Vfs) (e : Env W)
    (filename : List UInt8) (flags : ℕ) (q : List (List UInt8)) : Prop :=
  match deviceAt q with
  | some k => ∃ h p, kopen d malloc g s e (some filename) flags = some ({ e with heap := h }, p) ∧
      e.heap.node p = none ∧ h.node p = some k.node ∧ e.heap.Keeps h
  | none =>
    if q.head? = some devName then
      ∃ h, kopen d malloc g s e (some filename) flags = some ({ e with heap := h }, 0) ∧
        e.heap.Keeps h
    else kopen d malloc g s e (some filename) flags = none

/-- No names are looked up in a device. -/
theorem finddirs_device (hp : e.heap.node p = some k.node) {x : List UInt8} :
    finddirs d e p (x :: q) = some ({ e with heap := e.heap.free p }, 0) := by
  have hfind : finddirVfs d e p (x ++ [0]) = some (e, 0) := by
    rw [finddirVfs, hp]
    cases k <;> rfl
  rw [finddirs, hfind]
  rfl

/-- A path of which a device is a prefix begins with `dev`. -/
theorem head_of_take {j : ℕ} (hk : deviceAt (q.take j) = some k) : q.head? = some devName := by
  by_contra hq
  have hhead : (q.take j).head? ≠ some devName := by
    cases q with
    | nil => simp
    | cons x q =>
      cases j with
      | zero => simp
      | succ j => exact hq
  rw [deviceAt_of_head hhead] at hk
  cases hk

theorem kopen_device (hm : DevicesMounted s e.heap place) (hstr : CStr filename str)
    (hq : resolve [] (components str) = q) : OpensDevice d malloc g s e filename flags q := by
  rw [OpensDevice]
  split
  · next k hk =>
    have hne : q ≠ [] := by
      rintro rfl
      cases hk
    have hf : binding s q = some (place k) := by rw [hm.binding, hk, Option.map_some]
    exact ⟨_, _, kopen_mount_point malloc g hm.inv hstr hq hne hf (hm.node k) flags,
      e.heap.fresh _ (Nat.le_succ _),
      Function.update_self .., (e.heap.keeps_malloc g).trans
        ((e.heap.malloc g).1.keeps_malloc k.node)⟩
  · next hnone =>
    split_ifs with hhead
    · -- the rest of the path is looked up in `/dev`, or in a device
      have hdev : binding s (q.take 1) ≠ none := by
        obtain ⟨x, rest, rfl⟩ := List.exists_cons_of_ne_nil (show q ≠ [] by rintro rfl; cases hhead)
        cases Option.some.inj hhead
        rw [hm.binding]
        exact Option.some_ne_none _
      obtain ⟨j, hj⟩ := exists_isLongest
        ⟨1, List.length_pos_iff.2 (by rintro rfl; cases hhead), hdev⟩
      obtain ⟨f, hf⟩ := Option.ne_none_iff_exists'.1 hj.2.1
      obtain ⟨k, hk, rfl⟩ : ∃ k, deviceAt (q.take j) = some k ∧ place k = f := by
        rw [hm.binding] at hf
        exact Option.map_eq_some_iff.1 hf
      have hlt : j < q.length := by
        refine lt_of_le_of_ne hj.1 fun heq => ?_
        rw [heq, List.take_length, hnone] at hk
        cases hk
      have hcopy : (e.clones k.node).heap.node e.heap.bound = some k.node := Env.clones_node
      rw [kopen_lookup malloc g hm.inv hstr hq hj hf (hm.node k) hlt, List.drop_eq_getElem_cons hlt,
        finddirs_device hcopy]
      exact ⟨_, rfl, ((e.heap.keeps_malloc k.node).trans
        ((e.heap.malloc k.node).1.keeps_malloc k.node)).free (e.heap.fresh _ le_rfl)⟩
    · refine kopen_unmounted malloc g hm.inv hstr hq (fun j _ => ?_) flags
      rw [hm.binding, Option.map_eq_none_iff, Option.eq_none_iff_forall_ne_some]
      exact fun k hk => hhead (head_of_take hk)

end

/-! ## Runs -/

/-- The file system, and the paths that its nodes were opened by. -/
structure Files (W : Type) where
  vfs : Vfs
  env : Env W
  opened : ℕ → Option (List (List UInt8))

/-- What the kernel does with files. -/
inductive FileOp
  | open' (filename : List UInt8) (flags : ℕ)
  | read (node offset size : ℕ) (buffer : List UInt8)
  | write (node offset size : ℕ) (buffer : List UInt8)
  | close (node : ℕ)

/-- The node `r` that `kopen` has returned. -/
def Files.open' (s : Files W) (filename : List UInt8) (r : Env W × ℕ) : Files W where
  vfs := s.vfs
  env := r.1
  opened := if r.2 = 0 then s.opened
    else Function.update s.opened r.2 (some (resolve [] (components (filename.takeWhile (· ≠ 0)))))

section

variable (serialWrite : UInt8 → W → Option W) (ret : ℕ) (d : Drivers W) (malloc : Malloc)
  (g : VfsNode)

/-- The runs after `vfs_init` and `init_vfs_devices`. -/
def fileSystem : System (Files W) FileOp where
  init s := (∃ h, initVfsDevices g vfsInit h = some (s.vfs, s.env.heap)) ∧ s.opened = fun _ => none
  guard s op := match op with
    | .open' filename _ => ∃ str, CStr filename str
    | .read node .. | .write node .. | .close node => (s.opened node).isSome
  step s op := match op with
    | .open' filename flags =>
      (kopen d malloc g s.vfs s.env (some filename) flags).map (s.open' filename)
    | .read node offset size buffer =>
      (readVfs s.env node offset size buffer).map fun r => { s with env := r.1 }
    | .write node offset size buffer =>
      (writeVfs serialWrite ret s.env node offset size buffer).map fun r => { s with env := r.1 }
    | .close node => (closeVfs s.vfs s.env node).map fun e => { s with env := e }

/-- The characters, one after the other. -/
def sendAll (cs : List UInt8) (w : W) : Option W := cs.foldlM (fun w c => serialWrite c w) w

/-- What a call of `write_vfs` does to a node of the device. -/
def DevFile.write (k : DevFile) (e : Env W) (size : ℕ) (buffer : List UInt8) : Option (Env W × ℕ) :=
  if k = .serial then
    if size ≤ buffer.length ∧ size < 2147483648 then
      (sendAll serialWrite (buffer.take size) e.world).map fun w => ({ e with world := w }, ret)
    else none
  else some (e, 0)

/-- Every path is opened as it should be, and every node that was opened is one of the device at its
    path. -/
structure FilesWork (s : Files W) : Prop where
  opens : ∀ filename str flags, CStr filename str →
    OpensDevice d malloc g s.vfs s.env filename flags (resolve [] (components str))
  device : ∀ p q, s.opened p = some q → ∃ k, deviceAt q = some k ∧
    (∀ offset size buffer, readVfs s.env p offset size buffer = some (s.env, 0, buffer)) ∧
    (∀ offset size buffer, writeVfs serialWrite ret s.env p offset size buffer =
      k.write serialWrite ret s.env size buffer) ∧
    closeVfs s.vfs s.env p = some s.env

end

/-- What a call has sent, if the nodes were opened by the paths `opened`. -/
def FileOp.sent (opened : ℕ → Option (List (List UInt8))) : FileOp → List UInt8
  | .write node _ size buffer =>
    if (opened node).bind deviceAt = some .serial then buffer.take size else []
  | _ => []

variable {serialWrite : UInt8 → W → Option W} {ret : ℕ} {d : Drivers W} {malloc : Malloc}
  {g : VfsNode} {f f' : Files W} {op : FileOp} {ops : List FileOp}

/-- The loop of `write_serial` sends the rest of the characters, unless it reads behind the buffer.
    -/
theorem writeSerialLoop_eq {size i fuel : ℕ} {buffer : List UInt8} (hi : i ≤ size)
    (hlen : i ≤ buffer.length) (w : W) :
    writeSerialLoop serialWrite size buffer fuel i w =
      if size ≤ buffer.length ∧ size < i + fuel then
        sendAll serialWrite ((buffer.take size).drop i) w
      else none := by
  induction fuel generalizing i w with
  | zero => exact (if_neg (by omega)).symm
  | succ fuel ih =>
    rw [writeSerialLoop]
    rcases hi.eq_or_lt with rfl | hlt
    · have hdrop : (buffer.take i).drop i = [] := List.drop_eq_nil_of_le (List.length_take_le _ _)
      rw [if_pos rfl, if_pos ⟨hlen, by omega⟩, hdrop]
      rfl
    · rw [if_neg hlt.ne]
      rcases hlen.eq_or_lt with rfl | hget
      · rw [List.getElem?_eq_none le_rfl, if_neg (by omega)]
        rfl
      · have hrest (w : W) := ih hlt hget w
        have hfuel : i + (fuel + 1) = i + 1 + fuel := by omega
        rw [List.getElem?_eq_getElem hget, hfuel]
        change (serialWrite buffer[i] w).bind _ = _
        split_ifs with hfit
        · have hdrop : (buffer.take size).drop i =
            buffer[i] :: (buffer.take size).drop (i + 1) := by
            rw [List.drop_eq_getElem_cons (by rw [List.length_take]; omega), List.getElem_take]
          rw [hdrop, sendAll, List.foldlM_cons]
          refine congrArg _ (funext fun w => ?_)
          rw [hrest, if_pos hfit, sendAll]
        · cases serialWrite buffer[i] w with
          | none => rfl
          | some w => exact (hrest w).trans (if_neg hfit)

/-- What holds in every state: the devices are mounted, and the nodes that were opened are theirs.
    -/
structure Files.Inv (f : Files W) (place : DevFile → ℕ) : Prop where
  mounted : DevicesMounted f.vfs f.env.heap place
  opened : ∀ p q, f.opened p = some q → ∃ k, deviceAt q = some k ∧ f.env.heap.node p = some k.node

theorem DevicesMounted.rootNode (hm : DevicesMounted s h place) : s.rootNode = 0 := by
  have hroot := hm.inv.binding_root
  rw [hm.binding, show deviceAt [] = none by decide, Option.map_none] at hroot
  split_ifs at hroot with h₀
  exact h₀

/-- Nothing is read from a device. -/
theorem DevFile.readVfs_eq {e : Env W} (hp : e.heap.node p = some k.node) (offset size : ℕ)
    (buffer : List UInt8) : readVfs e p offset size buffer = some (e, 0, buffer) := by
  rw [readVfs, hp]
  cases k <;> rfl

theorem DevFile.writeVfs_eq {e : Env W} (hp : e.heap.node p = some k.node) (offset size : ℕ)
    (buffer : List UInt8) :
    writeVfs serialWrite ret e p offset size buffer = k.write serialWrite ret e size buffer := by
  rw [writeVfs, hp]
  cases k with
  | null | zero | dev => rfl
  | serial =>
    change (writeSerialLoop serialWrite size buffer 2147483648 0 e.world).bind _ = _
    rw [writeSerialLoop_eq (Nat.zero_le _) (Nat.zero_le _), Nat.zero_add, List.drop_zero,
      DevFile.write, if_pos rfl]
    split_ifs
    · rw [Option.map_eq_bind]
      rfl
    · rfl

theorem Files.Inv.close (hi : f.Inv place) {k : DevFile} (hp : f.env.heap.node p = some k.node) :
    closeVfs f.vfs f.env p = some f.env := by
  have hne : p ≠ f.vfs.rootNode := by
    rw [hi.mounted.rootNode]
    exact NodeHeap.ne_zero hp
  rw [closeVfs, if_neg hne, hp]
  cases k <;> rfl

theorem Files.Inv.work (hi : f.Inv place) : FilesWork serialWrite ret d malloc g f := by
  refine ⟨fun filename str flags hstr => kopen_device hi.mounted hstr rfl, fun p q hq => ?_⟩
  obtain ⟨k, hk, hp⟩ := hi.opened p q hq
  exact ⟨k, hk, DevFile.readVfs_eq hp, DevFile.writeVfs_eq hp, hi.close hp⟩

theorem takeWhile_cstr {b str : List UInt8} (h : CStr b str) : b.takeWhile (· ≠ 0) = str := by
  obtain ⟨hnul, rest, rfl⟩ := h
  have hstr : ∀ c ∈ str, decide (c ≠ 0) = true :=
    fun c hc => decide_eq_true fun h₀ => hnul (h₀ ▸ hc)
  rw [List.takeWhile_append_of_pos hstr, List.takeWhile_cons_of_neg (by simp), List.append_nil]

/-- A call that opens a file: the nodes that were opened before stay as they are. -/
theorem Files.Inv.open' (hi : f.Inv place) {filename str : List UInt8} {flags : ℕ} {r : Env W × ℕ}
    (hstr : CStr filename str) (hr : kopen d malloc g f.vfs f.env (some filename) flags = some r) :
    (f.open' filename r).Inv place ∧
    (∀ p q, f.opened p = some q → (f.open' filename r).opened p = some q) ∧
      r.1.world = f.env.world := by
  have hopen : OpensDevice d malloc g f.vfs f.env filename flags (resolve [] (components str)) :=
    kopen_device hi.mounted hstr rfl
  rw [OpensDevice] at hopen
  have hkeep (h : NodeHeap) (hk : f.env.heap.Keeps h) : DevicesMounted f.vfs h place ∧
      ∀ p q, f.opened p = some q → ∃ k, deviceAt q = some k ∧ h.node p = some k.node :=
    ⟨⟨hi.mounted.inv, hi.mounted.binding, fun k => hk _ _ (hi.mounted.node k)⟩, fun p q hq =>
      (hi.opened p q hq).imp fun k hp => ⟨hp.1, hk _ _ hp.2⟩⟩
  split at hopen
  · next k hk =>
    obtain ⟨h, p, heq, hnew, hnode, hkeeps⟩ := hopen
    cases hr.symm.trans heq
    obtain ⟨hmounted, hopened⟩ := hkeep h hkeeps
    have hne : p ≠ 0 := NodeHeap.ne_zero hnode
    have hupdate : (f.open' filename ({ f.env with heap := h }, p)).opened =
        Function.update f.opened p (some (resolve [] (components str))) := by
      rw [Files.open', if_neg hne, takeWhile_cstr hstr]
    refine ⟨⟨hmounted, fun p' q hq => ?_⟩, fun p' q hq => ?_, rfl⟩
    · rw [hupdate, Function.update_apply] at hq
      split_ifs at hq with hp'
      · cases hq
        exact ⟨k, hk, hp' ▸ hnode⟩
      · exact hopened p' q hq
    · -- the node is a new one
      have hp' : p' ≠ p := by
        rintro rfl
        obtain ⟨k', -, hk'⟩ := hi.opened p' q hq
        rw [hnew] at hk'
        cases hk'
      rw [hupdate, Function.update_of_ne hp']
      exact hq
  · split_ifs at hopen
    · obtain ⟨h, heq, hkeeps⟩ := hopen
      cases hr.symm.trans heq
      obtain ⟨hmounted, hopened⟩ := hkeep h hkeeps
      have hsame : (f.open' filename ({ f.env with heap := h }, 0)).opened = f.opened := by
        rw [Files.open', if_pos rfl]
      exact ⟨⟨hmounted, fun p q hq => hopened p q (hsame ▸ hq)⟩, fun p q hq => hsame ▸ hq, rfl⟩
    · cases hr.symm.trans hopen

/-- A step keeps the invariant and the paths, and sends what it should. -/
theorem Files.Inv.step (hi : f.Inv place) (hg : (fileSystem serialWrite ret d malloc g).guard f op)
    (hs : (fileSystem serialWrite ret d malloc g).step f op = some f') :
    f'.Inv place ∧ (∀ p q, f.opened p = some q → f'.opened p = some q) ∧
      sendAll serialWrite (op.sent f.opened) f.env.world = some f'.env.world := by
  cases op with
  | open' filename flags =>
    obtain ⟨str, hstr⟩ := hg
    obtain ⟨r, hr, rfl⟩ := Option.map_eq_some_iff.1 hs
    obtain ⟨hi', hopened, hworld⟩ := hi.open' hstr hr
    exact ⟨hi', hopened, congrArg some hworld.symm⟩
  | read node offset size buffer =>
    obtain ⟨q, hq⟩ := Option.isSome_iff_exists.1 hg
    obtain ⟨k, -, hp⟩ := hi.opened node q hq
    obtain ⟨r, hr, rfl⟩ := Option.map_eq_some_iff.1 hs
    cases (DevFile.readVfs_eq hp offset size buffer).symm.trans hr
    exact ⟨⟨hi.mounted, hi.opened⟩, fun _ _ h => h, rfl⟩
  | write node offset size buffer =>
    obtain ⟨q, hq⟩ := Option.isSome_iff_exists.1 hg
    obtain ⟨k, hk, hp⟩ := hi.opened node q hq
    obtain ⟨r, hr, rfl⟩ := Option.map_eq_some_iff.1 hs
    have hwrite := (DevFile.writeVfs_eq hp offset size buffer).symm.trans hr
    have hsent : (FileOp.write node offset size buffer).sent f.opened =
        if k = .serial then buffer.take size else [] := by
      rw [FileOp.sent, hq, Option.bind_some, hk]
      exact if_congr Option.some_inj rfl rfl
    rw [hsent]
    rw [DevFile.write] at hwrite
    split_ifs at hwrite ⊢ with hserial
    · obtain ⟨w, hw, rfl⟩ := Option.map_eq_some_iff.1 hwrite
      exact ⟨⟨⟨hi.mounted.inv, hi.mounted.binding, hi.mounted.node⟩, hi.opened⟩, fun _ _ h => h, hw⟩
    · cases hwrite
      exact ⟨⟨hi.mounted, hi.opened⟩, fun _ _ h => h, rfl⟩
  | close node =>
    obtain ⟨q, hq⟩ := Option.isSome_iff_exists.1 hg
    obtain ⟨k, -, hp⟩ := hi.opened node q hq
    obtain ⟨e, he, rfl⟩ := Option.map_eq_some_iff.1 hs
    cases (hi.close hp).symm.trans he
    exact ⟨⟨hi.mounted, hi.opened⟩, fun _ _ h => h, rfl⟩

theorem FileOp.sent_congr {opened opened' : ℕ → Option (List (List UInt8))}
    (hg : (fileSystem serialWrite ret d malloc g).guard f op)
    (h : ∀ p q, f.opened p = some q → opened p = some q ∧ opened' p = some q) :
    op.sent opened = op.sent opened' := by
  cases op with
  | open' | read | close => rfl
  | write node offset size buffer =>
    obtain ⟨q, hq⟩ := Option.isSome_iff_exists.1 hg
    obtain ⟨h₁, h₂⟩ := h node q hq
    rw [FileOp.sent, FileOp.sent, h₁, h₂]

theorem Files.Inv.run (hi : f.Inv place)
    (hr : (fileSystem serialWrite ret d malloc g).Run f ops f') :
    f'.Inv place ∧ (∀ p q, f.opened p = some q → f'.opened p = some q) ∧
      sendAll serialWrite (ops.flatMap (·.sent f'.opened)) f.env.world = some f'.env.world := by
  induction hr with
  | nil f => exact ⟨hi, fun _ _ h => h, rfl⟩
  | cons hg hs _ ih =>
    obtain ⟨hi₁, hopened₁, hsent₁⟩ := hi.step hg hs
    obtain ⟨hi₂, hopened₂, hsent₂⟩ := ih hi₁
    have hopened := fun p q h => hopened₂ p q (hopened₁ p q h)
    refine ⟨hi₂, hopened, ?_⟩
    rw [sendAll, List.flatMap_cons, List.foldlM_append,
      ← FileOp.sent_congr hg fun p q h => ⟨h, hopened p q h⟩]
    exact Option.bind_eq_some_iff.2 ⟨_, hsent₁, hsent₂⟩

/-- In every run after `init_vfs_devices`, every path is opened as it should be, every node that was
    opened is one of the device at its path, and the port has got what was written to the nodes of
    `/dev/serial0`. -/
theorem device_files (hinit : (fileSystem serialWrite ret d malloc g).init f)
    (hr : (fileSystem serialWrite ret d malloc g).Run f ops f') :
    FilesWork serialWrite ret d malloc g f' ∧
      sendAll serialWrite (ops.flatMap (·.sent f'.opened)) f.env.world = some f'.env.world := by
  obtain ⟨⟨h, hdevices⟩, hopened⟩ := hinit
  obtain ⟨s', h', heq, hmounted⟩ := initVfsDevices_eq g h
  cases heq.symm.trans hdevices
  have hi : f.Inv (placeFrom h.bound) := ⟨hmounted, fun p q hq => by rw [hopened] at hq; cases hq⟩
  obtain ⟨hi', -, hsent⟩ := hi.run hr
  exact ⟨hi'.work, hsent⟩

/-- A port that keeps all characters. -/
def keepAll (c : UInt8) (w : List UInt8) : Option (List UInt8) := some (w ++ [c])

/-- Drivers that find nothing. -/
def noDrivers : Drivers (List UInt8) := ⟨fun _ e _ _ => (e, 0), fun _ e _ _ => e⟩

/-- `/dev/serial0` is opened, and `OK` is written to it. -/
theorem device_files_serial : ∃ (f f' : Files (List UInt8)) (p : ℕ),
    (fileSystem keepAll 0 noDrivers (Malloc.filled 0xCC) dirNode).Run f
      [.open' [47, 100, 101, 118, 47, 115, 101, 114, 105, 97, 108, 48, 0] 0,
        .write p 0 2 [79, 75]] f' ∧
    FilesWork keepAll 0 noDrivers (Malloc.filled 0xCC) dirNode f' ∧
    f.env.world = [] ∧ f'.env.world = [79, 75] := by
  obtain ⟨s, h, heq, -⟩ := initVfsDevices_eq dirNode dirHeap
  let f : Files (List UInt8) := ⟨s, ⟨h, []⟩, fun _ => none⟩
  have hinit : (fileSystem keepAll 0 noDrivers (Malloc.filled 0xCC) dirNode).init f :=
    ⟨⟨dirHeap, heq⟩, rfl⟩
  have hstr : CStr [47, 100, 101, 118, 47, 115, 101, 114, 105, 97, 108, 48, 0]
      [47, 100, 101, 118, 47, 115, 101, 114, 105, 97, 108, 48] := CStr.mk (by decide) []
  have hq : resolve [] (components [47, 100, 101, 118, 47, 115, 101, 114, 105, 97, 108, 48]) =
      DevFile.serial.path := by
    decide
  have hopen := (device_files hinit (.nil f)).1.opens _ _ 0 hstr
  rw [hq, OpensDevice, deviceAt_path] at hopen
  obtain ⟨h', p, hkopen, -, hnode, -⟩ := hopen
  have hrun : (fileSystem keepAll 0 noDrivers (Malloc.filled 0xCC) dirNode).Run f [.open' _ 0]
      (f.open' _ _) :=
    .cons ⟨_, hstr⟩ (congrArg (Option.map _) hkopen) (.nil _)
  have hopened : (f.open' [47, 100, 101, 118, 47, 115, 101, 114, 105, 97, 108, 48, 0]
      ({ f.env with heap := h' }, p)).opened p = some DevFile.serial.path := by
    rw [Files.open', if_neg (NodeHeap.ne_zero hnode), takeWhile_cstr hstr, hq]
    exact Function.update_self ..
  obtain ⟨k, hk, -, hwrite, -⟩ := (device_files hinit hrun).1.device p _ hopened
  rw [deviceAt_path] at hk
  cases hk
  have hg : (fileSystem keepAll 0 noDrivers (Malloc.filled 0xCC) dirNode).guard (f.open' _ _)
      (.write p 0 2 [79, 75]) :=
    Option.isSome_iff_exists.2 ⟨_, hopened⟩
  have hrun' := hrun.snoc hg (congrArg (Option.map _) (hwrite 0 2 [79, 75]))
  exact ⟨f, _, p, hrun', (device_files hinit hrun').1, rfl, rfl⟩

end Beryllium

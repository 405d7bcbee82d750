import Beryllium.Lib.Str
import Beryllium.Machine.Bytes
import Beryllium.Machine.Memory
import Beryllium.Vfs.Node
import Mathlib.Algebra.Ring.Nat

/-!
# The initial ramdisk

`kernel/fs/initrd.c`: the image of the ramdisk, which the boot loader has put at
`[initrd_startaddr, initrd_endaddr)`, and the nodes `initrd_init` makes for its files. An image
is a header (`superheader_t`), a header for each file (`fileheader_t`), and the contents
of the files.

The bytes of the image are a block of their own (`Initrd.image`): a pointer outside of it
cannot be followed. `initrd_init` answers `none` if it reads or writes outside the image,
writes past the end of the name of a node, or writes a node that is not allocated.
-/

namespace Beryllium

open Machine

/-- `sizeof(superheader_t)` -/
abbrev sizeofSuperheader : ℕ := 64

/-- `sizeof(fileheader_t)` -/
abbrev sizeofFileheader : ℕ := 64

/-- `sizeof(vfs_node_t)` -/
abbrev sizeofVfsNode : ℕ := 328

/-- The globals of `initrd.c`, and the bytes of the image. -/
structure Initrd where
  initrdExists : ℕ
  initrdStartaddr : ℕ
  initrdEndaddr : ℕ
  initfsHeader : ℕ
  initfsFileheaders : ℕ
  initrdMountpoint : ℕ
  initrdNodes : ℕ
  image : List UInt8

namespace Initrd

variable (g : Initrd)

/-- The offset into the image that the pointer `p` points to. -/
def offset (p : ℕ) : Option ℕ :=
  if g.initrdStartaddr ≤ p then some (p - g.initrdStartaddr) else none

/-- `*p`, for a pointer to a word. -/
def load (p : ℕ) : Option ℕ := do loadWord g.image (← g.offset p)

/-- `*p = v`, for a pointer to a word. -/
def store (p v : ℕ) : Option Initrd := do
  let image ← storeWord g.image (← g.offset p) v
  return { g with image }

/-- The bytes from `p` on. -/
def bytes (p : ℕ) : Option (List UInt8) := do return g.image.drop (← g.offset p)

/-- `initfs_header->headers` -/
def headers : Option ℕ := g.load (g.initfsHeader + 4)

end Initrd

/-- `initrd_set_location` -/
def initrdSetLocation (g : Initrd) (start endaddr : ℕ) : Initrd :=
  { g with initrdStartaddr := start, initrdEndaddr := endaddr, initrdExists := 1 }

/-- The bytes `image` at `start`, before `initrd_init` is called. -/
def initrdAt (start : ℕ) (image : List UInt8) : Initrd :=
  initrdSetLocation ⟨0, 0, 0, 0, 0, 0, 0, image⟩ start (start + image.length)

/-- `initrd_verify` -/
def initrdVerify (g : Initrd) (addr : ℕ) : Option ℕ := do
  let w ← g.load addr
  return if w = 73 then 1 else 0

/-! ## initrd_init -/

/-- A node with a name of 256 bytes. -/
abbrev RawNode := { n : VfsNode // n.name.length = 256 }

/-- What `malloc` gives to `initrd_init`: what the node of the mountpoint and the array of
    nodes hold at first, and whether there is room for the array. -/
structure InitrdMalloc where
  mountpoint : RawNode
  hasRoom : Bool
  nodes : ℕ → RawNode

/-- `VFS_FILE` -/
def vfsFile : ℕ := 1 <<< 0

/-- `VFS_MOUNTPOINT` -/
def vfsMountpoint : ℕ := 1 <<< 6

/-- `VFS_PERMISSION_READ` -/
def vfsPermissionRead : ℕ := 1

/-- The function `initrd_readdir`. -/
def initrdReaddirFn : ℕ := 1

/-- The function `initrd_finddir`. -/
def initrdFinddirFn : ℕ := 2

/-- A node after `memset(node, 0x00, sizeof(vfs_node_t))`. -/
def zeroNode : VfsNode :=
  ⟨List.replicate 256 0, 0, 0, 0, 0, 0, 0, 0, 0, 0, 0, 0, 0, 0, 0, 0, 0, 0, 0⟩

/-- `"ramdisk0"` -/
def ramdisk0 : List UInt8 := [114, 97, 109, 100, 105, 115, 107, 48]

/-- The assignments to `*initrd_mountpoint` after the `memset`. -/
def mountpointNode (n : VfsNode) : Option VfsNode := do
  let name ← strcpy n.name (ramdisk0 ++ [0])
  return { n with
    name, uid := 0, gid := 0, permissions := vfsPermissionRead
    flags := vfsDirectory ||| vfsMountpoint
    readdir := initrdReaddirFn, finddir := initrdFinddirFn }

/-- The assignments to `initrd_nodes[i]`. -/
def fileNode (name : List UInt8) (length i : ℕ) (n : VfsNode) : Option VfsNode := do
  let name ← strcpy n.name name
  return { n with
    name, length, inode := i, flags := vfsFile
    read := 0, write := 0, readdir := 0, finddir := 0, open' := 0, close := 0 }

/-- The body of the loop over the headers: the offset of the file is relocated, and its node
    filled in. -/
def initrdNode (e : Env Initrd) (i : ℕ) : Option (Env Initrd) := do
  let header := e.world.initfsFileheaders + sizeofFileheader * i
  let offset ← e.world.load (header + 56)
  let g ← e.world.store (header + 56) (add32 offset e.world.initrdStartaddr)
  let name ← g.bytes (header + 4)
  let length ← g.load (header + 60)
  let heap ← e.heap.assign (g.initrdNodes + i) (fileNode name length i)
  return ⟨heap, g⟩

/-- `for (unsigned int i = 0; i < initfs_header->headers; i++)`, from `i` on. -/
def initrdLoop : ℕ → ℕ → Env Initrd → Option (Env Initrd)
  | 0, _, _ => none
  | fuel + 1, i, e => do
    let headers ← e.world.headers
    if i < headers then initrdLoop fuel (i + 1) (← initrdNode e i) else return e

/-- The array of nodes: `malloc(sizeof(vfs_node_t) * initfs_header->headers)`. -/
def initrdArray (a : InitrdMalloc) (h : NodeHeap) (headers : ℕ) : NodeHeap × ℕ :=
  if a.hasRoom then
    h.mallocArray (mul32 sizeofVfsNode headers / sizeofVfsNode) fun i => (a.nodes i).1
  else (h, 0)

/-- `initrd_init`. The loop takes fuel, more than the headers it can count. -/
def initrdInit (a : InitrdMalloc) (e : Env Initrd) : Option (Env Initrd) :=
  if e.world.initrdExists = 0 then some e
  else do
    let start := e.world.initrdStartaddr
    -- the verdict is only logged
    let _ ← initrdVerify e.world start
    let m := e.heap.malloc a.mountpoint.1
    let heap ← m.1.assign m.2 fun _ => some zeroNode
    let heap ← heap.assign m.2 mountpointNode
    let g := { e.world with
      initfsHeader := start
      initfsFileheaders := start + sizeofSuperheader
      initrdMountpoint := m.2 }
    let nodes := initrdArray a heap (← g.headers)
    initrdLoop (2 ^ 32 + 1) 0 ⟨nodes.1, { g with initrdNodes := nodes.2 }⟩

/-! ## The callbacks of the nodes -/

/-- `for (unsigned int i = 0; i < initfs_header->headers; i++)` of `initrd_finddir`. -/
def finddirLoop (e : Env Initrd) (name : List UInt8) : ℕ → ℕ → Option ℕ
  | 0, _ => none
  | fuel + 1, i => do
    let headers ← e.world.headers
    if i < headers then
      let n ← e.heap.node (e.world.initrdNodes + i)
      if (← strcmp name n.name) = 0 then return e.world.initrdNodes + i
      else finddirLoop e name fuel (i + 1)
    else return 0

/-- `initrd_finddir` -/
def initrdFinddir (e : Env Initrd) (name : List UInt8) : Option ℕ :=
  finddirLoop e name (2 ^ 32 + 1) 0

/-- `initrd_readdir`, where the new entry holds `garbage`. -/
def initrdReaddir (garbage : { d : Dirent // d.name.length = 128 }) (e : Env Initrd)
    (index : ℕ) : Option (Option Dirent) := do
  if (← e.world.headers) ≤ index then return none
  let n ← e.heap.node (e.world.initrdNodes + index)
  let name ← strcpy garbage.1.name n.name
  let len ← strlen n.name
  return some ⟨name.set len 0, n.inode⟩

end Beryllium

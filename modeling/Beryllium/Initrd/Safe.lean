import Beryllium.Initrd.Populate

/-!
# Safety of the initial ramdisk

`initrd_init` does not check the image: it sets its pointers for any image, and the loop goes
as far as the header says. `initrd_init_safe_iff`: it is safe, i.e., it stays within the
image, the names and the array of nodes, and sets nothing for an image that is not valid,
exactly for the valid images whose nodes fit in memory.
-/

namespace Beryllium

open Machine

/-! ## initrd_init -/

/-- `*initrd_mountpoint` after `initrd_init`. -/
def ramdiskNode : VfsNode :=
  { zeroNode with
    name := ramdisk0 ++ 0 :: List.replicate 247 0
    permissions := vfsPermissionRead
    flags := vfsDirectory ||| vfsMountpoint
    readdir := initrdReaddirFn
    finddir := initrdFinddirFn }

/-- The globals before the loop of `initrd_init`. -/
def initrdReady (start : ℕ) (image : List UInt8) (mountpoint nodes : ℕ) : Initrd :=
  ⟨1, start, start + image.length, start, start + 64, mountpoint, nodes, image⟩

variable {image : List UInt8} {start p k n i : ℕ} {h h₀ heap : NodeHeap} {e e' : Env Initrd}
  {a : InitrdMalloc}

theorem length_zeroNode : zeroNode.name.length = 256 := List.length_replicate

theorem mountpointNode_zeroNode : mountpointNode zeroNode = some ramdiskNode := by
  have hname : CStr (ramdisk0 ++ [0]) ramdisk0 := ⟨by decide, [], rfl⟩
  have hfits : ramdisk0.length + 1 ≤ zeroNode.name.length := by
    rw [length_zeroNode]
    decide
  have hcopy := strcpy_eq hname hfits
  have hdrop : zeroNode.name.drop (ramdisk0.length + 1) = List.replicate 247 0 :=
    List.drop_replicate
  rw [mountpointNode, hcopy, hdrop]
  rfl

theorem initrdReady_headers (start : ℕ) (image : List UInt8) (p q : ℕ) :
    (initrdReady start image p q).headers = loadWord image 4 :=
  Initrd.load_eq (g := initrdReady start image p q) rfl 4

/-- `initrd_init` reads the first words of the image, and then runs the loop. -/
theorem initrdInit_eq (a : InitrdMalloc) (heap : NodeHeap) (start : ℕ) (image : List UInt8) :
    ∃ h : NodeHeap, h.bound = heap.bound + 1 ∧
      h.node = Function.update heap.node heap.bound (some ramdiskNode) ∧
      initrdInit a ⟨heap, initrdAt start image⟩ =
        (loadWord image 0).bind fun _ => (loadWord image 4).bind fun n =>
          initrdLoop (2 ^ 32 + 1) 0 ⟨(initrdArray a h n).1,
            initrdReady start image heap.bound (initrdArray a h n).2⟩ := by
  have hnew : (heap.malloc a.mountpoint.1).1.node heap.bound = some a.mountpoint.1 :=
    Function.update_self ..
  obtain ⟨h₁, hzero, hbound₁, hnode₁⟩ :=
    NodeHeap.assign_eq hnew (f := fun _ => some zeroNode) rfl
  have hnode₁' : h₁.node heap.bound = some zeroNode := by
    rw [hnode₁, Function.update_self]
  obtain ⟨h₂, hmount, hbound₂, hnode₂⟩ := NodeHeap.assign_eq hnode₁' mountpointNode_zeroNode
  have hverify : (initrdAt start image).load start = loadWord image 0 :=
    Initrd.load_eq (g := initrdAt start image) rfl 0
  refine ⟨h₂, hbound₂.trans hbound₁, ?_, ?_⟩
  · rw [hnode₂, hnode₁, Function.update_idem]
    exact Function.update_idem ..
  · have hexists : (initrdAt start image).initrdExists ≠ 0 := Nat.one_ne_zero
    have hstart : (initrdAt start image).initrdStartaddr = start := rfl
    have hsnd : (heap.malloc a.mountpoint.1).2 = heap.bound := rfl
    rw [initrdInit, if_neg hexists]
    simp only [hstart, hsnd, initrdVerify, hverify, hzero, hmount, Option.bind_eq_bind,
      Option.pure_def, Option.bind_assoc, Option.bind_some]
    rw [← initrdReady_headers start image heap.bound 0]
    rfl

/-! ## The mountpoint -/

theorem initrdNode_mountpoint (h : initrdNode e i = some e') :
    e'.world.initrdMountpoint = e.world.initrdMountpoint := by
  simp only [initrdNode, Initrd.store, Option.bind_eq_bind, Option.bind_eq_some_iff,
    Option.pure_def, Option.some.injEq] at h
  obtain ⟨_, -, g, ⟨_, -, _, -, rfl⟩, _, -, _, -, _, -, rfl⟩ := h
  rfl

theorem initrdLoop_mountpoint {fuel : ℕ} (h : initrdLoop fuel k e = some e') :
    e'.world.initrdMountpoint = e.world.initrdMountpoint := by
  induction fuel generalizing k e with
  | zero => cases h
  | succ fuel ih =>
    rw [initrdLoop, Option.bind_eq_bind, Option.bind_eq_some_iff] at h
    obtain ⟨n, -, h⟩ := h
    split_ifs at h
    · rw [Option.bind_eq_bind, Option.bind_eq_some_iff] at h
      obtain ⟨e₁, h₁, h⟩ := h
      exact (ih h).trans (initrdNode_mountpoint h₁)
    · cases h
      rfl

/-- Whatever the image, `initrd_init` sets `initrd_mountpoint` if it does not get stuck. -/
theorem initrdInit_mountpoint (h : initrdInit a ⟨heap, initrdAt start image⟩ = some e') :
    e'.world.initrdMountpoint = heap.bound := by
  obtain ⟨h₁, -, -, hinit⟩ := initrdInit_eq a heap start image
  rw [h, eq_comm, Option.bind_eq_some_iff] at hinit
  obtain ⟨_, -, hinit⟩ := hinit
  rw [Option.bind_eq_some_iff] at hinit
  obtain ⟨n, -, hinit⟩ := hinit
  exact initrdLoop_mountpoint hinit

/-! ## The array of nodes -/

/-- The nodes of the array are allocated up to the size that `malloc` was called with. -/
theorem initrdArray_cases (a : InitrdMalloc) (h : NodeHeap) (n : ℕ) :
    (a.hasRoom = false ∧ (initrdArray a h n).2 = 0) ∨
    (a.hasRoom = true ∧ (initrdArray a h n).2 = h.bound ∧
      (∀ i < 328 * n % 4294967296 / 328, (initrdArray a h n).1.node (h.bound + i) =
        some (a.nodes i).1) ∧
      (initrdArray a h n).1.node (h.bound + 328 * n % 4294967296 / 328) = none) := by
  rw [initrdArray, mul32, sizeofVfsNode]
  cases a.hasRoom with
  | false => exact .inl ⟨rfl, rfl⟩
  | true =>
    refine .inr ⟨rfl, rfl, fun i hi => ?_, ?_⟩
    · simp only [if_true, NodeHeap.mallocArray]
      rw [if_pos (by omega), Nat.add_sub_cancel_left]
    · exact NodeHeap.fresh _ _ le_rfl

/-- The state before the loop. -/
theorem populated_zero (start : ℕ) (image : List UInt8) (mountpoint p : ℕ) (h : NodeHeap) :
    Populated start p image h 0 ⟨h, initrdReady start image mountpoint p⟩ :=
  ⟨rfl, rfl, rfl, rfl, rfl, fun _ _ => rfl, fun _ h => absurd h (Nat.not_lt_zero _),
    fun _ h => absurd h (Nat.not_lt_zero _), fun _ _ => rfl⟩

theorem ValidImage.lt (hv : ValidImage image n) : n < 4294967296 := loadWord_lt hv.headers

theorem ValidImage.first (hv : ValidImage image n) : ∃ v, loadWord image 0 = some v := by
  have := hv.table
  obtain ⟨v, hw, -⟩ := loadWord_some (b := image) (k := 0) (by omega)
  exact ⟨v, hw⟩

/-- `initrd_init` on a valid image whose nodes are allocated. -/
theorem ValidImage.initrdInit (hv : ValidImage image n) (a : InitrdMalloc) (heap : NodeHeap)
    (start : ℕ) (hsize : 328 * n < 4294967296) (hroom : a.hasRoom = true ∨ n = 0) :
    ∃ h₀ p e', Beryllium.initrdInit a ⟨heap, initrdAt start image⟩ = some e' ∧
      h₀.node heap.bound = some ramdiskNode ∧ (0 < n → heap.bound < p) ∧
      e'.world.initrdMountpoint = heap.bound ∧ Populated start p image h₀ n e' := by
  obtain ⟨h, hbound, hnode, hinit⟩ := initrdInit_eq a heap start image
  obtain ⟨v, hw⟩ := hv.first
  have hlt := hv.lt
  have hmount : (initrdArray a h n).1.node heap.bound = some ramdiskNode := by
    have hself : h.node heap.bound = some ramdiskNode := by
      rw [hnode, Function.update_self]
    rw [initrdArray]
    split_ifs
    · simp only [NodeHeap.mallocArray]
      rw [if_neg (by omega), hself]
    · exact hself
  have hnodes : ∀ i < n, ∃ nd : VfsNode,
      (initrdArray a h n).1.node ((initrdArray a h n).2 + i) = some nd ∧ nd.name.length = 256 := by
    intro i hi
    rcases initrdArray_cases a h n with ⟨hno, -⟩ | ⟨-, hp, hall, -⟩
    · rcases hroom with hroom | rfl
      · rw [hno] at hroom
        cases hroom
      · exact absurd hi (Nat.not_lt_zero _)
    · rw [hp]
      exact ⟨_, hall i (by rw [Nat.mod_eq_of_lt hsize]; omega), (a.nodes i).2⟩
  have hfuel : n - 0 < 2 ^ 32 + 1 := by omega
  obtain ⟨e', he, hpop⟩ := (populated_zero start image heap.bound (initrdArray a h n).2
    (initrdArray a h n).1).loop hv (Nat.zero_le n) hfuel hnodes
  have hrun : Beryllium.initrdInit a ⟨heap, initrdAt start image⟩ = some e' := by
    rw [hinit, hw, hv.headers]
    exact he
  refine ⟨_, _, e', hrun, hmount, fun hpos => ?_, initrdInit_mountpoint hrun, hpop⟩
  rcases initrdArray_cases a h n with ⟨hno, -⟩ | ⟨-, hp, -⟩
  · rcases hroom with hroom | rfl
    · rw [hno] at hroom
      cases hroom
    · exact absurd hpos (Nat.lt_irrefl 0)
  · rw [hp, hbound]
    exact Nat.lt_succ_self _

/-- `initrd_init` gets stuck on a valid image whose nodes are not all allocated. -/
theorem ValidImage.initrdInit_none (hv : ValidImage image n)
    (hno : ¬(328 * n < 4294967296 ∧ (a.hasRoom = true ∨ n = 0))) :
    Beryllium.initrdInit a ⟨heap, initrdAt start image⟩ = none := by
  obtain ⟨h, -, -, hinit⟩ := initrdInit_eq a heap start image
  obtain ⟨v, hw⟩ := hv.first
  rw [hinit, hw, hv.headers]
  have hpop := populated_zero start image heap.bound (initrdArray a h n).2 (initrdArray a h n).1
  rcases initrdArray_cases a h n with ⟨hroom, hp⟩ | ⟨hroom, hp, hall, hend⟩
  · have hpos : 0 < n := by
      refine Nat.pos_of_ne_zero fun hz => hno ⟨?_, .inr hz⟩
      rw [hz]
      decide
    refine hpop.loop_none hv le_rfl hpos (fun i hi => absurd hi (Nat.not_lt_zero _)) ?_
    rw [hp]
    exact NodeHeap.null _
  · have hwrap : 4294967296 ≤ 328 * n := Nat.not_lt.1 fun hlt => hno ⟨hlt, .inl hroom⟩
    refine hpop.loop_none hv (c := 328 * n % 4294967296 / 328) (Nat.zero_le _) (by omega)
      (fun i hi => ⟨_, hp ▸ hall i hi, (a.nodes i).2⟩) ?_
    rw [hp]
    exact hend

/-! ## Safety -/

/-- `initrd_init` does not get stuck, i.e., it stays within the image, the names and the array
    of nodes, and an image that is not valid leaves its pointers unset. -/
def InitSafe (a : InitrdMalloc) (e : Env Initrd) : Prop :=
  ∃ e', initrdInit a e = some e' ∧ ((∀ n, ¬ValidImage e.world.image n) →
    e'.world.initrdNodes = 0 ∧ e'.world.initrdMountpoint = 0)

/-- `initrd_init` is safe exactly on the valid images whose array of nodes is allocated, with a
    size that does not wrap. -/
theorem initrd_init_safe_iff (a : InitrdMalloc) (heap : NodeHeap) (start : ℕ)
    (image : List UInt8) : InitSafe a ⟨heap, initrdAt start image⟩ ↔
      ∃ n, ValidImage image n ∧ 328 * n < 4294967296 ∧ (a.hasRoom = true ∨ n = 0) := by
  constructor
  · rintro ⟨e', he, hunset⟩
    have hvalid : ∃ n, ValidImage image n := by
      by_contra hno
      have hzero := (hunset fun n hn => hno ⟨n, hn⟩).2
      rw [initrdInit_mountpoint he] at hzero
      exact heap.bound_pos.ne' hzero
    obtain ⟨n, hn⟩ := hvalid
    refine ⟨n, hn, ?_⟩
    by_contra hno
    rw [hn.initrdInit_none hno] at he
    cases he
  · rintro ⟨n, hn, hsize, hroom⟩
    obtain ⟨h₀, p, e', he, -⟩ := hn.initrdInit a heap start hsize hroom
    exact ⟨e', he, fun hno => absurd hn (hno n)⟩

/-- A heap without nodes. -/
def noNodes : NodeHeap := ⟨fun _ => none, 1, Nat.one_pos, rfl, fun _ _ => rfl⟩

/-- Memory full of zeros. -/
def zeroMalloc : InitrdMalloc :=
  ⟨⟨zeroNode, length_zeroNode⟩, true, fun _ => ⟨zeroNode, length_zeroNode⟩⟩

/-- An image of 64 zero bytes does not begin with `INIT`, and is taken for a ramdisk without
    files. -/
theorem zero_image_not_safe :
    ¬InitSafe zeroMalloc ⟨noNodes, initrdAt 0x100000 (List.replicate 64 0)⟩ := by
  rintro ⟨e', he, hunset⟩
  have hno : ∀ n, ¬ValidImage (List.replicate 64 0) n := fun n hn =>
    absurd hn.magic (by decide)
  have hzero := (hunset hno).2
  rw [initrdInit_mountpoint he] at hzero
  exact absurd hzero (by decide)

end Beryllium

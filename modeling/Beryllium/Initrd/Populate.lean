import Beryllium.Initrd.Init

/-!
# Populating the nodes

What the loop of `initrd_init` does to an image that is valid (`ValidImage`): after `k`
rounds the first `k` offsets are relocated, the first `k` nodes are those of the first `k`
files, and nothing else has changed (`Populated`). The loop gets to the last header exactly if
all the nodes are allocated (`initrdLoop_some`, `initrdLoop_none`).
-/

namespace Beryllium

open Machine

/-! ## Valid images -/

/-- The file `i` of the image is called `s`: its name ends within its 52 bytes. -/
def FileName (image : List UInt8) (i : ℕ) (s : List UInt8) : Prop :=
  CStr ((image.drop (68 + 64 * i)).take 52) s

/-- An image of `n` files: it begins with `INIT`, the headers of the files are inside, and so
    are their contents, and their names end. -/
structure ValidImage (image : List UInt8) (n : ℕ) : Prop where
  magic : image.take 4 = [73, 78, 73, 84]
  headers : loadWord image 4 = some n
  table : 64 + 64 * n ≤ image.length
  names : ∀ i < n, ∃ s, FileName image i s
  contents : ∀ i < n, ∃ offset length, loadWord image (120 + 64 * i) = some offset ∧
    loadWord image (124 + 64 * i) = some length ∧ offset + length ≤ image.length

/-- After `k` rounds of the loop, over the image `image` at `start`, and the nodes `p` on of
    the heap `h₀`. -/
structure Populated (start p : ℕ) (image : List UInt8) (h₀ : NodeHeap) (k : ℕ) (e : Env Initrd) :
    Prop where
  startaddr : e.world.initrdStartaddr = start
  header : e.world.initfsHeader = start
  fileheaders : e.world.initfsFileheaders = start + 64
  nodes : e.world.initrdNodes = p
  length : e.world.image.length = image.length
  frame : ∀ x, (∀ i < k, x < 120 + 64 * i ∨ 124 + 64 * i ≤ x) → e.world.image[x]? = image[x]?
  offset : ∀ i < k, ∀ v, loadWord image (120 + 64 * i) = some v →
    loadWord e.world.image (120 + 64 * i) = some (add32 v start)
  node : ∀ i < k, ∃ n s, e.heap.node (p + i) = some n ∧ FileName image i s ∧ CStr n.name s ∧
    loadWord image (124 + 64 * i) = some n.length ∧ n.inode = i
  other : ∀ q, (∀ i < k, q ≠ p + i) → e.heap.node q = h₀.node q

variable {image : List UInt8} {start p k n i : ℕ} {h₀ : NodeHeap} {e : Env Initrd} {g g' : Initrd}
  {s t b : List UInt8} {nd : VfsNode}

/-! ## Strings in a block -/

theorem FileName.length_lt (h : FileName image i s) : s.length < 52 :=
  lt_of_lt_of_le (CStr.length_lt h) (List.length_take_le _ _)

/-- The name of a file only depends on its bytes. -/
theorem FileName.congr {image' : List UInt8} (h : FileName image i s)
    (hframe : ∀ x, 68 + 64 * i ≤ x → x < 120 + 64 * i → image'[x]? = image[x]?) :
    FileName image' i s := by
  rw [FileName, take_drop_congr fun x hx hx' => hframe x hx (by omega)]
  exact h

/-! ## Pointers into the image -/

theorem Initrd.load_eq (hs : g.initrdStartaddr = start) (k : ℕ) :
    g.load (start + k) = loadWord g.image k := by
  rw [Initrd.load, Initrd.offset, hs, if_pos (Nat.le_add_right _ _), Nat.add_sub_cancel_left]
  rfl

theorem Initrd.store_eq {v : ℕ} (hs : g.initrdStartaddr = start)
    (hb : storeWord g.image k v = some b) : g.store (start + k) v = some { g with image := b } := by
  rw [Initrd.store, Initrd.offset, hs, if_pos (Nat.le_add_right _ _), Nat.add_sub_cancel_left]
  simp only [Option.bind_eq_bind, Option.bind_some, hb, Option.pure_def]

theorem Initrd.bytes_eq (hs : g.initrdStartaddr = start) (k : ℕ) :
    g.bytes (start + k) = some (g.image.drop k) := by
  rw [Initrd.bytes, Initrd.offset, hs, if_pos (Nat.le_add_right _ _), Nat.add_sub_cancel_left]
  rfl

/-! ## One round -/

theorem Populated.headers (hv : ValidImage image n) (h : Populated start p image h₀ k e) :
    e.world.headers = some n := by
  rw [Initrd.headers, h.header, Initrd.load_eq h.startaddr, ← hv.headers]
  exact loadWord_congr fun y _ _ => h.frame y fun i _ => by omega

theorem fileNode_eq (hn : nd.name.length = 256) (hs : FileName image i s) (hb : CStr b s)
    (length : ℕ) : ∃ n, fileNode b length i nd = some n ∧ CStr n.name s ∧ n.length = length ∧
      n.inode = i := by
  have hlt := hs.length_lt
  rw [fileNode, strcpy_eq hb (by omega)]
  exact ⟨_, rfl, CStr.mk hb.1 _, rfl, rfl⟩

theorem initrdNode_eq {header offset length : ℕ} {heap : NodeHeap}
    (hh : e.world.initfsFileheaders + sizeofFileheader * i = header)
    (h₁ : e.world.load (header + 56) = some offset)
    (h₂ : e.world.store (header + 56) (add32 offset e.world.initrdStartaddr) = some g)
    (h₃ : g.bytes (header + 4) = some b) (h₄ : g.load (header + 60) = some length)
    (h₅ : e.heap.assign (g.initrdNodes + i) (fileNode b length i) = some heap) :
    initrdNode e i = some ⟨heap, g⟩ := by
  simp only [initrdNode, hh, h₁, h₂, h₃, h₄, h₅, Option.bind_eq_bind, Option.bind_some,
    Option.pure_def]

/-- A round of the loop, if the node is allocated. -/
theorem Populated.step (hv : ValidImage image n) (h : Populated start p image h₀ k e)
    (hk : k < n) (hnode : h₀.node (p + k) = some nd) (hlen : nd.name.length = 256) :
    ∃ e', initrdNode e k = some e' ∧ Populated start p image h₀ (k + 1) e' := by
  obtain ⟨offset, length, hoff, hlength, -⟩ := hv.contents k hk
  obtain ⟨s, hs⟩ := hv.names k hk
  have htable := hv.table
  have hoff' : loadWord e.world.image (120 + 64 * k) = some offset := by
    rw [← hoff]
    exact loadWord_congr fun y _ _ => h.frame y fun i _ => by omega
  obtain ⟨image', hstore⟩ := storeWord_some (b := e.world.image) (k := 120 + 64 * k)
    (by rw [h.length]; omega) (add32 offset start)
  obtain ⟨hlen', hword, hrest⟩ := storeWord_spec hstore
  have hframe : ∀ x, (∀ i < k + 1, x < 120 + 64 * i ∨ 124 + 64 * i ≤ x) → image'[x]? = image[x]? :=
    fun x hx => (hrest x (by have := hx k (Nat.lt_succ_self k); omega)).trans
      (h.frame x fun i hi => hx i (by omega))
  have hs' : FileName image' k s := hs.congr fun x _ _ => hframe x fun i _ => by omega
  have hlength' : loadWord image' (124 + 64 * k) = some length := by
    rw [← hlength]
    exact loadWord_congr fun y _ _ => hframe y fun i _ => by omega
  obtain ⟨nd', hfile, hname, hnlen, hino⟩ := fileNode_eq hlen hs (CStr.of_take hs') length
  have hnode' : e.heap.node (p + k) = some nd :=
    (h.other _ fun i hi => by omega).trans hnode
  obtain ⟨heap, hassign, -, hheap⟩ := NodeHeap.assign_eq hnode' hfile
  -- what the round computes, with the header at `64 + 64 * k`
  obtain ⟨g, hg⟩ : ∃ g : Initrd, g = { e.world with image := image' } := ⟨_, rfl⟩
  have hstart : g.initrdStartaddr = start := by
    rw [hg]
    exact h.startaddr
  have himage : g.image = image' := by
    rw [hg]
  have hload : e.world.load (start + (64 + 64 * k) + 56) = some offset := by
    rw [Nat.add_assoc, ← hoff', Initrd.load_eq h.startaddr]
    congr 1
    omega
  have hstore' : e.world.store (start + (64 + 64 * k) + 56)
      (add32 offset e.world.initrdStartaddr) = some g := by
    rw [hg, h.startaddr, Nat.add_assoc, show 64 + 64 * k + 56 = 120 + 64 * k by omega]
    exact Initrd.store_eq h.startaddr hstore
  have hbytes : g.bytes (start + (64 + 64 * k) + 4) = some (image'.drop (68 + 64 * k)) := by
    rw [Nat.add_assoc, show 64 + 64 * k + 4 = 68 + 64 * k by omega, Initrd.bytes_eq hstart, himage]
  have hload' : g.load (start + (64 + 64 * k) + 60) = some length := by
    rw [Nat.add_assoc, show 64 + 64 * k + 60 = 124 + 64 * k by omega, Initrd.load_eq hstart, himage,
      hlength']
  have hassign' : e.heap.assign (g.initrdNodes + k)
      (fileNode (image'.drop (68 + 64 * k)) length k) = some heap := by
    rw [hg, ← hassign, ← h.nodes]
  have hheader : e.world.initfsFileheaders + sizeofFileheader * k = start + (64 + 64 * k) := by
    rw [h.fileheaders, Nat.add_assoc]
  refine ⟨⟨heap, g⟩, initrdNode_eq hheader hload hstore' hbytes hload' hassign', ?_⟩
  rw [hg]
  refine ⟨h.startaddr, h.header, h.fileheaders, h.nodes, hlen'.trans h.length, hframe,
    fun i hi v hv' => ?_, fun i hi => ?_, fun q hq => ?_⟩
  · rcases Nat.lt_succ_iff_lt_or_eq.1 hi with hi | rfl
    · rw [← h.offset i hi v hv']
      exact loadWord_congr fun y _ _ => hrest y (by omega)
    · rw [hoff] at hv'
      cases hv'
      rw [hword, Nat.mod_eq_of_lt (add32_lt _ _)]
  · rcases Nat.lt_succ_iff_lt_or_eq.1 hi with hi | rfl
    · obtain ⟨m, t, hm, hrest⟩ := h.node i hi
      refine ⟨m, t, ?_, hrest⟩
      rw [hheap, Function.update_of_ne (by omega), hm]
    · exact ⟨nd', s, by rw [hheap, Function.update_self], hs, hname, hnlen ▸ hlength, hino⟩
  · rw [hheap, Function.update_of_ne (hq k (Nat.lt_succ_self k))]
    exact h.other q fun i hi => hq i (by omega)

/-- A round gets stuck at a node that is not allocated. -/
theorem Populated.step_none (h : Populated start p image h₀ k e) (hnode : h₀.node (p + k) = none) :
    initrdNode e k = none := by
  have hnode' : e.heap.node (p + k) = none := (h.other _ fun i hi => by omega).trans hnode
  rw [initrdNode]
  simp only [Option.bind_eq_bind]
  refine Option.bind_eq_none_iff.2 fun _ _ => Option.bind_eq_none_iff.2 fun g hg =>
    Option.bind_eq_none_iff.2 fun _ _ => Option.bind_eq_none_iff.2 fun _ _ => ?_
  have hp : g.initrdNodes = p := by
    rw [← h.nodes]
    simp only [Initrd.store, Option.bind_eq_bind, Option.bind_eq_some_iff, Option.pure_def] at hg
    obtain ⟨_, -, _, -, hg⟩ := hg
    cases hg
    rfl
  rw [hp, NodeHeap.assign_none hnode']
  rfl

/-! ## The loop -/

/-- The loop fills in all the nodes, if they are allocated. -/
theorem Populated.loop (hv : ValidImage image n) {fuel : ℕ} (h : Populated start p image h₀ k e)
    (hk : k ≤ n) (hfuel : n - k < fuel)
    (hnodes : ∀ i < n, ∃ nd : VfsNode, h₀.node (p + i) = some nd ∧ nd.name.length = 256) :
    ∃ e', initrdLoop fuel k e = some e' ∧ Populated start p image h₀ n e' := by
  induction fuel generalizing k e with
  | zero => exact absurd hfuel (Nat.not_lt_zero _)
  | succ fuel ih =>
    rw [initrdLoop, h.headers hv, Option.bind_eq_bind, Option.bind_some]
    split_ifs with hlt
    · obtain ⟨nd, hnode, hlen⟩ := hnodes k hlt
      obtain ⟨e', he, h'⟩ := h.step hv hlt hnode hlen
      rw [he]
      exact ih h' hlt (by omega)
    · obtain rfl : k = n := by omega
      exact ⟨e, rfl, h⟩

/-- The loop gets stuck, if a node is not allocated. -/
theorem Populated.loop_none (hv : ValidImage image n) {fuel c : ℕ}
    (h : Populated start p image h₀ k e) (hk : k ≤ c) (hc : c < n)
    (hnodes : ∀ i < c, ∃ nd : VfsNode, h₀.node (p + i) = some nd ∧ nd.name.length = 256)
    (hno : h₀.node (p + c) = none) : initrdLoop fuel k e = none := by
  induction fuel generalizing k e with
  | zero => rfl
  | succ fuel ih =>
    rw [initrdLoop, h.headers hv, Option.bind_eq_bind, Option.bind_some, if_pos (by omega)]
    rcases hk.eq_or_lt with rfl | hlt
    · rw [h.step_none hno]
      rfl
    · obtain ⟨nd, hnode, hlen⟩ := hnodes k hlt
      obtain ⟨e', he, h'⟩ := h.step hv (by omega) hnode hlen
      rw [he]
      exact ih h' hlt

end Beryllium

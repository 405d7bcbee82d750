import Beryllium.Machine.System
import Beryllium.X86.Regions

/-!
# The list of regions

`memsig` registers a region at the end of the list. It takes it from the array `mman_prealloc` until
there is a heap, and from `malloc` then. `memman_init` presets `mman_region` to the first region of
the array, which the first call of `memsig` then appends to itself: its back link leads to itself
for ever, and the list is as it is meant to be otherwise (`region_list`).
-/

namespace Beryllium

open Machine

/-- The arguments of `memsig`. -/
structure Sig where
  start : ℕ
  size : ℕ
  type : ℕ
  flags : ℕ

/-- The arguments that a region was registered with. -/
def MmanRegion.sig (r : MmanRegion) : Sig := ⟨r.start, r.size, r.type, r.flags⟩

/-- The variables of the memory manager. -/
structure Mman where
  mem : RegionMem
  mmanRegion : ℕ
  preallocPtr : ℕ
  status : ℕ

/-- The loop of `memsig`, which appends `region` to the list. -/
def linkLoop (region : ℕ) (m : RegionMem) : ℕ → ℕ → Option RegionMem
  | 0, _ => none
  | fuel + 1, parentPtr =>
    if parentPtr = 0 then some (m.modify region fun r => { r with next := 0 })
    else if (m parentPtr).next = 0 then
      let m := m.modify parentPtr fun r => { r with next := region }
      let m := m.modify region fun r => { r with prev := parentPtr }
      some (m.modify region fun r => { r with next := 0 })
    else linkLoop region m fuel (m parentPtr).next

section

variable (mmanPrealloc kernelEnd : ℕ)

/-- The region that `memsig` takes, given what `malloc` returns. -/
def Mman.take (s : Mman) (ptr : ℕ) : ℕ × Mman :=
  if s.status = 1 then
    (mmanPrealloc + 20 * s.preallocPtr, { s with preallocPtr := (s.preallocPtr + 1) % 256 })
  else (ptr, s)

/-- `memsig`. `ptr` is what `malloc` returns, if it is called. -/
def memsig (s : Mman) (ptr start size type flags : ℕ) : Option (ℕ × Mman) := do
  if size = 0 then return (1, s)
  else if s.status = 0 then return (2, s)
  else
    let region := s.take mmanPrealloc ptr
    let m := s.mem.modify region.1 fun r =>
      { r with start := start, size := size, type := type, flags := flags, used := 1 }
    let status := if type = 1 ∧ s.status = 1 then 2 else s.status
    let m ← linkLoop region.1 m regionFuel s.mmanRegion
    return (0, { region.2 with mem := m, status := status })

/-- The region of the kernel, and that of its heap. -/
def bootSigs : List Sig :=
  [⟨0, kernelEnd, 0, 0x21⟩, ⟨add32 (kernelEnd / 0x1000 * 0x1000) 0x1000, 0x100000, 1, 0x21⟩]

/-- `memset(mman_prealloc, 0, sizeof(mman_region_t) * 0xFF)` -/
def clearPrealloc (m : RegionMem) : RegionMem := fun a =>
  if mmanPrealloc ≤ a ∧ a < mmanPrealloc + 20 * 0xFF then ⟨0, 0, 0, 0, 0, 0, 0⟩ else m a

/-- `memman_init`. `kernelEnd` is the address of `_end`. -/
def memmanInit (s : Mman) : Option Mman := do
  let s := { s with
    mem := clearPrealloc mmanPrealloc s.mem
    mmanRegion := mmanPrealloc
    status := 1 }
  let r ← memsig mmanPrealloc s 0 0 kernelEnd 0 0x21
  let r ← memsig mmanPrealloc r.2 0 (add32 (kernelEnd / 0x1000 * 0x1000) 0x1000) 0x100000 1 0x21
  return r.2

end

/-- The loop of `get_kernel_heap`. -/
def kernelHeapLoop (m : RegionMem) : ℕ → ℕ → Option ℕ
  | 0, _ => none
  | fuel + 1, parentPtr =>
    if parentPtr = 0 then some 0
    else if (m parentPtr).type = 1 then some parentPtr
    else kernelHeapLoop m fuel (m parentPtr).next

/-- `get_kernel_heap` -/
def getKernelHeap (s : Mman) : Option ℕ := kernelHeapLoop s.mem regionFuel s.mmanRegion

/-- The memory manager, what was registered, and the blocks of `malloc` that it has. -/
structure SigState where
  mman : Mman
  sigs : List Sig
  blocks : List ℕ

/-- A call of `memsig`, with what `malloc` returns. -/
structure SigOp where
  ptr : ℕ
  sig : Sig

/-- `malloc` returns memory that is not in use. -/
structure FreshRegion (mmanPrealloc : ℕ) (s : SigState) (ptr : ℕ) : Prop where
  pos : 0 < ptr
  le : ptr + 20 ≤ 4294967296
  prealloc : ptr + 20 ≤ mmanPrealloc ∨ mmanPrealloc + 20 * 0xFF ≤ ptr
  blocks : ∀ b ∈ s.blocks, ptr + 20 ≤ b ∨ b + 20 ≤ ptr

/-- Calls of `memsig` after `memman_init`. -/
def sigSystem (mmanPrealloc kernelEnd : ℕ) : System SigState SigOp where
  init s := (∃ s₀ : Mman, s₀.preallocPtr = 0 ∧ memmanInit mmanPrealloc kernelEnd s₀ = some s.mman) ∧
    s.sigs = bootSigs kernelEnd ∧ s.blocks = []
  guard s op := op.sig.size ≠ 0 → FreshRegion mmanPrealloc s op.ptr
  step s op := (memsig mmanPrealloc s.mman op.ptr op.sig.start op.sig.size op.sig.type
    op.sig.flags).map fun r =>
    if r.1 = 0 then ⟨r.2, s.sigs ++ [op.sig], s.blocks ++ [op.ptr]⟩ else { s with mman := r.2 }

/-- The links lead through the regions `ns`, which were registered with `sigs`, and back. The back
    link of the first region is to `first`. -/
structure RegionList (m : RegionMem) (first head : ℕ) (ns : List ℕ) (sigs : List Sig) : Prop where
  head_eq : head = ns.headD 0
  links : DSeg (fun a => (m a).next) (fun a => (m a).prev) False first ns 0
  nodup : ns.Nodup
  ne_zero : 0 ∉ ns
  sigs_eq : ns.map (fun a => (m a).sig) = sigs

/-- What the list of regions is for, up to the back link of its first region. -/
structure KeepsRegions (mmanPrealloc first : ℕ) (s : SigState) : Prop where
  list : ∃ ns, RegionList s.mman.mem first s.mman.mmanRegion ns s.sigs ∧
    getKernelHeap s.mman = some ((ns.find? fun a => (s.mman.mem a).type = 1).getD 0)
  zero : ∀ ptr start type flags, memsig mmanPrealloc s.mman ptr start 0 type flags =
      some (1, s.mman)

variable {m : RegionMem}
  {mmanPrealloc kernelEnd first head p x l q fuel start size type flags ptr : ℕ}
  {ns : List ℕ} {sigs : List Sig} {s : SigState} {t : Mman}

/-! ## The loops -/

/-- The stores that link a region to the last one. -/
def RegionMem.link (m : RegionMem) (l x : ℕ) : RegionMem :=
  ((m.modify l fun r => { r with next := x }).modify x fun r => { r with prev := l }).modify x
    fun r => { r with next := 0 }

/-- The loop of `memsig` stops at the last region. -/
theorem linkLoop_eq (h : Visits (fun a => (m a).next) p ns) (hne : ns ≠ [])
    (hfuel : ns.length < fuel) : linkLoop x m fuel p = some (m.link (ns.getLastD q) x) := by
  induction ns generalizing p q fuel with
  | nil => exact absurd rfl hne
  | cons a ns ih =>
    obtain ⟨fuel, rfl⟩ : ∃ k, fuel = k + 1 := Nat.exists_eq_succ_of_ne_zero (by omega)
    obtain ⟨rfl, hp₀, hrest⟩ := h
    rw [linkLoop, if_neg hp₀, List.getLastD_cons]
    cases ns with
    | nil =>
      have hnext : (m p).next = 0 := hrest
      exact if_pos hnext
    | cons b ns =>
      have hnext : (m p).next ≠ 0 := hrest.1.trans_ne hrest.2.1
      rw [if_neg hnext]
      exact ih hrest (List.cons_ne_nil b ns) (Nat.lt_of_succ_lt_succ hfuel)

/-- `get_kernel_heap` ends at the first region of its type. -/
theorem kernelHeapLoop_eq (h : Visits (fun a => (m a).next) p ns) (hfuel : ns.length < fuel) :
    kernelHeapLoop m fuel p = some ((ns.find? fun a => (m a).type = 1).getD 0) := by
  induction ns generalizing p fuel with
  | nil =>
    obtain ⟨fuel, rfl⟩ : ∃ k, fuel = k + 1 := Nat.exists_eq_succ_of_ne_zero (by omega)
    exact if_pos h
  | cons a ns ih =>
    obtain ⟨fuel, rfl⟩ : ∃ k, fuel = k + 1 := Nat.exists_eq_succ_of_ne_zero (by omega)
    obtain ⟨rfl, hp₀, hrest⟩ := h
    rw [kernelHeapLoop, if_neg hp₀, List.find?_cons]
    by_cases htype : (m p).type = 1
    · rw [if_pos htype, decide_eq_true htype]
      rfl
    · rw [if_neg htype, decide_eq_false htype]
      exact ih hrest (Nat.lt_of_succ_lt_succ hfuel)

/-! ## A call -/

/-- The stores of `memsig` to its region. -/
def RegionMem.fill (m : RegionMem) (x : ℕ) (sig : Sig) : RegionMem := m.modify x fun r =>
  { r with start := sig.start, size := sig.size, type := sig.type, flags := sig.flags, used := 1 }

namespace RegionMem

variable (m) {a : ℕ} {sig : Sig}

theorem fill_next : (m.fill x sig a).next = (m a).next := by
  rw [fill, modify]
  split_ifs with h
  · rw [h]
  · rfl

theorem fill_prev : (m.fill x sig a).prev = (m a).prev := by
  rw [fill, modify]
  split_ifs with h
  · rw [h]
  · rfl

theorem fill_self : (m.fill x sig x).sig = sig := by
  rw [fill, modify_self]
  rfl

theorem fill_of_ne (h : a ≠ x) : m.fill x sig a = m a := m.modify_of_ne _ h

theorem link_self_next : (m.link l x x).next = 0 := by
  rw [link, modify_self]

theorem link_self_prev : (m.link l x x).prev = l := by
  rw [link, modify_self, modify_self]

theorem link_last_next (h : l ≠ x) : (m.link l x l).next = x := by
  rw [link, modify_of_ne _ _ h, modify_of_ne _ _ h, modify_self]

theorem link_next (hl : a ≠ l) (hx : a ≠ x) : (m.link l x a).next = (m a).next := by
  rw [link, modify_of_ne _ _ hx, modify_of_ne _ _ hx, modify_of_ne _ _ hl]

theorem link_prev (hx : a ≠ x) : (m.link l x a).prev = (m a).prev := by
  rw [link, modify_of_ne _ _ hx, modify_of_ne _ _ hx, modify]
  split_ifs with h
  · rw [h]
  · rfl

theorem modify_sig {b : ℕ} {f : MmanRegion → MmanRegion} (hf : ∀ r, (f r).sig = r.sig) :
    (m.modify b f a).sig = (m a).sig := by
  rw [modify]
  split_ifs with h
  · rw [h, hf]
  · rfl

/-- Linking a region does not change what was registered. -/
theorem link_sig : (m.link l x a).sig = (m a).sig := by
  rw [link, modify_sig, modify_sig, modify_sig]
  all_goals exact fun _ => rfl

end RegionMem

/-- A call for no bytes. -/
theorem memsig_zero : memsig mmanPrealloc t ptr start 0 type flags = some (1, t) := rfl

/-- A call for some bytes appends the region that it takes. -/
theorem memsig_eq (hsize : size ≠ 0) (hstatus : t.status ≠ 0)
    (h : Visits (fun a => (t.mem a).next) t.mmanRegion ns) (hne : ns ≠ [])
    (hlen : ns.length < regionFuel) :
    memsig mmanPrealloc t ptr start size type flags = some (0, { (t.take mmanPrealloc ptr).2 with
      mem := (t.mem.fill (t.take mmanPrealloc ptr).1 ⟨start, size, type, flags⟩).link
        (ns.getLastD q) (t.take mmanPrealloc ptr).1
      status := if type = 1 ∧ t.status = 1 then 2 else t.status }) := by
  have hfill := linkLoop_eq (m := t.mem.fill (t.take mmanPrealloc ptr).1 ⟨start, size, type, flags⟩)
    (x := (t.take mmanPrealloc ptr).1) (q := q) (h.congr fun a _ => t.mem.fill_next) hne hlen
  rw [memsig, if_neg hsize, if_neg hstatus]
  exact congrArg (Option.bind · _) hfill

/-- The first region is linked to itself. -/
theorem RegionList.single (m : RegionMem) (hp : p ≠ 0) (sig : Sig) :
    RegionList ((m.fill p sig).link p p) p p [p] [sig] := by
  refine ⟨rfl, ⟨.inl (m.fill p sig).link_self_prev, (m.fill p sig).link_self_next, trivial⟩,
    List.nodup_singleton p, fun h => hp (List.mem_singleton.1 h).symm, ?_⟩
  rw [List.map_singleton, RegionMem.link_sig, RegionMem.fill_self]

/-- A new region at the end of the list. -/
theorem RegionList.push (h : RegionList m first head ns sigs) (hne : ns ≠ []) (hx : x ∉ ns)
    (hx₀ : x ≠ 0) (sig : Sig) :
    RegionList ((m.fill x sig).link (ns.getLastD first) x) first head (ns ++ [x])
    (sigs ++ [sig]) := by
  have hnex : ∀ a ∈ ns, a ≠ x := fun a ha heq => hx (heq ▸ ha)
  have hlast : ns.getLastD first ≠ x := by
    obtain ⟨xs, b, rfl⟩ := (List.eq_nil_or_concat ns).resolve_left hne
    rw [List.concat_eq_append] at hnex ⊢
    rw [getLastD_append]
    exact hnex b (List.mem_append_right _ (List.mem_singleton_self b))
  refine ⟨?_, dseg_append.2 ⟨?_, .inl (RegionMem.link_self_prev _), RegionMem.link_self_next _,
    trivial⟩, ?_, ?_, ?_⟩
  · rw [headD_append, h.head_eq]
    cases ns with
    | nil => exact absurd rfl hne
    | cons a ns => rfl
  · refine h.links.relink_last h.nodup (fun a ha hal => ?_) (fun a ha => ?_) fun _ => ?_
    · rw [RegionMem.link_next _ hal (hnex a ha), RegionMem.fill_next]
    · rw [RegionMem.link_prev _ (hnex a ha), RegionMem.fill_prev]
    · exact RegionMem.link_last_next _ hlast
  · exact nodup_append_singleton h.nodup hx
  · exact zero_notMem_append h.ne_zero hx₀
  · rw [List.map_append, List.map_singleton, RegionMem.link_sig, RegionMem.fill_self]
    have hkeep : ns.map (fun a => ((m.fill x sig).link (ns.getLastD first) x a).sig) =
        ns.map fun a => (m a).sig := by
      refine List.map_congr_left fun a ha => ?_
      rw [RegionMem.link_sig, RegionMem.fill_of_ne _ (hnex a ha)]
    rw [hkeep, h.sigs_eq]

theorem RegionList.visits (h : RegionList m first head ns sigs) :
    Visits (fun a => (m a).next) head ns := by
  rw [h.head_eq]
  exact h.links.visits_next h.ne_zero

/-- The back link of the first region. -/
theorem RegionList.prev_head (h : RegionList m first head ns sigs) (hne : ns ≠ []) :
    (m head).prev = first := by
  cases ns with
  | nil => exact absurd rfl hne
  | cons a ns =>
    obtain rfl : head = a := h.head_eq
    exact h.links.1.resolve_right fun hf => hf.1

/-! ## Every run -/

/-- The list of the regions, whose first one is linked back to itself. -/
structure SigInv (mmanPrealloc : ℕ) (s : SigState) (ns : List ℕ) : Prop where
  list : RegionList s.mman.mem s.mman.mmanRegion s.mman.mmanRegion ns s.sigs
  ne_nil : ns ≠ []
  status : s.mman.status = 2
  own : ∀ a ∈ ns, (mmanPrealloc ≤ a ∧ a < mmanPrealloc + 20 * 0xFF) ∨ a ∈ s.blocks
  lt : ∀ a ∈ ns, a < 4294967296

theorem SigInv.length_lt (h : SigInv mmanPrealloc s ns) : ns.length < regionFuel :=
  length_lt_regionFuel h.list.nodup h.lt

/-- `memman_init` registers two regions of the array. -/
theorem memmanInit_eq (hp : 0 < mmanPrealloc) (hend : kernelEnd ≠ 0) (hptr : t.preallocPtr = 0) :
    ∃ t', memmanInit mmanPrealloc kernelEnd t = some t' ∧ t'.mmanRegion = mmanPrealloc ∧
    t'.status = 2 ∧
      RegionList t'.mem mmanPrealloc mmanPrealloc [mmanPrealloc, mmanPrealloc + 20]
      (bootSigs kernelEnd) := by
  have hlen : 1 < regionFuel := by decide
  -- the first call finds the region that it takes in the list
  let t₀ : Mman := { t with
    mem := clearPrealloc mmanPrealloc t.mem
    mmanRegion := mmanPrealloc
    status := 1 }
  have hvisits : Visits (fun a => (t₀.mem a).next) mmanPrealloc [mmanPrealloc] := by
    refine ⟨rfl, hp.ne', ?_⟩
    have hcell : mmanPrealloc ≤ mmanPrealloc ∧ mmanPrealloc < mmanPrealloc + 20 * 0xFF := by omega
    exact congrArg MmanRegion.next (if_pos hcell)
  have htake : t₀.take mmanPrealloc 0 = (mmanPrealloc, { t₀ with preallocPtr := 1 }) := by
    rw [Mman.take, if_pos rfl, hptr]
    rfl
  let t₁ : Mman := { t₀ with
    mem := (t₀.mem.fill mmanPrealloc ⟨0, kernelEnd, 0, 0x21⟩).link mmanPrealloc mmanPrealloc,
      preallocPtr := 1 }
  have hfirst : memsig mmanPrealloc t₀ 0 0 kernelEnd 0 0x21 = some (0, t₁) := by
    rw [memsig_eq (q := mmanPrealloc) hend Nat.one_ne_zero hvisits (List.cons_ne_nil _ _)
      hlen, htake]
    rfl
  have hlist := RegionList.single t₀.mem hp.ne' ⟨0, kernelEnd, 0, 0x21⟩
  have hvisits₁ : Visits (fun a => (t₁.mem a).next) t₁.mmanRegion [mmanPrealloc] := hlist.visits
  -- the second call takes the next one
  let t₂ : Mman := { t₁ with
    mem := (t₁.mem.fill (mmanPrealloc + 20)
      ⟨add32 (kernelEnd / 0x1000 * 0x1000) 0x1000, 0x100000, 1, 0x21⟩).link
      mmanPrealloc (mmanPrealloc + 20)
    preallocPtr := 2
    status := 2 }
  have hsecond : memsig mmanPrealloc t₁ 0 (add32 (kernelEnd / 0x1000 * 0x1000) 0x1000)
      0x100000 1 0x21 = some (0, t₂) := by
    rw [memsig_eq (q := mmanPrealloc) (by decide) Nat.one_ne_zero hvisits₁
      (List.cons_ne_nil _ _) hlen]
    rfl
  have hpush := hlist.push (x := mmanPrealloc + 20) (List.cons_ne_nil _ _) (by simp) (by omega)
    ⟨add32 (kernelEnd / 0x1000 * 0x1000) 0x1000, 0x100000, 1, 0x21⟩
  have hinit : memmanInit mmanPrealloc kernelEnd t = some t₂ :=
    Option.bind_eq_some_iff.2 ⟨_, hfirst, Option.bind_eq_some_iff.2 ⟨_, hsecond, rfl⟩⟩
  exact ⟨t₂, hinit, rfl, rfl, hpush⟩

theorem SigInv.of_init (hp : 0 < mmanPrealloc) (hle : mmanPrealloc + 20 * 0xFF ≤ 4294967296)
    (hend : kernelEnd ≠ 0) (h : (sigSystem mmanPrealloc kernelEnd).init s) :
    SigInv mmanPrealloc s [mmanPrealloc, mmanPrealloc + 20] := by
  obtain ⟨⟨s₀, hptr, hinit⟩, hsigs, -⟩ := h
  obtain ⟨t, ht, hregion, hstatus, hlist⟩ := memmanInit_eq hp hend hptr
  obtain rfl := Option.some.inj (hinit.symm.trans ht)
  have hin : ∀ a ∈ [mmanPrealloc, mmanPrealloc + 20], mmanPrealloc ≤ a ∧
      a < mmanPrealloc + 20 * 0xFF := by
    intro a ha
    simp only [List.mem_cons, List.not_mem_nil, or_false] at ha
    omega
  refine ⟨?_, List.cons_ne_nil _ _, hstatus, fun a ha => .inl (hin a ha), fun a ha => ?_⟩
  · rw [hregion, hsigs]
    exact hlist
  · have := (hin a ha).2
    omega

/-- A call keeps the invariant: one for no bytes changes nothing, any other one appends the block
    from `malloc`. -/
theorem SigInv.step {op : SigOp} {s' : SigState} (h : SigInv mmanPrealloc s ns)
    (hg : (sigSystem mmanPrealloc kernelEnd).guard s op)
    (hs : (sigSystem mmanPrealloc kernelEnd).step s op = some s') :
    ∃ ns', SigInv mmanPrealloc s' ns' := by
  obtain ⟨ptr, start, size, type, flags⟩ := op
  obtain ⟨r, hr, rfl⟩ := Option.map_eq_some_iff.1 hs
  by_cases hsize : size = 0
  · subst hsize
    obtain rfl := Option.some.inj (memsig_zero.symm.trans hr)
    exact ⟨ns, h⟩
  · have hfresh := hg hsize
    have hne₂ : s.mman.status ≠ 1 := h.status.trans_ne (by decide)
    have htake : s.mman.take mmanPrealloc ptr = (ptr, s.mman) := if_neg hne₂
    have hcall : memsig mmanPrealloc s.mman ptr start size type flags = _ :=
      memsig_eq (q := s.mman.mmanRegion) hsize (h.status.trans_ne (by decide)) h.list.visits
        h.ne_nil h.length_lt
    rw [htake] at hcall
    obtain rfl := Option.some.inj (hcall.symm.trans hr)
    -- the block is neither in the array nor one of those before
    have hx : ptr ∉ ns := by
      intro hmem
      have hpre := hfresh.prealloc
      rcases h.own ptr hmem with hin | hin
      · dsimp only at hpre
        omega
      · have := hfresh.blocks ptr hin
        dsimp only at this
        omega
    refine ⟨ns ++ [ptr], h.list.push h.ne_nil hx hfresh.pos.ne' ⟨start, size, type, flags⟩,
      List.append_ne_nil_of_left_ne_nil h.ne_nil _, ?_, fun a ha => ?_, fun a ha => ?_⟩
    · exact (if_neg fun hc => hne₂ hc.2).trans h.status
    · rcases List.mem_append.1 ha with ha | ha
      · exact (h.own a ha).imp_right (List.mem_append_left _)
      · exact .inr (List.mem_append_right _ ha)
    · rcases List.mem_append.1 ha with ha | ha
      · exact h.lt a ha
      · have hle := hfresh.le
        rw [List.mem_singleton.1 ha]
        dsimp only at hle
        omega

theorem sigInv_of_reachable (hp : 0 < mmanPrealloc) (hle : mmanPrealloc + 20 * 0xFF ≤ 4294967296)
    (hend : kernelEnd ≠ 0) (hs : (sigSystem mmanPrealloc kernelEnd).Reachable s) :
    ∃ ns, SigInv mmanPrealloc s ns := by
  have hinit : ∀ s, (sigSystem mmanPrealloc kernelEnd).init s → ∃ ns, SigInv mmanPrealloc s ns :=
    fun s h => ⟨_, .of_init hp hle hend h⟩
  refine hs.of_step hinit ?_
  rintro s op s' ⟨ns, h⟩ hg hs
  exact h.step hg hs

/-- The back link of the first region is not null. -/
theorem SigInv.not_keepsRegions (h : SigInv mmanPrealloc s ns) :
    ¬KeepsRegions mmanPrealloc 0 s := by
  intro h'
  obtain ⟨ns', hlist, -⟩ := h'.list
  obtain rfl := h.list.visits.unique hlist.visits
  have hhead : s.mman.mmanRegion = 0 :=
    (h.list.prev_head h.ne_nil).symm.trans (hlist.prev_head h.ne_nil)
  cases ns with
  | nil => exact h.ne_nil rfl
  | cons a ns => exact h.list.visits.ne_zero a List.mem_cons_self (h.list.head_eq.symm.trans hhead)

/-- In every state, the list of the regions is as it is meant to be, but the back link of its
    first region is to itself, and not null. -/
theorem region_list (hp : 0 < mmanPrealloc) (hle : mmanPrealloc + 20 * 0xFF ≤ 4294967296)
    (hend : kernelEnd ≠ 0) (hs : (sigSystem mmanPrealloc kernelEnd).Reachable s) :
    ¬KeepsRegions mmanPrealloc 0 s ∧ KeepsRegions mmanPrealloc s.mman.mmanRegion s := by
  obtain ⟨ns, h⟩ := sigInv_of_reachable hp hle hend hs
  exact ⟨h.not_keepsRegions, ⟨ns, h.list, kernelHeapLoop_eq h.list.visits h.length_lt⟩,
    fun _ _ _ _ => rfl⟩

/-- A kernel that ends at `0x120000`, with its array at `0x110000`, after the boot. -/
theorem sigSystem_boot : ∃ s, (sigSystem 0x110000 0x120000).init s := by
  obtain ⟨t, hinit, -⟩ : ∃ t,
      memmanInit 0x110000 0x120000 ⟨fun _ => ⟨0, 0, 0, 0, 0, 0, 0⟩, 0, 0, 0⟩ = some t ∧ _ :=
    memmanInit_eq (by decide) (by decide) rfl
  exact ⟨⟨t, bootSigs 0x120000, []⟩, ⟨_, rfl, hinit⟩, rfl, rfl⟩

theorem region_list_boot : ∃ s, (sigSystem 0x110000 0x120000).init s ∧ ¬KeepsRegions 0x110000 0 s ∧
    KeepsRegions 0x110000 s.mman.mmanRegion s := by
  obtain ⟨s, hinit⟩ := sigSystem_boot
  exact ⟨s, hinit, region_list (by decide) (by decide) (show 0x120000 ≠ 0 by decide)
    ⟨s, [], hinit, .nil s⟩⟩

/-- After the boot, the first region is linked back to itself. -/
theorem region_list_self : ¬∀ (mmanPrealloc kernelEnd : ℕ) (s : SigState), 0 < mmanPrealloc →
    mmanPrealloc + 20 * 0xFF ≤ 4294967296 → kernelEnd ≠ 0 →
    (sigSystem mmanPrealloc kernelEnd).Reachable s → KeepsRegions mmanPrealloc 0 s := by
  intro h
  obtain ⟨s, hinit⟩ := sigSystem_boot
  have hinv := SigInv.of_init (by decide) (by decide) (by decide) hinit
  exact hinv.not_keepsRegions (h _ _ s (by decide) (by decide) (by decide) ⟨s, [], hinit, .nil s⟩)

end Beryllium

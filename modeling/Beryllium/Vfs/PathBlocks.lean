import Beryllium.Machine.Blocks
import Beryllium.Vfs.Path
import Mathlib.Tactic.Abel

/-!
# The blocks of canonicalize_path

`canonicalize_path` of `kernel/vfs.c` once more, with the blocks that it allocates and frees: the
copies of the two paths, the list with its nodes and strings, and the path that it returns. Freeing
a block that is not live is stuck.

It returns the same path as without the blocks, and has freed all of them but the path
(`canonicalizePath_blocks`).
-/

namespace Beryllium.Alloc

open Machine

/-! ## canonicalize_path -/

/-- An element of the list `out`: its node, its string and what the string is. -/
structure Element where
  node : ℕ
  value : ℕ
  item : List UInt8

/-- The live blocks, and the list `out`. -/
structure PathState where
  blocks : Blocks
  out : List Element

/-- A loop over the tokens of a path. -/
def tokenLoop (body : PathState → List UInt8 → Option PathState) :
    ℕ → Token → PathState → Option PathState
  | 0, _, _ => none
  | fuel + 1, r, st =>
    match r.token with
    | none => some st
    | some pch => do
      let st ← body st (r.block.drop pch)
      let r ← strtokR r.block none pathSeparatorString r.save
      tokenLoop body fuel r st

/-- The loop over the tokens of a copy of `path`, which is freed in the end. -/
def forTokens (body : PathState → List UInt8 → Option PathState) (path : List UInt8)
    (st : PathState) : Option PathState := do
  let path ← copyString path
  let (blocks, copy) := st.blocks.malloc
  let r ← strtokR path (some 0) pathSeparatorString 0
  let st ← tokenLoop body (path.length + 1) r { st with blocks := blocks }
  let blocks ← st.blocks.free copy
  return { st with blocks := blocks }

/-- A copy of a token, and a list node for it. -/
def pushElement (st : PathState) (pch : List UInt8) : Option PathState := do
  let s ← copyString pch
  let (blocks, value) := st.blocks.malloc
  let (blocks, node) := blocks.malloc
  return ⟨blocks, st.out ++ [⟨node, value, s⟩]⟩

/-- What is popped at `..` is freed. -/
def pushOrPop (st : PathState) (pch : List UInt8) : Option PathState := do
  if (← strcmp pch pathUp) = 0 then
    match st.out.getLast? with
    | none => return st
    | some n => do
      let blocks ← st.blocks.free n.value
      let blocks ← blocks.free n.node
      return ⟨blocks, st.out.dropLast⟩
  else if (← strcmp pch pathDot) = 0 then return st
  else pushElement st pch

/-- The list of path elements. -/
def pathStack (blocks : Blocks) (cwd input : List UInt8) : Option PathState := do
  let n ← strlen input
  let c ← input.head?
  let st ← if n ≠ 0 ∧ c ≠ pathSeparator then forTokens pushElement cwd ⟨blocks, []⟩
    else some ⟨blocks, []⟩
  forTokens pushOrPop input st

/-- The block of the path, which is reallocated for the root. -/
def mallocOutput (blocks : Blocks) (size : ℕ) : Option (Blocks × ℕ) :=
  if size = 0 then blocks.malloc.1.realloc blocks.malloc.2 else some blocks.malloc

/-- `list_destroy`, `list_free` and `free` of the list. -/
def freeList (blocks : Blocks) (out : List Element) (list : ℕ) : Option Blocks := do
  let blocks ← blocks.freeAll (out.map Element.value)
  let blocks ← blocks.freeAll (out.map Element.node)
  blocks.free list

/-- `canonicalize_path`: the live blocks, the block of the path, and the path. -/
def canonicalizePath (malloc : Malloc) (blocks : Blocks) (cwd input : List UInt8) :
    Option (Blocks × ℕ × List UInt8) := do
  let (blocks, list) := blocks.malloc
  let st ← pathStack blocks cwd input
  let size ← pathSize (st.out.map Element.item)
  let (blocks, output) ← mallocOutput st.blocks size
  let path ← joinPath malloc (st.out.map Element.item)
  let blocks ← freeList blocks st.out list
  return (blocks, output, path)

/-! ## What is live -/

/-- The blocks of a list. -/
def owned (out : List Element) : Multiset ℕ :=
  (out.map Element.value : Multiset ℕ) + (out.map Element.node : Multiset ℕ)

/-- The state has the list `out`, and its blocks are live besides the blocks `m`. -/
def Follows (m : Multiset ℕ) (st : PathState) (out : List (List UInt8)) : Prop :=
  st.out.map Element.item = out ∧ st.blocks.live.val = owned st.out + m

variable {m : Multiset ℕ} {st : PathState} {out out' : List (List UInt8)} {pch : List UInt8}

theorem owned_append (els : List Element) (el : Element) :
    owned (els ++ [el]) = el.value ::ₘ (el.node ::ₘ owned els) := by
  rw [owned, owned, List.map_append, List.map_append, ← Multiset.coe_add, ← Multiset.coe_add,
    ← Multiset.singleton_add, ← Multiset.singleton_add]
  simp only [List.map_cons, List.map_nil, Multiset.coe_singleton]
  abel

/-- What the loop bodies do with the list without blocks, they do with the blocks as well. -/
def Lifts (body : PathState → List UInt8 → Option PathState)
    (f : List (List UInt8) → List UInt8 → Option (List (List UInt8))) : Prop :=
  ∀ m st out pch out', Follows m st out → f out pch = some out' →
    ∃ st', body st pch = some st' ∧ Follows m st' out'

theorem pushElement_lifts : Lifts pushElement Beryllium.pushElement := by
  intro m st out pch out' h hrun
  obtain ⟨s, hs, hout⟩ := Option.bind_eq_some_iff.1 hrun
  obtain rfl := Option.some.inj hout
  let b₁ := st.blocks.malloc
  let b₂ := b₁.1.malloc
  refine ⟨⟨b₂.1, st.out ++ [⟨b₂.2, b₁.2, s⟩]⟩, by rw [pushElement, hs]; rfl, ?_, ?_⟩
  · rw [List.map_append, h.1]
    rfl
  · rw [owned_append, Blocks.malloc_live, Blocks.malloc_live, h.2]
    simp only [Multiset.cons_add]
    exact Multiset.cons_swap _ _ _

theorem pushOrPop_lifts : Lifts pushOrPop Beryllium.pushOrPop := by
  intro m st out pch out' h hrun
  obtain ⟨up, hup, hrun⟩ := Option.bind_eq_some_iff.1 hrun
  rw [pushOrPop, hup, Option.bind_eq_bind, Option.bind_some]
  split_ifs at hrun ⊢ with hz
  · -- the last element is popped, if there is one
    obtain rfl := Option.some.inj hrun
    rcases List.eq_nil_or_concat' st.out with hnil | ⟨els, el, hels⟩
    · rw [hnil]
      refine ⟨st, rfl, ?_, h.2⟩
      rw [← h.1, hnil]
      rfl
    · have hlive := h.2
      rw [hels, owned_append, Multiset.cons_add, Multiset.cons_add] at hlive
      obtain ⟨b₁, hfree₁, hlive₁⟩ := Blocks.free_eq hlive
      obtain ⟨b₂, hfree₂, hlive₂⟩ := Blocks.free_eq hlive₁
      rw [hels, List.getLast?_concat]
      refine ⟨⟨b₂, els⟩, ?_, ?_, hlive₂⟩
      · simp only [hfree₁, hfree₂, Option.bind_eq_bind, Option.bind_some, List.dropLast_concat]
        rfl
      · rw [← h.1, hels, List.map_append, List.map_singleton, List.dropLast_concat]
  · obtain ⟨dot, hdot, hrun⟩ := Option.bind_eq_some_iff.1 hrun
    rw [hdot, Option.bind_some]
    split_ifs at hrun ⊢ with hz'
    · obtain rfl := Option.some.inj hrun
      exact ⟨st, rfl, h⟩
    · exact pushElement_lifts m st out pch out' h hrun

section

variable {body : PathState → List UInt8 → Option PathState}
  {f : List (List UInt8) → List UInt8 → Option (List (List UInt8))}

theorem tokenLoop_lifts (hbody : Lifts body f) {fuel : ℕ} {r : Token} (h : Follows m st out)
    (hrun : Beryllium.tokenLoop f fuel r out = some out') :
    ∃ st', tokenLoop body fuel r st = some st' ∧ Follows m st' out' := by
  induction fuel generalizing r st out with
  | zero => cases hrun
  | succ fuel ih =>
    cases htok : r.token with
    | none =>
      rw [Beryllium.tokenLoop, htok] at hrun
      obtain rfl := Option.some.inj hrun
      exact ⟨st, by rw [tokenLoop, htok], h⟩
    | some pch =>
      rw [Beryllium.tokenLoop, htok] at hrun
      obtain ⟨out₁, hf, hrun⟩ := Option.bind_eq_some_iff.1 hrun
      obtain ⟨r', hr', hrun⟩ := Option.bind_eq_some_iff.1 hrun
      obtain ⟨st₁, hst₁, h₁⟩ := hbody m st out _ out₁ h hf
      simp only [tokenLoop, htok, hst₁, hr', Option.bind_eq_bind, Option.bind_some]
      exact ih h₁ hrun

theorem forTokens_lifts (hbody : Lifts body f) {path : List UInt8} (h : Follows m st out)
    (hrun : Beryllium.forTokens f path out = some out') :
    ∃ st', forTokens body path st = some st' ∧ Follows m st' out' := by
  obtain ⟨copy, hcopy, hrun⟩ := Option.bind_eq_some_iff.1 hrun
  obtain ⟨r, hr, hrun⟩ := Option.bind_eq_some_iff.1 hrun
  -- the copy is one more block beside the list
  have h₁ : Follows (st.blocks.malloc.2 ::ₘ m) ⟨st.blocks.malloc.1, st.out⟩ out := by
    refine ⟨h.1, ?_⟩
    rw [Blocks.malloc_live, h.2, Multiset.add_cons]
  obtain ⟨st₁, hloop, hitems, hlive⟩ := tokenLoop_lifts hbody h₁ hrun
  rw [Multiset.add_cons] at hlive
  obtain ⟨b', hfree, hlive'⟩ := Blocks.free_eq hlive
  refine ⟨⟨b', st₁.out⟩, ?_, hitems, hlive'⟩
  simp only [forTokens, hcopy, hr, hloop, hfree, Option.bind_eq_bind, Option.bind_some]
  rfl

end

/-! ## The path -/

variable {blocks : Blocks} {cwd input path : List UInt8}

theorem pathStack_lifts (h : Follows m ⟨blocks, []⟩ [])
    (hrun : Beryllium.pathStack cwd input = some out) :
    ∃ st, pathStack blocks cwd input = some st ∧ Follows m st out := by
  obtain ⟨n, hn, hrun⟩ := Option.bind_eq_some_iff.1 hrun
  obtain ⟨c, hc, hrun⟩ := Option.bind_eq_some_iff.1 hrun
  simp only [pathStack, hn, hc, Option.bind_eq_bind, Option.bind_some]
  dsimp only at hrun
  split_ifs at hrun ⊢ with hrel
  · obtain ⟨out₁, hfirst, hsecond⟩ := Option.bind_eq_some_iff.1 hrun
    obtain ⟨st₁, hst₁, h₁⟩ := forTokens_lifts pushElement_lifts h hfirst
    rw [hst₁, Option.bind_some]
    exact forTokens_lifts pushOrPop_lifts h₁ hsecond
  · exact forTokens_lifts pushOrPop_lifts h hrun

theorem mallocOutput_eq (blocks : Blocks) (size : ℕ) : ∃ blocks' output,
    mallocOutput blocks size = some (blocks', output) ∧
      blocks'.live.val = output ::ₘ blocks.live.val := by
  rw [mallocOutput]
  split_ifs
  · exact Blocks.realloc_eq Blocks.malloc_live
  · exact ⟨_, _, rfl, Blocks.malloc_live⟩

theorem freeList_eq {els : List Element} {list : ℕ}
    (h : blocks.live.val = owned els + list ::ₘ m) :
    ∃ blocks', freeList blocks els list = some blocks' ∧ blocks'.live.val = m := by
  rw [owned, add_assoc] at h
  obtain ⟨b₁, hvalues, h₁⟩ := Blocks.freeAll_eq h
  obtain ⟨b₂, hnodes, h₂⟩ := Blocks.freeAll_eq h₁
  obtain ⟨b₃, hlist, h₃⟩ := Blocks.free_eq h₂
  refine ⟨b₃, ?_, h₃⟩
  simp only [freeList, hvalues, hnodes, hlist, Option.bind_eq_bind, Option.bind_some]

/-- With the blocks, `canonicalize_path` returns the same path, and the block of the path is the
    only new one that is live. -/
theorem canonicalizePath_blocks (malloc : Malloc) (blocks : Blocks)
    (hrun : Beryllium.canonicalizePath malloc cwd input = some path) :
    ∃ blocks' output, canonicalizePath malloc blocks cwd input = some (blocks', output, path) ∧
      blocks'.live.val = output ::ₘ blocks.live.val := by
  obtain ⟨out, hstack, hjoin⟩ := Option.bind_eq_some_iff.1 hrun
  obtain ⟨size, hsize, -⟩ := Option.bind_eq_some_iff.1 hjoin
  have hstart : Follows (blocks.malloc.2 ::ₘ blocks.live.val) ⟨blocks.malloc.1, []⟩ [] := by
    refine ⟨rfl, ?_⟩
    rw [Blocks.malloc_live, owned]
    exact (zero_add _).symm
  obtain ⟨st, hst, hitems, hlive⟩ := pathStack_lifts hstart hstack
  obtain ⟨b₁, output, houtput, h₁⟩ := mallocOutput_eq st.blocks size
  rw [hlive, ← Multiset.add_cons, Multiset.cons_swap] at h₁
  obtain ⟨b₂, hfree, h₂⟩ := freeList_eq h₁
  refine ⟨b₂, output, ?_, h₂⟩
  simp only [canonicalizePath, hst, hitems, hsize, houtput, hjoin, hfree, Option.bind_eq_bind,
    Option.bind_some]
  rfl

end Beryllium.Alloc

import Beryllium.Lib.Str

/-!
# Paths

`canonicalize_path` of `kernel/vfs.c`. It splits the working directory and the path
into tokens with `strtok_r`, keeps a stack of path elements in a list, and joins the
stack to an absolute path in a new block.

The stack is the fold of the path elements (`resolve`), and the path is written as
`render` writes it (`canonicalizePath_eq`); canonical paths are left as they are
(`canonicalizePath_render`), and a relative path can be taken in two parts
(`canonicalize_path_relative`).
-/

namespace Beryllium

open Machine

/-! ## canonicalize_path -/

/-- What `malloc` returns: a block of the size asked for, with any contents. -/
structure Malloc where
  block : ℕ → List UInt8
  length_block : ∀ n, (block n).length = n

/-- `PATH_SEPARATOR` -/
def pathSeparator : UInt8 := 47

/-- `PATH_SEPARATOR_STRING` -/
def pathSeparatorString : List UInt8 := [47, 0]

/-- `PATH_UP` -/
def pathUp : List UInt8 := [46, 46, 0]

/-- `PATH_DOT` -/
def pathDot : List UInt8 := [46, 0]

/-- A loop over the tokens of a path, on the list `out`: `r` is what the last `strtok_r`
    left. -/
def tokenLoop (body : List (List UInt8) → List UInt8 → Option (List (List UInt8))) :
    ℕ → Token → List (List UInt8) → Option (List (List UInt8))
  | 0, _, _ => none
  | fuel + 1, r, out =>
    match r.token with
    | none => some out
    | some pch => do
      let out ← body out (r.block.drop pch)
      let r ← strtokR r.block none pathSeparatorString r.save
      tokenLoop body fuel r out

/-- The loop over the tokens of a copy of `path`, from its first call of `strtok_r` on. -/
def forTokens (body : List (List UInt8) → List UInt8 → Option (List (List UInt8)))
    (path : List UInt8) (out : List (List UInt8)) : Option (List (List UInt8)) := do
  let path ← copyString path
  let r ← strtokR path (some 0) pathSeparatorString 0
  tokenLoop body (path.length + 1) r out

/-- The first loop pushes a copy of every token. -/
def pushElement (out : List (List UInt8)) (pch : List UInt8) : Option (List (List UInt8)) := do
  let s ← copyString pch
  return out ++ [s]

/-- The second loop pops the list at `..`, and ignores `.`. -/
def pushOrPop (out : List (List UInt8)) (pch : List UInt8) : Option (List (List UInt8)) := do
  if (← strcmp pch pathUp) = 0 then return out.dropLast
  else if (← strcmp pch pathDot) = 0 then return out
  else pushElement out pch

/-- The list of path elements in `canonicalize_path`. -/
def pathStack (cwd input : List UInt8) : Option (List (List UInt8)) := do
  let n ← strlen input
  let c ← input.head?
  let out ← if n ≠ 0 ∧ c ≠ pathSeparator then forTokens pushElement cwd [] else some []
  forTokens pushOrPop input out

/-- The size of the path string in `canonicalize_path`. -/
def pathSize (out : List (List UInt8)) : Option ℕ :=
  out.foldlM (fun size item => (strlen item).map (size + · + 1)) 0

/-- Write to a block, from the offset `off` on. -/
def storeBytes (block : List UInt8) (off : ℕ) (bytes : List UInt8) : Option (List UInt8) :=
  if off + bytes.length ≤ block.length then
    some (block.take off ++ bytes ++ block.drop (off + bytes.length))
  else none

/-- The loop that appends the elements, from `output_offset` on. -/
def joinLoop : List (List UInt8) → List UInt8 → ℕ → Option (List UInt8)
  | [], output, _ => some output
  | item :: out, output, outputOffset => do
    let output ← storeBytes output outputOffset [pathSeparator]
    let n ← strlen item
    let output ← storeBytes output (outputOffset + 1) (item.take (n + 1))
    joinLoop out output (outputOffset + 1 + n)

/-- The block that `canonicalize_path` allocates and fills: for the root, it is reallocated to
    two bytes. -/
def joinPath (malloc : Malloc) (out : List (List UInt8)) : Option (List UInt8) := do
  let size ← pathSize out
  if size = 0 then do
    let output ← storeBytes (malloc.block 2) 0 [pathSeparator]
    storeBytes output 1 [0]
  else joinLoop out (malloc.block (size + 1)) 0

/-- `canonicalize_path` -/
def canonicalizePath (malloc : Malloc) (cwd input : List UInt8) : Option (List UInt8) := do
  let out ← pathStack cwd input
  joinPath malloc out

/-! ## What a path means -/

/-- The nonempty components of a path. -/
def components (s : List UInt8) : List (List UInt8) := (s.splitOn pathSeparator).filter (· ≠ [])

/-- `.` -/
def dot : List UInt8 := [46]

/-- `..` -/
def dotdot : List UInt8 := [46, 46]

/-- One path element, on the stack of those before it. -/
def resolveStep (stack : List (List UInt8)) (c : List UInt8) : List (List UInt8) :=
  if c = dotdot then stack.dropLast else if c = dot then stack else stack ++ [c]

/-- The path elements `cs`, from the elements of a directory on. -/
def resolve (dir cs : List (List UInt8)) : List (List UInt8) := cs.foldl resolveStep dir

/-- The directory that a path starts from: the working directory if it is relative. -/
def startDir (cwd s : List UInt8) : List (List UInt8) :=
  if s ≠ [] ∧ s.head? ≠ some pathSeparator then components cwd else []

/-- The absolute path with the given components. -/
def render (cs : List (List UInt8)) : List UInt8 :=
  if cs = [] then [pathSeparator] else cs.flatMap (pathSeparator :: ·)

/-- What the components of a canonical path look like. -/
def Canonical (cs : List (List UInt8)) : Prop :=
  ∀ c ∈ cs, c ≠ [] ∧ pathSeparator ∉ c ∧ 0 ∉ c ∧ c ≠ dot ∧ c ≠ dotdot

/-! ## The loops over the tokens -/

theorem components_eq (s : List UInt8) : components s = tokens (isDelim [pathSeparator]) s := by
  rw [components, tokens, List.splitOn_eq_splitOnP]
  congr 2
  funext c
  rw [isDelim, Bool.eq_iff_iff]
  simp

theorem cstr_pathSeparatorString : CStr pathSeparatorString [pathSeparator] :=
  CStr.mk (by decide) []

/-- The copies of path elements that are in the list. -/
def copies (stack : List (List UInt8)) : List (List UInt8) := stack.map (· ++ [0])

section

variable {body : List (List UInt8) → List UInt8 → Option (List (List UInt8))}
  {f : List (List UInt8) → List UInt8 → List (List UInt8)}

/-- If the body does on the list what `f` does on the stack, the loop folds `f` over the
    components. -/
theorem tokenLoop_eq
    (hbody : ∀ stack pch t, CStr pch t → body (copies stack) pch = some (copies (f stack t)))
    {b s : List UInt8} {v fuel : ℕ} (hb : CStr (b.drop v) s) (hfuel : s.length < fuel)
    (stack : List (List UInt8)) :
    ((strtokR b none pathSeparatorString v).bind fun r => tokenLoop body fuel r (copies stack)) =
      some (copies ((components s).foldl f stack)) := by
  induction fuel generalizing b s v stack with
  | zero => exact absurd hfuel (Nat.not_lt_zero _)
  | succ fuel ih =>
    rw [components_eq]
    rcases firstToken_cases (isDelim [pathSeparator]) s with hs | ⟨seps, tok, after, hs⟩
    · rw [strtokR_nil hb cstr_pathSeparatorString hs, Option.bind_some, tokenLoop, tokens_eq_nil hs]
      rfl
    · obtain ⟨r, o, hr, ho, htok, hrest⟩ := strtokR_cons hb cstr_pathSeparatorString hs
      rw [hr, Option.bind_some, tokenLoop, ho, hs.tokens_eq, List.foldl_cons]
      dsimp only
      rw [hbody stack _ _ htok, ← components_eq]
      exact ih hrest (hs.length_tail_lt.trans_le (Nat.lt_succ_iff.1 hfuel)) _

theorem forTokens_eq
    (hbody : ∀ stack pch t, CStr pch t → body (copies stack) pch = some (copies (f stack t)))
    {path s : List UInt8} (h : CStr path s) (stack : List (List UInt8)) :
    forTokens body path (copies stack) = some (copies ((components s).foldl f stack)) := by
  rw [forTokens, copyString_eq h]
  refine tokenLoop_eq hbody (show CStr (List.drop 0 _) s from CStr.mk h.1 []) ?_ stack
  rw [List.length_append]
  omega

end

theorem pushElement_eq {stack : List (List UInt8)} {pch t : List UInt8} (h : CStr pch t) :
    pushElement (copies stack) pch = some (copies (stack ++ [t])) := by
  rw [pushElement, copyString_eq h, copies, copies, List.map_append]
  rfl

theorem pushOrPop_eq {stack : List (List UInt8)} {pch t : List UInt8} (h : CStr pch t) :
    pushOrPop (copies stack) pch = some (copies (resolveStep stack t)) := by
  obtain ⟨v, hv, hup⟩ := strcmp_spec h (CStr.mk (show 0 ∉ dotdot by decide) [])
  obtain ⟨w, hw, hdot⟩ := strcmp_spec h (CStr.mk (show 0 ∉ dot by decide) [])
  rw [pushOrPop, show pathUp = dotdot ++ [0] from rfl, show pathDot = dot ++ [0] from rfl, hv, hw,
    pushElement_eq h, resolveStep, Option.bind_eq_bind, Option.bind_some, Option.bind_some]
  by_cases h₁ : t = dotdot
  · rw [if_pos (hup.2 h₁), if_pos h₁, copies, copies, List.map_dropLast]
    rfl
  · rw [if_neg (mt hup.1 h₁), if_neg h₁]
    by_cases h₂ : t = dot
    · rw [if_pos (hdot.2 h₂), if_pos h₂]
      rfl
    · rw [if_neg (mt hdot.1 h₂), if_neg h₂]

/-- The list of path elements is the stack. -/
theorem pathStack_eq {cwd c input s : List UInt8} (hc : CStr cwd c) (hs : CStr input s) :
    pathStack cwd input = some (copies (resolve (startDir c s) (components s))) := by
  have hdir : ∀ cs dir : List (List UInt8), cs.foldl (fun stack t => stack ++ [t]) dir =
    dir ++ cs := by
    intro cs
    induction cs with
    | nil => exact fun dir => (List.append_nil dir).symm
    | cons t cs ih => exact fun dir => (ih _).trans (List.append_assoc dir [t] cs)
  have hpush := forTokens_eq (f := fun stack t => stack ++ [t])
    (fun _ _ _ h => pushElement_eq h) hc []
  have hpop := forTokens_eq (f := resolveStep) (fun _ _ _ h => pushOrPop_eq h) hs
  rw [hdir, List.nil_append] at hpush
  have hhead : input.head? = some (s.head?.getD 0) := by
    obtain ⟨-, rest, rfl⟩ := hs
    cases s <;> rfl
  rw [pathStack, strlen_eq hs, hhead]
  simp only [Option.bind_eq_bind, Option.bind_some, startDir, resolve]
  cases s with
  | nil => exact hpop []
  | cons d s =>
    simp only [List.length_cons, List.head?_cons, Option.getD_some, ne_eq, Nat.succ_ne_zero,
      not_false_eq_true, true_and, reduceCtorEq, Option.some.injEq]
    split_ifs with h
    · exact hpop []
    · rw [show ([] : List (List UInt8)) = copies [] from rfl, hpush, Option.bind_some]
      exact hpop _

/-! ## Joining -/

theorem pathSize_eq {stack : List (List UInt8)} (h : ∀ c ∈ stack, 0 ∉ c) :
    pathSize (copies stack) = some (stack.flatMap (pathSeparator :: ·)).length := by
  have hfold : ∀ size, (copies stack).foldlM
      (fun size item => (strlen item).map (size + · + 1)) size =
      some (size + (stack.flatMap (pathSeparator :: ·)).length) := by
    induction stack with
    | nil => exact fun _ => rfl
    | cons c stack ih =>
      intro size
      have hc : CStr (c ++ [0]) c := CStr.mk (h c List.mem_cons_self) []
      rw [copies, List.map_cons, List.foldlM_cons, strlen_eq hc]
      refine (ih (fun d hd => h d (List.mem_cons_of_mem c hd)) _).trans ?_
      rw [List.flatMap_cons, List.length_append, List.length_cons]
      exact congrArg some (by dsimp only; omega)
  exact (hfold 0).trans (by rw [Nat.zero_add])

/-- A write that replaces `mid` by as many bytes. -/
theorem storeBytes_append {pre mid rest bytes : List UInt8} {off : ℕ} (hoff : off = pre.length)
    (h : bytes.length = mid.length) :
    storeBytes (pre ++ (mid ++ rest)) off bytes = some (pre ++ (bytes ++ rest)) := by
  subst hoff
  rw [storeBytes, h, if_pos (by simp), List.take_left, ← List.drop_drop, List.drop_left,
    List.drop_left, List.append_assoc]

theorem joinLoop_eq {stack : List (List UInt8)} (h : ∀ c ∈ stack, 0 ∉ c) {block : List UInt8}
    {off : ℕ} (hlen : block.length = off + (stack.flatMap (pathSeparator :: ·)).length + 1)
    (hnil : stack = [] → block.drop off = [0]) :
    joinLoop (copies stack) block off =
      some (block.take off ++ stack.flatMap (pathSeparator :: ·) ++ [0]) := by
  induction stack generalizing block off with
  | nil =>
    rw [List.flatMap_nil, List.append_nil, ← hnil rfl, List.take_append_drop]
    rfl
  | cons c stack ih =>
    rw [List.flatMap_cons, List.length_append, List.length_cons] at hlen
    have hc : CStr (c ++ [0]) c := CStr.mk (h c List.mem_cons_self) []
    have hcopy : (c ++ [0]).take (c.length + 1) = c ++ [0] :=
      List.take_of_length_le (by rw [List.length_append]; rfl)
    -- the bytes before the element, its bytes with the NUL, and the bytes after it
    obtain ⟨pre, x, mid, rest, rfl, rfl, hmid⟩ : ∃ pre x mid rest,
        block = pre ++ ([x] ++ (mid ++ rest)) ∧ pre.length = off ∧
          (c ++ [0]).length = mid.length := by
      cases hx : block.drop off with
      | nil =>
        have := congrArg List.length hx
        rw [List.length_drop, List.length_nil] at this
        omega
      | cons x tail =>
        have := congrArg List.length hx
        rw [List.length_drop, List.length_cons] at this
        refine ⟨block.take off, x, tail.take (c.length + 1), tail.drop (c.length + 1), ?_, ?_, ?_⟩
        · rw [List.take_append_drop, List.singleton_append, ← hx, List.take_append_drop]
        · rw [List.length_take]
          omega
        · rw [List.length_take, List.length_append, List.length_singleton]
          omega
    have hstore : storeBytes (pre ++ ([x] ++ (mid ++ rest))) pre.length [pathSeparator] =
        some (pre ++ ([pathSeparator] ++ (mid ++ rest))) := storeBytes_append rfl rfl
    have hstore' : storeBytes (pre ++ ([pathSeparator] ++ (mid ++ rest))) (pre.length + 1)
        (c ++ [0]) = some (pre ++ [pathSeparator] ++ (c ++ [0] ++ rest)) := by
      rw [← List.append_assoc]
      exact storeBytes_append (by rw [List.length_append]; rfl) hmid
    rw [copies, List.map_cons, joinLoop, hstore, strlen_eq hc]
    simp only [Option.bind_eq_bind, Option.bind_some, hcopy, hstore', List.take_left]
    have hoff : pre.length + 1 + c.length = (pre ++ [pathSeparator] ++ c).length := by
      simp only [List.length_append, List.length_singleton]
    rw [hoff, List.append_assoc c, ← List.append_assoc (pre ++ _)]
    refine (ih (fun d hd => h d (List.mem_cons_of_mem c hd)) ?_ ?_).trans ?_
    · simp only [List.length_append, List.length_singleton] at hlen hmid ⊢
      omega
    · rintro rfl
      have : rest = [] := by
        simp only [List.length_append, List.length_singleton, List.flatMap_nil,
          List.length_nil] at hlen hmid
        exact List.length_eq_zero_iff.1 (by omega)
      rw [List.drop_left, this, List.append_nil]
    · rw [List.take_left, List.flatMap_cons]
      simp only [List.append_assoc, List.cons_append, List.nil_append]

theorem joinPath_eq (malloc : Malloc) {stack : List (List UInt8)} (h : ∀ c ∈ stack, 0 ∉ c) :
    joinPath malloc (copies stack) = some (render stack ++ [0]) := by
  rw [joinPath, pathSize_eq h, render, Option.bind_eq_bind, Option.bind_some]
  by_cases hs : stack = []
  · subst hs
    obtain ⟨x, y, hxy⟩ := List.length_eq_two.1 (malloc.length_block 2)
    rw [hxy]
    rfl
  · have hne : (stack.flatMap (pathSeparator :: ·)).length ≠ 0 := by
      obtain ⟨c, cs, rfl⟩ := List.exists_cons_of_ne_nil hs
      exact Nat.succ_ne_zero _
    rw [if_neg hne, if_neg hs]
    exact joinLoop_eq h (by rw [malloc.length_block, Nat.zero_add]) fun h => absurd h hs

/-! ## Canonical paths -/

theorem mem_components {s c : List UInt8} (h : c ∈ components s) :
    c ≠ [] ∧ pathSeparator ∉ c ∧ ∀ x ∈ c, x ∈ s := by
  rw [components_eq] at h
  obtain ⟨hne, hall⟩ := mem_tokens h
  refine ⟨hne, fun hmem => ?_, fun x hx => (hall x hx).2⟩
  simpa [isDelim] using (hall _ hmem).1

/-- The elements that come from strings have no NUL. -/
theorem resolve_mem {dir cs : List (List UInt8)} {P : List UInt8 → Prop} (hdir : ∀ c ∈ dir, P c)
    (hcs : ∀ c ∈ cs, c ≠ dot → c ≠ dotdot → P c) : ∀ c ∈ resolve dir cs, P c := by
  rw [resolve]
  induction cs generalizing dir with
  | nil => exact hdir
  | cons t cs ih =>
    rw [List.foldl_cons]
    refine ih ?_ fun c hc => hcs c (List.mem_cons_of_mem t hc)
    intro c hc
    rw [resolveStep] at hc
    split_ifs at hc with h₁ h₂
    · exact hdir c (List.dropLast_subset _ hc)
    · exact hdir c hc
    · rcases List.mem_append.1 hc with hc | hc
      · exact hdir c hc
      · rw [List.mem_singleton.1 hc]
        exact hcs t List.mem_cons_self h₂ h₁

variable {cwd c input s : List UInt8} {q : List (List UInt8)}

theorem startDir_subset {x : List UInt8} (h : x ∈ startDir c s) : x ∈ components c := by
  rw [startDir] at h
  split_ifs at h
  · exact h
  · exact absurd h List.not_mem_nil

/-- `canonicalize_path` computes the reference meaning of paths. -/
theorem canonicalizePath_eq (malloc : Malloc) (hc : CStr cwd c) (hs : CStr input s) :
    canonicalizePath malloc cwd input =
      some (render (resolve (startDir c s) (components s)) ++ [0]) := by
  rw [canonicalizePath, pathStack_eq hc hs]
  refine joinPath_eq malloc (resolve_mem (fun x hx h => ?_) fun x hx _ _ h => ?_)
  · exact hc.1 ((mem_components (startDir_subset hx)).2.2 0 h)
  · exact hs.1 ((mem_components hx).2.2 0 h)

theorem canonical_resolve (hc : CStr cwd c) (hs : CStr input s)
    (hdots : ∀ x ∈ components c, x ≠ dot ∧ x ≠ dotdot) :
    Canonical (resolve (startDir c s) (components s)) := by
  refine resolve_mem (fun x hx => ?_) fun x hx h₁ h₂ => ?_
  · obtain ⟨hne, hsep, hmem⟩ := mem_components (startDir_subset hx)
    exact ⟨hne, hsep, fun h => hc.1 (hmem 0 h), hdots x (startDir_subset hx)⟩
  · obtain ⟨hne, hsep, hmem⟩ := mem_components hx
    exact ⟨hne, hsep, fun h => hs.1 (hmem 0 h), h₁, h₂⟩

/-- A path is read back as its elements, `.` and `..` among them. -/
theorem components_render_of_forall (h : ∀ x ∈ q, x ≠ [] ∧ pathSeparator ∉ x) :
    components (render q) = q := by
  have hall : ∀ q : List (List UInt8), (∀ x ∈ q, x ≠ [] ∧ pathSeparator ∉ x) →
      components (q.flatMap (pathSeparator :: ·)) = q := by
    intro q h
    induction q with
    | nil => rfl
    | cons c q ih =>
      obtain ⟨hne, hsep⟩ := h c List.mem_cons_self
      have hrest := ih fun d hd => h d (List.mem_cons_of_mem c hd)
      rw [components_eq] at hrest ⊢
      rw [List.flatMap_cons, List.cons_append, tokens_cons (by simp [isDelim]),
        tokens_append hne (fun y hy => ?_) (fun x hx => ?_), hrest]
      · have : y ≠ pathSeparator := fun h => hsep (h ▸ hy)
        simpa [isDelim] using this
      · cases q with
        | nil => cases hx
        | cons d q =>
          obtain rfl : pathSeparator = x := Option.some.inj hx
          simp [isDelim]
  rw [render]
  split_ifs with hq
  · rw [hq]
    decide
  · exact hall q h

theorem components_render (h : Canonical q) : components (render q) = q :=
  components_render_of_forall fun x hx => ⟨(h x hx).1, (h x hx).2.1⟩

theorem resolve_canonical (h : Canonical q) (dir : List (List UInt8)) :
    resolve dir q = dir ++ q := by
  induction q generalizing dir with
  | nil => exact (List.append_nil dir).symm
  | cons c q ih =>
    obtain ⟨-, -, -, hdot, hdotdot⟩ := h c List.mem_cons_self
    rw [resolve, List.foldl_cons, resolveStep, if_neg hdotdot, if_neg hdot, ← resolve,
      ih fun d hd => h d (List.mem_cons_of_mem c hd), List.append_assoc]
    rfl

theorem head_render (q : List (List UInt8)) : (render q).head? = some pathSeparator := by
  rw [render]
  split_ifs with hq
  · rfl
  · obtain ⟨c, cs, rfl⟩ := List.exists_cons_of_ne_nil hq
    rfl

theorem getLast_render (h : Canonical q) (hl : (render q).getLast? = some pathSeparator) :
    render q = [pathSeparator] := by
  rw [render] at hl ⊢
  split_ifs at hl ⊢ with hq
  · rfl
  · obtain ⟨cs, c, rfl⟩ := (List.eq_nil_or_concat q).resolve_left hq
    rw [List.concat_eq_append] at *
    obtain ⟨hne, hsep, -⟩ := h c (List.mem_append_right cs List.mem_cons_self)
    obtain ⟨c, y, rfl⟩ := (List.eq_nil_or_concat c).resolve_left hne
    have hlast : (cs ++ [c.concat y]).flatMap (pathSeparator :: ·) =
        (cs.flatMap (pathSeparator :: ·) ++ pathSeparator :: c) ++ [y] := by
      simp [List.flatMap_append]
    rw [hlast, List.getLast?_concat] at hl
    exact absurd (by simp [Option.some.inj hl]) hsep

theorem cstr_render_of_forall (h : ∀ x ∈ q, 0 ∉ x) : CStr (render q ++ [0]) (render q) := by
  refine CStr.mk (fun h₀ => ?_) []
  rw [render] at h₀
  split_ifs at h₀ with hq
  · exact absurd h₀ (by decide)
  · obtain ⟨c, hc, hmem⟩ := List.mem_flatMap.1 h₀
    rcases List.mem_cons.1 hmem with h' | h'
    · exact absurd h' (by decide)
    · exact h c hc h'

theorem cstr_render (h : Canonical q) : CStr (render q ++ [0]) (render q) :=
  cstr_render_of_forall fun x hx => (h x hx).2.2.1

/-- Canonical paths are left as they are. -/
theorem canonicalizePath_render (malloc : Malloc) (hc : CStr cwd c) (h : Canonical q) :
    canonicalizePath malloc cwd (render q ++ [0]) = some (render q ++ [0]) := by
  have hdir : startDir c (render q) = [] := by
    rw [startDir, head_render, if_neg fun h => h.2 rfl]
  rw [canonicalizePath_eq malloc hc (cstr_render h), hdir, components_render h,
    resolve_canonical h, List.nil_append]

/-- `canonicalize_path` computes the reference meaning of a path: an absolute path of canonical
    components, which it leaves as it is when it is called again. It fills the block it
    allocates: one byte more than the computed size, or the two bytes of the root. -/
theorem canonicalize_path_spec (malloc : Malloc) (hc : CStr cwd c) (hs : CStr input s)
    (hdots : ∀ x ∈ components c, x ≠ dot ∧ x ≠ dotdot) :
    ∃ q size, q = resolve (startDir c s) (components s) ∧
      canonicalizePath malloc cwd input = some (render q ++ [0]) ∧
      (render q).head? = some pathSeparator ∧ components (render q) = q ∧ Canonical q ∧
      ((render q).getLast? = some pathSeparator → render q = [pathSeparator]) ∧
      (∀ (malloc' : Malloc) (cwd' c' : List UInt8), CStr cwd' c' →
        canonicalizePath malloc' cwd' (render q ++ [0]) = some (render q ++ [0])) ∧
      (pathStack cwd input).bind pathSize = some size ∧
      (render q ++ [0]).length = if size = 0 then 2 else size + 1 := by
  have hq := canonical_resolve hc hs hdots
  have hsize := pathSize_eq fun x hx => (hq x hx).2.2.1
  rw [← Option.bind_some (f := pathSize), ← pathStack_eq hc hs] at hsize
  refine ⟨_, _, rfl, canonicalizePath_eq malloc hc hs, head_render _, components_render hq, hq,
    getLast_render hq, fun malloc' cwd' c' hc' => canonicalizePath_render malloc' hc' hq, hsize, ?_⟩
  generalize resolve (startDir c s) (components s) = q
  rw [render, List.length_append]
  cases q with
  | nil => rfl
  | cons d q =>
    have hne : ((d :: q).flatMap (pathSeparator :: ·)).length ≠ 0 := Nat.succ_ne_zero _
    rw [if_neg (List.cons_ne_nil d q), if_neg hne]
    rfl

/-- `malloc` with blocks full of `x`. -/
def Malloc.filled (x : UInt8) : Malloc :=
  ⟨fun n => List.replicate n x, fun _ => List.length_replicate⟩

/-- `..//b/./c/` in the directory `/a/d` is `/a/b/c`. -/
theorem canonicalize_path_spec_dotdot :
    canonicalizePath (Malloc.filled 0xCC) [47, 97, 47, 100, 0]
    [46, 46, 47, 47, 98, 47, 46, 47, 99, 47, 0] =
      some [47, 97, 47, 98, 47, 99, 0] := by
  obtain ⟨q, -, rfl, h, -⟩ := canonicalize_path_spec (Malloc.filled 0xCC)
    (CStr.mk (show 0 ∉ [47, 97, 47, 100] by decide) [])
    (CStr.mk (show 0 ∉ [46, 46, 47, 47, 98, 47, 46, 47, 99, 47] by decide) []) (by decide)
  exact h

/-- For the root, the computed size is 0, but two bytes are written. -/
theorem root_longer_than_size : (pathStack [47, 0] [47, 0]).bind pathSize = some 0 ∧
    ∃ output, canonicalizePath (Malloc.filled 0xCC) [47, 0] [47, 0] = some output ∧
      output = [pathSeparator, 0] ∧ 0 + 1 < output.length := by
  exact ⟨by decide, _, rfl, by decide, by decide⟩

/-! ## Relative paths -/

/-- What `resolve` leaves on the stack, also when `.` and `..` came from the directory. -/
theorem mem_resolve (hc : CStr cwd c) (hs : CStr input s) :
    ∀ x ∈ resolve (startDir c s) (components s), (x ≠ [] ∧ pathSeparator ∉ x) ∧ 0 ∉ x := by
  refine resolve_mem (fun x hx => ?_) fun x hx _ _ => ?_
  · obtain ⟨hne, hsep, hmem⟩ := mem_components (startDir_subset hx)
    exact ⟨⟨hne, hsep⟩, fun h => hc.1 (hmem 0 h)⟩
  · obtain ⟨hne, hsep, hmem⟩ := mem_components hx
    exact ⟨⟨hne, hsep⟩, fun h => hs.1 (hmem 0 h)⟩

theorem resolve_append (dir cs ds : List (List UInt8)) :
    resolve dir (cs ++ ds) = resolve (resolve dir cs) ds := List.foldl_append

theorem components_append (a b : List UInt8) :
    components (a ++ pathSeparator :: b) = components a ++ components b := by
  rw [components_eq, components_eq, components_eq]
  exact tokens_append_cons (by simp [isDelim])

/-- A path that goes on behind `a` starts where `a` starts. -/
theorem startDir_append {a : List UInt8} (ha : a ≠ []) (b : List UInt8) :
    startDir c (a ++ b) = startDir c a := by
  obtain ⟨x, a, rfl⟩ := List.exists_cons_of_ne_nil ha
  simp only [startDir, List.cons_append, List.head?_cons, ne_eq, reduceCtorEq]

/-- A relative path starts from the elements of the directory that `render` wrote. -/
theorem startDir_render {b : List UInt8} (hb : b ≠ []) (hrel : b.head? ≠ some pathSeparator)
    (hq : ∀ x ∈ q, x ≠ [] ∧ pathSeparator ∉ x) : startDir (render q) b = q := by
  rw [startDir, if_pos ⟨hb, hrel⟩, components_render_of_forall hq]

/-- `canonicalize_path` of `a/b` is `canonicalize_path` of `b` in the directory that
    `canonicalize_path` makes of `a`. -/
theorem canonicalize_path_relative (malloc malloc' malloc'' : Malloc) {a b pa pb pab : List UInt8}
    (hc : CStr cwd c) (hpa : CStr pa a) (hpb : CStr pb b)
    (hpab : CStr pab (a ++ pathSeparator :: b))
    (ha : a ≠ []) (hb : b ≠ []) (hrel : b.head? ≠ some pathSeparator) :
    ∃ dir output, canonicalizePath malloc cwd pa = some dir ∧
      canonicalizePath malloc' dir pb = some output ∧
      canonicalizePath malloc'' cwd pab = some output := by
  have hmem := mem_resolve hc hpa
  have hdir := cstr_render_of_forall fun x hx => (hmem x hx).2
  refine ⟨_, _, canonicalizePath_eq malloc hc hpa, canonicalizePath_eq malloc' hdir hpb, ?_⟩
  -- the directory is read back as the stack that was printed
  rw [canonicalizePath_eq malloc'' hc hpab, startDir_append ha, components_append, resolve_append,
    startDir_render hb hrel fun x hx => (hmem x hx).1]

/-- `..//x` and `../y` in `/d`: the second `..` takes back the `x`. -/
theorem canonicalize_path_relative_dotdot :
    canonicalizePath (Malloc.filled 0xCC) [47, 100, 0]
      [46, 46, 47, 47, 120, 47, 46, 46, 47, 121, 0] = some [47, 121, 0] := by
  obtain ⟨dir, output, hdir, hout, h⟩ := canonicalize_path_relative (Malloc.filled 0xCC)
    (Malloc.filled 0) (Malloc.filled 0xCC) (CStr.mk (show 0 ∉ [47, 100] by decide) [])
    (CStr.mk (show 0 ∉ [46, 46, 47, 47, 120] by decide) [])
    (CStr.mk (show 0 ∉ [46, 46, 47, 121] by decide) [])
    (CStr.mk (show 0 ∉ [46, 46, 47, 47, 120, 47, 46, 46, 47, 121] by decide) [])
    (by decide) (by decide) (by decide)
  exact h.trans (hout.symm.trans (by obtain rfl := Option.some.inj hdir; rfl))

end Beryllium

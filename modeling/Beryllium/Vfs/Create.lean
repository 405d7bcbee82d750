import Beryllium.Printf.Scan
import Beryllium.Vfs.MountOpen

/-!
# Creating files

`create_file_vfs` of `kernel/vfs.c`. It is meant to create a file in its parent directory, but what
it copies to `parent_path` is the whole path, so it opens the file itself. The name of the file is
cut off at the last separator of the path that is not the first character (`createFileVfs_calls`).
-/

namespace Beryllium

open Machine

variable {W : Type}

/-! ## create_file_vfs -/

/-- What `create_file_vfs` calls, with the arguments. -/
inductive FileCall
  | kopen (filename : List UInt8) (flags : ℕ)
  | create (fn node : ℕ) (name : List UInt8) (permission : UInt16)

/-- The loop that moves `f_path` back to the character after a separator, or to the start of `path`.
    -/
def leafLoop (path : List UInt8) : ℕ → Option ℕ
  | 0 => some 0
  | fPath + 1 => do
    let c ← path[fPath + 1]?
    if c = pathSeparator then return fPath + 2 else leafLoop path fPath

/-- `create_file_vfs`, where `create` is what the functions of the drivers do: its result, and the
    calls in order. -/
def createFileVfs (d : Drivers W) (create : ℕ → Env W → ℕ → List UInt8 → UInt16 → Env W)
    (malloc : Malloc) (garbage : VfsNode) (s : Vfs) (e : Env W) (name : List UInt8)
    (permission : UInt16) : Option ((Env W × ℤ) × List FileCall) := do
  let path ← canonicalizePath malloc pathSeparatorString name
  let pathLen ← strlen path
  let (parentPath, _) ← sprintf (malloc.block ((pathLen + 4) % 2 ^ 32)) [37, 115, 0] [.pointer path]
  let fPath ← leafLoop path (pathLen - 1)
  let filename ← copyString parentPath
  let calls := [FileCall.kopen filename 0]
  let (e, parent) ← kopen d malloc garbage s e (some parentPath) 0
  if parent = 0 then return ((e, -1), calls)
  else do
    let n ← e.heap.node parent
    let leaf ← copyString (path.drop fPath)
    let (e, calls) := if n.create ≠ 0 then
        (create n.create e parent leaf permission,
          calls ++ [.create n.create parent leaf permission])
      else (e, calls)
    return (({ e with heap := e.heap.free parent }, 0), calls)

/-! ## The path and the name -/

variable {q : List (List UInt8)} {x : List UInt8}

/-- The scan stops at the last separator, unless this is the first character. -/
theorem leafLoop_eq (a rest : List UInt8) (hx : pathSeparator ∉ x) {j : ℕ} (hj : j ≤ x.length) :
    leafLoop (a ++ pathSeparator :: (x ++ rest)) (a.length + j) =
      some (if a = [] then 0 else a.length + 1) := by
  induction j with
  | zero =>
    cases a with
    | nil => rfl
    | cons c a =>
      have hsep : (c :: a ++ pathSeparator :: (x ++ rest))[a.length + 1]? = some pathSeparator := by
        rw [← List.length_cons (a := c), List.getElem?_append_right le_rfl, Nat.sub_self,
          List.getElem?_cons_zero]
      rw [List.length_cons, Nat.add_zero, leafLoop, hsep, Option.bind_eq_bind, Option.bind_some,
        if_pos rfl, if_neg (List.cons_ne_nil c a)]
      rfl
  | succ j ih =>
    have hlt : j < x.length := hj
    have hchar : (a ++ pathSeparator :: (x ++ rest))[a.length + j + 1]? = some x[j] := by
      rw [Nat.add_assoc, List.getElem?_append_right (Nat.le_add_right _ _), Nat.add_sub_cancel_left,
        List.getElem?_cons_succ, List.getElem?_append_left hlt, List.getElem?_eq_getElem hlt]
    have hne : x[j] ≠ pathSeparator := fun h => hx (h ▸ List.getElem_mem hlt)
    rw [← Nat.add_assoc, leafLoop, hchar, Option.bind_eq_bind, Option.bind_some, if_neg hne]
    exact ih hlt.le

/-- The name that `create_file_vfs` cuts off: at the top, the whole path. -/
def leafName (q : List (List UInt8)) (x : List UInt8) : List UInt8 :=
  if q = [] then pathSeparator :: x else x

theorem render_append_singleton : render (q ++ [x]) =
    (if q = [] then [] else render q) ++ pathSeparator :: x := by
  have hne : q ++ [x] ≠ [] := List.append_ne_nil_of_right_ne_nil q (List.cons_ne_nil x [])
  rw [render, if_neg hne, List.flatMap_append, List.flatMap_singleton, render]
  split_ifs with hq
  · rw [hq]
    rfl
  · rfl

theorem render_ne_nil (q : List (List UInt8)) : render q ≠ [] := by
  rw [render]
  split_ifs with hq
  · exact List.cons_ne_nil _ _
  · obtain ⟨x, q, rfl⟩ := List.exists_cons_of_ne_nil hq
    exact List.cons_ne_nil _ _

/-- The path of a file is longer than that of its parent. -/
theorem render_parent_ne (hx : x ≠ []) : render (q ++ [x]) ≠ render q := by
  rw [render_append_singleton]
  intro h
  have hlen := congrArg List.length h
  have hpos := List.length_pos_iff.2 hx
  rw [List.length_append, List.length_cons] at hlen
  split_ifs at hlen with hq
  · subst hq
    rw [List.length_nil, render, if_pos rfl, List.length_singleton] at hlen
    omega
  · omega

theorem leafLoop_render (h : Canonical (q ++ [x])) :
    ∃ k, leafLoop (render (q ++ [x]) ++ [0]) ((render (q ++ [x])).length - 1) = some k ∧
      (render (q ++ [x]) ++ [0]).drop k = leafName q x ++ [0] := by
  have hx := (h x (List.mem_append_right q List.mem_cons_self)).2.1
  rw [render_append_singleton]
  set a := if q = [] then [] else render q with ha
  have hlen : (a ++ pathSeparator :: x).length - 1 = a.length + x.length := by
    rw [List.length_append, List.length_cons]
    rfl
  rw [hlen, List.append_assoc, List.cons_append]
  refine ⟨_, leafLoop_eq a [0] hx le_rfl, ?_⟩
  rw [leafName]
  by_cases hq : q = []
  · have hnil : a = [] := if_pos hq
    rw [hnil, if_pos rfl, if_pos hq]
    rfl
  · have hcons : a ≠ [] := by
      rw [ha, if_neg hq]
      exact render_ne_nil q
    rw [if_neg hcons, if_neg hq, ← List.drop_drop, List.drop_left]
    rfl

/-! ## What is created -/

section

variable {d : Drivers W} {create : ℕ → Env W → ℕ → List UInt8 → UInt16 → Env W} {s : Vfs}
  {e : Env W} {name str : List UInt8}

/-- The call of the callback `create` of a node, if it has one. -/
def createCalls (n : VfsNode) (node : ℕ) (leaf : List UInt8) (permission : UInt16) :
    List FileCall :=
  if n.create ≠ 0 then [.create n.create node leaf permission] else []

/-- `create_file_vfs` opens the path of the file, and creates a file in the node that it gets: at
    the top its name starts with the separator. -/
theorem createFileVfs_calls (malloc : Malloc) (g : VfsNode) (hs : CStr name str)
    (hq : resolve [] (components str) = q ++ [x]) {permission : UInt16}
    {r : (Env W × ℤ) × List FileCall}
    (hrun : createFileVfs d create malloc g s e name permission = some r) :
    ∃ b e' p, CStr b (render (q ++ [x])) ∧ kopen d malloc g s e (some b) 0 = some (e', p) ∧
      ((p = 0 ∧ r.1.2 = -1 ∧ r.2 = [.kopen (render (q ++ [x]) ++ [0]) 0]) ∨
      (r.1.2 = 0 ∧ ∃ n, e'.heap.node p = some n ∧ r.2 = .kopen (render (q ++ [x]) ++ [0]) 0 ::
        createCalls n p (leafName q x ++ [0]) permission)) := by
  obtain ⟨hpath, hc⟩ := kopen_path malloc hs
  rw [hq] at hpath hc
  have hrender : CStr (render (q ++ [x]) ++ [0]) (render (q ++ [x])) := cstr_render hc
  obtain ⟨k, hleaf, hdrop⟩ := leafLoop_render hc
  have hx := (hc x (List.mem_append_right q List.mem_cons_self)).2.2.1
  have hname : CStr (leafName q x ++ [0]) (leafName q x) := by
    refine CStr.mk ?_ []
    rw [leafName]
    split_ifs
    · exact fun h => (List.mem_cons.1 h).elim (by decide) hx
    · exact hx
  simp only [createFileVfs, hpath, strlen_eq hrender, hleaf, Option.bind_eq_bind,
    Option.bind_some] at hrun
  obtain ⟨⟨parentPath, ret⟩, hprint, hrun⟩ := Option.bind_eq_some_iff.1 hrun
  have hparent : CStr parentPath (render (q ++ [x])) := by
    refine sprintf_string hrender ?_ hprint
    rw [malloc.length_block]
    exact Nat.mod_lt _ (by decide)
  simp only [copyString_eq hparent, Option.bind_some] at hrun
  obtain ⟨⟨e', p⟩, hopen, hrun⟩ := Option.bind_eq_some_iff.1 hrun
  refine ⟨parentPath, e', p, hparent, hopen, ?_⟩
  dsimp only at hrun
  split_ifs at hrun with hp
  · obtain rfl := Option.some.inj hrun
    exact .inl ⟨hp, rfl, rfl⟩
  · obtain ⟨n, hn, hrun⟩ := Option.bind_eq_some_iff.1 hrun
    rw [hdrop, copyString_eq hname, Option.bind_some] at hrun
    split_ifs at hrun with hcreate
    · obtain rfl := Option.some.inj hrun
      exact .inr ⟨rfl, n, hn, by rw [createCalls, if_pos hcreate]; rfl⟩
    · obtain rfl := Option.some.inj hrun
      exact .inr ⟨rfl, n, hn, by rw [createCalls, if_neg hcreate]⟩

/-- `create_file_vfs` does with the file `x` in the directory `q` what it is meant to do: it opens
    the directory, and creates `x` there if it gets a node. -/
def CreatesInParent (d : Drivers W) (create : ℕ → Env W → ℕ → List UInt8 → UInt16 → Env W)
    (malloc : Malloc) (g : VfsNode) (s : Vfs) (e : Env W) (name : List UInt8) (permission : UInt16)
    (q : List (List UInt8)) (x : List UInt8) : Prop :=
  ∃ r e' p, createFileVfs d create malloc g s e name permission = some r ∧
    kopen d malloc g s e (some (render q ++ [0])) 0 = some (e', p) ∧
    ((p = 0 ∧ r.1.2 = -1 ∧ r.2 = [.kopen (render q ++ [0]) 0]) ∨
    (r.1.2 = 0 ∧ ∃ n, e'.heap.node p = some n ∧
      r.2 = .kopen (render q ++ [0]) 0 :: createCalls n p (x ++ [0]) permission))

/-- `create_file_vfs` never opens the parent directory of the file. -/
theorem create_file_never_in_parent (malloc : Malloc) (g : VfsNode) (hs : CStr name str)
    (hq : resolve [] (components str) = q ++ [x]) (permission : UInt16) :
    ¬ CreatesInParent d create malloc g s e name permission q x := by
  rintro ⟨r, e', p, hrun, -, hparent⟩
  obtain ⟨b, e₁, p₁, -, -, hself⟩ := createFileVfs_calls malloc g hs hq hrun
  have hx := ((hq ▸ (kopen_path malloc hs).2) x (List.mem_append_right q List.mem_cons_self)).1
  have hfirst : r.2.head? = some (.kopen (render q ++ [0]) 0) := by
    rcases hparent with ⟨-, -, h⟩ | ⟨-, n, -, h⟩ <;> rw [h] <;> rfl
  have hfirst' : r.2.head? = some (.kopen (render (q ++ [x]) ++ [0]) 0) := by
    rcases hself with ⟨-, -, h⟩ | ⟨-, n, -, h⟩ <;> rw [h] <;> rfl
  have hcall := Option.some.inj (hfirst'.symm.trans hfirst)
  exact render_parent_ne hx (List.append_cancel_right (FileCall.kopen.inj hcall).1)

end

/-- With an empty directory mounted at `/`, the file `/a` is not created in `/`. -/
theorem create_file_never_in_root : ∃ s, anyMountSystem.Reachable s ∧ binding s [] = some 1 ∧
    ¬ CreatesInParent emptyDriver (fun _ e _ _ _ => e) (Malloc.filled 0xCC) dirNode s ⟨dirHeap, ()⟩
      [47, 97, 0] 7 [] [97] := by
  obtain ⟨s, hs, hbind, -⟩ := exists_mounted_root
  refine ⟨s, hs, by rw [hbind, Function.update_self], ?_⟩
  have ha : CStr [47, 97, 0] [47, 97] := CStr.mk (by decide) []
  exact create_file_never_in_parent (Malloc.filled 0xCC) dirNode ha (by decide) 7

/-- To create `/a` there, `create_file_vfs` opens `/a`, which does not exist, and gives up, although
    `/` can be opened. -/
theorem create_file_opens_itself : ∃ s r e p, anyMountSystem.Reachable s ∧ binding s [] = some 1 ∧
    createFileVfs emptyDriver (fun _ e _ _ _ => e) (Malloc.filled 0xCC) dirNode s ⟨dirHeap, ()⟩
      [47, 97, 0] 7 = some r ∧ r.1.2 = -1 ∧ r.2 = [.kopen [47, 97, 0] 0] ∧
    kopen emptyDriver (Malloc.filled 0xCC) dirNode s ⟨dirHeap, ()⟩ (some [47, 0]) 0 = some (e, p) ∧
    p ≠ 0 ∧ ¬ CreatesInParent emptyDriver (fun _ e _ _ _ => e) (Malloc.filled 0xCC) dirNode s
      ⟨dirHeap, ()⟩ [47, 97, 0] 7 [] [97] := by
  obtain ⟨s, hs, hbind, -⟩ := exists_mounted_root
  have hinv := mountInv_of_reachable hs
  have hroot : binding s [] = some 1 := by rw [hbind, Function.update_self]
  have hpath : canonicalizePath (Malloc.filled 0xCC) pathSeparatorString [47, 97, 0] =
      some [47, 97, 0] := (kopen_path _ (CStr.mk (s := [47, 97]) (by decide) [])).1
  have hprint : sprintf ((Malloc.filled 0xCC).block ((2 + 4) % 2 ^ 32)) [37, 115, 0]
      [.pointer [47, 97, 0]] = some ([47, 97, 0, 0xCC, 0xCC, 0xCC], 2) := by decide
  obtain ⟨e₁, hopen⟩ : ∃ e₁, kopen emptyDriver (Malloc.filled 0xCC) dirNode s ⟨dirHeap, ()⟩
      (some [47, 97, 0, 0xCC, 0xCC, 0xCC]) 0 = some (e₁, 0) :=
    kopen_below_empty hinv (CStr.mk (s := [47, 97]) (by decide) [0xCC, 0xCC, 0xCC]) hbind
      (by decide) (by decide)
  have hrun : createFileVfs emptyDriver (fun _ e _ _ _ => e) (Malloc.filled 0xCC) dirNode s
      ⟨dirHeap, ()⟩ [47, 97, 0] 7 = some ((e₁, -1), [.kopen [47, 97, 0] 0]) := by
    have hlen : strlen [47, 97, 0] = some 2 := by decide
    have hleaf : leafLoop [47, 97, 0] (2 - 1) = some 0 := by decide
    have hcopy : copyString [47, 97, 0, 0xCC, 0xCC, 0xCC] = some [47, 97, 0] := by decide
    simp only [createFileVfs, hpath, hlen, hprint, hleaf, hcopy, hopen, Option.bind_eq_bind,
      Option.bind_some]
    rfl
  obtain ⟨h', hroot', -⟩ := kopen_root (d := emptyDriver) (e := ⟨dirHeap, ()⟩) (Malloc.filled 0xCC)
    dirNode hinv (CStr.mk (s := [47]) (by decide) []) (by decide) hroot rfl 0
  refine ⟨s, _, _, _, hs, hroot, hrun, rfl, rfl, hroot', by decide, ?_⟩
  rintro ⟨r, e', p, hr, -, hparent⟩
  obtain rfl := Option.some.inj (hrun.symm.trans hr)
  rcases hparent with ⟨-, -, h⟩ | ⟨h, -⟩
  · exact absurd (FileCall.kopen.inj (List.cons.inj h).1).1 (by decide)
  · exact absurd (show (-1 : ℤ) = 0 from h) (by decide)

end Beryllium

import Beryllium.Machine.System
import Beryllium.Vfs.Mount
import Mathlib.Data.List.Nodup

/-!
# The mount table

`vfs_mount` walks down the tree along the chopped path (`mountLoop_eq`), so that a mount
at the path `q` adds the binding of `q` and no other (`vfsMount_absolute`). Over any sequence of
mounts the tree is a partial map from paths to files (`mount_refines_map`).
-/

namespace Beryllium

open Machine

variable {t t' : Tree VfsEntry} {path path' : ℕ → List (List UInt8)} {i j r f : ℕ} {x : List UInt8}
  {q : List (List UInt8)} {n : TreeNode VfsEntry}

/-! ## Walking down the tree -/

/-- The chopped string of the names `q`: each ends with a NUL. -/
def chopped (q : List (List UInt8)) : List UInt8 := q.flatMap (· ++ [0])

theorem chopped_cons : chopped (x :: q) = x ++ 0 :: chopped q := by
  rw [chopped, List.flatMap_cons, List.append_assoc]
  rfl

theorem length_chopped_cons : (chopped (x :: q)).length = x.length + 1 + (chopped q).length := by
  rw [chopped_cons, List.length_append, List.length_cons]
  omega

/-- The first of the chopped names is a string, and the others are behind its NUL. -/
theorem cstr_chopped {block rest : List UInt8} {pos : ℕ}
    (h : block.drop pos = chopped (x :: q) ++ rest) (hx : 0 ∉ x) : CStr (block.drop pos) x := by
  rw [h, chopped_cons, List.append_assoc]
  exact CStr.mk hx _

theorem drop_chopped {block rest : List UInt8} {pos : ℕ}
    (h : block.drop pos = chopped (x :: q) ++ rest) :
    block.drop (pos + x.length + 1) = chopped q ++ rest := by
  rw [Nat.add_assoc, ← List.drop_drop, h, chopped_cons, List.append_assoc, ← List.drop_drop,
    List.drop_left]
  rfl

theorem length_le_chopped (q : List (List UInt8)) : q.length ≤ (chopped q).length := by
  induction q with
  | nil => exact le_rfl
  | cons x q ih =>
    rw [length_chopped_cons, List.length_cons]
    omega

/-- The loop leads to the node with the path `q` below the node that it starts at. It only
    makes nodes if there is none. -/
theorem mountLoop_eq {p rest : List UInt8} {pathLen pos fuel : ℕ} (h : MountTree t path)
    (hi : i < t.arena.length) (hq : ∀ x ∈ q, 0 ∉ x) (hp : p.drop pos = chopped q ++ rest)
    (hend : pathLen ≤ pos + (chopped q).length)
    (hlast : ∀ r x, q = r ++ [x] → pos + (chopped r).length < pathLen) (hfuel : q.length < fuel) :
    ∃ t' path' j, mountLoop p pathLen fuel t i pos = some (t', j) ∧ MountTree t' path' ∧
      MountExt t path t' path' ∧ j < t'.arena.length ∧ path' j = path i ++ q ∧
      (j < t.arena.length → t' = t) := by
  induction fuel generalizing t path i q pos with
  | zero => exact absurd hfuel (Nat.not_lt_zero _)
  | succ fuel ih =>
    rw [mountLoop]
    cases q with
    | nil =>
      rw [if_pos (by simpa [chopped] using hend)]
      exact ⟨t, path, i, rfl, h, .refl, hi, (List.append_nil _).symm, fun _ => rfl⟩
    | cons x q =>
      have hx : 0 ∉ x := hq x List.mem_cons_self
      -- the last name starts before the end, and so does the first one
      have hpos : pos < pathLen := by
        obtain ⟨r, y, hr⟩ := (List.eq_nil_or_concat (x :: q)).resolve_left (List.cons_ne_nil x q)
        exact Nat.lt_of_le_of_lt (Nat.le_add_right _ _) (hlast r y (hr.trans List.concat_eq_append))
      rw [if_neg (Nat.not_le.2 hpos)]
      have hstr : CStr (p.drop pos) x := cstr_chopped hp hx
      have hnext : p.drop (pos + x.length + 1) = chopped q ++ rest := drop_chopped hp
      have hlen : ∀ r, pos + (chopped (x :: r)).length =
        pos + x.length + 1 + (chopped r).length := by
        intro r
        rw [length_chopped_cons]
        omega
      rw [hlen q] at hend
      have hlast' : ∀ r y, q = r ++ [y] → pos + x.length + 1 + (chopped r).length < pathLen := by
        rintro r y rfl
        rw [← hlen r]
        exact hlast (x :: r) y rfl
      have hq' : ∀ y ∈ q, 0 ∉ y := fun y hy => hq y (List.mem_cons_of_mem x hy)
      have hfuel' : q.length < fuel := Nat.lt_of_succ_lt_succ hfuel
      obtain ⟨n, hn⟩ := exists_node hi
      simp only [hn, strlen_eq hstr, Option.bind_eq_bind, Option.bind_some]
      rcases h.findChild hn hstr with ⟨c, hc, hlt, hpc⟩ | ⟨hc, hnone⟩
      · obtain ⟨t', path', j, hloop, h', he, hj, hpj, heq⟩ :=
          ih h hlt hq' hnext hend hlast' hfuel'
        rw [hpc, List.append_assoc] at hpj
        rw [hc]
        exact ⟨t', path', j, hloop, h', he, hj, hpj, heq⟩
      · have hlt : t.arena.length < (treeNodeInsertChild t i ⟨x ++ [0], 0⟩).1.arena.length := by
          rw [length_treeNodeInsertChild]
          exact Nat.lt_succ_self _
        obtain ⟨t', path', j, hloop, h', he, hj, hpj, -⟩ :=
          ih (h.insert hi hx hnone) hlt hq' hnext hend hlast' hfuel'
        rw [Function.update_self, List.append_assoc] at hpj
        have hins : MountExt t path _ _ := MountExt.insert (x := x) hi
        have he' := hins.trans he
        rw [hc, copyString_eq hstr]
        refine ⟨t', path', j, hloop, h', he', hj, hpj, fun hjt => ?_⟩
        -- if the node were an old one, so would be the one just made
        rw [he'.path_eq j hjt, ← List.singleton_append, ← List.append_assoc] at hpj
        obtain ⟨d, hd, hpd⟩ := h.exists_prefix hjt hpj
        exact absurd hpd (hnone d hd)

/-! ## The chopped path -/

theorem chopPath_eq (s : List UInt8) :
    chopPath (s ++ [0]) s.length = s.map (fun c => if c = pathSeparator then 0 else c) ++ [0] := by
  rw [chopPath, List.mapIdx_append, List.set_append_right _ _ (by simp)]
  congr 1
  · refine List.ext_getElem (by simp) fun k hk _ => ?_
    rw [List.length_mapIdx] at hk
    simp [hk]
  · simp

/-- The names between the separators stay. -/
theorem chop_splitOn (str : List UInt8) :
    str.map (fun c => if c = pathSeparator then 0 else c) ++ [0] =
      chopped (str.splitOn pathSeparator) := by
  induction str with
  | nil => rfl
  | cons c str ih =>
    rw [List.map_cons, List.cons_append, ih, List.splitOn_cons_eq_if_modifyHead]
    by_cases hc : c = pathSeparator
    · rw [if_pos hc, if_pos (beq_iff_eq.2 hc), chopped_cons]
      rfl
    · rw [if_neg hc, if_neg (mt beq_iff_eq.1 hc)]
      obtain ⟨x, q, hq⟩ := List.exists_cons_of_ne_nil (List.splitOn_ne_nil pathSeparator str)
      rw [hq, List.modifyHead_cons, chopped_cons, chopped_cons, List.cons_append]

theorem splitOn_flatMap (h : ∀ x ∈ q, pathSeparator ∉ x) :
    (q.flatMap (pathSeparator :: ·)).splitOn pathSeparator = [] :: q := by
  induction q using List.reverseRecOn with
  | nil => rfl
  | append_singleton q x ih =>
    rw [List.flatMap_append, List.flatMap_singleton, List.splitOn_append_cons_self,
      ih fun y hy => h y (List.mem_append_left _ hy),
      List.splitOn_eq_singleton (h x (List.mem_append_right q List.mem_cons_self)),
        List.cons_append]

theorem intercalate_eq (x : List UInt8) (q : List (List UInt8)) :
    [pathSeparator].intercalate (x :: q) = x ++ q.flatMap (pathSeparator :: ·) := by
  induction q generalizing x with
  | nil => simp
  | cons y q ih => rw [List.intercalate_cons_cons, ih, List.flatMap_cons, List.append_assoc]; rfl

theorem chop_render (h : Canonical q) (hq : q ≠ []) :
    (render q).map (fun c => if c = pathSeparator then 0 else c) ++ [0] = 0 :: chopped q := by
  rw [chop_splitOn, render, if_neg hq, splitOn_flatMap fun x hx => (h x hx).2.1, chopped_cons]
  rfl

/-- An absolute path is a separator before each of the names that it is split into. -/
theorem splitOn_absolute {str : List UInt8} (h : str.head? = some pathSeparator) :
    ∃ parts, str.splitOn pathSeparator = [] :: parts ∧ parts ≠ [] ∧
      str = parts.flatMap (pathSeparator :: ·) := by
  obtain ⟨tail, rfl⟩ := List.head?_eq_some_iff.1 h
  have hsplit : (pathSeparator :: tail).splitOn pathSeparator =
      [] :: tail.splitOn pathSeparator := by
    rw [List.splitOn_cons_eq_if_modifyHead, if_pos (beq_self_eq_true _)]
  refine ⟨_, hsplit, List.splitOn_ne_nil _ _, ?_⟩
  rw [← List.nil_append (List.flatMap _ _), ← intercalate_eq, ← hsplit, List.intercalate_splitOn]

/-- The names of the node that `vfs_mount` takes for an absolute path: it is the root if there is no
    name after the first separator, and one empty name at the end is left out. -/
def mountNames (str : List UInt8) : List (List UInt8) :=
  let parts := (str.splitOn pathSeparator).tail
  if parts.head? = some [] then []
  else if parts.getLast? = some [] then parts.dropLast
  else parts

section

variable {str : List UInt8} {parts : List (List UInt8)}

theorem mountNames_root (h : str.splitOn pathSeparator = [] :: parts)
    (hhead : parts.head? = some []) : mountNames str = [] := by
  rw [mountNames, h]
  exact if_pos hhead

theorem mountNames_cases (h : str.splitOn pathSeparator = [] :: parts)
    (hhead : parts.head? ≠ some []) :
    (mountNames str = parts ∧ parts.getLast? ≠ some []) ∨ parts = mountNames str ++ [[]] := by
  rw [mountNames, h, List.tail_cons, if_neg hhead]
  split_ifs with hlast
  · obtain ⟨q, rfl⟩ := List.getLast?_eq_some_iff.1 hlast
    exact .inr (by rw [List.dropLast_concat])
  · exact .inl ⟨rfl, hlast⟩

/-- The chopped path holds the names, and a NUL more if an empty name is left out; the last of them
    starts before the end. -/
theorem chopped_mountNames (h : str.splitOn pathSeparator = [] :: parts)
    (hhead : parts.head? ≠ some []) :
    ∃ rest, chopped parts = chopped (mountNames str) ++ rest ∧
      (chopped parts).length ≤ 1 + (chopped (mountNames str)).length ∧
      ∀ r x, mountNames str = r ++ [x] → 1 + (chopped r).length < (chopped parts).length := by
  have hconcat : ∀ (r : List (List UInt8)) (x : List UInt8),
      (chopped (r ++ [x])).length = (chopped r).length + x.length + 1 := by
    intro r x
    rw [chopped, List.flatMap_append, List.flatMap_singleton, List.length_append,
      List.length_append]
    rfl
  rcases mountNames_cases h hhead with ⟨hq, hlast⟩ | hq
  · rw [hq]
    refine ⟨[], (List.append_nil _).symm, Nat.le_add_left _ _, ?_⟩
    rintro r x rfl
    have hx : 0 < x.length := List.length_pos_iff.2 fun hx => hlast (hx ▸ List.getLast?_concat)
    rw [hconcat]
    omega
  · have hlen : (chopped parts).length = (chopped (mountNames str)).length + 1 := by
      rw [hq, hconcat, List.length_nil]
    refine ⟨[0], ?_, by omega, ?_⟩
    · rw [hq, chopped, List.flatMap_append]
      rfl
    · intro r x hr
      rw [hlen, hr, hconcat]
      omega

end

/-- The absolute paths with the components `q`, with a trailing separator or not. -/
def AbsolutePath (s : List UInt8) (q : List (List UInt8)) : Prop :=
  s = render q ∨ s = render q ++ [pathSeparator]

theorem AbsolutePath.head {s : List UInt8} (h : AbsolutePath s q) :
    s.head? = some pathSeparator := by
  rcases h with rfl | rfl
  · exact head_render q
  · rw [List.head?_append, head_render]
    rfl

/-- A path that is not the root is split into its components, and into an empty name more if there
    is a trailing separator. -/
theorem AbsolutePath.splitOn {s : List UInt8} (h : AbsolutePath s q) (hc : Canonical q)
    (hq : q ≠ []) :
    s.splitOn pathSeparator = [] :: q ∨ s.splitOn pathSeparator = [] :: q ++ [[]] := by
  have hsplit := splitOn_flatMap fun x hx => (hc x hx).2.1
  rw [AbsolutePath, render, if_neg hq] at h
  rcases h with rfl | rfl
  · exact .inl hsplit
  · right
    rw [List.splitOn_append_cons_self, hsplit]
    rfl

theorem AbsolutePath.mountNames_eq {s : List UInt8} (h : AbsolutePath s q) (hc : Canonical q) :
    mountNames s = q := by
  by_cases hq : q = []
  · subst hq
    rcases h with rfl | rfl <;> decide
  · have hne : ∀ x ∈ q, x ≠ [] := fun x hx => (hc x hx).1
    have hhead : q.head? ≠ some [] := fun h => hne [] (List.mem_of_head? h) rfl
    have hlast : q.getLast? ≠ some [] := fun h => hne [] (List.mem_of_getLast? h) rfl
    rcases h.splitOn hc hq with h | h
    · rw [mountNames, h, List.tail_cons, if_neg hhead, if_neg hlast]
    · obtain ⟨x, q, rfl⟩ := List.exists_cons_of_ne_nil hq
      have hhead' : (x :: q ++ [[]]).head? ≠ some [] := hhead
      rw [mountNames, h, List.cons_append, List.tail_cons, if_neg hhead', List.getLast?_concat,
        if_pos rfl, List.dropLast_concat]

/-! ## Mounting in a tree -/

theorem setFile_eq (h : MountTree t path) (hi : i < t.arena.length) :
    (binding ⟨some t, r⟩ (path i) = none → Beryllium.setFile t i f =
      some (t.modify i fun n => { n with value.file := f }, 0)) ∧
    (binding ⟨some t, r⟩ (path i) ≠ none → Beryllium.setFile t i f = some (t, 3)) := by
  obtain ⟨n, hn⟩ := exists_node hi
  rw [Beryllium.setFile, hn, Option.bind_eq_bind, Option.bind_some]
  refine ⟨fun hb => if_neg fun hf => ?_, fun hb => if_pos fun hf => ?_⟩
  · rw [h.binding_eq.2 ⟨hf, i, n, hn, rfl, rfl⟩] at hb
    exact absurd hb (Option.some_ne_none _)
  · obtain ⟨g, hg⟩ := Option.ne_none_iff_exists'.1 hb
    obtain ⟨hg₀, j, m, hm, hp, rfl⟩ := h.binding_eq.1 hg
    obtain rfl := h.path_inj j (lt_of_arena hm) i hi hp
    rw [hn] at hm
    exact hg₀ (Option.some.inj hm ▸ hf)

/-- What every mount keeps: the tree is a tree of mount points, and the file of its root is the
    root node. -/
def MountInv (s : Vfs) : Prop :=
  ∃ t path n, s.tree = some t ∧ MountTree t path ∧ t.arena[0]? = some n ∧ n.value.file = s.rootNode

theorem mountInv_init : MountInv vfsInit := by
  refine ⟨_, fun _ => [], _, rfl, ⟨rfl, Nat.one_pos, rfl, ?_, ?_, ?_, ?_, ?_⟩, rfl, rfl⟩
  · intro i hi j hj _
    exact (Nat.lt_one_iff.1 hi).trans (Nat.lt_one_iff.1 hj).symm
  · intro i n hn c
    obtain rfl := Nat.lt_one_iff.1 (lt_of_arena hn)
    obtain rfl := Option.some.inj hn
    exact ⟨fun h => absurd h List.not_mem_nil, fun ⟨_, x, hx⟩ => absurd hx (by simp)⟩
  · intro i n hn
    obtain rfl := Nat.lt_one_iff.1 (lt_of_arena hn)
    obtain rfl := Option.some.inj hn
    exact List.nodup_nil
  · intro i n _ q x hx
    exact absurd hx (by simp)
  · intro i _ q x hx
    exact absurd hx (by simp)

variable {s : Vfs} {b str : List UInt8}

theorem vfsMount_relative (hs : MountInv s) (hb : CStr b str) (h : str.head? ≠ some pathSeparator) :
    vfsMount s (some b) f = some (s, 2) := by
  obtain ⟨t, -, -, ht, -⟩ := hs
  rw [vfsMount, ht]
  cases b with
  | nil => exact absurd hb cstr_nil
  | cons c b =>
    refine if_pos fun hc => ?_
    rcases cstr_cons.1 hb with ⟨rfl, -⟩ | ⟨-, s, rfl, -⟩
    · exact absurd hc (by decide)
    · exact h (congrArg some hc)

/-- The shortcut for the root sets the file of the root entry, and the root node. -/
theorem MountTree.setFile_root (h : MountTree t path) (hn : t.arena[0]? = some n) :
    (binding ⟨some t, n.value.file⟩ [] = none → ∃ t', Beryllium.setFile t 0 f = some (t', 0) ∧
      MountInv ⟨some t', f⟩ ∧
      (f ≠ 0 → binding ⟨some t', f⟩ =
        Function.update (binding ⟨some t, n.value.file⟩) [] (some f))) ∧
    (binding ⟨some t, n.value.file⟩ [] ≠ none → Beryllium.setFile t 0 f = some (t, 3)) := by
  have hset := setFile_eq (r := n.value.file) (f := f) h h.root_lt
  rw [h.path_root] at hset
  refine ⟨fun hfree => ?_, hset.2⟩
  refine ⟨_, hset.1 hfree, ⟨_, path, { n with value.file := f }, rfl, h.setFile 0 f, ?_, rfl⟩, ?_⟩
  · rw [arena_modify, if_pos rfl, hn]
    rfl
  · intro hf
    rw [← h.path_root]
    exact h.binding_setFile h.root_lt hf

/-- Setting the file of the node that the walk has led to. -/
theorem MountTree.setFile_walked (h : MountTree t path) (h' : MountTree t' path')
    (he : MountExt t path t' path') (hn : t.arena[0]? = some n) (hj : j < t'.arena.length)
    (hq : path' j ≠ []) (hold : j < t.arena.length → t' = t) :
    (binding ⟨some t, n.value.file⟩ (path' j) = none →
      ∃ t'', Beryllium.setFile t' j f = some (t'', 0) ∧
      MountInv ⟨some t'', n.value.file⟩ ∧ (f ≠ 0 → binding ⟨some t'', n.value.file⟩ =
        Function.update (binding ⟨some t, n.value.file⟩) (path' j) (some f))) ∧
    (binding ⟨some t, n.value.file⟩ (path' j) ≠ none → Beryllium.setFile t' j f = some (t, 3)) := by
  obtain ⟨hnone, hsome⟩ := setFile_eq (r := n.value.file) (f := f) h' hj
  have hbind : binding ⟨some t', n.value.file⟩ = binding ⟨some t, n.value.file⟩ :=
    he.binding_eq h h'
  rw [hbind] at hnone hsome
  refine ⟨fun hfree => ?_, fun hbound => ?_⟩
  · -- the root entry keeps its file: it is another node
    have hj₀ : j ≠ 0 := by
      rintro rfl
      exact hq ((he.path_eq 0 h.root_lt).trans h.path_root)
    obtain ⟨m, hm⟩ := exists_node (h.root_lt.trans_le he.length_le)
    have hval := he.value_eq 0 h.root_lt
    rw [hm, hn] at hval
    have hval : m.value = n.value := Option.some.inj hval
    refine ⟨_, hnone hfree, ⟨_, path', m, rfl, h'.setFile j f, ?_, congrArg VfsEntry.file hval⟩, ?_⟩
    · rw [arena_modify, if_neg hj₀, hm]
    · intro hf
      rw [h'.binding_setFile (r := n.value.file) hj hf, hbind]
  · -- the node that is bound was there before
    obtain ⟨g, hg⟩ := Option.ne_none_iff_exists'.1 hbound
    obtain ⟨-, k, m, hm, hpk, -⟩ := h.binding_eq.1 hg
    have hk := lt_of_arena hm
    have hjk : j = k := h'.path_inj j hj k (hk.trans_le he.length_le)
      (hpk.symm.trans (he.path_eq k hk).symm)
    rw [hsome hbound, hold (hjk ▸ hk)]

/-- Chopping a string that starts with a separator. -/
theorem chopPath_absolute {parts : List (List UInt8)}
    (h : str.splitOn pathSeparator = [] :: parts) :
    chopPath (str ++ [0]) str.length = 0 :: chopped parts ∧
    str.length = (chopped parts).length := by
  have hchop : chopPath (str ++ [0]) str.length = 0 :: chopped parts := by
    rw [chopPath_eq, chop_splitOn, h, chopped_cons]
    rfl
  refine ⟨hchop, ?_⟩
  have hlen := congrArg List.length hchop
  rw [chopPath_eq, List.length_append, List.length_map] at hlen
  exact Nat.succ_injective hlen

/-- A mount at a path binds the names that it is split into if they are not bound, and changes
    nothing if they are. -/
theorem vfsMount_names (hs : MountInv s) (hb : CStr b str) (hstr : str.head? = some pathSeparator) :
    (binding s (mountNames str) = none → ∃ s', vfsMount s (some b) f = some (s', 0) ∧ MountInv s' ∧
      (f ≠ 0 → binding s' = Function.update (binding s) (mountNames str) (some f))) ∧
    (binding s (mountNames str) ≠ none → vfsMount s (some b) f = some (s, 3)) := by
  obtain ⟨t, path, n, ht, h, hn, hroot⟩ := hs
  obtain ⟨tree, rootNode⟩ := s
  obtain rfl : tree = some t := ht
  obtain rfl : n.value.file = rootNode := hroot
  have hhead : b.head? = some pathSeparator := by
    obtain ⟨-, rest, rfl⟩ := hb
    rw [List.head?_append, hstr]
    rfl
  have hzero : 0 ∉ str := hb.1
  have hlen := strlen_eq (CStr.mk hzero [])
  obtain ⟨parts, hsplit, hne, hparts⟩ := splitOn_absolute hstr
  obtain ⟨hchop, hplen⟩ := chopPath_absolute hsplit
  have hmem : ∀ x ∈ parts, 0 ∉ x := fun x hx h₀ =>
    hzero (hparts ▸ List.mem_flatMap.2 ⟨x, hx, List.mem_cons_of_mem _ h₀⟩)
  simp only [vfsMount, hhead, copyString_eq hb, hlen, hchop, h.root, Option.bind_eq_bind,
    Option.bind_some, ne_eq, not_true_eq_false, if_false, Option.pure_def]
  obtain ⟨x, parts, rfl⟩ := List.exists_cons_of_ne_nil hne
  by_cases hx : x = []
  · -- the second separator has become a NUL: this is taken for the root
    subst hx
    obtain ⟨hnone, hsome⟩ := h.setFile_root (f := f) hn
    rw [mountNames_root hsplit (List.head?_cons ..)]
    simp only [chopped_cons, List.nil_append, List.getElem?_cons_succ, List.getElem?_cons_zero,
      Option.bind_some, if_true]
    refine ⟨fun hfree => ?_, fun hbound => ?_⟩
    · obtain ⟨t', hset, hinv, hbind⟩ := hnone hfree
      rw [hset]
      exact ⟨_, rfl, hinv, hbind⟩
    · rw [hsome hbound]
      rfl
  · have hhead' : (x :: parts).head? ≠ some [] := fun h => hx (Option.some.inj h)
    have hcases := mountNames_cases hsplit hhead'
    obtain ⟨rest, hchopped, hend, hlast⟩ := chopped_mountNames hsplit hhead'
    rw [← hplen] at hend hlast
    have hq : mountNames str ≠ [] := by
      intro hq
      rw [hq] at hcases
      rcases hcases with ⟨h, -⟩ | h
      · exact List.cons_ne_nil x parts h.symm
      · exact hx (List.cons.inj h).1
    have hmem' : ∀ y ∈ mountNames str, 0 ∉ y := by
      intro y hy
      rcases hcases with ⟨h, -⟩ | h
      · exact hmem y (h ▸ hy)
      · exact hmem y (h ▸ List.mem_append_left _ hy)
    generalize mountNames str = q at *
    obtain ⟨c, hone, hc⟩ : ∃ c, (0 :: chopped (x :: parts))[1]? = some c ∧ c ≠ 0 := by
      obtain ⟨c, y, rfl⟩ := List.exists_cons_of_ne_nil hx
      exact ⟨c, rfl, fun hc => hmem _ List.mem_cons_self (hc ▸ List.mem_cons_self)⟩
    have hfuel : q.length < str.length + 1 := by
      have := length_le_chopped q
      rw [hplen, hchopped, List.length_append]
      omega
    simp only [hone, hc, Option.bind_some, if_false]
    obtain ⟨t', path', j, hloop, h', he, hj, hp, hold⟩ := mountLoop_eq h h.root_lt hmem'
      (show List.drop 1 (0 :: chopped (x :: parts)) = chopped q ++ rest from hchopped) hend
        hlast hfuel
    rw [h.path_root, List.nil_append] at hp
    subst hp
    obtain ⟨hnone, hsome⟩ := h.setFile_walked (f := f) h' he hn hj hq hold
    rw [hloop, Option.bind_some]
    refine ⟨fun hfree => ?_, fun hbound => ?_⟩
    · obtain ⟨t'', hset, hinv, hbind⟩ := hnone hfree
      rw [hset]
      exact ⟨_, rfl, hinv, hbind⟩
    · rw [hsome hbound]
      rfl

/-- A mount at the path `q` binds `q` if it is not bound, and changes nothing if it is. -/
theorem vfsMount_absolute (hs : MountInv s) (hb : CStr b str) (hc : Canonical q)
    (ha : AbsolutePath str q) (hf : f ≠ 0) :
    (binding s q = none → ∃ s', vfsMount s (some b) f = some (s', 0) ∧ MountInv s' ∧
      binding s' = Function.update (binding s) q (some f)) ∧
    (binding s q ≠ none → vfsMount s (some b) f = some (s, 3)) := by
  obtain ⟨hnone, hsome⟩ := vfsMount_names (f := f) hs hb ha.head
  rw [ha.mountNames_eq hc] at hnone hsome
  refine ⟨fun hq => ?_, hsome⟩
  obtain ⟨s', hm, hinv, hbind⟩ := hnone hq
  exact ⟨s', hm, hinv, hbind hf⟩

/-! ## The mount table as a map -/

/-- A call of `vfs_mount`. -/
structure MountCall where
  path : Option (List UInt8)
  localRoot : ℕ

/-- The paths that are mounted at: `NULL`, relative, or canonical with one trailing separator at
    most. -/
def MountPath : Option (List UInt8) → Prop
  | none => True
  | some b => ∃ s, CStr b s ∧
    (s.head? ≠ some pathSeparator ∨ ∃ q, Canonical q ∧ AbsolutePath s q)

/-- Calls of `vfs_mount` with files after `vfs_init`. -/
def mountSystem : System Vfs MountCall where
  init s := s = vfsInit
  guard _ op := MountPath op.path ∧ op.localRoot ≠ 0
  step s op := (vfsMount s op.path op.localRoot).map Prod.fst

theorem vfsMount_null (hs : MountInv s) : vfsMount s none f = some (s, 2) := by
  obtain ⟨t, -, -, ht, -⟩ := hs
  rw [vfsMount, ht]

/-- Every call of `vfs_mount` keeps the invariant, whatever its path. -/
theorem MountInv.mount {mountPath : Option (List UInt8)} {s' : Vfs} {ret : ℤ} (hs : MountInv s)
    (hpath : ∀ b, mountPath = some b → ∃ str, CStr b str)
    (hm : vfsMount s mountPath f = some (s', ret)) : MountInv s' := by
  -- the calls that return an error leave the state as it is
  have hsame : ∀ {ret'}, vfsMount s mountPath f = some (s, ret') → MountInv s' := fun h =>
    (Prod.mk.inj (Option.some.inj (hm.symm.trans h))).1 ▸ hs
  cases mountPath with
  | none => exact hsame (vfsMount_null hs)
  | some b =>
    obtain ⟨str, hb⟩ := hpath b rfl
    by_cases hstr : str.head? = some pathSeparator
    · obtain ⟨hfree, hbound⟩ := vfsMount_names (f := f) hs hb hstr
      by_cases hq : binding s (mountNames str) = none
      · obtain ⟨s₁, hs₁, hinv, -⟩ := hfree hq
        exact (Prod.mk.inj (Option.some.inj (hm.symm.trans hs₁))).1 ▸ hinv
      · exact hsame (hbound hq)
    · exact hsame (vfsMount_relative hs hb hstr)

theorem mountInv_step (s : Vfs) (op : MountCall) (s' : Vfs) (hs : MountInv s)
    (hg : mountSystem.guard s op) (hstep : mountSystem.step s op = some s') : MountInv s' := by
  obtain ⟨⟨s'', ret⟩, hm, rfl⟩ := Option.map_eq_some_iff.1 hstep
  refine hs.mount (fun b hb => ?_) hm
  have hpath : MountPath op.path := hg.1
  rw [hb] at hpath
  exact hpath.imp fun _ h => h.1

theorem binding_init : binding vfsInit = fun _ => none := by
  funext q
  cases q <;> rfl

/-- The names of the children of a node differ. -/
theorem MountTree.nodup_names (h : MountTree t path) (hn : t.arena[i]? = some n) :
    (n.children.map fun c => t.arena[c]?.map (·.value.name)).Nodup := by
  refine List.Nodup.map_on (fun c hc d hd hcd => ?_) (h.nodup i n hn)
  obtain ⟨hc, x, hx⟩ := (h.mem_children i n hn c).1 hc
  obtain ⟨hd, y, hy⟩ := (h.mem_children i n hn d).1 hd
  obtain ⟨m, hm⟩ := exists_node hc
  obtain ⟨k, hk⟩ := exists_node hd
  rw [hm, hk, Option.map_some, Option.map_some, (h.name c m hm _ _ hx).1, (h.name d k hk _ _ hy).1,
    Option.some.injEq, List.append_cancel_right_eq] at hcd
  exact h.path_inj c hc d hd (hx.trans (hcd ▸ hy.symm))

/-- The mount tree is a partial map from paths to files: a call with a path that is `NULL` or
    relative returns 2, at a bound path it returns 3, and both change nothing; at another path it
    returns 0, and adds the binding. Siblings have distinct names, and the root node is the file
    of the root entry. -/
theorem mount_refines_map (h : mountSystem.Reachable s) :
    binding vfsInit = (fun _ => none) ∧
    (∀ f, vfsMount s none f = some (s, 2)) ∧
    (∀ b str f, CStr b str → str.head? ≠ some pathSeparator → vfsMount s (some b) f = some (s, 2)) ∧
    (∀ b str q f, CStr b str → Canonical q → AbsolutePath str q → f ≠ 0 →
      (binding s q = none → ∃ s', vfsMount s (some b) f = some (s', 0) ∧
        binding s' = Function.update (binding s) q (some f)) ∧
      (binding s q ≠ none → vfsMount s (some b) f = some (s, 3))) ∧
    ∃ t r n, s.tree = some t ∧ t.root = some r ∧ t.arena[r]? = some n ∧
      n.value.file = s.rootNode ∧
      ∀ (i : ℕ) (n : TreeNode VfsEntry), t.arena[i]? = some n →
        (n.children.map fun c => t.arena[c]?.map (·.value.name)).Nodup := by
  have hs : MountInv s := h.of_step (fun s hs => hs ▸ mountInv_init) mountInv_step
  refine ⟨binding_init, fun f => vfsMount_null hs,
    fun b str f hb hrel => vfsMount_relative hs hb hrel, ?_, ?_⟩
  · intro b str q f hb hc ha hf
    obtain ⟨hfree, hbound⟩ := vfsMount_absolute hs hb hc ha hf
    refine ⟨fun hq => ?_, hbound⟩
    obtain ⟨s', hm, -, hbind⟩ := hfree hq
    exact ⟨s', hm, hbind⟩
  · obtain ⟨t, path, n, ht, htree, hn, hroot⟩ := hs
    exact ⟨t, 0, n, ht, htree.root, hn, hroot, fun i n hn => htree.nodup_names hn⟩

/-- `/a/b` is mounted before `/a/`, and `/a` cannot be mounted again. -/
theorem mount_refines_map_parent :
    ∃ s s', vfsMount vfsInit (some [47, 97, 47, 98, 0]) 1 = some (s, 0) ∧
    vfsMount s (some [47, 97, 47, 0]) 2 = some (s', 0) ∧
    vfsMount s' (some [47, 97, 0]) 3 = some (s', 3) ∧
    binding s' [[97]] = some 2 ∧ binding s' [[97], [98]] = some 1 := by
  have hab : Canonical [[97], [98]] := by unfold Canonical; decide
  have ha : Canonical [[97]] := by unfold Canonical; decide
  have hinit : mountSystem.Reachable vfsInit := ⟨vfsInit, [], rfl, .nil _⟩
  obtain ⟨hnil, -, -, hmount, -⟩ := mount_refines_map hinit
  have hstr : CStr [47, 97, 47, 98, 0] [47, 97, 47, 98] := CStr.mk (by decide) []
  obtain ⟨s, hs, hbind⟩ := (hmount _ _ _ 1 hstr hab (.inl rfl) (by decide)).1 (by rw [hnil])
  have hreach : mountSystem.Reachable s := hinit.step
    (show mountSystem.guard vfsInit ⟨some [47, 97, 47, 98, 0], 1⟩ from
      ⟨⟨_, hstr, .inr ⟨_, hab, .inl rfl⟩⟩, Nat.one_ne_zero⟩) (congrArg (Option.map Prod.fst) hs)
  obtain ⟨-, -, -, hmount', -⟩ := mount_refines_map hreach
  have hstr' : CStr [47, 97, 47, 0] [47, 97, 47] := CStr.mk (by decide) []
  obtain ⟨s', hs', hbind'⟩ := (hmount' _ _ _ 2 hstr' ha (.inr rfl) (by decide)).1
    (by rw [hbind, hnil]; rfl)
  have hreach' : mountSystem.Reachable s' := hreach.step
    (show mountSystem.guard s ⟨some [47, 97, 47, 0], 2⟩ from
      ⟨⟨_, hstr', .inr ⟨_, ha, .inr rfl⟩⟩, Nat.succ_ne_zero 1⟩) (congrArg (Option.map Prod.fst) hs')
  obtain ⟨-, -, -, hmount'', -⟩ := mount_refines_map hreach'
  have hstr'' : CStr [47, 97, 0] [47, 97] := CStr.mk (by decide) []
  have hbound : binding s' [[97]] = some 2 := by rw [hbind', Function.update_self]
  refine ⟨s, s', hs, hs', ?_, hbound, ?_⟩
  · exact (hmount'' _ _ _ 3 hstr'' ha (.inl rfl) (by decide)).2 (by rw [hbound]; simp)
  · rw [hbind', Function.update_of_ne (by decide), hbind, Function.update_self]

end Beryllium

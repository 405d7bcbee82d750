import Beryllium.Vfs.MountOpen

/-!
# Opening with null pointers

`kopen` of `kernel/vfs.c` copies three nodes without a check: the root, the mount point, and what
the lookups are started from. Without a file system on the path these are null pointers
(`kopen_unmounted`). The callbacks may return any node, also the one they are called with, which
`kopen` frees before it goes on with what they have returned.

`kopen_valid_iff`: it is stuck in these two cases, and in no others.
-/

namespace Beryllium

open Machine

variable {W : Type} {d : Drivers W} {e : Env W} {n : VfsNode} {p : ℕ} {q : List (List UInt8)}

/-! ## Callbacks that return any node -/

/-- `finddir` returns `NULL` or a node. -/
def Drivers.Valid (d : Drivers W) : Prop :=
  ∀ fn e node name n, e.heap.node node = some n →
    (d.finddir fn e node name).2 = 0 ∨
      ∃ m, (d.finddir fn e node name).1.heap.node (d.finddir fn e node name).2 = some m

/-- None of the lookups of the names `q`, one after the other, returns the node that it is called
    with. -/
def NoneReturnsItself (d : Drivers W) : Env W → ℕ → List (List UInt8) → Prop
  | _, _, [] => True
  | e, node, x :: q => ∀ e' next, finddirVfs d e node (x ++ [0]) = some (e', next) → next ≠ 0 →
      next ≠ node ∧ NoneReturnsItself d { e' with heap := e'.heap.free node } next q

/-- A file system is mounted at a prefix of `q`. -/
def Covered (s : Vfs) (q : List (List UInt8)) : Prop := ∃ k ≤ q.length, binding s (q.take k) ≠ none

/-- The names after the longest mounted prefix of `q` are looked up from a node on, and none of the
    lookups returns the node that it is called with. -/
def LooksUp (d : Drivers W) (s : Vfs) (e : Env W) (q : List (List UInt8)) : Prop :=
  ∃ k f n, IsLongest s q k ∧ binding s (q.take k) = some f ∧ e.heap.node f = some n ∧
    NoneReturnsItself d (e.clones n) e.heap.bound (q.drop k)

theorem finddirVfs_valid (hd : d.Valid) (hn : e.heap.node p = some n) (name : List UInt8) :
    ∃ e' next, finddirVfs d e p name = some (e', next) ∧
      (next ≠ 0 → ∃ m, e'.heap.node next = some m) := by
  rw [finddirVfs, hn, Option.bind_eq_bind, Option.bind_some]
  split_ifs
  · exact ⟨_, _, rfl, fun hne => (hd n.finddir e p name n hn).resolve_left hne⟩
  · exact ⟨e, 0, rfl, fun h => absurd rfl h⟩

/-- Lookups that start from no node do not end in a node. -/
theorem finddirs_dangling (hp : p ≠ 0) (hn : e.heap.node p = none) {e' : Env W} {p' : ℕ}
    (h : finddirs d e p q = some (e', p')) : p' ≠ 0 ∧ e'.heap.node p' = none := by
  cases q with
  | nil =>
    obtain ⟨rfl, rfl⟩ := Prod.mk.inj (Option.some.inj h)
    exact ⟨hp, hn⟩
  | cons x q =>
    rw [finddirs, finddirVfs, hn] at h
    cases h

/-- The lookups go through and end in a node or `NULL` if and only if none of them returns the node
    it is called with. -/
theorem finddirs_valid_iff (hd : d.Valid) (hn : e.heap.node p = some n) :
    (∃ e' p', finddirs d e p q = some (e', p') ∧ (p' ≠ 0 → ∃ m, e'.heap.node p' = some m)) ↔
      NoneReturnsItself d e p q := by
  induction q generalizing e p n with
  | nil => exact ⟨fun _ => trivial, fun _ => ⟨e, p, rfl, fun _ => ⟨n, hn⟩⟩⟩
  | cons x q ih =>
    obtain ⟨e₁, next, hfind, hnext⟩ := finddirVfs_valid hd hn (x ++ [0])
    rw [finddirs, NoneReturnsItself, hfind]
    simp only [Option.bind_eq_bind, Option.bind_some]
    by_cases hz : next = 0
    · rw [if_pos hz]
      refine ⟨fun _ e' next' heq hne => ?_, fun _ => ⟨_, 0, rfl, fun h => absurd rfl h⟩⟩
      exact absurd hz ((Prod.mk.inj (Option.some.inj heq)).2 ▸ hne)
    · rw [if_neg hz]
      by_cases hself : next = p
      · -- the node is freed before it is used
        subst hself
        have hfree : (e₁.heap.free next).node next = none := Function.update_self ..
        refine ⟨?_, fun h => absurd rfl (h e₁ next rfl hz).1⟩
        rintro ⟨e', p', h, hlive⟩
        obtain ⟨hp', hnone⟩ := finddirs_dangling hz hfree h
        obtain ⟨m, hm⟩ := hlive hp'
        rw [hnone] at hm
        cases hm
      · obtain ⟨m, hm⟩ := hnext hz
        have hm' : (e₁.heap.free p).node next = some m := (Function.update_of_ne hself ..).trans hm
        rw [ih (e := { e₁ with heap := e₁.heap.free p }) hm']
        refine ⟨fun h e' next' heq _ => ?_, fun h => (h e₁ next rfl hz).2⟩
        obtain ⟨rfl, rfl⟩ := Prod.mk.inj (Option.some.inj heq)
        exact ⟨hself, h⟩

theorem openFound_isSome {r : Env W × ℕ} {flags : ℕ} :
    (∃ r', openFound d flags r = some r') ↔ (r.2 ≠ 0 → ∃ m, r.1.heap.node r.2 = some m) := by
  rw [openFound]
  split_ifs with hz
  · exact ⟨fun _ h => absurd hz h, fun _ => ⟨_, rfl⟩⟩
  · constructor
    · rintro ⟨r', h⟩ -
      obtain ⟨e', hopen, -⟩ := Option.map_eq_some_iff.1 h
      obtain ⟨m, hm, -⟩ := Option.bind_eq_some_iff.1 hopen
      exact ⟨m, hm⟩
    · intro h
      obtain ⟨m, hm⟩ := h hz
      obtain ⟨e', hopen⟩ := openVfs_some flags hm
      exact ⟨_, by rw [hopen]; rfl⟩

/-! ## kopen -/

section

variable {s : Vfs} {b str : List UInt8}

/-- With a file system mounted on the path, `kopen` is stuck only where a lookup returns the node
    that it is called with. -/
theorem kopen_covered_iff (malloc : Malloc) (g : VfsNode) (hd : d.Valid) (hs : MountInv s)
    (hlive : ∀ p f, binding s p = some f → ∃ n, e.heap.node f = some n) (hb : CStr b str)
    (hq : resolve [] (components str) = q) (hc : Covered s q) (flags : ℕ) :
    (∃ r, kopen d malloc g s e (some b) flags = some r) ↔ LooksUp d s e q := by
  obtain ⟨k, hk⟩ := exists_isLongest hc
  obtain ⟨f, hf⟩ := Option.ne_none_iff_exists'.1 hk.2.1
  obtain ⟨n, hn⟩ := hlive _ f hf
  have hlooks : LooksUp d s e q ↔ NoneReturnsItself d (e.clones n) e.heap.bound (q.drop k) := by
    refine ⟨?_, fun h => ⟨k, f, n, hk, hf, hn, h⟩⟩
    rintro ⟨k', f', n', hk', hf', hn', h⟩
    obtain rfl := hk.eq hk'
    obtain rfl := Option.some.inj (hf.symm.trans hf')
    obtain rfl := Option.some.inj (hn.symm.trans hn')
    exact h
  rw [hlooks]
  rcases hk.1.eq_or_lt with hkq | hkq
  · -- nothing is looked up
    rw [hkq, List.drop_length]
    rw [hkq, List.take_length] at hf
    obtain ⟨h', p, hopen, -⟩ := kopen_mounted (d := d) malloc g hs hb hq hf hn flags
    exact ⟨fun _ => trivial, fun _ => ⟨_, hopen⟩⟩
  · rw [kopen_lookup malloc g hs hb hq hk hf hn hkq, ← finddirs_valid_iff hd Env.clones_node]
    constructor
    · rintro ⟨r, h⟩
      obtain ⟨⟨e', p'⟩, hfind, hopen⟩ := Option.bind_eq_some_iff.1 h
      exact ⟨e', p', hfind, openFound_isSome.1 ⟨r, hopen⟩⟩
    · rintro ⟨e', p', hfind, hnode⟩
      obtain ⟨r, hopen⟩ : ∃ r, openFound d flags (e', p') = some r := openFound_isSome.2 hnode
      exact ⟨r, by rw [hfind, Option.bind_some, hopen]⟩

/-- `kopen` reads and copies from nodes only, and returns `NULL` for a path without a file system,
    if and only if it is called with `NULL`, or a file system is mounted at a prefix of the path and
    none of the lookups of the other names returns the node that it is called with. -/
theorem kopen_valid_iff (malloc : Malloc) (g : VfsNode) (hd : d.Valid)
    (hs : anyMountSystem.Reachable s)
    (hlive : ∀ p f, binding s p = some f → ∃ n, e.heap.node f = some n)
    (filename : Option (List UInt8)) (hfile : ∀ b, filename = some b → ∃ str, CStr b str)
    (flags : ℕ) :
    (∃ e' p, kopen d malloc g s e filename flags = some (e', p) ∧
      ((∀ b str, filename = some b → CStr b str → ¬ Covered s (resolve [] (components str))) →
        p = 0)) ↔
    ∀ b str, filename = some b → CStr b str → LooksUp d s e (resolve [] (components str)) := by
  have hinv := mountInv_of_reachable hs
  cases filename with
  | none =>
    exact ⟨fun _ b str h => absurd h (Option.some_ne_none b).symm,
      fun _ => ⟨e, 0, kopen_none malloc g hinv flags, fun _ => rfl⟩⟩
  | some b =>
    obtain ⟨str, hb⟩ := hfile b rfl
    have hstr : ∀ c str', some b = some c → CStr c str' → str' = str := by
      rintro c str' h hc
      obtain rfl := Option.some.inj h
      exact hc.unique hb
    by_cases hc : Covered s (resolve [] (components str))
    · rw [show (∀ c str', some b = some c → CStr c str' →
        LooksUp d s e (resolve [] (components str'))) ↔
        LooksUp d s e (resolve [] (components str)) from
          ⟨fun h => h b str rfl hb, fun h c str' hbc hc => hstr c str' hbc hc ▸ h⟩]
      rw [← kopen_covered_iff malloc g hd hinv hlive hb rfl hc flags]
      constructor
      · rintro ⟨e', p, hopen, -⟩
        exact ⟨_, hopen⟩
      · rintro ⟨r, hopen⟩
        exact ⟨r.1, r.2, hopen, fun h => absurd hc (h b str rfl hb)⟩
    · -- the null pointer is copied
      have hnone : ∀ j ≤ (resolve [] (components str)).length,
          binding s ((resolve [] (components str)).take j) = none := fun j hj =>
        not_not.1 fun hne => hc ⟨j, hj, hne⟩
      rw [kopen_unmounted malloc g hinv hb rfl hnone flags]
      constructor
      · rintro ⟨e', p, hopen, -⟩
        cases hopen
      · intro h
        obtain ⟨k, f, n, hk, -⟩ := h b str rfl hb
        exact absurd ⟨k, hk.1, hk.2.1⟩ hc

end

theorem dirDriver_valid : dirDriver.Valid :=
  fun _ _ _ _ _ _ => .inr ⟨dirNode, Function.update_self ..⟩

/-- With a directory mounted at `/`, `a` is looked up in a copy of it to open `/a`. -/
theorem kopen_valid_root : ∃ s e' p, anyMountSystem.Reachable s ∧ binding s [] = some 1 ∧
    kopen dirDriver (Malloc.filled 0xCC) dirNode s ⟨dirHeap, ()⟩ (some [47, 97, 0]) 0 =
      some (e', p) := by
  have ha : CStr [47, 97, 0] [47, 97] := CStr.mk (by decide) []
  obtain ⟨s, hs, hbind, hnode⟩ := exists_mounted_root
  have hlive : ∀ p f, binding s p = some f → ∃ n, dirHeap.node f = some n :=
    fun p f hb => ⟨dirNode, hnode p f hb⟩
  have hself : binding s [] = some 1 := by rw [hbind, Function.update_self]
  -- the root is all of the path that is mounted, and the driver returns the node after the two
  -- copies
  have hlooks : LooksUp dirDriver s ⟨dirHeap, ()⟩ (resolve [] (components [47, 97])) := by
    rw [show resolve [] (components [47, 97]) = [[97]] by decide]
    refine ⟨0, 1, dirNode, ⟨Nat.zero_le _, by rw [List.take_zero, hself]; decide, ?_⟩,
      hself, rfl, ?_⟩
    · intro j hj hjq
      obtain rfl : j = 1 := Nat.le_antisymm hjq hj
      rw [hbind]
      rfl
    · intro e' next hfind _
      obtain ⟨-, rfl⟩ := Prod.mk.inj (Option.some.inj hfind)
      exact ⟨by decide, trivial⟩
  obtain ⟨e', p, hopen, -⟩ := (kopen_valid_iff (Malloc.filled 0xCC) dirNode dirDriver_valid hs hlive
    (some [47, 97, 0]) (fun b hb => ⟨[47, 97], Option.some.inj hb ▸ ha⟩) 0).2
      fun b str hb hstr => by
      obtain rfl := Option.some.inj hb
      rw [hstr.unique ha]
      exact hlooks
  exact ⟨s, e', p, hs, hself, hopen⟩

/-- With nothing mounted, `kopen` copies the null pointer for `/` and for `/a`. -/
theorem kopen_null : anyMountSystem.Reachable vfsInit ∧ emptyDriver.Valid ∧
    ∀ b, b = [47, 0] ∨ b = [47, 97, 0] →
      kopen emptyDriver (Malloc.filled 0xCC) dirNode vfsInit ⟨dirHeap, ()⟩ (some b) 0 = none := by
  refine ⟨vfsInit_reachable, fun _ _ _ _ _ _ => .inl rfl, fun b hb => ?_⟩
  have hnone : ∀ q : List (List UInt8), ∀ j ≤ q.length, binding vfsInit (q.take j) = none :=
    fun q j _ => by rw [binding_init]
  rcases hb with rfl | rfl
  · exact kopen_unmounted _ _ mountInv_init (CStr.mk (s := [47]) (by decide) []) rfl (hnone _) 0
  · exact kopen_unmounted _ _ mountInv_init (CStr.mk (s := [47, 97]) (by decide) []) rfl (hnone _) 0

end Beryllium

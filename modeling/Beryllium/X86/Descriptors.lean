import Beryllium.Lib.MemRange
import Beryllium.Machine.Descriptor
import Beryllium.X86.Stubs
import Mathlib.Tactic.FinCases

/-!
# The descriptor tables

The tables of `arch/x86/low/gdt.c` and `arch/x86/low/idt.c`, and the gates of `isrs_setup` and
`irq_install`. A `struct gdt_entry` and a `struct idt_entry` have eight bytes each.

* `idt_gates`: after the setup the first 48 vectors lead to their stubs, and the others nowhere;
* `gdt_segments`: a segment is read back as it was set, and those that the stubs load are flat.
-/

namespace Beryllium

open Machine I386

/-! ## The interrupt descriptor table -/

/-- `idt_set_gate`, with the address of `idt`. -/
def idtSetGate (m : Mem) (idt : ℕ) (num : UInt8) (base : BitVec 32) (sel : BitVec 16)
    (flags : BitVec 8) : Mem :=
  let entry := idt + 8 * num.toNat
  let m := m.store16 entry (base &&& 0xFFFF).toNat
  let m := m.store16 (entry + 6) (base >>> 16 &&& 0xFFFF).toNat
  let m := m.store16 (entry + 2) sel.toNat
  let m := m.store8 (entry + 4) 0
  m.store8 (entry + 5) flags.toNat

/-- A `struct gdt_ptr` or `struct idt_ptr`. -/
structure TablePtr where
  limit : ℕ
  base : ℕ

/-- `idt_setup` -/
def idtSetup (m : Mem) (idt : ℕ) : Mem × TablePtr :=
  (memset m idt 0 (8 * 256), ⟨8 * 256 - 1, idt⟩)

/-- `n` calls of `idt_set_gate`, for the stubs of the vectors from `k` on. -/
def setGates (m : Mem) (idt : ℕ) (c : StubAddresses) (k n : ℕ) : Mem :=
  (List.range n).foldl (fun m i => idtSetGate m idt (UInt8.ofNat (k + i)) (c.stub (k + i))
    0x08 0x8E) m

/-- `isrs_setup`, with the addresses of the stubs. -/
def isrsSetup (m : Mem) (idt : ℕ) (c : StubAddresses) : Mem := setGates m idt c 0 32

/-- `irq_install` after `irq_remap`. -/
def irqInstall (m : Mem) (idt : ℕ) (c : StubAddresses) : Mem := setGates m idt c 32 16

variable {m : Mem} {idt : ℕ} {num : UInt8} {base : BitVec 32} {sel : BitVec 16}
  {flags : BitVec 8} {x : ℕ}

/-- A gate is set in its own bytes. -/
theorem idtSetGate_apply_of_disjoint (h : x < idt + 8 * num.toNat ∨ idt + 8 * num.toNat + 8 ≤ x) :
    idtSetGate m idt num base sel flags x = m x := by
  simp only [idtSetGate, Mem.store16]
  repeat rw [Mem.store8_apply_of_ne (by omega)]

/-- The bytes of a gate. -/
def gateBytes (base : BitVec 32) (sel : BitVec 16) (flags : BitVec 8) : Entry :=
  ![base.toNat % 256, base.toNat / 256 % 256, sel.toNat % 256, sel.toNat / 256, 0, flags.toNat,
    base.toNat / 65536 % 256, base.toNat / 16777216]

theorem entryAt_idtSetGate {a : ℕ} (ha : a = idt + 8 * num.toNat) :
    entryAt (idtSetGate m idt num base sel flags) a = gateBytes base sel flags := by
  have hb := base.isLt
  have hs := sel.isLt
  have hlo : (base &&& 0xFFFF).toNat = base.toNat % 65536 := by
    rw [BitVec.toNat_and]
    exact Nat.and_two_pow_sub_one_eq_mod base.toNat 16
  have hhi : (base >>> 16 &&& 0xFFFF).toNat = base.toNat / 65536 := by
    rw [BitVec.toNat_and, BitVec.toNat_ushiftRight, Nat.shiftRight_eq_div_pow]
    exact (Nat.and_two_pow_sub_one_eq_mod _ 16).trans (Nat.mod_eq_of_lt (by omega))
  funext i
  simp only [entryAt, Mem.load8, idtSetGate, Mem.store16, Mem.store8, hlo, hhi, gateBytes, ← ha]
  fin_cases i <;> simp [Nat.add_assoc] <;> omega

/-- The processor reads a gate as it was set. -/
theorem gate_gateBytes (base : BitVec 32) (sel : BitVec 16) (flags : BitVec 8) :
    (gateBytes base sel flags).gate =
    { offset := base
      sel := sel
      kind := flags.toNat % 32
      dpl := flags.toNat / 32 % 4
      present := flags.toNat / 128 = 1 } := by
  have hb := base.isLt
  have hs := sel.isLt
  have hf := flags.isLt
  rw [gateBytes, Entry.gate, Gate.mk.injEq]
  refine ⟨BitVec.eq_of_toNat_eq ?_, BitVec.eq_of_toNat_eq ?_, rfl, rfl, decide_eq_decide.2 ?_⟩
  · simp only [BitVec.toNat_ofNat, Matrix.cons_val]
    omega
  · simp only [BitVec.toNat_ofNat, Matrix.cons_val]
    omega
  · simp only [Matrix.cons_val]
    omega

theorem setGates_succ (m : Mem) (idt : ℕ) (c : StubAddresses) (k n : ℕ) :
    setGates m idt c k (n + 1) =
    idtSetGate (setGates m idt c k n) idt (UInt8.ofNat (k + n)) (c.stub (k + n)) 0x08 0x8E := by
  rw [setGates, List.range_succ, List.foldl_append]
  rfl

/-- The gates from `k` on are set, and no others. -/
theorem entryAt_setGates {c : StubAddresses} {k n v : ℕ} (hk : k + n ≤ 256) :
    entryAt (setGates m idt c k n) (idt + 8 * v) =
      if k ≤ v ∧ v < k + n then gateBytes (c.stub v) 0x08 0x8E else entryAt m (idt + 8 * v) := by
  induction n with
  | zero => exact (if_neg (by omega)).symm
  | succ n ih =>
    have hnum : (UInt8.ofNat (k + n)).toNat = k + n := by
      rw [UInt8.toNat_ofNat']
      exact Nat.mod_eq_of_lt (by omega)
    rw [setGates_succ]
    rcases eq_or_ne v (k + n) with rfl | hv
    · rw [if_pos (by omega), entryAt_idtSetGate (by rw [hnum])]
    · rw [entryAt_congr fun x hx hx' => idtSetGate_apply_of_disjoint (by rw [hnum]; omega),
        ih (by omega)]
      exact if_congr (by omega) rfl rfl

/-- The state after an interrupt with the vector `n` is delivered through the table at `idt`, `none`
    if there is no interrupt gate for it. -/
def deliverThrough (s : Cpu) (t : TablePtr) (n : ℕ) (err : Option (BitVec 32)) : Option Cpu :=
  let g := (entryAt s.mem (t.base + 8 * n)).gate
  if 8 * n + 7 ≤ t.limit ∧ g.present ∧ g.kind = 14 then some (s.deliver g.sel g.offset err)
    else none

/-- The memory after the setup of the interrupts. -/
def idtMemory (m : Mem) (idt : ℕ) (c : StubAddresses) : Mem :=
  irqInstall (isrsSetup (idtSetup m idt).1 idt c) idt c

/-- The bytes of the table. -/
theorem entryAt_idtMemory {c : StubAddresses} {n : ℕ} (hn : n < 256) :
    entryAt (idtMemory m idt c) (idt + 8 * n) =
    if n < 48 then gateBytes (c.stub n) 0x08 0x8E else fun _ => 0 := by
  have hzero : entryAt (memset m idt 0 2048) (idt + 8 * n) = fun _ => 0 := by
    funext i
    have hfill : memset m idt 0 2048 = filled m idt 0 2048 := memset_zero
    rw [entryAt, Mem.load8, Nat.add_assoc, hfill, filled_apply (by omega)]
    rfl
  have hm : idtMemory m idt c = setGates (setGates (memset m idt 0 2048) idt c 0 32) idt c 32 16 :=
    rfl
  rw [hm, entryAt_setGates (by decide), entryAt_setGates (by decide), hzero]
  split_ifs <;> first | rfl | omega

/-- As long as the table is as it was set up, the first 48 vectors lead to their stubs, in the code
    segment of the kernel, and the others nowhere. -/
theorem idt_gates (m : Mem) (idt : ℕ) (c : StubAddresses) (s : Cpu) (n : ℕ)
    (err : Option (BitVec 32)) (h : ∀ x, idt ≤ x → x < idt + 2048 → s.mem x = idtMemory m idt c x) :
    deliverThrough s (idtSetup m idt).2 n err =
      if n < 48 then some (s.deliver 0x08 (c.stub n) err) else none := by
  rw [deliverThrough]
  by_cases hn : n < 256
  · have hentry : entryAt s.mem (idt + 8 * n) = _ :=
      (entryAt_congr fun x hx hx' => h x (by omega) (by omega)).trans (entryAt_idtMemory hn)
    simp only [idtSetup, hentry]
    by_cases h48 : n < 48
    · rw [if_pos h48, if_pos h48, gate_gateBytes]
      exact if_pos ⟨by omega, rfl, rfl⟩
    · rw [if_neg h48, if_neg h48]
      exact if_neg fun h => absurd h.2.2 (by decide)
  · rw [if_neg (show ¬n < 48 by omega)]
    exact if_neg fun h => absurd h.1 (by simp only [idtSetup]; omega)

/-- The timer interrupt of a processor whose table is at `0x2000`. -/
theorem idt_timer :
    let s := { countingStart with mem := idtMemory (fun _ => 0xFF) 0x2000 someAddresses }
    deliverThrough s (idtSetup (fun _ => 0xFF) 0x2000).2 32 none = some
    (s.deliver 0x08 0x100020 none) :=
  idt_gates (fun _ => 0xFF) 0x2000 someAddresses
    { countingStart with mem := idtMemory (fun _ => 0xFF) 0x2000 someAddresses } 32 none
      fun _ _ _ => rfl

/-! ## The global descriptor table -/

/-- The arguments of `gdt_set_gate`. -/
structure GdtGate where
  num : ℕ
  base : BitVec 32
  limit : BitVec 32
  access : BitVec 8
  gran : BitVec 8

/-- `gdt_set_gate`, with the address of `gdt`. -/
def gdtSetGate (m : Mem) (gdt : ℕ) (g : GdtGate) : Mem :=
  let entry := gdt + 8 * g.num
  let m := m.store16 (entry + 2) (g.base &&& 0xFFFF).toNat
  let m := m.store8 (entry + 4) (g.base >>> 16 &&& 0xFF).toNat
  let m := m.store8 (entry + 7) (g.base >>> 24 &&& 0xFF).toNat
  let m := m.store16 entry (g.limit &&& 0xFFFF).toNat
  let m := m.store8 (entry + 6) (g.limit >>> 16 &&& 0x0F).toNat
  let m := m.store8 (entry + 6) (m.load8 (entry + 6) ||| (g.gran &&& 0xF0).toNat)
  m.store8 (entry + 5) g.access.toNat

/-- The calls of `gdt_set_gate` in `gdt_setup`. -/
def gdtSetupGates : List GdtGate :=
  [⟨0, 0, 0, 0, 0⟩, ⟨1, 0, 0xFFFFFFFF, 0x9A, 0xCF⟩, ⟨2, 0, 0xFFFFFFFF, 0x92, 0xCF⟩]

/-- `gdt_setup` -/
def gdtSetup (m : Mem) (gdt : ℕ) : Mem × TablePtr :=
  (gdtSetupGates.foldl (fun m g => gdtSetGate m gdt g) m, ⟨8 * 3 - 1, gdt⟩)

/-- The bytes of a segment. -/
def GdtGate.bytes (g : GdtGate) : Entry :=
  ![g.limit.toNat % 256, g.limit.toNat / 256 % 256, g.base.toNat % 256, g.base.toNat / 256 % 256,
    g.base.toNat / 65536 % 256, g.access.toNat,
      g.limit.toNat / 65536 % 16 + 16 * (g.gran.toNat / 16),
    g.base.toNat / 16777216]

variable {gdt : ℕ} {g : GdtGate}

theorem gdtSetGate_apply_of_disjoint (h : x < gdt + 8 * g.num ∨ gdt + 8 * g.num + 8 ≤ x) :
    gdtSetGate m gdt g x = m x := by
  simp only [gdtSetGate, Mem.store16]
  repeat rw [Mem.store8_apply_of_ne (by omega)]

/-- Bits of a word, from `i` on. -/
theorem toNat_shift_and (v : BitVec 32) (i k : ℕ) (hk : k ≤ 32) :
    (v >>> i &&& BitVec.ofNat 32 (2 ^ k - 1)).toNat = v.toNat / 2 ^ i % 2 ^ k := by
  have hlt : 2 ^ k - 1 < 2 ^ 32 :=
    Nat.lt_of_lt_of_le (Nat.sub_lt (Nat.two_pow_pos k) Nat.one_pos)
      (Nat.pow_le_pow_right (by decide) hk)
  rw [BitVec.toNat_and, BitVec.toNat_ushiftRight, Nat.shiftRight_eq_div_pow, BitVec.toNat_ofNat,
    Nat.mod_eq_of_lt hlt, Nat.and_two_pow_sub_one_eq_mod]

theorem toNat_and_high : ∀ v : BitVec 8, (v &&& 0xF0).toNat = 16 * (v.toNat / 16) := by decide

theorem entryAt_gdtSetGate {a : ℕ} (ha : a = gdt + 8 * g.num) :
    entryAt (gdtSetGate m gdt g) a = g.bytes := by
  have hb := g.base.isLt
  have hl := g.limit.isLt
  have hg := g.gran.isLt
  have hblo : (g.base &&& 0xFFFF).toNat = g.base.toNat % 65536 := by
    simpa using toNat_shift_and g.base 0 16 (by decide)
  have hbmid : (g.base >>> 16 &&& 0xFF).toNat = g.base.toNat / 65536 % 256 :=
    toNat_shift_and g.base 16 8 (by decide)
  have hbhi : (g.base >>> 24 &&& 0xFF).toNat = g.base.toNat / 16777216 % 256 :=
    toNat_shift_and g.base 24 8 (by decide)
  have hllo : (g.limit &&& 0xFFFF).toNat = g.limit.toNat % 65536 := by
    simpa using toNat_shift_and g.limit 0 16 (by decide)
  have hlhi : (g.limit >>> 16 &&& 0x0F).toNat = g.limit.toNat / 65536 % 16 :=
    toNat_shift_and g.limit 16 4 (by decide)
  have hor : g.limit.toNat / 65536 % 16 % 256 ||| 16 * (g.gran.toNat / 16) =
      g.limit.toNat / 65536 % 16 + 16 * (g.gran.toNat / 16) := by
    rw [Nat.mod_eq_of_lt (show g.limit.toNat / 65536 % 16 < 256 by omega), Nat.or_comm,
      Nat.add_comm]
    exact (Nat.two_pow_add_eq_or_of_lt (show g.limit.toNat / 65536 % 16 < 2 ^ 4 by omega) _).symm
  funext i
  simp only [entryAt, Mem.load8, gdtSetGate, Mem.store16, Mem.store8, GdtGate.bytes, ← ha, hblo,
    hbmid, hbhi, hllo, hlhi, toNat_and_high]
  fin_cases i <;> simp [Nat.add_assoc, hor] <;> omega

/-- The processor reads a segment as it was set, the limit in its 20 bits. -/
theorem segment_bytes (g : GdtGate) : g.bytes.segment =
    { base := g.base
      last :=
        if g.gran.toNat / 128 = 1 then 4096 * (g.limit.toNat % 1048576) + 4095
        else g.limit.toNat % 1048576
      access := g.access.toNat
      big := g.gran.toNat / 64 % 2 = 1 } := by
  have hb := g.base.isLt
  have hl := g.limit.isLt
  have hg := g.gran.isLt
  have hlim : g.bytes.limit = g.limit.toNat % 1048576 := by
    simp only [Entry.limit, GdtGate.bytes, Matrix.cons_val]
    omega
  rw [Entry.segment, hlim, Segment.mk.injEq]
  refine ⟨BitVec.eq_of_toNat_eq ?_, ?_, rfl, decide_eq_decide.2 ?_⟩
  · simp only [GdtGate.bytes, BitVec.toNat_ofNat, Matrix.cons_val]
    omega
  · simp only [GdtGate.bytes, Matrix.cons_val]
    exact if_congr (by omega) rfl rfl
  · simp only [GdtGate.bytes, Matrix.cons_val]
    omega

/-- The descriptors after calls of `gdt_set_gate` are those of the last calls for them. -/
theorem entryAt_foldl_gdtSetGate (gs : List GdtGate) (n : ℕ) :
    entryAt (gs.foldl (fun m g => gdtSetGate m gdt g) m) (gdt + 8 * n) =
      ((gs.reverse.find? fun g => g.num = n).elim (entryAt m (gdt + 8 * n)) GdtGate.bytes) := by
  induction gs using List.reverseRecOn with
  | nil => rfl
  | append_singleton gs g ih =>
    rw [List.foldl_append, List.foldl_cons, List.foldl_nil, List.reverse_append,
      List.reverse_singleton, List.singleton_append, List.find?_cons]
    by_cases hn : g.num = n
    · subst hn
      rw [entryAt_gdtSetGate rfl]
      simp
    · rw [entryAt_congr fun x hx hx' => gdtSetGate_apply_of_disjoint (by omega), ih]
      simp [hn]

/-- A call of `gdt_set_gate` can be read back until the next one for the same entry, and after
    `gdt_setup` the segments `0x08` and `0x10` have the whole address space, from 0 on. -/
theorem gdt_segments (m : Mem) (gdt : ℕ) (gs : List GdtGate) (n : ℕ) :
    (entryAt (gs.foldl (fun m g => gdtSetGate m gdt g) m) (gdt + 8 * n)).segment =
      ((gs.reverse.find? fun g => g.num = n).elim (entryAt m (gdt + 8 * n)).segment fun g =>
        { base := g.base
          last := if g.gran.toNat / 128 = 1 then 4096 * (g.limit.toNat % 1048576) + 4095
            else g.limit.toNat % 1048576
          access := g.access.toNat
          big := g.gran.toNat / 64 % 2 = 1 }) ∧
    (entryAt (gdtSetup m gdt).1 (gdt + 0x08)).segment = ⟨0, 0xFFFFFFFF, 0x9A, true⟩ ∧
    (entryAt (gdtSetup m gdt).1 (gdt + 0x10)).segment = ⟨0, 0xFFFFFFFF, 0x92, true⟩ := by
  refine ⟨?_, ?_, ?_⟩
  · rw [entryAt_foldl_gdtSetGate]
    cases gs.reverse.find? fun g => g.num = n with
    | none => rfl
    | some g => exact segment_bytes g
  · have hcode : entryAt (gdtSetup m gdt).1 (gdt + 8 * 1) =
        (⟨1, 0, 0xFFFFFFFF, 0x9A, 0xCF⟩ : GdtGate).bytes :=
      entryAt_foldl_gdtSetGate gdtSetupGates 1
    exact (congrArg Entry.segment hcode).trans (segment_bytes _)
  · have hdata : entryAt (gdtSetup m gdt).1 (gdt + 8 * 2) =
        (⟨2, 0, 0xFFFFFFFF, 0x92, 0xCF⟩ : GdtGate).bytes :=
      entryAt_foldl_gdtSetGate gdtSetupGates 2
    exact (congrArg Entry.segment hdata).trans (segment_bytes _)

end Beryllium

import Beryllium.Machine.Memory
import Mathlib.Logic.Function.Basic

/-!
# Interrupts of a 32-bit x86 processor

The stack, the segment registers and the flags of a processor in protected mode, with flat
segments and without a change of privilege: how it enters an interrupt handler (`Cpu.deliver`) and
comes back from there (`Cpu.iret`). The instruction pointer is only followed where it leaves
straight-line code, and `ss` is left out.

What is on the stack is stated by the list of its words (`Cpu.Stacked`), the top first:

* `Cpu.Stacked.pushes`: pushing words puts them in front;
* `Cpu.popSlots_eq`: popping into registers assigns the words in front to them.
-/

namespace Machine

namespace Mem

/-- The words `ws` are in the memory at `a` and above. -/
def Words (m : Mem) (a : ℕ) : List (BitVec 32) → Prop
  | [] => True
  | w :: ws => m.load32 a = w.toNat ∧ Words m (a + 4) ws

theorem Words.congr {m m' : Mem} {a : ℕ} {ws : List (BitVec 32)} (h : m.Words a ws)
    (hm : ∀ x, a ≤ x → x < a + 4 * ws.length → m' x = m x) : m'.Words a ws := by
  induction ws generalizing a with
  | nil => trivial
  | cons w ws ih =>
    rw [List.length_cons] at hm
    refine ⟨(load32_congr fun x hx hx' => hm x hx (by omega)).trans h.1, ih h.2 fun x hx hx' => ?_⟩
    exact hm x (by omega) (by omega)

theorem words_append {m : Mem} {a : ℕ} {ws vs : List (BitVec 32)} :
    m.Words a (ws ++ vs) ↔ m.Words a ws ∧ m.Words (a + 4 * ws.length) vs := by
  induction ws generalizing a with
  | nil => exact (iff_of_eq (true_and _)).symm
  | cons w ws ih =>
    have ha : a + 4 + 4 * ws.length = a + 4 * (w :: ws).length := by
      rw [List.length_cons]
      omega
    rw [List.cons_append, Words, Words, ih, ha, and_assoc]

end Mem

namespace I386

/-- The registers. -/
inductive Reg
  | eax
  | ecx
  | edx
  | ebx
  | esp
  | ebp
  | esi
  | edi
  deriving DecidableEq

/-- The segment registers. -/
inductive SegReg
  | cs
  | ds
  | es
  | fs
  | gs
  deriving DecidableEq

/-- The state of the processor, and the memory. -/
@[ext]
structure Cpu where
  reg : Reg → BitVec 32
  seg : SegReg → BitVec 16
  eflags : BitVec 32
  eip : BitVec 32
  mem : Mem

/-- What a word of the stack is popped into. -/
inductive Slot
  | reg (r : Reg)
  | seg (r : SegReg)
  | skip
  deriving DecidableEq

namespace Cpu

variable (s : Cpu)

/-! ## Registers and the stack -/

/-- The stack pointer, as an address. -/
def sp : ℕ := (s.reg .esp).toNat

/-- An assignment to a register. -/
def set (r : Reg) (v : BitVec 32) : Cpu := { s with reg := Function.update s.reg r v }

/-- An assignment to a segment register. -/
def setSeg (r : SegReg) (v : BitVec 16) : Cpu := { s with seg := Function.update s.seg r v }

/-- A word is pushed. -/
def push (v : BitVec 32) : Cpu :=
  let esp := s.reg .esp - 4
  { s.set .esp esp with mem := s.mem.store32 esp.toNat v.toNat }

/-- The words are pushed, one after the other. -/
def pushes (ws : List (BitVec 32)) : Cpu := ws.foldl push s

/-- The word on top of the stack. -/
def top : BitVec 32 := BitVec.ofNat 32 (s.mem.load32 s.sp)

/-- The stack without its top. -/
def drop : Cpu := s.set .esp (s.reg .esp + 4)

/-- An assignment to a slot; a segment register takes the low half of a word. -/
def assign : Slot → BitVec 32 → Cpu
  | .reg r, v => s.set r v
  | .seg r, v => s.setSeg r (v.setWidth 16)
  | .skip, _ => s

/-- The top of the stack is popped. -/
def popSlot (x : Slot) : Cpu := s.drop.assign x s.top

/-- The words on top of the stack are popped, one after the other. -/
def popSlots (xs : List Slot) : Cpu := xs.foldl popSlot s

/-! ## Instructions -/

/-- The status flags of an addition: carry, parity, auxiliary carry, zero, sign and overflow. -/
def addStatus (a b : BitVec 32) : BitVec 32 :=
  let bit (p : Bool) (n : ℕ) : BitVec 32 := if p then 1 <<< n else 0
  let sum := a + b
  bit (4294967296 ≤ a.toNat + b.toNat) 0 |||
    bit ((((List.range 8).filter fun i => sum.getLsbD i).length) % 2 = 0) 2 |||
    bit (16 ≤ a.toNat % 16 + b.toNat % 16) 4 ||| bit (sum = 0) 6 ||| bit sum.msb 7 |||
    bit (a.msb = b.msb ∧ sum.msb ≠ a.msb) 11

/-- `add r, v` -/
def add (r : Reg) (v : BitVec 32) : Cpu :=
  { s.set r (s.reg r + v) with eflags := s.eflags &&& ~~~0x8D5 ||| addStatus (s.reg r) v }

/-- `cli` -/
def cli : Cpu := { s with eflags := s.eflags &&& ~~~0x200 }

/-- `mov ax, v` -/
def movAx (v : BitVec 16) : Cpu := s.set .eax (s.reg .eax &&& 0xFFFF0000 ||| v.setWidth 32)

/-- `mov r, ax` -/
def movSeg (r : SegReg) : Cpu := s.setSeg r ((s.reg .eax).setWidth 16)

/-- `push r`, of a segment register. -/
def pushSeg (r : SegReg) : Cpu := s.push ((s.seg r).setWidth 32)

/-- `pusha` -/
def pusha : Cpu :=
  s.pushes [s.reg .eax, s.reg .ecx, s.reg .edx, s.reg .ebx, s.reg .esp, s.reg .ebp, s.reg .esi,
    s.reg .edi]

/-- `popa` -/
def popa : Cpu :=
  s.popSlots [.reg .edi, .reg .esi, .reg .ebp, .skip, .reg .ebx, .reg .edx, .reg .ecx, .reg .eax]

/-- `call eax`, from before the address `next`. -/
def callEax (next : BitVec 32) : Cpu := { s.push next with eip := s.reg .eax }

/-- `ret` -/
def ret : Cpu := { s.drop with eip := s.top }

/-- `iret` -/
def iret : Cpu :=
  let s₁ := { s.drop with eip := s.top }
  let s₂ := s₁.popSlot (.seg .cs)
  { s₂.drop with eflags := s₂.top }

/-- The exceptions with which the processor pushes an error code: the double fault, those from the
    invalid task state segment to the page fault, and the alignment check. -/
def pushesErrorCode (n : ℕ) : Prop := n = 8 ∨ (10 ≤ n ∧ n ≤ 14) ∨ n = 17

instance (n : ℕ) : Decidable (pushesErrorCode n) :=
  inferInstanceAs (Decidable (n = 8 ∨ (10 ≤ n ∧ n ≤ 14) ∨ n = 17))

/-- What the processor does to enter an interrupt handler through an interrupt gate for `offset`
    in the segment `sel`: the flags are pushed, and the place of the interrupted code, and an
    error code if there is one, and the flags `TF`, `IF`, `NT`, `RF` and `VM` are cleared. -/
def deliver (sel : BitVec 16) (offset : BitVec 32) (err : Option (BitVec 32)) : Cpu :=
  let s₁ := s.pushes ([s.eflags, (s.seg .cs).setWidth 32, s.eip] ++ err.toList)
  { s₁.setSeg .cs sel with eflags := s.eflags &&& ~~~0x34300, eip := offset }

/-! ## What is on the stack -/

/-- The words `ws` are on top of the stack. -/
def Stacked (ws : List (BitVec 32)) : Prop := s.mem.Words s.sp ws

variable {s} {v : BitVec 32} {w : BitVec 32} {ws vs : List (BitVec 32)} {a : ℕ}

@[simp] theorem reg_set (r : Reg) : (s.set r v).reg = Function.update s.reg r v := rfl

@[simp] theorem seg_set (r : Reg) : (s.set r v).seg = s.seg := rfl

@[simp] theorem eflags_set (r : Reg) : (s.set r v).eflags = s.eflags := rfl

@[simp] theorem eip_set (r : Reg) : (s.set r v).eip = s.eip := rfl

@[simp] theorem mem_set (r : Reg) : (s.set r v).mem = s.mem := rfl

theorem sp_lt : s.sp < 4294967296 := (s.reg .esp).isLt

theorem sp_push (h : 4 ≤ s.sp) : (s.push v).sp = s.sp - 4 := by
  have hlt := s.sp_lt
  simp only [sp, push, reg_set, Function.update_self] at h ⊢
  bv_omega

theorem sp_drop (h : s.sp + 4 < 4294967296) : s.drop.sp = s.sp + 4 := by
  simp only [sp, drop, reg_set, Function.update_self] at h ⊢
  bv_omega

/-- A push leaves all alone but the word that it stores. -/
theorem mem_push (h : 4 ≤ s.sp) (ha : a < s.sp - 4 ∨ s.sp ≤ a) : (s.push v).mem a = s.mem a := by
  have hsp : (s.reg .esp - 4).toNat = s.sp - 4 := sp_push (v := v) h
  rw [push]
  exact Mem.store32_apply_of_disjoint (by omega)

theorem Stacked.push (h : s.Stacked ws) (hsp : 4 ≤ s.sp) : (s.push v).Stacked (v :: ws) := by
  rw [Stacked, sp_push hsp]
  refine ⟨?_, ?_⟩
  · have hto : (s.reg .esp - 4).toNat = s.sp - 4 := sp_push (v := v) hsp
    rw [Cpu.push, ← hto]
    exact Mem.load32_store32_of_lt v.isLt
  · rw [Nat.sub_add_cancel hsp]
    exact h.congr fun x hx _ => mem_push hsp (.inr hx)

/-- The words that are pushed are on top of the others, the last one first. -/
theorem Stacked.pushes (h : s.Stacked ws) (hsp : 4 * vs.length ≤ s.sp) :
    (s.pushes vs).Stacked (vs.reverse ++ ws) := by
  induction vs generalizing s ws with
  | nil => exact h
  | cons v vs ih =>
    rw [List.length_cons] at hsp
    rw [List.reverse_cons, List.append_assoc]
    exact ih (h.push (by omega)) (by rw [sp_push (by omega)]; omega)

theorem sp_pushes (hsp : 4 * vs.length ≤ s.sp) : (s.pushes vs).sp = s.sp - 4 * vs.length := by
  induction vs generalizing s with
  | nil => rfl
  | cons v vs ih =>
    rw [List.length_cons] at hsp ⊢
    have hpush := sp_push (v := v) (s := s) (by omega)
    rw [Cpu.pushes, List.foldl_cons, ← Cpu.pushes, ih (by omega), hpush]
    omega

theorem mem_pushes (hsp : 4 * vs.length ≤ s.sp) (ha : a < s.sp - 4 * vs.length ∨ s.sp ≤ a) :
    (s.pushes vs).mem a = s.mem a := by
  induction vs generalizing s with
  | nil => rfl
  | cons v vs ih =>
    rw [List.length_cons] at hsp ha
    have hpush := sp_push (v := v) (s := s) (by omega)
    exact (ih (by omega) (by omega)).trans (mem_push (by omega) (by omega))

@[simp] theorem reg_push {r : Reg} (hr : r ≠ .esp) : (s.push v).reg r = s.reg r :=
  Function.update_of_ne hr _ _

/-- The pushes change no register but the stack pointer. -/
@[simp] theorem reg_pushes {r : Reg} (hr : r ≠ .esp) : (s.pushes vs).reg r = s.reg r := by
  induction vs generalizing s with
  | nil => rfl
  | cons v vs ih => exact ih.trans (reg_push hr)

@[simp] theorem seg_push : (s.push v).seg = s.seg := rfl

@[simp] theorem seg_pushes : (s.pushes vs).seg = s.seg := by
  induction vs generalizing s with
  | nil => rfl
  | cons v vs ih => exact ih

@[simp] theorem eflags_push : (s.push v).eflags = s.eflags := rfl

@[simp] theorem eflags_pushes : (s.pushes vs).eflags = s.eflags := by
  induction vs generalizing s with
  | nil => rfl
  | cons v vs ih => exact ih

theorem esp_pushes : (s.pushes vs).reg .esp = s.reg .esp - BitVec.ofNat 32 (4 * vs.length) := by
  induction vs generalizing s with
  | nil => exact (BitVec.sub_zero _).symm
  | cons v vs ih =>
    have hpush : (s.push v).reg .esp = s.reg .esp - 4 := by simp [Cpu.push]
    rw [Cpu.pushes, List.foldl_cons, ← Cpu.pushes, ih, hpush, List.length_cons, Nat.mul_succ,
      BitVec.ofNat_add]
    bv_omega

theorem pushes_append : s.pushes (ws ++ vs) = (s.pushes ws).pushes vs := List.foldl_append ..

/-- What is on the stack after pushes only depends on the memory and the stack pointer. -/
theorem pushes_congr {t u : Cpu} (vs : List (BitVec 32)) (hm : t.mem = u.mem)
    (he : t.reg .esp = u.reg .esp) :
    (t.pushes vs).mem = (u.pushes vs).mem ∧ (t.pushes vs).reg .esp = (u.pushes vs).reg .esp := by
  induction vs generalizing t u with
  | nil => exact ⟨hm, he⟩
  | cons v vs ih =>
    refine ih ?_ ?_
    · simp only [push, hm, he]
    · simp only [push, reg_set, Function.update_self, he]

/-- The state `t` has the stack of `s` after the words `ws` are pushed. -/
structure Pushed (s : Cpu) (ws : List (BitVec 32)) (t : Cpu) : Prop where
  mem : t.mem = (s.pushes ws).mem
  esp : t.reg .esp = (s.pushes ws).reg .esp

namespace Pushed

variable {t u : Cpu}

theorem trans (h : Pushed s ws t) (h' : Pushed t vs u) : Pushed s (ws ++ vs) u := by
  obtain ⟨hm, he⟩ := pushes_congr vs h.mem h.esp
  rw [← pushes_append] at hm he
  exact ⟨h'.mem.trans hm, h'.esp.trans he⟩

theorem sp_eq (h : Pushed s ws t) (hsp : 4 * ws.length ≤ s.sp) : t.sp = s.sp - 4 * ws.length :=
  (congrArg BitVec.toNat h.esp).trans (sp_pushes hsp)

theorem stacked (h : Pushed s ws t) (hs : s.Stacked vs) (hsp : 4 * ws.length ≤ s.sp) :
    t.Stacked (ws.reverse ++ vs) := by
  have hst := hs.pushes hsp
  rwa [Stacked, sp, ← h.mem, ← h.esp] at hst

/-- Pushes leave all alone but the words that they store. -/
theorem mem_apply (h : Pushed s ws t) (hsp : 4 * ws.length ≤ s.sp)
    (ha : a < s.sp - 4 * ws.length ∨ s.sp ≤ a) : t.mem a = s.mem a :=
  (congrFun h.mem a).trans (mem_pushes hsp ha)

end Pushed

/-! ### Pops -/

theorem Stacked.top (h : s.Stacked (w :: ws)) : s.top = w := by
  rw [Cpu.top, h.1, BitVec.ofNat_toNat, BitVec.setWidth_eq]

theorem Stacked.drop (h : s.Stacked (w :: ws)) (hsp : s.sp + 4 < 4294967296) :
    s.drop.Stacked ws := by
  rw [Stacked, sp_drop hsp]
  exact h.2

/-- The assignments of words to slots, one after the other. -/
def assigns (s : Cpu) (xs : List (Slot × BitVec 32)) : Cpu :=
  xs.foldl (fun s x => s.assign x.1 x.2) s

variable {x : Slot} {xs : List Slot} {zs : List (Slot × BitVec 32)}

theorem set_set (r : Reg) : (s.set r v).set r w = s.set r w := by
  simp [set]

theorem set_comm {r r' : Reg} (hr : r ≠ r') : (s.set r v).set r' w = (s.set r' w).set r v := by
  simp [set, Function.update_comm hr]

theorem assign_set_esp (hx : x ≠ .reg .esp) :
    (s.set .esp v).assign x w = (s.assign x w).set .esp v := by
  cases x with
  | reg r => exact set_comm fun hr => hx (congrArg Slot.reg hr.symm)
  | seg r => rfl
  | skip => rfl

theorem reg_esp_assign (hx : x ≠ .reg .esp) : (s.assign x w).reg .esp = s.reg .esp := by
  cases x with
  | reg r => exact Function.update_of_ne (fun hr => hx (congrArg Slot.reg hr.symm)) _ _
  | seg r => rfl
  | skip => rfl

theorem assigns_set_esp (hz : ∀ z ∈ zs, z.1 ≠ .reg .esp) :
    (s.set .esp v).assigns zs = (s.assigns zs).set .esp v := by
  induction zs generalizing s with
  | nil => rfl
  | cons z zs ih =>
    obtain ⟨hz, hzs⟩ := List.forall_mem_cons.1 hz
    rw [assigns, List.foldl_cons, ← assigns, assign_set_esp hz]
    exact ih hzs

@[simp] theorem mem_assign : (s.assign x w).mem = s.mem := by
  cases x <;> rfl

/-- Popping words into slots other than the stack pointer assigns them, and moves the stack
    pointer. -/
theorem popSlots_eq {rest : List (BitVec 32)} (xs : List Slot) (h : s.Stacked (ws ++ rest))
    (hlen : xs.length = ws.length)
    (hxs : .reg .esp ∉ xs) (hsp : s.sp + 4 * ws.length < 4294967296) :
    s.popSlots xs = (s.assigns (xs.zip ws)).set .esp
    (s.reg .esp + BitVec.ofNat 32 (4 * ws.length)) := by
  induction xs generalizing s ws with
  | nil =>
    rw [List.eq_nil_of_length_eq_zero hlen.symm]
    simp [popSlots, assigns, set]
  | cons x xs ih =>
    obtain ⟨w, ws, rfl⟩ := List.exists_cons_of_length_eq_add_one hlen.symm
    rw [List.length_cons] at hsp
    rw [List.mem_cons, not_or] at hxs
    have hx : x ≠ .reg .esp := fun he => hxs.1 he.symm
    -- the state after the first pop
    have hpop : s.popSlot x = (s.assign x w).set .esp (s.reg .esp + 4) := by
      rw [popSlot, h.top, Cpu.drop, assign_set_esp hx]
    have hstack : (s.popSlot x).Stacked (ws ++ rest) := by
      have hd := h.drop (by omega)
      rw [Stacked, popSlot, mem_assign, sp, reg_esp_assign hx]
      exact hd
    have hsp' : (s.popSlot x).sp = s.sp + 4 := by
      rw [sp, popSlot, reg_esp_assign hx]
      exact sp_drop (by omega)
    have hne : ∀ z ∈ xs.zip ws, z.1 ≠ .reg .esp := by
      rintro ⟨x', w'⟩ hz rfl
      exact hxs.2 (List.of_mem_zip hz).1
    have hesp : (s.popSlot x).reg .esp + BitVec.ofNat 32 (4 * ws.length) =
        s.reg .esp + BitVec.ofNat 32 (4 * (w :: ws).length) := by
      rw [hpop, reg_set, Function.update_self, List.length_cons, Nat.mul_succ, BitVec.ofNat_add,
        BitVec.add_assoc, BitVec.add_comm (BitVec.ofNat 32 (4 * ws.length))]
      rfl
    rw [popSlots, List.foldl_cons, ← popSlots, ih hstack (Nat.succ.inj hlen) hxs.2 (by omega),
      hesp, hpop, assigns_set_esp hne, set_set]
    rfl

@[simp] theorem mem_assigns : (s.assigns zs).mem = s.mem := by
  induction zs generalizing s with
  | nil => rfl
  | cons z zs ih => exact ih.trans mem_assign

/-- What is left on the stack. -/
theorem Stacked.popSlots {rest : List (BitVec 32)} (xs : List Slot) (h : s.Stacked (ws ++ rest))
    (hlen : xs.length = ws.length) (hxs : .reg .esp ∉ xs)
    (hsp : s.sp + 4 * ws.length < 4294967296) :
    (s.popSlots xs).Stacked rest ∧ (s.popSlots xs).sp = s.sp + 4 * ws.length := by
  have heq := popSlots_eq xs h hlen hxs hsp
  have hto : (s.popSlots xs).sp = s.sp + 4 * ws.length := by
    rw [heq]
    simp only [sp, reg_set, Function.update_self] at hsp ⊢
    bv_omega
  refine ⟨?_, hto⟩
  rw [Stacked, hto, heq, mem_set, mem_assigns]
  exact (Mem.words_append.1 h).2

/-- `add esp, v` takes words from the stack. -/
theorem Stacked.add {rest : List (BitVec 32)} (h : s.Stacked (ws ++ rest))
    (hv : v.toNat = 4 * ws.length) (hsp : s.sp + 4 * ws.length < 4294967296) :
    (s.add .esp v).Stacked rest ∧ (s.add .esp v).sp = s.sp + 4 * ws.length := by
  have hto : (s.add .esp v).sp = s.sp + 4 * ws.length := by
    rw [← hv, sp, Cpu.add, reg_set, Function.update_self, BitVec.toNat_add]
    exact Nat.mod_eq_of_lt (by rw [hv]; exact hsp)
  refine ⟨?_, hto⟩
  rw [Stacked, hto]
  exact (Mem.words_append.1 h).2

/-- `iret` goes on at the place on the stack, with the flags from there. -/
theorem iret_eq {cs eip eflags : BitVec 32} {rest : List (BitVec 32)}
    (h : s.Stacked (eip :: cs :: eflags :: rest)) (hsp : s.sp + 12 < 4294967296) :
    s.iret = { (s.setSeg .cs (cs.setWidth 16)).set .esp (s.reg .esp + 12) with
      eip := eip
      eflags := eflags } := by
  have h₁ := h.drop (by omega)
  have hsp₁ : s.drop.sp = s.sp + 4 := sp_drop (by omega)
  have h₂ := h₁.drop (by omega)
  have hesp : s.reg .esp + 4 + 4 + 4 = s.reg .esp + 12 := by bv_omega
  -- the three words, as the instruction reads them
  have heip : s.top = eip := h.top
  have hcs : s.drop.top = cs := h₁.top
  have hfl : s.drop.drop.top = eflags := h₂.top
  have hiret : s.iret = { (s.drop.drop.setSeg .cs (s.drop.top.setWidth 16)).drop with
      eip := s.top
      eflags := s.drop.drop.top } := rfl
  rw [hiret, heip, hcs, hfl]
  simp only [Cpu.drop, setSeg, set, Function.update_self, Function.update_idem, hesp]

end Cpu

end I386

end Machine

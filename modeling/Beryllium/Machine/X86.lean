import Beryllium.Machine.Memory
import Mathlib.Logic.Function.Basic

/-!
# 32-bit x86 instructions

Straight-line code of a 32-bit x86 processor without segmentation: moves between registers and
memory, the stack, the flags, and a return at the end. The flags are a word that is pushed and
popped; the bits that the processor treats apart are left out. The instruction pointer is only
followed at the return, the place in the code before it.

Code leaves every word alone that is apart from the words it stores (`Cpu.load32_run`).
-/

namespace Machine

namespace Mem

/-- The words at `a` and `b` have no byte in common. -/
def Apart (a b : ℕ) : Prop := b + 4 ≤ a ∨ a + 4 ≤ b

instance (a b : ℕ) : Decidable (Apart a b) :=
  inferInstanceAs (Decidable (b + 4 ≤ a ∨ a + 4 ≤ b))

end Mem

namespace X86

/-- The registers, without `edx`. -/
inductive Reg
  | eax
  | ecx
  | ebx
  | esp
  | ebp
  | esi
  | edi
  deriving DecidableEq

/-- The state of the processor, and the memory. -/
structure Cpu where
  reg : Reg → ℕ
  eflags : ℕ
  eip : ℕ
  mem : Mem

/-- The instructions. -/
inductive Instr
  /-- `mov dst, [base + disp]` -/
  | load (dst base : Reg) (disp : ℕ)
  /-- `mov dst, [addr]` -/
  | loadAbs (dst : Reg) (addr : ℕ)
  /-- `mov [base + disp], src` -/
  | store (base : Reg) (disp : ℕ) (src : Reg)
  /-- `mov [addr], src` -/
  | storeAbs (addr : ℕ) (src : Reg)
  | push (src : Reg)
  | pop (dst : Reg)
  | pushf
  | popf
  | ret

namespace Cpu

/-- An assignment to a register. -/
def set (s : Cpu) (r : Reg) (v : ℕ) : Cpu := { s with reg := Function.update s.reg r v }

@[simp] theorem reg_set_self (s : Cpu) (r : Reg) (v : ℕ) : (s.set r v).reg r = v := by
  simp [set]

@[simp] theorem reg_set_of_ne {s : Cpu} {r r' : Reg} {v : ℕ} (h : r' ≠ r) :
    (s.set r v).reg r' = s.reg r' := by
  simp [set, h]

@[simp] theorem mem_set (s : Cpu) (r : Reg) (v : ℕ) : (s.set r v).mem = s.mem := rfl

/-- A word is pushed. -/
def pushWord (s : Cpu) (v : ℕ) : Cpu :=
  let esp := sub32 (s.reg .esp) 4
  { s.set .esp esp with mem := s.mem.store32 esp v }

/-- The word on top of the stack. -/
def top (s : Cpu) : ℕ := s.mem.load32 (s.reg .esp)

/-- The stack without its top. -/
def drop (s : Cpu) : Cpu := s.set .esp (add32 (s.reg .esp) 4)

/-- What an instruction does. -/
def exec (s : Cpu) : Instr → Cpu
  | .load dst base disp => s.set dst (s.mem.load32 (add32 (s.reg base) disp))
  | .loadAbs dst addr => s.set dst (s.mem.load32 addr)
  | .store base disp src => { s with mem := s.mem.store32 (add32 (s.reg base) disp) (s.reg src) }
  | .storeAbs addr src => { s with mem := s.mem.store32 addr (s.reg src) }
  | .push src => s.pushWord (s.reg src)
  | .pop dst => s.drop.set dst s.top
  | .pushf => s.pushWord s.eflags
  | .popf => { s.drop with eflags := s.top }
  | .ret => { s.drop with eip := s.top }

/-- What a list of instructions does. -/
def run (s : Cpu) (is : List Instr) : Cpu := is.foldl exec s

theorem run_append (s : Cpu) (xs ys : List Instr) : s.run (xs ++ ys) = (s.run xs).run ys :=
  List.foldl_append ..

/-- The word that an instruction stores. -/
def storedAt (s : Cpu) : Instr → List ℕ
  | .store base disp _ => [add32 (s.reg base) disp]
  | .storeAbs addr _ => [addr]
  | .push _ | .pushf => [sub32 (s.reg .esp) 4]
  | _ => []

/-- The words that a list of instructions stores. -/
def writes (s : Cpu) : List Instr → List ℕ
  | [] => []
  | i :: is => s.storedAt i ++ (s.exec i).writes is

theorem load32_exec {s : Cpu} {i : Instr} {a : ℕ} (h : ∀ w ∈ s.storedAt i, Mem.Apart w a) :
    (s.exec i).mem.load32 a = s.mem.load32 a := by
  cases i with
  | store base disp src => exact Mem.load32_store32_of_disjoint (h _ (List.mem_singleton_self _))
  | storeAbs addr src => exact Mem.load32_store32_of_disjoint (h _ (List.mem_singleton_self _))
  | push src => exact Mem.load32_store32_of_disjoint (h _ (List.mem_singleton_self _))
  | pushf => exact Mem.load32_store32_of_disjoint (h _ (List.mem_singleton_self _))
  | _ => rfl

/-- A word that is apart from the ones the code stores is left alone. -/
theorem load32_run {s : Cpu} {is : List Instr} {a : ℕ} (h : ∀ w ∈ s.writes is, Mem.Apart w a) :
    (s.run is).mem.load32 a = s.mem.load32 a := by
  induction is generalizing s with
  | nil => rfl
  | cons i is ih =>
    rw [writes, List.forall_mem_append] at h
    exact (ih h.2).trans (load32_exec h.1)

end Cpu

end X86

end Machine

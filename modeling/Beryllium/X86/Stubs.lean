import Beryllium.Machine.I386
import Beryllium.Machine.Nested

/-!
# Interrupt stubs

The stubs of `arch/x86/low/isr_asm.s` and `arch/x86/low/irq_asm.s`, which build a `struct regs` on
the stack, call a handler, and take the `struct regs` from the stack again. A jump is modelled by
the code at its end, and the call of a handler by two places, the handler's first instruction
(`serve`) and the one behind the call (`stubReturn`).

* `handler_frame`: a handler finds the interrupted program in its `struct regs`, and the program
  goes on with what is there when the handler returns;
* `alignment_check_returns`: for the alignment check, whose stub pushes an error code where the
  processor has pushed one, it does not;
* `interrupts_transparent`: a program that is interrupted anywhere, by handlers that are interrupted
  themselves, ends as without the interrupts.
-/

namespace Beryllium

open Machine I386

/-! ## The stubs -/

/-- `struct regs`, up to what is only pushed with a change of privilege. -/
structure Regs where
  gs : BitVec 32
  fs : BitVec 32
  es : BitVec 32
  ds : BitVec 32
  edi : BitVec 32
  esi : BitVec 32
  ebp : BitVec 32
  uselessValue : BitVec 32
  ebx : BitVec 32
  edx : BitVec 32
  ecx : BitVec 32
  eax : BitVec 32
  intNo : BitVec 32
  errCode : BitVec 32
  eip : BitVec 32
  cs : BitVec 32
  eflags : BitVec 32

/-- The words of a `struct regs`, in their order in the memory. -/
def Regs.words (r : Regs) : List (BitVec 32) :=
  [r.gs, r.fs, r.es, r.ds, r.edi, r.esi, r.ebp, r.uselessValue, r.ebx, r.edx, r.ecx, r.eax, r.intNo,
    r.errCode, r.eip, r.cs, r.eflags]

/-- The vectors whose stub expects an error code from the processor. -/
def withErrorCode (n : ℕ) : Prop := n = 8 ∨ (10 ≤ n ∧ n ≤ 14)

instance (n : ℕ) : Decidable (withErrorCode n) :=
  inferInstanceAs (Decidable (n = 8 ∨ (10 ≤ n ∧ n ≤ 14)))

/-- `isr_common_stub` and `irq_common_stub` up to the first instruction of the handler, with the
    address `next` behind the call. -/
def commonStub (handler next : BitVec 32) (s : Cpu) : Cpu :=
  let s := s.pusha
  let s := s.pushSeg .ds
  let s := s.pushSeg .es
  let s := s.pushSeg .fs
  let s := s.pushSeg .gs
  let s := s.movAx 0x10
  let s := s.movSeg .ds
  let s := s.movSeg .es
  let s := s.movSeg .fs
  let s := s.movSeg .gs
  let s := s.set .eax (s.reg .esp)
  let s := s.push (s.reg .eax)
  let s := s.set .eax handler
  s.callEax next

/-- The stubs `isr0` to `isr31` and `irq0` to `irq15` up to their jump to the common stub; those of
    the interrupt requests have the numbers from 32 on. -/
def stubHead (n : ℕ) (s : Cpu) : Cpu :=
  let s := s.cli
  let s := if withErrorCode n then s else s.push 0
  s.push ((BitVec.ofNat 8 n).signExtend 32)

/-- The common stubs from behind the call on. -/
def stubReturn (s : Cpu) : Cpu :=
  let s := s.popSlot (.reg .eax)
  let s := s.popSlot (.seg .gs)
  let s := s.popSlot (.seg .fs)
  let s := s.popSlot (.seg .es)
  let s := s.popSlot (.seg .ds)
  let s := s.popa
  let s := s.add .esp 8
  s.iret

/-- What a `struct regs` says of the interrupted state `s`. -/
def Regs.of (s : Cpu) (n : ℕ) (err : BitVec 32) : Regs where
  gs := (s.seg .gs).setWidth 32
  fs := (s.seg .fs).setWidth 32
  es := (s.seg .es).setWidth 32
  ds := (s.seg .ds).setWidth 32
  edi := s.reg .edi
  esi := s.reg .esi
  ebp := s.reg .ebp
  uselessValue := s.reg .esp - 20
  ebx := s.reg .ebx
  edx := s.reg .edx
  ecx := s.reg .ecx
  eax := s.reg .eax
  intNo := BitVec.ofNat 32 n
  errCode := err
  eip := s.eip
  cs := (s.seg .cs).setWidth 32
  eflags := s.eflags

/-- The state in which the interrupted program goes on. -/
def Regs.resume (r : Regs) (t : Cpu) : Cpu where
  reg
    | .eax => r.eax
    | .ecx => r.ecx
    | .edx => r.edx
    | .ebx => r.ebx
    | .esp => t.reg .esp + 72
    | .ebp => r.ebp
    | .esi => r.esi
    | .edi => r.edi
  seg
    | .cs => r.cs.setWidth 16
    | .ds => r.ds.setWidth 16
    | .es => r.es.setWidth 16
    | .fs => r.fs.setWidth 16
    | .gs => r.gs.setWidth 16
  eflags := r.eflags
  eip := r.eip
  mem := t.mem

/-- The addresses of the stubs, of the handlers that they call, and of the places behind the calls.
    -/
structure StubAddresses where
  stub : ℕ → BitVec 32
  faultHandler : BitVec 32
  irqHandler : BitVec 32
  isrReturn : BitVec 32
  irqReturn : BitVec 32

/-- An interrupt with one of the vectors that have a stub: an exception, which comes with an error
    code if the processor pushes one, or a request. -/
structure Interrupt where
  n : ℕ
  err : Option (BitVec 32)
  lt : n < 48
  delivered : err.isSome = decide (Cpu.pushesErrorCode n)

/-- From the delivery of an interrupt, through a gate for its stub in the segment `0x08`, up to the
    first instruction of the handler. -/
def serve (c : StubAddresses) (i : Interrupt) (s : Cpu) : Cpu :=
  let s := stubHead i.n (s.deliver 0x08 (c.stub i.n) i.err)
  if i.n < 32 then commonStub c.faultHandler c.isrReturn s
    else commonStub c.irqHandler c.irqReturn s

/-- The `struct regs` of an interrupt. -/
def Interrupt.regs (i : Interrupt) (s : Cpu) : Regs := Regs.of s i.n (i.err.getD 0)

variable {s : Cpu} {n : ℕ} {sel : BitVec 16} {offset : BitVec 32} {err : Option (BitVec 32)}
  {c : StubAddresses} {i : Interrupt}

/-! ## What is on the stack -/

/-- What the processor pushes, and the stub up to its jump. -/
def headWords (s : Cpu) (n : ℕ) (err : Option (BitVec 32)) : List (BitVec 32) :=
  [s.eflags, (s.seg .cs).setWidth 32, s.eip] ++ err.toList ++
    ((if withErrorCode n then [] else [0]) ++ [BitVec.ofNat 32 n])

theorem pushed_stubHead (s : Cpu) (sel : BitVec 16) (offset : BitVec 32) (hn : n < 128) :
    Cpu.Pushed s (headWords s n err) (stubHead n (s.deliver sel offset err)) := by
  have hnum : (BitVec.ofNat 8 n).signExtend 32 = BitVec.ofNat 32 n := by
    rw [BitVec.signExtend_eq_setWidth_of_msb_false (by rw [BitVec.msb_eq_decide]; simp; omega)]
    bv_omega
  rw [stubHead, headWords, hnum]
  split_ifs <;> cases err <;> exact ⟨rfl, rfl⟩

/-- The stubs expect an error code where the processor pushes one, but for the alignment check. -/
theorem Interrupt.expected (i : Interrupt) (hi : i.n ≠ 17) :
    i.err.isSome = decide (withErrorCode i.n) := by
  rw [i.delivered, decide_eq_decide, Cpu.pushesErrorCode, withErrorCode]
  omega

/-- If the error code is the one that is expected, there is exactly one, or a zero in its place. -/
theorem headWords_eq (he : err.isSome = decide (withErrorCode n)) :
    headWords s n err =
      [s.eflags, (s.seg .cs).setWidth 32, s.eip, err.getD 0, BitVec.ofNat 32 n] := by
  rw [headWords]
  by_cases hw : withErrorCode n
  · obtain ⟨e, rfl⟩ : ∃ e, err = some e := Option.isSome_iff_exists.1 (he.trans (decide_eq_true hw))
    rw [if_pos hw]
    rfl
  · obtain rfl : err = none :=
      Option.not_isSome_iff_eq_none.1 (by rw [he, decide_eq_false hw]; decide)
    rw [if_neg hw]
    rfl

theorem pushed_commonStub (handler next : BitVec 32) (s : Cpu) :
    Cpu.Pushed s [s.reg .eax, s.reg .ecx, s.reg .edx, s.reg .ebx, s.reg .esp, s.reg .ebp,
      s.reg .esi,
      s.reg .edi, (s.seg .ds).setWidth 32, (s.seg .es).setWidth 32, (s.seg .fs).setWidth 32,
      (s.seg .gs).setWidth 32, s.reg .esp - 48, next] (commonStub handler next s) := by
  have hptr : s.reg .esp - 48 = s.reg .esp - 4 - 4 - 4 - 4 - 4 - 4 - 4 - 4 - 4 - 4 - 4 - 4 := by
    bv_omega
  constructor <;>
    simp only [commonStub, Cpu.pusha, Cpu.pushSeg, Cpu.pushes, Cpu.push, Cpu.set, Cpu.movAx,
      Cpu.movSeg,
      Cpu.setSeg, Cpu.callEax, List.foldl_cons, List.foldl_nil, Function.update_self, ne_eq,
      reduceCtorEq, not_false_eq_true, Function.update_of_ne, hptr]

/-- The head of a stub changes no register but the stack pointer, and no data segment. -/
theorem reg_stubHead {r : Reg} (hr : r ≠ .esp) :
    (stubHead n (s.deliver sel offset err)).reg r = s.reg r := by
  have hdel : (s.deliver sel offset err).reg r = s.reg r := Cpu.reg_pushes hr
  rw [stubHead]
  split <;> simp [hr, Cpu.cli, hdel]

theorem seg_stubHead {r : SegReg} (hr : r ≠ .cs) :
    (stubHead n (s.deliver sel offset err)).seg r = s.seg r := by
  have hdel : (s.deliver sel offset err).seg r = s.seg r := by simp [Cpu.deliver, Cpu.setSeg, hr]
  rw [stubHead]
  split <;> simp [Cpu.cli, hdel]

/-- The words that are pushed until the handler is entered: behind those of the head, which take `k`
    bytes, come the registers, the address of the `struct regs` and the return address. -/
theorem pushed_serve_head (c : StubAddresses) (i : Interrupt) (s : Cpu) {k : BitVec 32}
    (hk : BitVec.ofNat 32 (4 * (headWords s i.n i.err).length) = k) :
    Cpu.Pushed s (headWords s i.n i.err ++ [s.reg .eax, s.reg .ecx, s.reg .edx, s.reg .ebx,
      s.reg .esp - k, s.reg .ebp, s.reg .esi, s.reg .edi, (s.seg .ds).setWidth 32,
      (s.seg .es).setWidth 32, (s.seg .fs).setWidth 32, (s.seg .gs).setWidth 32,
      s.reg .esp - k - 48, if i.n < 32 then c.isrReturn else c.irqReturn]) (serve c i s) := by
  have hhead : Cpu.Pushed s (headWords s i.n i.err)
      (stubHead i.n (s.deliver 0x08 (c.stub i.n) i.err)) :=
    pushed_stubHead s 0x08 (c.stub i.n) (Nat.lt_trans i.lt (by decide))
  have hesp : (stubHead i.n (s.deliver 0x08 (c.stub i.n) i.err)).reg .esp = s.reg .esp - k :=
    hhead.esp.trans (hk ▸ Cpu.esp_pushes)
  have hall (handler next : BitVec 32) := hhead.trans (pushed_commonStub handler next _)
  simp only [ne_eq, reduceCtorEq, not_false_eq_true, reg_stubHead, seg_stubHead, hesp] at hall
  rw [serve]
  by_cases h : i.n < 32
  · rw [if_pos h, if_pos h]
    exact hall ..
  · rw [if_neg h, if_neg h]
    exact hall ..

/-- The `struct regs`, its address, and the return address. -/
theorem pushed_serve (c : StubAddresses) (i : Interrupt) (s : Cpu) (hi : i.n ≠ 17) :
    Cpu.Pushed s ((if i.n < 32 then c.isrReturn else c.irqReturn) :: (s.reg .esp - 68) ::
      (i.regs s).words).reverse (serve c i s) := by
  have hwords := headWords_eq (s := s) (i.expected hi)
  have hpush := pushed_serve_head c i s (k := 20) (by rw [hwords]; rfl)
  have hptr : s.reg .esp - 20 - 48 = s.reg .esp - 68 := by bv_omega
  rw [hwords, hptr] at hpush
  exact hpush

/-! ## Coming back -/

/-- What the words of a `struct regs` are popped into, after its address. -/
def stubSlots : List Slot :=
  [.reg .eax, .seg .gs, .seg .fs, .seg .es, .seg .ds, .reg .edi, .reg .esi, .reg .ebp, .skip,
    .reg .ebx, .reg .edx, .reg .ecx, .reg .eax]

theorem stubReturn_eq_iret (t : Cpu) : stubReturn t = ((t.popSlots stubSlots).add .esp 8).iret := by
  simp only [stubReturn, Cpu.popa, Cpu.popSlots, stubSlots, List.foldl_cons, List.foldl_nil]

/-- A handler that returns with the `struct regs` in place: the interrupted program goes on with
    what is in there. -/
theorem stubReturn_eq {rest : List (BitVec 32)} {ptr : BitVec 32} {r : Regs} {t : Cpu}
    (h : t.Stacked (ptr :: (r.words ++ rest))) (hsp : t.sp + 72 < 4294967296) :
    stubReturn t = r.resume t := by
  have hstack : t.Stacked ([ptr, r.gs, r.fs, r.es, r.ds, r.edi, r.esi, r.ebp, r.uselessValue, r.ebx,
    r.edx, r.ecx, r.eax] ++ ([r.intNo, r.errCode] ++ (r.eip :: r.cs :: r.eflags :: rest))) := h
  have hpop := Cpu.popSlots_eq stubSlots hstack rfl (by decide) (Nat.lt_of_le_of_lt (by simp) hsp)
  obtain ⟨hrest, hrsp⟩ := hstack.popSlots stubSlots rfl (by decide)
    (Nat.lt_of_le_of_lt (by simp) hsp)
  -- the number and the error code are passed over
  obtain ⟨hiret, hisp⟩ := hrest.add (v := 8) rfl (Nat.lt_of_le_of_lt (by rw [hrsp]; simp) hsp)
  rw [stubReturn_eq_iret, Cpu.iret_eq hiret
    (Nat.lt_of_le_of_lt (by rw [hisp, hrsp]; simp) hsp), hpop]
  ext1
  · funext x
    cases x with
    | esp =>
      simp only [Cpu.add, Cpu.set, Cpu.setSeg, Function.update_self, Regs.resume, List.length_cons,
        List.length_nil]
      bv_omega
    | _ => simp [Cpu.add, Cpu.set, Cpu.setSeg, Cpu.assigns, Cpu.assign, stubSlots, Regs.resume]
  · funext x
    cases x <;> simp [Cpu.add, Cpu.set, Cpu.setSeg, Cpu.assigns, Cpu.assign, stubSlots, Regs.resume]
  · rfl
  · rfl
  · rfl

theorem stubReturn_of_words {r : Regs} {t t' : Cpu} (hret : t'.sp = t.sp + 4)
    (h : t'.mem.Words (t.sp + 8) r.words) (hsp : t.sp + 76 < 4294967296) :
    stubReturn t' = r.resume t' := by
  have hstack : t'.Stacked (BitVec.ofNat 32 (t'.mem.load32 t'.sp) :: (r.words ++ [])) := by
    rw [List.append_nil]
    refine ⟨?_, ?_⟩
    · rw [BitVec.toNat_ofNat]
      exact (Nat.mod_eq_of_lt (Mem.load32_lt ..)).symm
    · rw [hret]
      exact h
  exact stubReturn_eq hstack (by omega)

/-! ## The frame of an interrupt -/

/-- What a handler finds in the registers when it is entered. -/
theorem commonStub_spec (handler next : BitVec 32) (s : Cpu) : let t := commonStub handler next s
    t.eip = handler ∧ t.eflags = s.eflags ∧ t.seg .cs = s.seg .cs ∧
      ∀ r, r ≠ .cs → t.seg r = 0x10 := by
  refine ⟨?_, ?_, ?_, fun r hr => ?_⟩
  · simp [commonStub, Cpu.callEax]
  · simp [commonStub, Cpu.pusha, Cpu.pushSeg, Cpu.callEax, Cpu.movSeg, Cpu.movAx, Cpu.setSeg]
  · simp [commonStub, Cpu.pusha, Cpu.pushSeg, Cpu.callEax, Cpu.movSeg, Cpu.movAx, Cpu.setSeg]
  · cases r with
    | cs => exact absurd rfl hr
    | _ => simp [commonStub, Cpu.pusha, Cpu.pushSeg, Cpu.callEax, Cpu.movSeg, Cpu.movAx, Cpu.setSeg]

/-- The interrupts are disabled in the stubs, and the code segment is that of the kernel. -/
theorem stubHead_spec (n : ℕ) (sel : BitVec 16) (offset : BitVec 32) (err : Option (BitVec 32))
    (s : Cpu) :
    let t := stubHead n (s.deliver sel offset err)
    t.eflags = s.eflags &&& ~~~0x34300 &&& ~~~0x200 ∧ t.seg .cs = sel := by
  simp only [stubHead]
  split <;> simp [Cpu.cli, Cpu.deliver, Cpu.setSeg]

/-- Either stub calls its handler with interrupts disabled, in the segments of the kernel. -/
theorem serve_spec (c : StubAddresses) (i : Interrupt) (s : Cpu) : let t := serve c i s
    t.eip = (if i.n < 32 then c.faultHandler else c.irqHandler) ∧ t.eflags.getLsbD 9 = false ∧
      t.seg .cs = 0x08 ∧ ∀ r, r ≠ .cs → t.seg r = 0x10 := by
  obtain ⟨hfl, hcs⟩ := stubHead_spec i.n 0x08 (c.stub i.n) i.err s
  obtain ⟨next, hserve⟩ : ∃ next, serve c i s =
      commonStub (if i.n < 32 then c.faultHandler else c.irqHandler) next
        (stubHead i.n (s.deliver 0x08 (c.stub i.n) i.err)) := by
    rw [serve]
    split_ifs
    · exact ⟨_, rfl⟩
    · exact ⟨_, rfl⟩
  rw [hserve]
  obtain ⟨heip, heflags, hcode, hdata⟩ := commonStub_spec
    (if i.n < 32 then c.faultHandler else c.irqHandler) next
    (stubHead i.n (s.deliver 0x08 (c.stub i.n) i.err))
  refine ⟨heip, ?_, hcode.trans hcs, hdata⟩
  rw [heflags, hfl]
  simp

/-- The handler of any interrupt but the alignment check is entered with interrupts disabled, in the
    segments of the kernel, with the `struct regs` of the interrupted program behind its return
    address and its argument. If a `struct regs`
    is there when it returns, be it another one, then the program goes on with what that says. -/
theorem handler_frame (c : StubAddresses) (i : Interrupt) (s : Cpu) (hi : i.n ≠ 17)
    (h : 76 ≤ s.sp) :
    let t := serve c i s
    t.eip = (if i.n < 32 then c.faultHandler else c.irqHandler) ∧ t.eflags.getLsbD 9 = false ∧
      t.seg .cs = 0x08 ∧ (∀ r, r ≠ .cs → t.seg r = 0x10) ∧ t.sp + 76 = s.sp ∧
      (∃ next ptr, t.Stacked (next :: ptr :: (i.regs s).words) ∧ ptr.toNat = t.sp + 8) ∧
      (∀ a, a < t.sp ∨ s.sp ≤ a → t.mem a = s.mem a) ∧
      ∀ (t' : Cpu) (r : Regs), t'.sp = t.sp + 4 → t'.mem.Words (t.sp + 8) r.words →
        stubReturn t' = r.resume t' ∧ (stubReturn t').reg .esp = s.reg .esp := by
  intro t
  have hpush := pushed_serve c i s hi
  have hsp : t.sp = s.sp - 76 := hpush.sp_eq h
  have hnil : s.Stacked [] := trivial
  have hstack := hpush.stacked hnil h
  rw [List.reverse_reverse, List.append_nil] at hstack
  have hptr : (s.reg .esp - 68).toNat = t.sp + 8 := by
    simp only [Cpu.sp] at h hsp ⊢
    bv_omega
  have hlt := s.sp_lt
  obtain ⟨heip, hif, hcs, hseg⟩ := serve_spec c i s
  refine ⟨heip, hif, hcs, hseg, by omega, ⟨_, _, hstack, hptr⟩,
    fun a ha => hpush.mem_apply h ?_, ?_⟩
  · exact ha.imp (fun h => by rw [hsp] at h; exact h) id
  · intro t' r hret hw
    have heq := stubReturn_of_words hret hw (by omega)
    refine ⟨heq, ?_⟩
    rw [heq, Regs.resume]
    simp only [Cpu.sp] at h hsp hret ⊢
    bv_omega

/-- What the handler of an alignment check finds: `isr17` pushes a zero above the error code that
    the processor has pushed, so all behind it is one word off. -/
def alignmentRegs (s : Cpu) (e : BitVec 32) : Regs :=
  { Regs.of s 17 0 with
    uselessValue := s.reg .esp - 24
    eip := e
    cs := s.eip
    eflags := (s.seg .cs).setWidth 32 }

/-- After an alignment check, the program does not go on where it was interrupted: the error code is
    taken for its place. -/
theorem alignment_check_returns (c : StubAddresses) (i : Interrupt) (s : Cpu) (hi : i.n = 17)
    (h : 80 ≤ s.sp) : ∃ e, i.err = some e ∧
      stubReturn (serve c i s).ret = (alignmentRegs s e).resume (serve c i s).ret := by
  have hsome : i.err.isSome = true := by
    rw [i.delivered, hi]
    decide
  obtain ⟨e, he⟩ := Option.isSome_iff_exists.1 hsome
  have hwords : headWords s i.n i.err =
      [s.eflags, (s.seg .cs).setWidth 32, s.eip, e, 0, 17] := by
    rw [headWords, hi, he]
    rfl
  have hpush := pushed_serve_head c i s (k := 24) (by rw [hwords]; rfl)
  rw [hwords] at hpush
  have hnil : s.Stacked [] := trivial
  have hstack := hpush.stacked hnil h
  have hsp : (serve c i s).sp = s.sp - 80 := hpush.sp_eq h
  have hlt := s.sp_lt
  obtain ⟨t, ht⟩ : ∃ t, t = serve c i s := ⟨_, rfl⟩
  rw [← ht] at hstack hsp ⊢
  have hret : t.ret.sp = t.sp + 4 := Cpu.sp_drop (by omega)
  refine ⟨e, he, @stubReturn_eq [s.eflags] (s.reg .esp - 24 - 48) _ _ ?_ (by omega)⟩
  rw [Cpu.Stacked, hret]
  exact hstack.2

/-! ## Nested interrupts -/

/-- The stack of the kernel, and the data that the handlers change, which is not on the stack. -/
structure Places where
  lo : ℕ
  hi : ℕ
  data : Set ℕ
  hi_lt : hi < 4294967296
  notMem : ∀ a, lo ≤ a → a < hi → a ∉ data

namespace Places

variable (p : Places)

/-- A step of code that has the stack below `base`: it stays there with the stack pointer, and
    changes nothing but what is there and the data. -/
structure Step (base : ℕ) (s t : Cpu) : Prop where
  lo_le : p.lo ≤ t.sp
  le_base : t.sp ≤ base
  mem : ∀ a ∉ p.data, a < p.lo ∨ base ≤ a → t.mem a = s.mem a

/-- The registers and the flags are the same, and the memory except for the data and what is below
    the stack pointer. -/
structure Kept (s u : Cpu) : Prop where
  reg : u.reg = s.reg
  seg : u.seg = s.seg
  eflags : u.eflags = s.eflags
  eip : u.eip = s.eip
  mem : ∀ a ∉ p.data, a < p.lo ∨ s.sp ≤ a → u.mem a = s.mem a

/-- The program with the steps `prog`, and the interrupts, all but the alignment check. A handler is
    any code that has the stack up to its return address and its argument, and comes back with
    `ret`. -/
def interrupts (c : StubAddresses) (prog : Cpu → Cpu → Prop) :
    Interrupts Cpu (Option ℕ) Interrupt where
  step
    | none => prog
    | some base => p.Step base
  enter i s t := i.n ≠ 17 ∧ p.lo + 76 ≤ s.sp ∧ t = serve c i s
  handler _ t := some (t.sp + 8)
  leave _ t t' u := t'.sp = t.sp + 4 ∧ u = stubReturn t'

variable {p} {prog : Cpu → Cpu → Prop} {t t' u : Cpu}

/-- An interrupt whose handler changes nothing but the data and its part of the stack. -/
theorem kept_of_handler (hi : i.n ≠ 17) (hroom : p.lo + 76 ≤ s.sp) (hhi : s.sp ≤ p.hi)
    (ht : t = serve c i s)
    (hmem : ∀ a ∉ p.data, a < p.lo ∨ t.sp + 8 ≤ a → t'.mem a = t.mem a) (hret : t'.sp = t.sp + 4) :
    p.Kept s (stubReturn t') := by
  have hpush := pushed_serve c i s hi
  rw [← ht] at hpush
  have hlen : 4 * ((if i.n < 32 then c.isrReturn else c.irqReturn) :: (s.reg .esp - 68) ::
      (i.regs s).words).reverse.length = 76 := rfl
  have hsp := hpush.sp_eq (by omega)
  have hnil : s.Stacked [] := trivial
  have hstack := hpush.stacked hnil (by omega)
  rw [hlen] at hsp
  rw [List.reverse_reverse, List.append_nil] at hstack
  -- the `struct regs` is where the handler does not write
  have hregs : t'.mem.Words (t.sp + 8) (i.regs s).words := by
    refine hstack.2.2.congr fun x hx hx' => hmem x (p.notMem x ?_ ?_) (.inr hx)
    · omega
    · have hwords : (i.regs s).words.length = 17 := rfl
      rw [hwords] at hx'
      omega
  have hlt := p.hi_lt
  rw [stubReturn_of_words hret hregs (by omega)]
  refine ⟨?_, ?_, rfl, rfl, fun a ha hout => ?_⟩
  · funext r
    cases r with
    | esp =>
      have hs := hsp
      simp only [Cpu.sp] at hret hs hroom
      simp only [Regs.resume]
      bv_omega
    | _ => rfl
  · funext r
    cases r <;> simp [Regs.resume, Interrupt.regs, Regs.of]
  · exact (hmem a ha (by omega)).trans (hpush.mem_apply (by omega) (by omega))

/-- What a run does to the state, if it is one of a handler with the stack below `base`. -/
def Runs (p : Places) : Option ℕ → Cpu → Cpu → Prop
  | none, _, _ => True
  | some base, s, u => base ≤ p.hi → p.lo ≤ s.sp → s.sp ≤ base → p.Step base s u

theorem Step.trans {base : ℕ} {s t u : Cpu} (h : p.Step base s t) (h' : p.Step base t u) :
    p.Step base s u :=
  ⟨h'.lo_le, h'.le_base, fun a ha hout => (h'.mem a ha hout).trans (h.mem a ha hout)⟩

/-- Handlers keep to their part of the stack, whatever interrupts them. -/
theorem runs_of_run {a : Option ℕ} (h : (p.interrupts c prog).Run a s u) : Runs p a s u := by
  refine h.keeps (K := Runs p) (fun a s => ?_) (fun a s t u hst htu => ?_) (fun a s t hst => ?_)
    (fun a i s t t' u he hbody hl => ?_)
  · rcases a with _ | base
    · trivial
    · exact fun _ hlo hle => ⟨hlo, hle, fun _ _ _ => rfl⟩
  · rcases a with _ | base
    · trivial
    · intro hb hlo hle
      have h₁ := hst hb hlo hle
      exact h₁.trans (htu hb h₁.lo_le h₁.le_base)
  · rcases a with _ | base
    · trivial
    · exact fun _ _ _ => hst
  · rcases a with _ | base
    · trivial
    · intro hb hlo hle
      obtain ⟨hi, hroom, ht⟩ := he
      obtain ⟨hret, rfl⟩ := hl
      have hsp : t.sp = s.sp - 76 := by
        rw [ht]
        exact (pushed_serve c i s hi).sp_eq (by show 76 ≤ s.sp; omega)
      have hstep : p.Step (t.sp + 8) t t' := hbody (by omega) (by omega) (by omega)
      have hkept := kept_of_handler hi hroom (by omega) ht hstep.mem hret
      have hsp' : (stubReturn t').sp = s.sp := by rw [Cpu.sp, Cpu.sp, hkept.reg]
      exact ⟨by omega, by omega, fun a ha hout => hkept.mem a ha (by omega)⟩

/-- A whole interrupt, with all that interrupts it. -/
theorem kept_of_served (hhi : s.sp ≤ p.hi) (h : (p.interrupts c prog).Served s u) : p.Kept s u := by
  obtain ⟨i, t, t', ⟨hi, hroom, ht⟩, hrun, hret, rfl⟩ := h
  have hsp : t.sp = s.sp - 76 := by
    rw [ht]
    exact (pushed_serve c i s hi).sp_eq (by show 76 ≤ s.sp; omega)
  have hstep : p.Step (t.sp + 8) t t' := runs_of_run hrun (by omega) (by omega) (by omega)
  exact kept_of_handler hi hroom hhi ht hstep.mem hret

end Places

/-- A program that is interrupted: its steps, and the addresses that it looks at, of which none is
    in the data of the handlers or below its stack pointer. -/
structure Program (p : Places) where
  step : Cpu → Cpu → Prop
  live : Cpu → Set ℕ
  live_mem : ∀ s m, live { s with mem := m } = live s
  live_kept : ∀ s, ∀ a ∈ live s, a ∉ p.data ∧ (a < p.lo ∨ s.sp ≤ a)
  sp_step : ∀ s t, step s t → p.lo ≤ s.sp → s.sp ≤ p.hi → p.lo ≤ t.sp ∧ t.sp ≤ p.hi
  congr_step : ∀ s t m, step s t → (∀ a ∈ live s, m a = s.mem a) →
    ∃ m', step { s with mem := m } { t with mem := m' } ∧ ∀ a ∈ live t, m' a = t.mem a

/-- The states are alike for the program. -/
def Program.Alike {p : Places} (prog : Program p) (s s' : Cpu) : Prop :=
  ∃ m, s' = { s with mem := m } ∧ ∀ a ∈ prog.live s, m a = s.mem a

/-- Interrupts are transparent: with all interrupts between its steps, and those that interrupt
    their handlers, a program that does not look at the data of the handlers gets where it gets
    without. -/
theorem interrupts_transparent (p : Places) (c : StubAddresses) (prog : Program p) (s u : Cpu)
    (h : (p.interrupts c prog.step).Run none s u) (hlo : p.lo ≤ s.sp) (hhi : s.sp ≤ p.hi) :
    ∃ u', Relation.ReflTransGen prog.step s u' ∧ prog.Alike u u' := by
  refine h.transparent prog.Alike (fun s => p.lo ≤ s.sp ∧ s.sp ≤ p.hi) ?_ ?_ ⟨hlo, hhi⟩
    ⟨s.mem, rfl, fun _ _ => rfl⟩
  · rintro s t _ ⟨hlo, hhi⟩ ⟨m, rfl, hm⟩ hst
    obtain ⟨m', hst', hm'⟩ := prog.congr_step s t m hst hm
    exact ⟨prog.sp_step s t hst hlo hhi, _, hst', m', rfl, hm'⟩
  · rintro s u _ ⟨hlo, hhi⟩ ⟨m, rfl, hm⟩ hserved
    have hkept := Places.kept_of_served hhi hserved
    have hu : ({ u with mem := s.mem } : Cpu) = s :=
      Cpu.ext hkept.reg hkept.seg hkept.eflags hkept.eip rfl
    have hlive : prog.live u = prog.live s := by rw [← prog.live_mem u s.mem, hu]
    have hsp : u.sp = s.sp := by rw [Cpu.sp, Cpu.sp, hkept.reg]
    refine ⟨by rw [hsp]; exact ⟨hlo, hhi⟩, m, ?_, fun a ha => ?_⟩
    · rw [← hu]
    · rw [hlive] at ha
      obtain ⟨hdata, hout⟩ := prog.live_kept s a ha
      exact (hm a ha).trans (hkept.mem a hdata hout).symm

/-! ## A page fault in a timer interrupt -/

/-- A handler that returns at once. -/
def serveIdle (c : StubAddresses) (i : Interrupt) (s : Cpu) : Cpu := stubReturn (serve c i s).ret

/-- A handler that is interrupted by such a one. -/
def serveNested (c : StubAddresses) (i j : Interrupt) (s : Cpu) : Cpu :=
  stubReturn (serveIdle c j (serve c i s)).ret

section

variable {p : Places} {prog : Cpu → Cpu → Prop} {a : Option ℕ} {t : Cpu}

theorem sp_serve (hi : i.n ≠ 17) (h : 76 ≤ s.sp) : (serve c i s).sp = s.sp - 76 :=
  (pushed_serve c i s hi).sp_eq h

theorem step_ret {base : ℕ} (hlo : p.lo ≤ t.sp) (hle : t.sp + 8 ≤ base) (hhi : base ≤ p.hi) :
    p.Step base t t.ret := by
  have hlt := p.hi_lt
  have hret : t.ret.sp = t.sp + 4 := Cpu.sp_drop (by omega)
  exact ⟨by omega, by omega, fun _ _ _ => rfl⟩

theorem run_serveIdle (hi : i.n ≠ 17) (hlo : p.lo + 76 ≤ s.sp) (hhi : s.sp ≤ p.hi) :
    (p.interrupts c prog).Run a s (serveIdle c i s) := by
  have hlt := p.hi_lt
  have hsp : (serve c i s).sp = s.sp - 76 := sp_serve hi (by omega)
  rw [serveIdle]
  obtain ⟨t, ht⟩ : ∃ t, t = serve c i s := ⟨_, rfl⟩
  rw [← ht] at hsp ⊢
  have hbody : (p.interrupts c prog).Run (some (t.sp + 8)) t t.ret :=
    .step (step_ret (by omega) (Nat.le_refl _) (by omega)) (.nil _ _)
  exact .interrupt ⟨hi, hlo, ht⟩ hbody ⟨Cpu.sp_drop (by omega), rfl⟩ (.nil _ _)

theorem sp_serveIdle (hi : i.n ≠ 17) (hlo : p.lo + 76 ≤ s.sp) (hhi : s.sp ≤ p.hi) :
    (serveIdle c i s).sp = s.sp := by
  have hlt := p.hi_lt
  have hsp : (serve c i s).sp = s.sp - 76 := sp_serve hi (by omega)
  rw [serveIdle]
  obtain ⟨t, ht⟩ : ∃ t, t = serve c i s := ⟨_, rfl⟩
  rw [← ht] at hsp ⊢
  have hret : t.ret.sp = t.sp + 4 := Cpu.sp_drop (by omega)
  have hkept : p.Kept s (stubReturn t.ret) :=
    Places.kept_of_handler hi hlo hhi ht (fun _ _ _ => rfl) hret
  rw [Cpu.sp, Cpu.sp, hkept.reg]

theorem run_serveNested {j : Interrupt} (hi : i.n ≠ 17) (hj : j.n ≠ 17) (hlo : p.lo + 152 ≤ s.sp)
    (hhi : s.sp ≤ p.hi) : (p.interrupts c prog).Run a s (serveNested c i j s) := by
  have hlt := p.hi_lt
  have hsp : (serve c i s).sp = s.sp - 76 := sp_serve hi (by omega)
  rw [serveNested]
  obtain ⟨t, ht⟩ : ∃ t, t = serve c i s := ⟨_, rfl⟩
  rw [← ht] at hsp ⊢
  have hinner : (p.interrupts c prog).Run (some (t.sp + 8)) t (serveIdle c j t) :=
    run_serveIdle hj (by omega) (by omega)
  have hsp' : (serveIdle c j t).sp = t.sp := sp_serveIdle (p := p) hj (by omega) (by omega)
  obtain ⟨u, hu⟩ : ∃ u, u = serveIdle c j t := ⟨_, rfl⟩
  rw [← hu] at hinner hsp' ⊢
  have hret : u.ret.sp = t.sp + 4 := hsp' ▸ Cpu.sp_drop (by omega)
  exact .interrupt ⟨hi, by omega, ht⟩
    (hinner.trans (.step (step_ret (by omega) (by omega) (by omega)) (.nil _ _))) ⟨hret, rfl⟩
      (.nil _ _)

end

/-- A stack of a page, and a page of data. -/
def somePlaces : Places where
  lo := 0x7000
  hi := 0x8000
  data := {a | 0x5000 ≤ a ∧ a < 0x6000}
  hi_lt := by decide
  notMem a h _ hd := absurd hd.2 (by omega)

/-- A program that counts in `eax`. -/
def counting : Program somePlaces where
  step s t := t = s.set .eax (s.reg .eax + 1)
  live s := {a | a ∉ somePlaces.data ∧ (a < somePlaces.lo ∨ s.sp ≤ a)}
  live_mem _ _ := rfl
  live_kept _ _ h := h
  sp_step := by
    rintro s _ rfl hlo hhi
    exact ⟨hlo, hhi⟩
  congr_step := by
    rintro s _ m rfl hm
    exact ⟨m, rfl, hm⟩

def someAddresses : StubAddresses where
  stub n := 0x100000 + BitVec.ofNat 32 n
  faultHandler := 0x101000
  irqHandler := 0x102000
  isrReturn := 0x103000
  irqReturn := 0x104000

def timerInterrupt : Interrupt := ⟨32, none, by decide, by decide⟩

def pageFault : Interrupt := ⟨14, some 2, by decide, by decide⟩

/-- The program when it starts, with its stack pointer at `0x7F00`. -/
def countingStart : Cpu where
  reg r := if r = .esp then 0x7F00 else 0
  seg _ := 0x10
  eflags := 0x202
  eip := 0x105000
  mem _ := 0

/-- After a step, and a timer interrupt whose handler runs into a page fault, and a step. -/
def countingEnd : Cpu :=
  let s := serveNested someAddresses timerInterrupt pageFault (countingStart.set .eax 1)
  s.set .eax (s.reg .eax + 1)

theorem counting_run :
    (somePlaces.interrupts someAddresses counting.step).Run none countingStart countingEnd := by
  refine .step rfl (.trans (run_serveNested (by decide) (by decide) (by decide) (by decide))
    (.step rfl (.nil _ _)))

/-- It ends as two steps do. -/
theorem counting_transparent :
    ∃ u', Relation.ReflTransGen counting.step countingStart u' ∧ counting.Alike countingEnd u' :=
  interrupts_transparent somePlaces someAddresses counting countingStart countingEnd counting_run
    (by decide) (by decide)

/-- The frame of a timer interrupt at the start of the program, and its return. -/
theorem counting_frame :
    let t := serve someAddresses timerInterrupt countingStart
    t.eip = 0x102000 ∧ t.sp + 76 = 0x7F00 ∧
      stubReturn t.ret = (timerInterrupt.regs countingStart).resume t.ret := by
  obtain ⟨heip, -, -, -, hsp, ⟨next, ptr, hstack, -⟩, -, hback⟩ :=
    handler_frame someAddresses timerInterrupt countingStart (by decide) (by decide)
  obtain ⟨t, ht⟩ : ∃ t, t = serve someAddresses timerInterrupt countingStart := ⟨_, rfl⟩
  simp only [← ht] at heip hsp hstack hback ⊢
  have hs : countingStart.sp = 0x7F00 := rfl
  have hret : t.ret.sp = t.sp + 4 := Cpu.sp_drop (by omega)
  exact ⟨heip, hsp.trans hs, (hback t.ret _ hret hstack.2.2).1⟩

end Beryllium

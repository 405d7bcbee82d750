import Beryllium.Machine.Memory
import Mathlib.Data.BitVec
import Mathlib.Data.Fin.VecNotation

/-!
# Descriptors of a 32-bit x86 processor

The entries of the descriptor tables as the processor reads them: an interrupt gate (`Gate`) and a
segment (`Segment`), of eight bytes each.
-/

namespace Machine

namespace Mem

/-- The memory with the little-endian half word `v` at `a`. -/
def store16 (m : Mem) (a v : ℕ) : Mem := (m.store8 a v).store8 (a + 1) (v / 256)

end Mem

/-- The eight bytes of an entry. -/
abbrev Entry := Fin 8 → ℕ

/-- The entry at `a`. -/
def entryAt (m : Mem) (a : ℕ) : Entry := fun i => m.load8 (a + i)

/-- An entry of the interrupt descriptor table: the handler, the type with the bit for system
    segments, and the privilege level. -/
structure Gate where
  offset : BitVec 32
  sel : BitVec 16
  kind : ℕ
  dpl : ℕ
  present : Bool

/-- An entry, read as a gate. -/
def Entry.gate (b : Entry) : Gate where
  offset := BitVec.ofNat 32 (b 0 + 256 * b 1 + 65536 * b 6 + 16777216 * b 7)
  sel := BitVec.ofNat 16 (b 2 + 256 * b 3)
  kind := b 5 % 32
  dpl := b 5 / 32 % 4
  present := b 5 / 128 % 2 = 1

/-- An entry of the global descriptor table: the base, the highest offset, the access byte, and
    whether the default operands have 32 bits. -/
structure Segment where
  base : BitVec 32
  last : ℕ
  access : ℕ
  big : Bool

/-- The limit of an entry, in bytes or pages. -/
def Entry.limit (b : Entry) : ℕ := b 0 + 256 * b 1 + 65536 * (b 6 % 16)

/-- An entry, read as a segment. -/
def Entry.segment (b : Entry) : Segment where
  base := BitVec.ofNat 32 (b 2 + 256 * b 3 + 65536 * b 4 + 16777216 * b 7)
  last := if b 6 / 128 % 2 = 1 then 4096 * b.limit + 4095 else b.limit
  access := b 5
  big := b 6 / 64 % 2 = 1

theorem entryAt_congr {m m' : Mem} {a : ℕ} (h : ∀ x, a ≤ x → x < a + 8 → m' x = m x) :
    entryAt m' a = entryAt m a :=
  funext fun i => Mem.load8_congr (h _ (by omega) (by omega))

end Machine

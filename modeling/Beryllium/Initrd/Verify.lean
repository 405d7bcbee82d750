import Beryllium.Initrd.Build

/-!
# The check of an image

`initrd_verify`, which is to tell an image of `build-initrd` from other bytes. It compares the
first word of the image with one character, so that the three bytes after the `I` have to be
zero: it refuses what the tool writes, and takes headers that the tool never writes.
-/

namespace Beryllium

open Machine

/-- `INIT` -/
def initMagic : List UInt8 := [73, 78, 73, 84]

/-- The bytes are an image that `build-initrd` writes, from some files of some host. -/
def Produced (b : List UInt8) : Prop := ∃ fopen stack argv, buildInitrd fopen stack argv = some b

/-- A header as `superheader_t` describes it: the magic, and a checksum that is the sum of its
    bytes and of the number of headers. -/
def GoodHeader (b : List UInt8) : Prop :=
  b.take 4 = initMagic ∧ ∃ headers, loadWord b 4 = some headers ∧
    loadWord b 8 = some (add32 ((b.take 4).map UInt8.toNat).sum headers)

variable {b r : List UInt8} {v : ℕ} {h : Superheader}

/-- The verdict is about the first word only. -/
theorem initrdVerify_initrdAt (start : ℕ) (b : List UInt8) :
    initrdVerify (initrdAt start b) start = (word b).map fun w => if w = 73 then 1 else 0 := by
  have hload : (initrdAt start b).load start = word b := by
    rw [Initrd.load, Initrd.offset, initrdAt, initrdSetLocation, if_pos le_rfl, Nat.sub_self]
    rfl
  rw [initrdVerify, hload]
  cases word b <;> rfl

theorem word_superheader : word (h.bytes ++ r) = some 1414090313 := rfl

theorem goodHeader_superheader (hsum : h.checksum = 308 + h.headers) :
    GoodHeader (h.bytes ++ r) := by
  have hmagic : (h.bytes ++ r).take 4 = initMagic := rfl
  have hheaders : loadWord (h.bytes ++ r) 4 = some (h.headers % 4294967296) := by
    rw [Superheader.bytes, List.append_assoc, List.append_assoc]
    exact loadWord_append rfl
  have hchecksum : loadWord (h.bytes ++ r) 8 = some (h.checksum % 4294967296) := by
    rw [Superheader.bytes, List.append_assoc, List.append_assoc, List.append_assoc,
      ← List.append_assoc [73, 78, 73, 84]]
    exact loadWord_append rfl
  refine ⟨hmagic, _, hheaders, ?_⟩
  rw [hchecksum, hmagic, hsum, show (initMagic.map UInt8.toNat).sum = 308 from rfl, add32,
    Nat.add_mod_mod]

/-- Every image of the tool begins with a superheader. -/
theorem Produced.superheader (hb : Produced b) : ∃ (h : Superheader) (r : List UInt8),
    h.checksum = 308 + h.headers ∧ b = h.bytes ++ r := by
  obtain ⟨fopen, stack, argv, hb⟩ := hb
  rw [buildInitrd] at hb
  simp only [Option.bind_eq_bind, Option.bind_eq_some_iff, Option.pure_def,
    Option.some.injEq] at hb
  obtain ⟨headers, -, data, -, rfl⟩ := hb
  exact ⟨_, _, rfl, rfl⟩

/-- The tool writes good headers only. -/
theorem Produced.goodHeader (hb : Produced b) : GoodHeader b := by
  obtain ⟨h, r, hsum, rfl⟩ := hb.superheader
  exact goodHeader_superheader hsum

/-- The first word of such an image is the four letters, and not the first of them. -/
theorem Produced.refused (hb : Produced b) (start : ℕ) :
    initrdVerify (initrdAt start b) start = some 0 := by
  obtain ⟨h, r, -, rfl⟩ := hb.superheader
  rw [initrdVerify_initrdAt, word_superheader]
  rfl

theorem not_goodHeader_of_word (hb : word b = some 73) : ¬GoodHeader b := by
  rintro ⟨hmagic, -⟩
  match b, hb with
  | c₀ :: c₁ :: c₂ :: c₃ :: b, hb =>
    have hword : [c₀, c₁, c₂, c₃] = initMagic := hmagic
    rw [initMagic] at hword
    cases hword
    cases hb

/-- `initrd_verify` does what it is for on bytes that are no image of the tool and whose first word
    is not the letter `I`, and on no others: it takes the images of the tool, and refuses a
    superheader that is not good. -/
theorem initrdVerify_iff (start : ℕ) (b : List UInt8) :
    ((Produced b → initrdVerify (initrdAt start b) start = some 1) ∧
      (sizeofSuperheader ≤ b.length → ¬GoodHeader b →
        initrdVerify (initrdAt start b) start = some 0)) ↔
    ¬Produced b ∧ ¬(sizeofSuperheader ≤ b.length ∧ word b = some 73) := by
  refine ⟨fun ⟨htake, hrefuse⟩ => ⟨fun hb => ?_, fun ⟨hlen, hw⟩ => ?_⟩,
    fun ⟨hb, hw⟩ => ⟨fun h => absurd h hb, fun hlen _ => ?_⟩⟩
  · have hone := htake hb
    rw [hb.refused start] at hone
    cases hone
  · have hzero := hrefuse hlen (not_goodHeader_of_word hw)
    rw [initrdVerify_initrdAt, hw] at hzero
    cases hzero
  · obtain ⟨w, hload, -⟩ : ∃ w, loadWord b 0 = some w ∧ w < _ :=
      loadWord_some (Nat.le_trans (by decide) hlen)
    have hword : word b = some w := hload
    rw [initrdVerify_initrdAt, hword, Option.map_some, if_neg]
    rintro rfl
    exact hw ⟨hlen, hword⟩

/-- The image of no files is refused. -/
theorem initrdVerify_image_false :
    ¬∀ (start : ℕ) (b : List UInt8), (Produced b → initrdVerify (initrdAt start b) start = some 1) ∧
      (sizeofSuperheader ≤ b.length → ¬GoodHeader b →
        initrdVerify (initrdAt start b) start = some 0) := by
  intro h
  have hb : Produced ((Superheader.mk 0 308).bytes ++ []) :=
    ⟨fun _ => none, fun _ => ⟨List.replicate 52 0, rfl⟩, [], rfl⟩
  have hone := (h 0 _).1 hb
  rw [hb.refused] at hone
  cases hone

end Beryllium

import Beryllium.Initrd.Safe
import Mathlib.Algebra.Ring.Nat
import Mathlib.Data.List.Forall2

/-!
# Building an image

`util/build-initrd.c`, which writes the image that `initrd_init` reads. For files that exist,
whose names fit and whose image is not too large, it writes `imageOf` (`buildInitrd_eq`), where
each header and each file has its place (`imageOf_header`, `imageOf_contents`).

The program runs on a host, with 64-bit pointers and the same words. The array of headers is on
its stack, and the bytes of a name after its end are what the stack held before.
-/

namespace Beryllium

open Machine

/-! ## build-initrd -/

/-- `superheader_t` -/
structure Superheader where
  headers : ℕ
  checksum : ℕ

/-- The bytes of a `superheader_t`: `INIT`, the two words and the padding. -/
def Superheader.bytes (h : Superheader) : List UInt8 :=
  [73, 78, 73, 84] ++ (le32 h.headers ++ (le32 h.checksum ++ List.replicate 52 0))

/-- `fileheader_t` -/
structure Fileheader where
  magic : ℕ
  name : List UInt8
  offset : ℕ
  length : ℕ

/-- The bytes of a `fileheader_t`. -/
def Fileheader.bytes (h : Fileheader) : List UInt8 :=
  le32 h.magic ++ (h.name ++ (le32 h.offset ++ le32 h.length))

/-- The arguments come in pairs: a file, and its name in the image. -/
def pairs {α : Type*} : List α → List (α × α)
  | file :: dest :: argv => (file, dest) :: pairs argv
  | _ => []

/-- What the stack holds in the names of the headers. -/
abbrev Stack := ℕ → { name : List UInt8 // name.length = 52 }

variable (fopen : List UInt8 → Option (List UInt8)) (stack : Stack)

/-- The first loop: the headers from `headers[i]` on, where `off` is the offset of the next file.
    `none` if a file doesn't exist, or a name does not fit. -/
def buildHeaders : ℕ → ℕ → List (List UInt8 × List UInt8) → Option (List Fileheader)
  | _, _, [] => some []
  | i, off, (file, dest) :: argv => do
    let name ← strcpy (stack i).1 (dest ++ [0])
    let stream ← fopen file
    let length := stream.length % 4294967296
    let rest ← buildHeaders (i + 1) (add32 off length) argv
    return ⟨0xABABCBDC, name, off, length⟩ :: rest

/-- The second loop: the contents of the files. -/
def buildContents : List (List UInt8 × List UInt8) → List Fileheader → Option (List UInt8)
  | (file, _) :: argv, header :: headers => do
    let stream ← fopen file
    let rest ← buildContents argv headers
    return stream.take header.length ++ rest
  | _, _ => some []

/-- `main`: the image it writes, `none` if it writes none. `fopen` are the files of the host, and
    `argv` the arguments after the name of the program. -/
def buildInitrd (argv : List (List UInt8)) : Option (List UInt8) := do
  let args := pairs argv
  let nheaders := args.length
  let sheader : Superheader := ⟨nheaders, 73 + 78 + 73 + 84 + nheaders⟩
  let off := add32 (mul32 sizeofFileheader nheaders) sizeofSuperheader
  let headers ← buildHeaders fopen stack 0 off args
  let data ← buildContents fopen args headers
  return sheader.bytes ++ (headers.flatMap Fileheader.bytes ++ data)

/-! ## The image of a list of files -/

/-- A file of the ramdisk. -/
structure RamdiskFile where
  contents : List UInt8
  name : List UInt8

/-- The bytes of all contents. -/
def contentsSize (files : List RamdiskFile) : ℕ := (files.map fun f => f.contents.length).sum

/-- The size of the image. -/
def imageSize (files : List RamdiskFile) : ℕ := 64 + 64 * files.length + contentsSize files

/-- The headers of the files, from `headers[i]` on. -/
def headersOf (stack : Stack) : ℕ → ℕ → List RamdiskFile → List Fileheader
  | _, _, [] => []
  | i, off, f :: files =>
    ⟨0xABABCBDC, f.name ++ 0 :: (stack i).1.drop (f.name.length + 1), off, f.contents.length⟩ ::
      headersOf stack (i + 1) (off + f.contents.length) files

/-- The image of the files. -/
def imageOf (stack : Stack) (files : List RamdiskFile) : List UInt8 :=
  (Superheader.mk files.length (308 + files.length)).bytes ++
    ((headersOf stack 0 (64 + 64 * files.length) files).flatMap Fileheader.bytes ++
      files.flatMap RamdiskFile.contents)

/-- The names fit in the headers. -/
def NamesFit (files : List RamdiskFile) : Prop := ∀ f ∈ files, 0 ∉ f.name ∧ f.name.length ≤ 51

variable {fopen stack} {i off : ℕ} {args : List (List UInt8 × List UInt8)} {f : RamdiskFile}
  {files pre post : List RamdiskFile}

theorem contentsSize_cons : contentsSize (f :: files) = f.contents.length + contentsSize files :=
  List.sum_cons

theorem contentsSize_append :
    contentsSize (pre ++ post) = contentsSize pre + contentsSize post := by
  rw [contentsSize, List.map_append, List.sum_append]
  rfl

/-- The pairs of arguments stand for the files. -/
abbrev ArgsFor (fopen : List UInt8 → Option (List UInt8)) (args : List (List UInt8 × List UInt8))
    (files : List RamdiskFile) : Prop :=
  List.Forall₂ (fun arg f => fopen arg.1 = some f.contents ∧ arg.2 = f.name) args files

theorem buildHeaders_eq (hargs : ArgsFor fopen args files) (hnames : NamesFit files)
    (hoff : off + contentsSize files < 4294967296) :
    buildHeaders fopen stack i off args = some (headersOf stack i off files) := by
  induction hargs generalizing i off with
  | nil => rfl
  | @cons arg f args files harg _ ih =>
    obtain ⟨hname, hlen⟩ := hnames f List.mem_cons_self
    rw [contentsSize_cons] at hoff
    have hcopy : strcpy (stack i).1 (f.name ++ [0]) =
        some (f.name ++ 0 :: (stack i).1.drop (f.name.length + 1)) :=
      strcpy_eq (CStr.mk hname []) (by rw [(stack i).2]; omega)
    have hmod : f.contents.length % 4294967296 = f.contents.length := Nat.mod_eq_of_lt (by omega)
    have hrest : buildHeaders fopen stack (i + 1) (off + f.contents.length) args = _ :=
      ih (fun f' hf => hnames f' (List.mem_cons_of_mem _ hf)) (by omega)
    rw [buildHeaders, harg.2, hcopy, harg.1]
    simp only [Option.bind_eq_bind, Option.bind_some, hmod, add32_eq (show off +
      f.contents.length < 4294967296 by omega), hrest, Option.pure_def, headersOf]

theorem buildContents_eq (hargs : ArgsFor fopen args files) :
    buildContents fopen args (headersOf stack i off files) =
      some (files.flatMap RamdiskFile.contents) := by
  induction hargs generalizing i off with
  | nil => rfl
  | @cons arg f args files harg _ ih =>
    rw [headersOf, buildContents, harg.1, Option.bind_eq_bind, Option.bind_some, ih]
    simp only [Option.bind_some, List.take_length, Option.pure_def, List.flatMap_cons]

/-- `build-initrd` writes the image of the files, if its size is a word. -/
theorem buildInitrd_eq {argv : List (List UInt8)} (hargs : ArgsFor fopen (pairs argv) files)
    (hnames : NamesFit files) (hsize : imageSize files < 4294967296) :
    buildInitrd fopen stack argv = some (imageOf stack files) := by
  rw [imageSize] at hsize
  have hlen : (pairs argv).length = files.length := hargs.length_eq
  have hoff : add32 (mul32 sizeofFileheader files.length) sizeofSuperheader =
      64 + 64 * files.length := by
    rw [mul32_eq (show 64 * files.length < 4294967296 by omega),
      add32_eq (show 64 * files.length + 64 < 4294967296 by omega), Nat.add_comm]
  rw [buildInitrd]
  simp only [hlen, hoff, buildHeaders_eq hargs hnames hsize, Option.bind_eq_bind,
    Option.bind_some, buildContents_eq hargs, Option.pure_def]
  rfl

/-! ## Its layout -/

theorem headersOf_append : headersOf stack i off (pre ++ post) = headersOf stack i off pre ++
    headersOf stack (i + pre.length) (off + contentsSize pre) post := by
  induction pre generalizing i off with
  | nil => rfl
  | cons f pre ih =>
    rw [List.cons_append, headersOf, headersOf, ih, List.cons_append, contentsSize_cons,
      List.length_cons, Nat.add_assoc i, Nat.add_comm 1, Nat.add_assoc off]

theorem NamesFit.append (h : NamesFit (pre ++ post)) : NamesFit pre ∧ NamesFit post :=
  ⟨fun f hf => h f (List.mem_append_left _ hf), fun f hf => h f (List.mem_append_right _ hf)⟩

theorem length_name (hf : f.name.length ≤ 51) (i : ℕ) :
    (f.name ++ 0 :: (stack i).1.drop (f.name.length + 1)).length = 52 := by
  rw [List.length_append, List.length_cons, List.length_drop, (stack i).2]
  omega

theorem length_headersOf (h : NamesFit files) (i off : ℕ) :
    ((headersOf stack i off files).flatMap Fileheader.bytes).length = 64 * files.length := by
  induction files generalizing i off with
  | nil => rfl
  | cons f files ih =>
    have hname : (f.name ++ 0 :: (stack i).1.drop (f.name.length + 1)).length = 52 :=
      length_name (h f List.mem_cons_self).2 i
    rw [headersOf, List.flatMap_cons, List.length_append,
      ih fun f' hf => h f' (List.mem_cons_of_mem _ hf), Fileheader.bytes]
    simp only [List.length_append, length_le32, hname, List.length_cons]
    omega

theorem length_superheader (h : Superheader) : h.bytes.length = 64 := by
  simp only [Superheader.bytes, List.length_append, length_le32, List.length_replicate]
  rfl

theorem length_contents (files : List RamdiskFile) :
    (files.flatMap RamdiskFile.contents).length = contentsSize files := List.length_flatMap

theorem length_imageOf (stack : Stack) (h : NamesFit files) :
    (imageOf stack files).length = imageSize files := by
  rw [imageOf, List.length_append, List.length_append, length_superheader, length_headersOf h,
    length_contents, imageSize]
  omega

/-- The bytes around a header. -/
theorem imageOf_header (stack : Stack) (h : NamesFit (pre ++ f :: post)) : ∃ xs ys,
    xs.length = 64 + 64 * pre.length ∧ imageOf stack (pre ++ f :: post) = xs ++ (le32 0xABABCBDC ++
      ((f.name ++ 0 :: (stack pre.length).1.drop (f.name.length + 1)) ++
        (le32 (64 + 64 * (pre ++ f :: post).length + contentsSize pre) ++
          (le32 f.contents.length ++ ys)))) := by
  rw [imageOf, headersOf_append, Nat.zero_add, headersOf, List.flatMap_append, List.flatMap_cons,
    Fileheader.bytes]
  refine ⟨_ ++ _, _, ?_, by simp only [List.append_assoc]; rfl⟩
  rw [List.length_append, length_superheader, length_headersOf h.append.1]

/-- The bytes around the contents of a file. -/
theorem imageOf_contents (stack : Stack) (h : NamesFit (pre ++ f :: post)) : ∃ xs ys,
    xs.length = 64 + 64 * (pre ++ f :: post).length + contentsSize pre ∧
    imageOf stack (pre ++ f :: post) = xs ++ (f.contents ++ ys) := by
  rw [imageOf, List.flatMap_append, List.flatMap_cons]
  refine ⟨_ ++ (_ ++ _), _, ?_, by simp only [List.append_assoc]; rfl⟩
  have hlen : (List.flatMap Fileheader.bytes (headersOf stack 0 _ _)).length = _ :=
    length_headersOf h 0 (64 + 64 * (pre ++ f :: post).length)
  generalize (pre ++ f :: post).length = n at *
  rw [List.length_append, List.length_append, length_superheader, hlen, length_contents,
    Nat.add_assoc]

end Beryllium

import Beryllium.Initrd.Build

/-!
# Reading what was written

`initrd_init` undoes `build-initrd` (`initrd_round_trip`): for any files whose names fit, the
nodes are those of the files, in order, and the relocated offsets point at their contents. The
image of the files is valid (`validImage_imageOf`), so this is what the loop does to it
(`Populated`), read off the layout of the image (`imageOf_fields`).
-/

namespace Beryllium

open Machine

variable {fopen : List UInt8 → Option (List UInt8)} {stack : Stack} {start p i j k : ℕ}
  {f f' : RamdiskFile} {files pre post : List RamdiskFile} {e : Env Initrd} {h₀ : NodeHeap}

/-! ## The fields of the image -/

theorem exists_split {α : Type*} {xs : List α} {x : α} (h : xs[i]? = some x) :
    ∃ pre post, xs = pre ++ x :: post ∧ pre.length = i := by
  obtain ⟨hi, rfl⟩ := List.getElem?_eq_some_iff.1 h
  refine ⟨xs.take i, xs.drop (i + 1), ?_, ?_⟩
  · rw [← List.drop_eq_getElem_cons, List.take_append_drop]
  · rw [List.length_take]
    omega

/-- The header and the contents of a file, as the image holds them. -/
structure FileAt (image : List UInt8) (i off : ℕ) (f : RamdiskFile) : Prop where
  offset : loadWord image (120 + 64 * i) = some off
  length : loadWord image (124 + 64 * i) = some f.contents.length
  name : FileName image i f.name
  contents : (image.drop off).take f.contents.length = f.contents
  le : off + f.contents.length ≤ image.length
  table_le : 64 + 64 * i + 64 ≤ off

theorem imageOf_fields (stack : Stack) (h : NamesFit (pre ++ f :: post))
    (hsize : imageSize (pre ++ f :: post) < 4294967296) :
    FileAt (imageOf stack (pre ++ f :: post)) pre.length
      (64 + 64 * (pre ++ f :: post).length + contentsSize pre) f := by
  obtain ⟨hzero, hfits⟩ := h.append.2 f List.mem_cons_self
  have hname : (f.name ++ 0 :: (stack pre.length).1.drop (f.name.length + 1)).length = 52 :=
    length_name hfits _
  have hle : 64 + 64 * (pre ++ f :: post).length + contentsSize pre + f.contents.length ≤
      imageSize (pre ++ f :: post) := by
    rw [imageSize, contentsSize_append, contentsSize_cons]
    omega
  have htable : pre.length + 1 ≤ (pre ++ f :: post).length := by
    rw [List.length_append, List.length_cons]
    omega
  have hlen := length_imageOf stack h
  obtain ⟨xs, ys, hxs, hheader⟩ := imageOf_header stack h
  obtain ⟨us, vs, hus, hcontents⟩ := imageOf_contents stack h
  generalize (pre ++ f :: post).length = n at *
  generalize hn : f.name ++ 0 :: (stack pre.length).1.drop (f.name.length + 1) = name at *
  refine ⟨?_, ?_, ?_, ?_, hlen ▸ hle, by omega⟩
  · have hword : imageOf stack (pre ++ f :: post) = (xs ++ (le32 0xABABCBDC ++ name)) ++
        (le32 (64 + 64 * n + contentsSize pre) ++ (le32 f.contents.length ++ ys)) := by
      rw [hheader]
      simp only [List.append_assoc]
    rw [hword, loadWord_append, Nat.mod_eq_of_lt (by omega)]
    simp only [List.length_append, hxs, length_le32, hname]
    omega
  · have hword : imageOf stack (pre ++ f :: post) =
        (xs ++ (le32 0xABABCBDC ++ (name ++ le32 (64 + 64 * n + contentsSize pre)))) ++
          (le32 f.contents.length ++ ys) := by
      rw [hheader]
      simp only [List.append_assoc]
    rw [hword, loadWord_append, Nat.mod_eq_of_lt (by omega)]
    simp only [List.length_append, hxs, length_le32, hname]
    omega
  · have hbytes : imageOf stack (pre ++ f :: post) = (xs ++ le32 0xABABCBDC) ++ (name ++
        (le32 (64 + 64 * n + contentsSize pre) ++ (le32 f.contents.length ++ ys))) := by
      rw [hheader]
      simp only [List.append_assoc]
    have hpos : (xs ++ le32 0xABABCBDC).length = 68 + 64 * pre.length := by
      rw [List.length_append, hxs, length_le32]
      omega
    rw [FileName, hbytes, List.drop_left' hpos, List.take_left' hname, ← hn]
    exact CStr.mk hzero _
  · rw [hcontents, List.drop_left' hus, List.take_left]

/-- The offset of the contents of the file `i`. -/
def fileOffset (files : List RamdiskFile) (i : ℕ) : ℕ :=
  64 + 64 * files.length + contentsSize (files.take i)

theorem fileAt_imageOf (stack : Stack) (h : NamesFit files) (hsize : imageSize files < 4294967296)
    (hf : files[i]? = some f) : FileAt (imageOf stack files) i (fileOffset files i) f := by
  obtain ⟨pre, post, rfl, rfl⟩ := exists_split hf
  rw [fileOffset, List.take_left]
  exact imageOf_fields stack h hsize

/-- The contents of a file end before those of the next ones. -/
theorem fileOffset_le (hf : files[i]? = some f) (hij : i < j) :
    fileOffset files i + f.contents.length ≤ fileOffset files j := by
  obtain ⟨rest, hrest⟩ : files.take (i + 1) <+: files.take j := List.take_prefix_take_left hij
  rw [fileOffset, fileOffset, ← hrest, List.take_add_one, hf, Option.toList_some,
    contentsSize_append, contentsSize_append, contentsSize_cons]
  omega

theorem validImage_imageOf (stack : Stack) (h : NamesFit files)
    (hsize : imageSize files < 4294967296) : ValidImage (imageOf stack files) files.length := by
  have hlen := length_imageOf stack h
  rw [imageSize] at hsize hlen
  refine ⟨rfl, ?_, by omega, fun i hi => ?_, fun i hi => ?_⟩
  · have hpos : 4 = ([73, 78, 73, 84] : List UInt8).length := rfl
    rw [imageOf, Superheader.bytes, List.append_assoc, List.append_assoc, loadWord_append hpos,
      Nat.mod_eq_of_lt (show files.length < 4294967296 by omega)]
  · exact ⟨_, (fileAt_imageOf stack h hsize (List.getElem?_eq_getElem hi)).name⟩
  · have hfile := fileAt_imageOf stack h hsize (List.getElem?_eq_getElem hi)
    exact ⟨_, _, hfile.offset, hfile.length, hfile.le⟩

/-! ## Decoding -/

/-- `initfs_fileheaders[i].offset` -/
def Initrd.fileheaderOffset (g : Initrd) (i : ℕ) : Option ℕ :=
  g.load (g.initfsFileheaders + sizeofFileheader * i + 56)

/-- The node and the contents of the file `f` are those of the file `i`, where `ptr` is its
    relocated offset. -/
structure DecodedFile (e : Env Initrd) (i ptr : ℕ) (f : RamdiskFile) : Prop where
  node : ∃ n, e.heap.node (e.world.initrdNodes + i) = some n ∧ CStr n.name f.name ∧
    n.length = f.contents.length ∧ n.inode = i
  offset : e.world.fileheaderOffset i = some ptr
  start_le : e.world.initrdStartaddr ≤ ptr
  le_end : ptr + f.contents.length ≤ e.world.initrdStartaddr + e.world.image.length
  contents : ∃ bytes, e.world.bytes ptr = some bytes ∧ bytes.take f.contents.length = f.contents

/-- The state after `initrd_init` is that of the files: every file has its node and its
    contents, and the contents of different files are apart. -/
structure Decoded (e : Env Initrd) (files : List RamdiskFile) : Prop where
  headers : e.world.headers = some files.length
  file : ∀ i f, files[i]? = some f → ∃ ptr, DecodedFile e i ptr f
  apart : ∀ i j f f' ptr ptr', i ≠ j → files[i]? = some f → files[j]? = some f' →
    e.world.fileheaderOffset i = some ptr → e.world.fileheaderOffset j = some ptr' →
    ptr + f.contents.length ≤ ptr' ∨ ptr' + f'.contents.length ≤ ptr

theorem Populated.fileheaderOffset {image : List UInt8} {n off : ℕ}
    (h : Populated start p image h₀ n e) (hi : i < n)
    (hoff : loadWord image (120 + 64 * i) = some off) (hlt : start + off < 4294967296) :
    e.world.fileheaderOffset i = some (start + off) := by
  have hpos : start + 64 + sizeofFileheader * i + 56 = start + (120 + 64 * i) := by
    rw [sizeofFileheader]
    omega
  rw [Initrd.fileheaderOffset, h.fileheaders, hpos, Initrd.load_eq h.startaddr,
    h.offset i hi _ hoff, add32_eq (by omega), Nat.add_comm]

theorem Populated.decodedFile {image : List UInt8} {n off : ℕ} (h : Populated start p image h₀ n e)
    (hf : FileAt image i off f) (hi : i < n) (htable : 64 + 64 * n ≤ off)
    (hlt : start + image.length < 4294967296) : DecodedFile e i (start + off) f := by
  have hle := hf.le
  obtain ⟨nd, s, hnode, hs, hname, hlength, hino⟩ := h.node i hi
  obtain rfl := CStr.unique hs hf.name
  rw [hf.length, Option.some.injEq] at hlength
  refine ⟨⟨nd, h.nodes ▸ hnode, hname, hlength.symm, hino⟩,
    h.fileheaderOffset hi hf.offset (by omega), ?_, ?_, _, Initrd.bytes_eq h.startaddr off, ?_⟩
  · rw [h.startaddr]
    exact Nat.le_add_right _ _
  · rw [h.startaddr, h.length]
    omega
  · -- the loop does not write behind the headers
    rw [take_drop_congr fun x hx _ => h.frame x fun j hj => by omega]
    exact hf.contents

/-- `initrd_init` undoes `build-initrd`: on the image written for the files, at any address
    where it fits, the nodes and the relocated headers are those of the files. -/
theorem initrd_round_trip {argv : List (List UInt8)} (a : InitrdMalloc) (heap : NodeHeap)
    (hargs : ArgsFor fopen (pairs argv) files) (hnames : NamesFit files)
    (hsize : start + imageSize files < 4294967296) (hnodes : 328 * files.length < 4294967296)
    (hroom : a.hasRoom = true) : ∃ image e, buildInitrd fopen stack argv = some image ∧
      image.length = imageSize files ∧
      initrdInit a ⟨heap, initrdAt start image⟩ = some e ∧ Decoded e files := by
  have hsize' : imageSize files < 4294967296 := lt_of_le_of_lt (Nat.le_add_left _ _) hsize
  have hlen := length_imageOf stack hnames
  have hvalid := validImage_imageOf stack hnames hsize'
  obtain ⟨h₀, p, e, hrun, -, -, -, hpop⟩ := hvalid.initrdInit a heap start hnodes (.inl hroom)
  have hdecoded : ∀ i f, files[i]? = some f → DecodedFile e i (start + fileOffset files i) f :=
    fun i f hf => hpop.decodedFile (fileAt_imageOf stack hnames hsize' hf)
      (List.getElem?_eq_some_iff.1 hf).1 (Nat.le_add_right _ _) (hlen ▸ hsize)
  refine ⟨_, e, buildInitrd_eq hargs hnames hsize', hlen, hrun, hpop.headers hvalid,
    fun i f hf => ⟨_, hdecoded i f hf⟩, fun i j f f' ptr ptr' hij hf hf' hptr hptr' => ?_⟩
  rw [(hdecoded i f hf).offset, Option.some.injEq] at hptr
  rw [(hdecoded j f' hf').offset, Option.some.injEq] at hptr'
  rcases Nat.lt_or_gt_of_ne hij with hij | hij
  · have := fileOffset_le hf hij
    omega
  · have := fileOffset_le hf' hij
    omega

/-- Two files, the second one empty. -/
def twoFiles : List RamdiskFile := [⟨[1, 2, 3], [97]⟩, ⟨[], [98, 99]⟩]

/-- The files of a host that has both. -/
def twoFilesHost (path : List UInt8) : Option (List UInt8) :=
  if path = [120] then some [1, 2, 3] else if path = [121] then some [] else none

theorem initrd_round_trip_two : ∃ image e,
    buildInitrd twoFilesHost (fun _ => ⟨List.replicate 52 255, rfl⟩)
    [[120], [97], [121], [98, 99]] =
      some image ∧ image.length = 195 ∧
    initrdInit zeroMalloc ⟨noNodes, initrdAt 0x100000 image⟩ = some e ∧ Decoded e twoFiles := by
  have hargs : ArgsFor twoFilesHost (pairs [[120], [97], [121], [98, 99]]) twoFiles :=
    .cons ⟨by decide, rfl⟩ (.cons ⟨by decide, rfl⟩ .nil)
  have hnames : NamesFit twoFiles := by
    rw [NamesFit, twoFiles]
    decide +revert
  exact initrd_round_trip zeroMalloc noNodes hargs hnames (by decide) (by decide) rfl

end Beryllium

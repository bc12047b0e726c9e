import Lbos.Fs.InitrdFiles

/-! The image that the host program writes is the file system that the kernel shows: every file is
opened by its name and read back in pieces of any sizes, nothing else is opened, and the root
directory lists the names. -/

namespace Lbos

open Lib Mem CreateInitrd

/-- The header of a file, as the host program lays it out. -/
theorem shows_file {m : Mem} {p : Word} {f : HostFile} (hname : f.name.length ≤ 31)
    (hterm : 0 ∈ baseName f.1.bytes) {offset : Word} (h : m.Holds p (f.header offset).bytes) :
    (0 ∈ cstr m p ∧ text (cstr m p) = f.name) ∧
      m.read32 (p + 32) = BitVec.ofNat 32 f.2.length ∧ m.read32 (p + 36) = offset := by
  obtain ⟨hn, hrest⟩ := holds_append.mp h
  obtain ⟨hsize, hrest⟩ := holds_append.mp hrest
  obtain ⟨hoffset, -⟩ := holds_append.mp hrest
  rw [(f.header offset).name_length] at hsize hoffset
  refine ⟨?_, read32_of_holds hsize, ?_⟩
  · obtain ⟨rest, hbytes⟩ := text_strncpy_set (List.replicate nameSize 0) hterm (n := 31)
      (by rw [List.length_replicate]; decide)
    have hfull : (text (baseName f.1.bytes)).take 31 = f.name := List.take_of_length_le hname
    have hfield : (f.header offset).name = f.name ++ 0 :: rest := by
      rw [← hfull]
      exact hbytes
    rw [hfield] at hn
    refine text_cstr hn (zero_notMem_text _) ?_
    rw [← hfield, (f.header offset).name_length]
    decide
  · have haddr : p + BitVec.ofNat 32 nameSize + BitVec.ofNat 32 4 = p + 36 := add_ofNat_add p 32 4
    have hlen : (wordBytes (f.header offset).size).length = 4 := rfl
    rw [hlen, haddr] at hoffset
    exact read32_of_holds hoffset

/-- The length of the part before the contents. -/
theorem length_image (header : Header) (contents : List Byte) :
    (signature ++ (header.bytes ++ contents)).length = 3088 + contents.length := by
  have hsign : signature.length = 8 := rfl
  rw [List.length_append, List.length_append, header.length_bytes, hsign]
  omega

theorem length_of_createInitrd {files : List HostFile} (hsome : files ≠ [])
    (hle : files.length ≤ maxFiles) {image : List Byte}
    (himage : createInitrd (files.map HostFile.argument) = some image) :
    image.length = 3088 + totalSize files := by
  obtain ⟨header, -, -, -, heq⟩ := createInitrd_eq hsome hle
  obtain rfl := Option.some.inj (himage.symm.trans heq)
  rw [length_image, List.length_flatten, List.map_map]
  rfl

/-- On an image `init_initrd` finds the signature and the magic number. -/
theorem initInitrd_image {s : Initrd} {loc : Word} {header : Header} {contents : List Byte}
    (hmagic : header.magic = CreateInitrd.initrdMagic)
    (h : s.mem.Holds loc (signature ++ (header.bytes ++ contents)))
    (hfits : loc.toNat + (3088 + contents.length) ≤ 2 ^ 32) :
    s.initInitrd loc = { s with header := loc + 8, data := loc + 8 + 3080 } ∧
      loc + 8 ≠ 0 ∧ s.mem.Holds (loc + 8) header.bytes ∧
      s.mem.Holds (loc + 8 + 3080) contents := by
  have hlength := length_image header contents
  have hne : loc + 8 ≠ 0 := fun hz => by
    have hval := congrArg BitVec.toNat hz
    rw [BitVec.toNat_add] at hval
    simp at hval
    omega
  have hsignature : strncmp (cstr s.mem loc) initrdSignature 6 = some 0 := by
    have hchars : (0 : Byte) ∉ [0x49#8, 0x4E#8, 0x49#8, 0x54#8, 0x52#8, 0x44#8] := by decide
    have hlen : (signature ++ (header.bytes ++ contents)).length ≤ 2 ^ 32 := by omega
    have hbytes : s.mem.Holds loc ([0x49#8, 0x4E#8, 0x49#8, 0x54#8, 0x52#8, 0x44#8] ++
        0 :: (0 :: (header.bytes ++ contents))) := h
    obtain ⟨hterm, htext⟩ := text_cstr hbytes hchars hlen
    rw [strncmp_eq_zero_iff hterm (by decide), htext]
    rfl
  obtain ⟨-, hrest⟩ := holds_append.mp h
  obtain ⟨hheader, hcontents⟩ := holds_append.mp hrest
  rw [header.length_bytes] at hcontents
  have hread : s.mem.read32 (loc + 8) = Lbos.initrdMagic := by
    obtain ⟨hword, -⟩ := holds_append.mp hheader
    rw [hmagic] at hword
    exact read32_of_holds hword
  refine ⟨?_, hne, hheader, hcontents⟩
  rw [Initrd.initInitrd, if_pos hsignature]
  simp only [if_neg hne, Initrd.magic, hread, ne_eq, not_true_eq_false, if_false]
  rfl

theorem length_le_totalSize {files : List HostFile} {f : HostFile} (hf : f ∈ files) :
    f.2.length ≤ totalSize files := by
  induction files with
  | nil => cases hf
  | cons g files ih =>
    rw [totalSize_cons]
    rcases List.mem_cons.mp hf with rfl | hf
    · exact Nat.le_add_right _ _
    · exact (ih hf).trans (Nat.le_add_left _ _)

/-- On the image of the host program `init_initrd` finds its files. -/
theorem initInitrd_shows {files : List HostFile} (hsome : files ≠ [])
    (hle : files.length ≤ maxFiles)
    (hnames : ∀ f ∈ files, f.name.length ≤ 31) (htotal : totalSize files < 2 ^ 31)
    {image : List Byte} (himage : createInitrd (files.map HostFile.argument) = some image)
    {s : Initrd} {loc : Word} (h : s.mem.Holds loc image)
    (hfits : loc.toNat + image.length ≤ 2 ^ 32) :
    (s.initInitrd loc).Shows files ∧ (s.initInitrd loc).currentFile = s.currentFile ∧
      (s.initInitrd loc).mem = s.mem := by
  obtain ⟨header, hmagic, hnum, hfiles, heq⟩ := createInitrd_eq hsome hle
  obtain rfl := Option.some.inj (himage.symm.trans heq)
  rw [length_image] at hfits
  obtain ⟨hinit, hne, hheader, hcontents⟩ := initInitrd_image hmagic h hfits
  rw [hinit]
  obtain ⟨-, hrest⟩ := holds_append.mp hheader
  obtain ⟨hcount, hrest⟩ := holds_append.mp hrest
  have hfile : ∀ i f, files[i]? = some f →
      s.mem.Holds (loc + 8 + 8 + BitVec.ofNat 32 (48 * i))
        (f.header (BitVec.ofNat 32 (totalSize (files.take i)))).bytes := fun i f hf => by
    have haddr : loc + 8 + BitVec.ofNat 32 4 + BitVec.ofNat 32 4 = loc + 8 + 8 :=
      add_ofNat_add (loc + 8) 4 4
    rw [length_wordBytes, length_wordBytes, haddr, hfiles] at hrest
    refine hrest.flatMap FileHeader.length_bytes ?_
    have hlt : i < files.length := (List.getElem?_eq_some_iff.mp hf).1
    rw [List.getElem?_append_left (by rwa [length_fileHeaders]), getElem?_fileHeaders, hf,
      Nat.zero_add]
    rfl
  have hshow := fun i f hf => shows_file (hnames f (List.mem_of_getElem? hf))
    (zero_mem_baseName f.1.terminated) (hfile i f hf)
  have hsize : ∀ f ∈ files, f.2.length < 2 ^ 31 := fun f hf =>
    Nat.lt_of_le_of_lt (length_le_totalSize hf) htotal
  have hmax : maxFiles = 64 := rfl
  refine ⟨⟨hne, ?_, by omega, fun i f hf => (hshow i f hf).1, fun i f hf => ?_, hsize,
    fun i f hf => ?_⟩, rfl, rfl⟩
  · rw [length_wordBytes, hnum] at hcount
    have hread : s.mem.read32 (loc + 8 + 4) = BitVec.ofNat 32 files.length := read32_of_holds hcount
    show (s.mem.read32 (loc + 8 + 4)).toNat = files.length
    rw [hread, BitVec.toNat_ofNat]
    omega
  · have hlt := hsize f (List.mem_of_getElem? hf)
    show (s.mem.read32 (loc + 8 + 8 + BitVec.ofNat 32 (48 * i) + 32)).toNat = f.2.length
    rw [(hshow i f hf).2.1, BitVec.toNat_ofNat]
    omega
  · show s.mem.Holds (loc + 8 + 3080 +
      s.mem.read32 (loc + 8 + 8 + BitVec.ofNat 32 (48 * i) + 36)) f.2
    rw [(hshow i f hf).2.2]
    have hpart := hcontents.flatten (i := i) (x := f.2) (by rw [List.getElem?_map, hf]; rfl)
    rwa [← List.map_take, List.map_map] at hpart

/-- Through the virtual file system exactly these files can be used, below the root. -/
structure ServesFiles (v : Vfs) (fs : Word → FsOps Initrd) (s : Initrd) (files : List HostFile) :
    Prop where
  opens : ∀ f ∈ files, ∀ path : CString, path.text = slash :: f.name → ∀ fd, ∃ fd',
    v.openFile fs path fd s = (0, fd', s) ∧ fd'.size.toNat = f.2.length ∧
      ∀ sizes : List Word, (∀ r ∈ v.readPieces fs fd' sizes s, r.1 = (r.2.length : Int)) ∧
        ((v.readPieces fs fd' sizes s).map Prod.snd).flatten =
          f.2.take (sizes.map BitVec.toNat).sum
  fails : ∀ path : CString, ∀ q, path.text = slash :: q → q ≠ [] → q ∉ files.map HostFile.name →
    ∀ fd, v.openFile fs path fd s = (-1, fd, s)
  lists : ∀ path : CString, path.text = [slash] → ∀ fd, ∃ fd',
    v.openFile fs path fd s = (0, fd', s) ∧
      ∀ buffers : List (List Byte × Word), files.length < buffers.length →
        (∀ b ∈ buffers, 32 ≤ b.2.toNat ∧ b.2.toNat ≤ b.1.length) →
        v.listNames fs fd' buffers s = some (files.map HostFile.name)

theorem Vfs.Rooted.servesFiles {v : Vfs} {ops : Word} (hv : v.Rooted ops) {fs : Word → FsOps Initrd}
    (hfs : fs ops = initrdOps) {s : Initrd} {files : List HostFile} (h : s.Shows files)
    (hfirst : s.currentFile = 0) (hnames : ∀ f ∈ files, 1 ≤ f.name.length ∧ f.name.length ≤ 31)
    (hdistinct : (files.map HostFile.name).Nodup) : ServesFiles v fs s files := by
  have hne : ∀ f ∈ files, f.name ≠ [] := fun f hf =>
    List.length_pos_iff.mp (hnames f hf).1
  refine ⟨fun f hf path hpath fd => ?_, fun path q hpath hq hnot fd => ?_, fun path hpath fd => ?_⟩
  · obtain ⟨i, hi⟩ := List.mem_iff_getElem?.mp hf
    rw [hv.openFile_initrd hfs hpath, h.open_some hdistinct hne hi hpath]
    refine ⟨_, rfl, h.size i f hi, fun sizes => ?_⟩
    exact (hv.readPieces_initrd hfs h hi sizes rfl rfl).symm
  · rw [hv.openFile_initrd hfs hpath]
    exact h.open_none hpath hq (fun f hf heq => hnot (heq ▸ List.mem_map_of_mem hf)) fd
  · have hroot : strcmp path.bytes [slash, 0] = some 0 := by
      rw [strcmp_eq_zero_iff path.terminated (by decide), ← CString.text, hpath]
      rfl
    rw [hv.openFile_initrd hfs hpath, initrdOpen, if_pos hroot]
    refine ⟨_, rfl, fun buffers hlen hbuffers => ?_⟩
    have hlist : v.listNames fs ⟨0xFFFFFFFF, 0, fsTypeDirectory, 0, fsPermRead⟩ buffers s =
        some ((files.drop s.currentFile.toNat).map HostFile.name) :=
      hv.listNames_initrd hfs (fun f hf => Nat.lt_succ_of_le (hnames f hf).2) rfl hbuffers h
        (by rw [hfirst]; exact Nat.zero_le _) (by rw [hfirst]; exact hlen)
    rwa [hfirst] at hlist

/-- The image that the host program makes of some files, loaded anywhere in memory and initialised,
serves these files at the root. -/
theorem image_round_trip {files : List HostFile} (hsome : files ≠ []) (hle : files.length ≤ maxFiles)
    (hnames : ∀ f ∈ files, 1 ≤ f.name.length ∧ f.name.length ≤ 31)
    (hdistinct : (files.map HostFile.name).Nodup) (htotal : totalSize files < 2 ^ 31) :
    ∃ image, createInitrd (files.map HostFile.argument) = some image ∧
      ∀ (s : Initrd) (loc : Word), s.currentFile = 0 → s.mem.Holds loc image →
        loc.toNat + image.length ≤ 2 ^ 32 →
        ∀ (v : Vfs) (root device : CString) (ops privateData : Word) (fs : Word → FsOps Initrd),
          root.text = [slash] → fs ops = initrdOps →
          ServesFiles (v.initVfs.mountFs root device ops privateData).2 fs (s.initInitrd loc)
            files := by
  obtain ⟨header, -, -, -, himage⟩ := createInitrd_eq hsome hle
  refine ⟨_, himage, fun s loc hfirst hholds hfits v root device ops privateData fs hroot hfs => ?_⟩
  obtain ⟨hshows, hcurrent, -⟩ := initInitrd_shows hsome hle (fun f hf => (hnames f hf).2) htotal himage
    hholds hfits
  exact (v.rooted_mountFs hroot device ops privateData).servesFiles hfs hshows
    (hcurrent.trans hfirst) hnames hdistinct

/-- A file in a directory, and an empty one. -/
def sampleFiles : List HostFile := [(.ofText [0x64, slash, 0x61], [1, 2, 3]), (.ofText [0x62], [])]

theorem image_round_trip_sample :
    ∃ image m, createInitrd (sampleFiles.map HostFile.argument) = some image ∧
      m.Holds 0x200000 image ∧
      ServesFiles (Vfs.zero.initVfs.mountFs (.ofText [slash]) (.ofText []) 0 0).2
        (fun _ => initrdOps) ((⟨m, 0, 0, 0, 0, 0, 0⟩ : Initrd).initInitrd 0x200000) sampleFiles := by
  obtain ⟨image, himage, hserves⟩ := image_round_trip (show sampleFiles ≠ [] by decide)
    (by decide) (by decide) (by decide) (by decide)
  have hlength := length_of_createInitrd (by decide) (by decide) himage
  obtain ⟨m, hm⟩ := exists_holds 0x200000 image (by rw [hlength]; decide)
  exact ⟨image, m, himage, hm, hserves _ _ rfl hm (by rw [hlength]; decide) _ _ _ _ _ _ rfl rfl⟩

end Lbos

import Lbos.Fs.Dispatch
import Lbos.Fs.Initrd
import Lbos.Fs.MountResolution
import Lbos.Tools.CreateInitrd

/-! The ramdisk as the programs see it through the virtual file system, when it is mounted at the
root: which paths can be opened, what reads and listings give. -/

namespace Lbos

open Lib Mem CreateInitrd

/-! ### The initialised ramdisk -/

/-- A string in memory, with what follows its terminator. -/
theorem text_cstr {m : Mem} {p : Word} {t rest : List Byte} (h : m.Holds p (t ++ 0 :: rest))
    (ht : 0 ∉ t) (hlen : (t ++ 0 :: rest).length ≤ 2 ^ 32) :
    0 ∈ cstr m p ∧ text (cstr m p) = t := by
  obtain ⟨k, hk⟩ := Nat.exists_eq_add_of_le hlen
  have hcstr : cstr m p = t ++ 0 :: (rest ++ m.bytes (p + BitVec.ofNat 32 (t ++ 0 :: rest).length) k) := by
    rw [cstr, hk, bytes_add, h.bytes_eq rfl, List.append_assoc, List.cons_append]
  rw [hcstr]
  exact ⟨List.mem_append_right _ List.mem_cons_self, text_append ht _⟩

/-- The ramdisk has these files, in this order. -/
structure Initrd.Shows (s : Initrd) (files : List HostFile) : Prop where
  header_ne : s.header ≠ 0
  numFiles : s.numFiles.toNat = files.length
  length_lt : files.length < 2 ^ 31
  name : ∀ i f, files[i]? = some f → 0 ∈ cstr s.mem (s.file i) ∧
    text (cstr s.mem (s.file i)) = f.name
  size : ∀ i f, files[i]? = some f → (s.fileSize i).toNat = f.2.length
  size_lt : ∀ f ∈ files, f.2.length < 2 ^ 31
  contents : ∀ i f, files[i]? = some f → s.mem.Holds (s.data + s.fileOffset i) f.2

/-- A path below the root. -/
theorem CString.tail_text {path : CString} {q : List Byte} (h : path.text = slash :: q) :
    ∃ rest, path.bytes = slash :: rest ∧ 0 ∈ rest ∧ Lbos.text rest = q := by
  obtain ⟨rest, hrest⟩ := eq_text_append path.terminated
  have hq : 0 ∉ q := fun hz => zero_notMem_text path.bytes (by
    show 0 ∈ path.text
    rw [h]
    exact List.mem_cons_of_mem _ hz)
  have hbytes : path.bytes = slash :: (q ++ 0 :: rest) := by
    rw [hrest, ← CString.text, h]
    rfl
  exact ⟨q ++ 0 :: rest, hbytes, List.mem_append_right _ List.mem_cons_self, text_append hq rest⟩

namespace Initrd

variable {s : Initrd} {files : List HostFile}

/-! ### Opening -/

section Open

variable (h : s.Shows files)
include h

theorem Shows.strcmp_name {i : Nat} {f : HostFile} (hf : files[i]? = some f) {t : List Byte}
    (ht : 0 ∈ t) : strcmp (cstr s.mem (s.file i)) t = some 0 ↔ f.name = text t := by
  obtain ⟨hterm, hname⟩ := h.name i f hf
  rw [strcmp_eq_zero_iff hterm ht, hname]

theorem Shows.findFile_eq {path : CString} {rest : List Byte} (hbytes : path.bytes = slash :: rest) :
    s.findFile path =
      search (fun i => strcmp (cstr s.mem (s.file i)) rest = some 0) files.length 0 := by
  rw [findFile, if_neg h.header_ne, hbytes, h.numFiles]
  rfl

theorem Shows.findFile_some (hdistinct : (files.map HostFile.name).Nodup) {i : Nat} {f : HostFile}
    (hf : files[i]? = some f) {path : CString} (hpath : path.text = slash :: f.name) :
    s.findFile path = some i := by
  obtain ⟨rest, hbytes, hterm, htext⟩ := CString.tail_text hpath
  obtain ⟨hlt, rfl⟩ := List.getElem?_eq_some_iff.mp hf
  rw [h.findFile_eq hbytes]
  refine search_eq_some (Nat.zero_le i) (by omega) (decide_eq_true ?_) fun j _ hj =>
    decide_eq_false fun hcmp => ?_
  · rw [h.strcmp_name hf hterm, htext]
  · have hjlt : j < files.length := Nat.lt_trans hj hlt
    rw [h.strcmp_name (List.getElem?_eq_getElem hjlt) hterm, htext] at hcmp
    refine List.nodup_iff_getElem?_ne_getElem?.mp hdistinct j i hj (by rwa [List.length_map]) ?_
    rw [List.getElem?_map, List.getElem?_map, hf, List.getElem?_eq_getElem hjlt, Option.map_some,
      Option.map_some, hcmp]

theorem Shows.findFile_none {path : CString} {q : List Byte} (hpath : path.text = slash :: q)
    (hq : ∀ f ∈ files, f.name ≠ q) : s.findFile path = none := by
  obtain ⟨rest, hbytes, hterm, htext⟩ := CString.tail_text hpath
  rw [h.findFile_eq hbytes, search_eq_none_iff]
  intro j _ hj
  have hjlt : j < files.length := by omega
  refine decide_eq_false fun hcmp => ?_
  rw [h.strcmp_name (List.getElem?_eq_getElem hjlt) hterm, htext] at hcmp
  exact hq _ (List.getElem_mem hjlt) hcmp

/-- A file is opened by its name below the root. -/
theorem Shows.open_some (hdistinct : (files.map HostFile.name).Nodup)
    (hnames : ∀ f ∈ files, f.name ≠ []) {i : Nat} {f : HostFile} (hf : files[i]? = some f)
    {path : CString} (hpath : path.text = slash :: f.name) (fd : FsDescriptor) :
    initrdOpen path fd s =
      (0, ⟨BitVec.ofNat 32 i, 0, s.fileType i, s.fileSize i, s.filePermissions i⟩, s) := by
  have hroot : strcmp path.bytes [slash, 0] ≠ some 0 := fun hcmp => by
    rw [strcmp_eq_zero_iff path.terminated (by decide), ← CString.text, hpath] at hcmp
    exact hnames f (List.mem_of_getElem? hf) (List.cons.inj hcmp).2
  rw [initrdOpen, if_neg hroot, h.findFile_some hdistinct hf hpath]

/-- Another name below the root cannot be opened. -/
theorem Shows.open_none {path : CString} {q : List Byte} (hpath : path.text = slash :: q)
    (hne : q ≠ []) (hq : ∀ f ∈ files, f.name ≠ q) (fd : FsDescriptor) :
    initrdOpen path fd s = (-1, fd, s) := by
  have hroot : strcmp path.bytes [slash, 0] ≠ some 0 := fun hcmp => by
    rw [strcmp_eq_zero_iff path.terminated (by decide), ← CString.text, hpath] at hcmp
    exact hne (List.cons.inj hcmp).2
  rw [initrdOpen, if_neg hroot, h.findFile_none hpath hq]

end Open

/-! ### Reads -/

section Read

variable (h : s.Shows files) {i : Nat} {f : HostFile} (hf : files[i]? = some f)
include h hf

theorem Shows.ofNat_lt : (BitVec.ofNat 32 i).toNat = i ∧ BitVec.ofNat 32 i < s.numFiles := by
  have hlt := (List.getElem?_eq_some_iff.mp hf).1
  have hlength := h.length_lt
  have hval : (BitVec.ofNat 32 i).toNat = i := by
    rw [BitVec.toNat_ofNat]
    omega
  refine ⟨hval, ?_⟩
  rwa [BitVec.lt_def, hval, h.numFiles]

/-- A read gives the next bytes of the file, at most as many as are asked for, and moves behind
them. -/
theorem Shows.read_step {fd : FsDescriptor} (hinode : fd.inode = BitVec.ofNat 32 i)
    {rest : List Byte} (hrest : f.2.drop fd.position.toNat = rest) (size : Word) :
    ∃ fd' : FsDescriptor, initrdRead fd size s =
        (((rest.take size.toNat).length : Int), rest.take size.toNat, fd', s) ∧
      fd'.inode = BitVec.ofNat 32 i ∧ f.2.drop fd'.position.toNat = rest.drop size.toNat := by
  obtain ⟨hval, hcount⟩ := h.ofNat_lt hf
  have hsize := h.size i f hf
  have hlength := h.size_lt f (List.mem_of_getElem? hf)
  obtain ⟨toRead, hmin, hread⟩ := initrdRead_file (hinode ▸ hcount) size
  rw [hinode, hval] at hmin hread
  have hlen : rest.length = f.2.length - fd.position.toNat := by rw [← hrest, List.length_drop]
  rw [hsize, ← hlen] at hmin
  have htake : rest.take toRead.toNat = rest.take size.toNat := by
    rw [hmin]
    exact List.take_eq_take_min.symm
  have hdrop : rest.drop toRead.toNat = rest.drop size.toNat := by
    rw [hmin]
    exact List.drop_eq_drop_min.symm
  have hbytes : s.mem.bytes (s.data + s.fileOffset i + fd.position) toRead.toNat =
      rest.take size.toNat := by
    by_cases hin : fd.position.toNat ≤ f.2.length
    · have hpart := (h.contents i f hf).drop_take (i := fd.position.toNat) (n := toRead.toNat)
        (by omega)
      rwa [BitVec.ofNat_toNat, BitVec.setWidth_eq, hrest, htake] at hpart
    · -- past the end nothing is left to read
      have hnil : rest = [] := List.eq_nil_of_length_eq_zero (by omega)
      have hzero : toRead.toNat = 0 := by omega
      rw [hzero, hnil, List.take_nil]
      rfl
  have hint : toRead.toInt = ((rest.take size.toNat).length : Int) := by
    rw [← hbytes, length_bytes, BitVec.toInt_eq_toNat_of_lt (by omega)]
  refine ⟨{ fd with position := fd.position + toRead }, ?_, hinode, ?_⟩
  · rw [hread, hint, hbytes, hinode]
  · have hposition := fd.position.isLt
    have hmoved : (fd.position + toRead).toNat = fd.position.toNat + toRead.toNat := by
      rw [BitVec.toNat_add, Nat.mod_eq_of_lt (by omega)]
    show f.2.drop (fd.position + toRead).toNat = _
    rw [hmoved, ← List.drop_drop, hrest, hdrop]

end Read

/-! ### The listing -/

theorem Shows.setCurrentFile (h : s.Shows files) (c : Word) :
    ({ s with currentFile := c } : Initrd).Shows files :=
  ⟨h.header_ne, h.numFiles, h.length_lt, h.name, h.size, h.size_lt, h.contents⟩

/-- A name goes to a buffer that has room for it. -/
theorem Shows.readdir_some (h : s.Shows files) {f : HostFile}
    (hf : files[s.currentFile.toNat]? = some f) {fd : FsDescriptor}
    (htype : fd.type = fsTypeDirectory) {name : List Byte} {size : Word}
    (hroom : f.name.length < size.toNat) (hsize : size.toNat ≤ name.length) :
    ∃ name', initrdReaddir fd name size s =
        (1, name', fd, { s with currentFile := s.currentFile + 1 }) ∧ text name' = f.name := by
  obtain ⟨hterm, hname⟩ := h.name _ f hf
  have hlt := (List.getElem?_eq_some_iff.mp hf).1
  have hcount : (size - 1).toNat = size.toNat - 1 :=
    BitVec.toNat_sub_of_le (by rw [BitVec.le_def]; exact Nat.one_le_of_lt hroom)
  have hmore : ¬s.numFiles ≤ s.currentFile := by
    rw [BitVec.le_def, h.numFiles]
    omega
  rw [initrdReaddir, if_pos htype, if_neg hmore]
  refine ⟨_, rfl, ?_⟩
  rw [text_strncpy name hterm (by omega), hname]
  exact List.take_of_length_le (by omega)

theorem Shows.readdir_end (h : s.Shows files) (hend : s.currentFile.toNat = files.length)
    {fd : FsDescriptor} (htype : fd.type = fsTypeDirectory) (name : List Byte) (size : Word) :
    initrdReaddir fd name size s = (0, name, fd, { s with currentFile := 0 }) := by
  have hdone : s.numFiles ≤ s.currentFile := by
    rw [BitVec.le_def, h.numFiles, hend]
  rw [initrdReaddir, if_pos htype, if_pos hdone]

end Initrd

/-! ### The virtual file system -/

namespace Vfs

theorem maxMountPoints_pos : 0 < maxMountPoints := by decide

abbrev firstMount : MountIndex := ⟨0, maxMountPoints_pos⟩

/-- The only file system is the one at this path. -/
structure Only (v : Vfs) (m : List Byte) (ops : Word) : Prop where
  num : v.numMountPoints = 1
  terminated : 0 ∈ v.path firstMount
  path : text (v.path firstMount) = m
  ops : (v.mountPoints firstMount).ops = ops

/-- The first mount. -/
theorem only_mountFs {v : Vfs} (hv : v.numMountPoints = 0) {m : CString}
    (hm : m.text.length < maxPathLen) (device : CString) (ops privateData : Word) :
    Only (v.mountFs m device ops privateData).2 m.text ops := by
  have hnone : v.findPath m = none := by
    cases hfind : v.findPath m with
    | none => rfl
    | some i => exact absurd (hv ▸ findPath_lt hfind) (Nat.not_lt_zero _)
  obtain ⟨v', idx, hr, h⟩ := mountFs_accepted (hv ▸ maxMountPoints_pos) hnone device ops privateData
  rw [hr]
  obtain rfl : idx = firstMount := Fin.ext (h.idx_eq.trans hv)
  have hmount : v'.mountPoints firstMount = ⟨some firstMount, some firstMount, ops, privateData⟩ := by
    rw [h.mountPoints, Function.update_self]
  have hbuffer : v'.pathBuffers firstMount = (v.pathBuffers firstMount).fill m := by
    rw [h.pathBuffers, Function.update_self]
  have hpath : v'.path firstMount = (v'.pathBuffers firstMount).bytes := by
    rw [Vfs.path, hmount]
    rfl
  refine ⟨by rw [h.num, hv], hpath ▸ (v'.pathBuffers firstMount).terminated, ?_,
    congrArg MountPoint.ops hmount⟩
  rw [hpath, hbuffer]
  exact PathBuffer.text_fill_short _ hm

section Only

variable {v : Vfs} {m : List Byte} {ops : Word} (h : v.Only m ops)
include h

theorem Only.entry_eq {e : MountEntry} (he : e ∈ v.live) : e.path = m ∧ e.ops = ops := by
  obtain ⟨i, hi, rfl⟩ := mem_live.mp he
  obtain rfl : i = firstMount := Fin.ext (by rw [h.num] at hi; exact Nat.lt_one_iff.mp hi)
  exact ⟨h.path, h.ops⟩

theorem Only.distinct (hm : m ≠ []) : v.Distinct := by
  refine ⟨fun e he => (h.entry_eq he).1 ▸ hm, ?_⟩
  obtain ⟨e, he⟩ := List.length_eq_one_iff.mp (length_live.trans h.num)
  rw [he]
  exact List.nodup_singleton _

/-- A path at the mount point or below it leads there. -/
theorem Only.pathOps {path : CString} (hm : m ≠ [])
    (hmatch : ∀ e : MountEntry, e.path = m → e.Matches path.text) : v.pathOps path = some ops := by
  have hlive : v.entry firstMount ∈ v.live := mem_live.mpr ⟨_, by rw [h.num]; decide, rfl⟩
  cases hfind : v.findMountPoint path with
  | none => exact absurd (hmatch _ h.path) ((h.distinct hm).findMountPoint_none.mp hfind _ hlive)
  | some i =>
    rw [Vfs.pathOps, hfind]
    exact congrArg some (h.entry_eq ((h.distinct hm).findMountPoint_some hfind).1).2

theorem Only.openFile_initrd {path : CString} (hm : m ≠ [])
    (hmatch : ∀ e : MountEntry, e.path = m → e.Matches path.text) {fs : Word → FsOps Initrd}
    (hfs : fs ops = initrdOps) (fd : FsDescriptor) (s : Initrd) :
    v.openFile fs path fd s = initrdOpen path fd s := by
  rw [openFile, h.pathOps hm hmatch, dispatch, Option.bind_some, hfs]
  rfl

end Only

/-- The only file system is the one at the root. -/
abbrev Rooted (v : Vfs) (ops : Word) : Prop := v.Only [slash] ops

theorem rooted_mountFs (v : Vfs) {root : CString} (hroot : root.text = [slash]) (device : CString)
    (ops privateData : Word) :
    Rooted (v.initVfs.mountFs root device ops privateData).2 ops := by
  have hshort : root.text.length < maxPathLen := by
    rw [hroot]
    decide
  have h := only_mountFs (show v.initVfs.numMountPoints = 0 from rfl) hshort device ops privateData
  rwa [hroot] at h

section Rooted

variable {v : Vfs} {ops : Word} (h : v.Rooted ops)
include h

theorem Rooted.descriptorOps (fd : FsDescriptor) : v.descriptorOps fd = some ops := by
  rw [descriptorOps_eq (by rw [h.num]; decide), ← h.ops]

/-- Every absolute path leads to the root. -/
theorem Rooted.pathOps {path : CString} {q : List Byte} (hpath : path.text = slash :: q) :
    v.pathOps path = some ops :=
  Only.pathOps h (List.cons_ne_nil _ _) fun _ he => .inl ⟨he, by rw [hpath, List.head?_cons]⟩

end Rooted

section Uses

variable {σ : Type} (v : Vfs) (fs : Word → FsOps σ)

/-- What reads of some sizes give, one after the other: the results and the bytes. -/
def readPieces (fd : FsDescriptor) : List Word → σ → List (Int × List Byte)
  | [], _ => []
  | size :: sizes, s =>
    let (r, bytes, fd, s) := v.readFile fs fd size s
    (r, bytes) :: readPieces fd sizes s

/-- The names that `read_directory` gives, called with one buffer and its size after the other until
there is no name. -/
def listNames (fd : FsDescriptor) : List (List Byte × Word) → σ → Option (List (List Byte))
  | [], _ => none
  | (name, size) :: buffers, s =>
    let (r, name, fd, s) := v.readDirectory fs fd name size s
    if 0 < r then (listNames fd buffers s).map (text name :: ·) else some []

end Uses

section Initrd

variable {v : Vfs} {ops : Word} (hv : v.Rooted ops) {fs : Word → FsOps Initrd}
variable (hfs : fs ops = initrdOps)
include hv hfs

theorem Rooted.openFile_initrd {path : CString} {q : List Byte} (hpath : path.text = slash :: q)
    (fd : FsDescriptor) (s : Initrd) : v.openFile fs path fd s = initrdOpen path fd s := by
  rw [openFile, hv.pathOps hpath, dispatch, Option.bind_some, hfs]
  rfl

theorem Rooted.readFile_initrd (fd : FsDescriptor) (size : Word) (s : Initrd) :
    v.readFile fs fd size s = initrdRead fd size s := by
  rw [readFile, hv.descriptorOps, dispatch, Option.bind_some, hfs]
  rfl

theorem Rooted.readDirectory_initrd (fd : FsDescriptor) (name : List Byte) (size : Word)
    (s : Initrd) : v.readDirectory fs fd name size s = initrdReaddir fd name size s := by
  rw [readDirectory, hv.descriptorOps, dispatch, Option.bind_some, hfs]
  rfl

/-- However the reads are cut, together they give the file's bytes in order. -/
theorem Rooted.readPieces_initrd {s : Initrd} {files : List HostFile} (h : s.Shows files) {i : Nat}
    {f : HostFile} (hf : files[i]? = some f) (sizes : List Word) {fd : FsDescriptor}
    (hinode : fd.inode = BitVec.ofNat 32 i) {rest : List Byte}
    (hrest : f.2.drop fd.position.toNat = rest) :
    ((v.readPieces fs fd sizes s).map Prod.snd).flatten =
        rest.take (sizes.map BitVec.toNat).sum ∧
      ∀ r ∈ v.readPieces fs fd sizes s, r.1 = (r.2.length : Int) := by
  induction sizes generalizing fd rest with
  | nil =>
    rw [readPieces, List.map_nil, List.map_nil, List.sum_nil, List.take_zero]
    exact ⟨rfl, fun r hr => absurd hr List.not_mem_nil⟩
  | cons size sizes ih =>
    obtain ⟨fd', hread, hinode', hrest'⟩ := h.read_step hf hinode hrest size
    obtain ⟨hbytes, hresults⟩ := ih hinode' hrest'
    have hstep : v.readPieces fs fd (size :: sizes) s =
        (((rest.take size.toNat).length : Int), rest.take size.toNat) ::
          v.readPieces fs fd' sizes s := by
      rw [readPieces, hv.readFile_initrd hfs, hread]
    rw [hstep]
    constructor
    · rw [List.map_cons, List.flatten_cons, hbytes, List.map_cons, List.sum_cons, List.take_add]
    · intro r hr
      rcases List.mem_cons.mp hr with rfl | hr
      · rfl
      · exact hresults r hr

/-- A listing gives the names from the position on. -/
theorem Rooted.listNames_initrd {files : List HostFile} (hnames : ∀ f ∈ files, f.name.length < 32)
    {fd : FsDescriptor} (htype : fd.type = fsTypeDirectory) {buffers : List (List Byte × Word)}
    (hbuffers : ∀ b ∈ buffers, 32 ≤ b.2.toNat ∧ b.2.toNat ≤ b.1.length) {s : Initrd}
    (h : s.Shows files) (hle : s.currentFile.toNat ≤ files.length)
    (hlen : files.length - s.currentFile.toNat < buffers.length) :
    v.listNames fs fd buffers s =
      some ((files.drop s.currentFile.toNat).map HostFile.name) := by
  induction buffers generalizing s with
  | nil => exact absurd hlen (Nat.not_lt_zero _)
  | cons b buffers ih =>
    obtain ⟨name, size⟩ := b
    obtain ⟨hsize, hroom⟩ := hbuffers (name, size) List.mem_cons_self
    rw [listNames, hv.readDirectory_initrd hfs]
    rcases Nat.eq_or_lt_of_le hle with hend | hlt
    · rw [h.readdir_end hend htype, hend, List.drop_length]
      rfl
    · have hf := List.getElem?_eq_getElem hlt
      obtain ⟨name', hread, htext⟩ := h.readdir_some hf htype
        (Nat.lt_of_lt_of_le (hnames _ (List.getElem_mem hlt)) hsize) hroom
      have hlength := h.length_lt
      have hnext : (s.currentFile + 1).toNat = s.currentFile.toNat + 1 := by
        rw [BitVec.toNat_add, Nat.mod_eq_of_lt (by simp; omega)]
        rfl
      have hrest := ih (fun b hb => hbuffers b (List.mem_cons_of_mem _ hb))
        (h.setCurrentFile (s.currentFile + 1)) (by simp only [hnext]; omega) (by
          rw [List.length_cons] at hlen
          simp only [hnext]
          omega)
      simp only [hnext] at hrest
      rw [hread]
      simp only [hrest, htext, Int.zero_lt_one, if_true, Option.map_some]
      rw [List.drop_eq_getElem_cons hlt, List.map_cons]

end Initrd

end Vfs

end Lbos

import Lbos.Fs.Listing
import Lbos.Fs.MountedInitrd
import Lbos.Lib.ReadOnlyFs

/-! The ramdisk at the root, as the users of the virtual file system see it: any number of
descriptors, and calls on them in any order. -/

namespace Lbos

open Lib Mem CreateInitrd

/-- A call of the virtual file system for a path or on a descriptor. -/
inductive FileOp where
  | openFile (path : CString)
  | closeFile
  | readFile (size : Word)
  | writeFile (buffer : List Byte) (size : Word)
  | seekFile (offset : Word)
  | readDirectory (name : List Byte) (size : Word)

namespace FileOp

/-- The buffer for a name has as many bytes as its caller says, and one at least. -/
def HasBuffer : FileOp → Prop
  | readDirectory name size => 0 < size.toNat ∧ size.toNat ≤ name.length
  | _ => True

/-- Where a path leads: only absolute paths lead anywhere. -/
def target : List Byte → ReadOnlyFs.Target Byte
  | [] => .nothing
  | c :: name => if c = slash then (if name = [] then .directory else .file name) else .nothing

theorem target_relative {path : List Byte} (h : path.head? ≠ some slash) :
    target path = .nothing := by
  cases path with
  | nil => rfl
  | cons c name =>
    rw [target, if_neg]
    rintro rfl
    exact h rfl

/-- What a call is to do. -/
def op : FileOp → ReadOnlyFs.Op Byte
  | openFile path => .open_ (target path.text)
  | closeFile => .close
  | readFile size => .read size.toNat
  | writeFile _ _ => .write
  | seekFile offset => .seek offset.toNat
  | readDirectory _ size => .list (size.toNat - 1)

/-- What a call is to return, with the bytes that it gives. -/
def expected : ReadOnlyFs.Reply Byte Byte → Int × List Byte
  | .invalid => (0, [])
  | .done => (0, [])
  | .refused => (-1, [])
  | .elements bytes => (bytes.length, bytes)
  | .entry name => (1, name)
  | .finished => (0, [])

end FileOp

/-- The calls on numbered descriptors. -/
def Vfs.service {σ : Type} (v : Vfs) (fs : Word → FsOps σ) :
    Service (Nat × FileOp) Nat FsDescriptor σ (Int × List Byte) where
  handle := Prod.fst
  step call fd s :=
    match call.2 with
    | .openFile path =>
      let (r, fd, s) := v.openFile fs path fd s
      ((r, []), fd, s)
    | .closeFile =>
      let (r, fd, s) := v.closeFile fs fd s
      ((r, []), fd, s)
    | .readFile size =>
      let (r, bytes, fd, s) := v.readFile fs fd size s
      ((r, bytes), fd, s)
    | .writeFile buffer size =>
      let (r, fd, s) := v.writeFile fs fd buffer size s
      ((r, []), fd, s)
    | .seekFile offset =>
      let (r, fd, s) := v.seekFile fs fd offset s
      ((r, []), fd, s)
    | .readDirectory name size =>
      let (r, name, fd, s) := v.readDirectory fs fd name size s
      (dirReply r name, fd, s)

/-! ### The file system at the root -/

namespace Vfs

section Rooted

variable {v : Vfs} {ops : Word} (h : v.Rooted ops)
include h

/-- No other path leads anywhere. -/
theorem Rooted.pathOps_relative {path : CString} (hpath : path.text.head? ≠ some slash) :
    v.pathOps path = none := by
  have hnone : v.findMountPoint path = none := by
    rw [(h.distinct (List.cons_ne_nil _ _)).findMountPoint_none]
    rintro e he hmatch
    obtain ⟨hroot, -⟩ := h.entry_eq he
    rcases hmatch with ⟨-, hslash⟩ | heq | ⟨q, hq⟩
    · exact hpath hslash
    · simp [heq, hroot] at hpath
    · simp [← hq, hroot] at hpath
  rw [Vfs.pathOps, hnone, Option.map_none]

end Rooted

variable {v : Vfs} {ops : Word} (hv : v.Rooted ops) {fs : Word → FsOps Initrd}
variable (hfs : fs ops = initrdOps)
include hv hfs

theorem Rooted.closeFile_initrd (fd : FsDescriptor) (s : Initrd) :
    v.closeFile fs fd s = (0, fd, s) := by
  rw [closeFile, hv.descriptorOps, dispatch, Option.bind_some, hfs]
  rfl

theorem Rooted.writeFile_initrd (fd : FsDescriptor) (buffer : List Byte) (size : Word)
    (s : Initrd) : v.writeFile fs fd buffer size s = (-1, fd, s) := by
  rw [writeFile, hv.descriptorOps, dispatch, Option.bind_some, hfs]
  rfl

theorem Rooted.seekFile_initrd (fd : FsDescriptor) (offset : Word) (s : Initrd) :
    v.seekFile fs fd offset s = initrdSeek fd offset s := by
  rw [seekFile, hv.descriptorOps, dispatch, Option.bind_some, hfs]
  rfl

end Vfs

/-! ### As a file system that is only read -/

namespace Initrd

variable {s : Initrd} {files : List HostFile}

/-- The files by their names. -/
def named (files : List HostFile) : List (List Byte × List Byte) := files.map fun f => (f.name, f.2)

/-- A name is found at the first file that has it. -/
theorem Shows.findFile_findIdx? (h : s.Shows files) {path : CString} {q : List Byte}
    (hpath : path.text = slash :: q) :
    s.findFile path = (named files).findIdx? (·.1 = q) := by
  obtain ⟨rest, hbytes, hterm, htext⟩ := CString.tail_text hpath
  rw [h.findFile_eq hbytes, named, List.findIdx?_map]
  rw [search_eq_findIdx? (q := fun f => f.name = q)]
  · simp [Function.comp_def]
  · intro i f hf
    rw [Nat.zero_add, decide_eq_decide, h.strcmp_name hf hterm, htext]

/-- How a descriptor stands for a handle. -/
def Value (s : Initrd) (fd : FsDescriptor) : ReadOnlyFs.Handle Byte → Prop
  | .closed => True
  | .file stream => s.Reads fd stream ∧ fd.type ≠ fsTypeDirectory
  | .directory => fd.inode = 0xFFFFFFFF ∧ fd.type = fsTypeDirectory

theorem Value.setCurrentFile {fd : FsDescriptor} {handle : ReadOnlyFs.Handle Byte}
    (h : s.Value fd handle) (c : Word) : ({ s with currentFile := c } : Initrd).Value fd handle := by
  cases handle with
  | closed => trivial
  | file stream => exact ⟨⟨h.1.inode_lt, h.1.size_lt, h.1.contents, h.1.position⟩, h.2⟩
  | directory => exact h

/-- The image with the listing at a place. -/
def At (image : Initrd) (files : List HostFile) (s : Initrd) (place : Nat) : Prop :=
  s = { image with currentFile := BitVec.ofNat 32 place } ∧ place ≤ files.length

/-- The outcome of a call is what it is to be, unless nothing is promised of it. -/
def Answers (image : Initrd) (files : List HostFile) (r : (Int × List Byte) × FsDescriptor × Initrd)
    (r' : ReadOnlyFs.Reply Byte Byte × ReadOnlyFs.Handle Byte × Nat) : Prop :=
  r'.1 ≠ .invalid →
    r.1 = FileOp.expected r'.1 ∧ r.2.2.Value r.2.1 r'.2.1 ∧ image.At files r.2.2 r'.2.2

theorem Shows.fileBytes (h : s.Shows files) {i : Nat} {f : HostFile} (hf : files[i]? = some f) :
    s.fileBytes i = f.2 := by
  rw [Initrd.fileBytes, (h.contents i f hf).bytes_eq (h.size i f hf)]

/-- An opened file is a stream over its bytes. -/
theorem Shows.open_value (h : s.Shows files)
    (htype : ∀ i < files.length, s.fileType i ≠ fsTypeDirectory) {path : CString} {q : List Byte}
    (hpath : path.text = slash :: q) (hq : q ≠ []) {f : List Byte × List Byte}
    (hfind : (named files).find? (·.1 = q) = some f) (fd : FsDescriptor) :
    ∃ fd', initrdOpen path fd s = (0, fd', s) ∧ s.Value fd' (.file (.start f.2)) := by
  have hroot : ¬path.IsRoot := by simp [isRoot_iff, hpath, hq]
  rw [List.find?_eq_bind_findIdx?_getElem?, Option.bind_eq_some_iff] at hfind
  obtain ⟨i, hi, hfile⟩ := hfind
  rw [named, List.getElem?_map, Option.map_eq_some_iff] at hfile
  obtain ⟨g, hg, rfl⟩ := hfile
  obtain ⟨hval, hlt⟩ := h.ofNat_lt hg
  refine ⟨_, open_found hroot ((h.findFile_findIdx? hpath).trans hi) fd, ?_, ?_⟩
  · refine ⟨hlt, ?_, ?_, rfl⟩
    · simpa [hval, h.size i g hg] using h.size_lt g (List.mem_of_getElem? hg)
    · simp [hval, h.fileBytes hg, Stream.start]
  · exact htype i (List.getElem?_eq_some_iff.mp hg).1

theorem Shows.open_missing (h : s.Shows files) {path : CString} {q : List Byte}
    (hpath : path.text = slash :: q) (hq : q ≠ []) (hfind : (named files).find? (·.1 = q) = none)
    (fd : FsDescriptor) : initrdOpen path fd s = (-1, fd, s) := by
  refine h.open_none hpath hq (fun f hf hname => ?_) fd
  simp only [named, List.find?_eq_none, List.mem_map, forall_exists_index, and_imp] at hfind
  exact hfind _ f hf rfl (decide_eq_true hname)

/-- The descriptor of the root is at no place. -/
theorem seek_root {d : FsDescriptor} (hinode : d.inode = 0xFFFFFFFF) (offset : Word) :
    initrdSeek d offset s = (-1, d, s) := by
  rw [initrdSeek, hinode, if_pos (BitVec.not_lt.mp s.not_root_lt)]

theorem expected_ofStream (r : Stream.Result Byte) :
    FileOp.expected (.ofStream r) = StreamCall.expected r := by
  cases r <;> rfl

/-- Reads and seeks on an open file. -/
theorem stream_answers {image : Initrd} {fd : FsDescriptor} {stream : Stream Byte} {place : Nat}
    (hvalue : s.Value fd (.file stream)) (hat : image.At files s place) (call : StreamCall) :
    image.Answers files (call.perform fd s)
      (.ofStream (stream.step call.op).1, .file (stream.step call.op).2, place) := by
  intro _
  rw [hvalue.1.perform call, expected_ofStream]
  exact ⟨rfl, ⟨hvalue.1.move (stream.step_contents call.op), hvalue.2⟩, hat⟩

/-- The next name, as far as the buffer has room for it. -/
theorem Shows.readdir_next (h : s.Shows files) {f : HostFile}
    (hf : files[s.currentFile.toNat]? = some f) {fd : FsDescriptor}
    (htype : fd.type = fsTypeDirectory) {name : List Byte} {size : Word}
    (hbuffer : (FileOp.readDirectory name size).HasBuffer) :
    ∃ name', initrdReaddir fd name size s =
        (1, name', fd, { s with currentFile := s.currentFile + 1 }) ∧
      text name' = f.name.take (size.toNat - 1) := by
  obtain ⟨hpos, hroom⟩ := hbuffer
  obtain ⟨hterm, hname⟩ := h.name _ f hf
  have hlt := (List.getElem?_eq_some_iff.mp hf).1
  have hcount : (size - 1).toNat = size.toNat - 1 :=
    BitVec.toNat_sub_of_le (by rw [BitVec.le_def]; exact hpos)
  have hmore : ¬s.numFiles ≤ s.currentFile := by
    rw [BitVec.le_def, h.numFiles]
    omega
  rw [initrdReaddir, if_pos htype, if_neg hmore]
  refine ⟨_, rfl, ?_⟩
  rw [text_strncpy name hterm (by omega), hname, hcount]

section Calls

variable {v : Vfs} {ops : Word} (hv : v.Rooted ops) {fs : Word → FsOps Initrd}
variable (hfs : fs ops = initrdOps) (h : s.Shows files) (k : Nat)
variable {image : Initrd} {fd : FsDescriptor} {handle : ReadOnlyFs.Handle Byte} {place : Nat}
variable (hvalue : s.Value fd handle) (hat : image.At files s place)
include hv hvalue hat

theorem openFile_answers (hfs : fs ops = initrdOps) (h : s.Shows files)
    (htype : ∀ i < files.length, s.fileType i ≠ fsTypeDirectory) (path : CString) :
    image.Answers files ((v.service fs).step (k, .openFile path) fd s)
      (ReadOnlyFs.step (named files) (.open_ (FileOp.target path.text)) handle place) := by
  intro _
  by_cases habsolute : path.text.head? = some slash
  · obtain ⟨q, hpath⟩ := List.head?_eq_some_iff.mp habsolute
    simp only [Vfs.service, hv.openFile_initrd hfs hpath, hpath, FileOp.target, if_true]
    by_cases hq : q = []
    · have hroot : path.IsRoot := by simp [isRoot_iff, hpath, hq]
      rw [open_root hroot, if_pos hq]
      exact ⟨rfl, ⟨rfl, rfl⟩, hat⟩
    · rw [if_neg hq]
      cases hfind : (named files).find? (·.1 = q) with
      | some f =>
        obtain ⟨fd', hopen, hfile⟩ := h.open_value htype hpath hq hfind fd
        simp only [hopen, ReadOnlyFs.step, hfind]
        exact ⟨rfl, hfile, hat⟩
      | none =>
        simp only [h.open_missing hpath hq hfind, ReadOnlyFs.step, hfind]
        exact ⟨rfl, hvalue, hat⟩
  · simp only [Vfs.service, Vfs.openFile_fails fs (hv.pathOps_relative habsolute),
      FileOp.target_relative habsolute]
    exact ⟨rfl, hvalue, hat⟩

theorem closeFile_answers (hfs : fs ops = initrdOps) :
    image.Answers files ((v.service fs).step (k, .closeFile) fd s)
      (ReadOnlyFs.step (named files) .close handle place) := by
  intro hpromised
  simp only [Vfs.service, hv.closeFile_initrd hfs]
  cases handle with
  | closed => exact absurd rfl hpromised
  | _ => exact ⟨rfl, trivial, hat⟩

theorem writeFile_answers (hfs : fs ops = initrdOps) (buffer : List Byte) (size : Word) :
    image.Answers files ((v.service fs).step (k, .writeFile buffer size) fd s)
      (ReadOnlyFs.step (named files) .write handle place) := by
  intro hpromised
  simp only [Vfs.service, hv.writeFile_initrd hfs]
  cases handle with
  | closed => exact absurd rfl hpromised
  | _ => exact ⟨rfl, hvalue, hat⟩

theorem readFile_answers (hfs : fs ops = initrdOps) (size : Word) :
    image.Answers files ((v.service fs).step (k, .readFile size) fd s)
      (ReadOnlyFs.step (named files) (.read size.toNat) handle place) := by
  intro hpromised
  simp only [Vfs.service, hv.readFile_initrd hfs]
  cases handle with
  | closed => exact absurd rfl hpromised
  | directory =>
    rw [read_root hvalue.1]
    exact ⟨rfl, hvalue, hat⟩
  | file stream => exact stream_answers hvalue hat (.read size) hpromised

theorem seekFile_answers (hfs : fs ops = initrdOps) (offset : Word) :
    image.Answers files ((v.service fs).step (k, .seekFile offset) fd s)
      (ReadOnlyFs.step (named files) (.seek offset.toNat) handle place) := by
  intro hpromised
  simp only [Vfs.service, hv.seekFile_initrd hfs]
  cases handle with
  | closed => exact absurd rfl hpromised
  | directory =>
    rw [seek_root hvalue.1]
    exact ⟨rfl, hvalue, hat⟩
  | file stream => exact stream_answers hvalue hat (.seek offset) hpromised

theorem readDirectory_answers (hfs : fs ops = initrdOps) (h : s.Shows files) {name : List Byte}
    {size : Word} (hbuffer : (FileOp.readDirectory name size).HasBuffer) :
    image.Answers files ((v.service fs).step (k, .readDirectory name size) fd s)
      (ReadOnlyFs.step (named files) (.list (size.toNat - 1)) handle place) := by
  intro hpromised
  simp only [Vfs.service, hv.readDirectory_initrd hfs]
  cases handle with
  | closed => exact absurd rfl hpromised
  | file stream =>
    rw [initrdReaddir, if_neg hvalue.2]
    exact ⟨rfl, hvalue, hat⟩
  | directory =>
    obtain ⟨himage, hle⟩ := hat
    have hlength := h.length_lt
    have hplace : s.currentFile.toNat = place := by
      rw [himage, BitVec.toNat_ofNat]
      omega
    cases hf : files[place]? with
    | none =>
      have hend : s.currentFile.toNat = files.length := by
        rw [hplace]
        exact Nat.le_antisymm hle (List.getElem?_eq_none_iff.mp hf)
      have hnamed : (named files)[place]? = none := by simp [named, hf]
      rw [h.readdir_end hend hvalue.2]
      simp only [ReadOnlyFs.step, hnamed]
      exact ⟨rfl, hvalue, by rw [himage]; rfl, Nat.zero_le _⟩
    | some f =>
      obtain ⟨name', hread, htext⟩ := h.readdir_next (hplace ▸ hf) hvalue.2 hbuffer
      have hnamed : (named files)[place]? = some (f.name, f.2) := by simp [named, hf]
      have hnext : s.currentFile + 1 = BitVec.ofNat 32 (place + 1) := by
        rw [himage, BitVec.ofNat_add]
        rfl
      rw [hread]
      simp only [ReadOnlyFs.step, hnamed]
      refine ⟨?_, hvalue, by rw [hnext, himage], (List.getElem?_eq_some_iff.mp hf).1⟩
      rw [dirReply, if_neg Int.one_ne_zero, htext]
      rfl

end Calls

end Initrd

/-! ### What calls leave alone -/

/-- The images agree but for the place of the listing. -/
def Initrd.SameImage (s s' : Initrd) : Prop := ∃ c, s = { s' with currentFile := c }

theorem Initrd.SameImage.refl (s : Initrd) : s.SameImage s := ⟨s.currentFile, rfl⟩

theorem Initrd.SameImage.trans {s s' s'' : Initrd} (h : s.SameImage s') (h' : s'.SameImage s'') :
    s.SameImage s'' := by
  obtain ⟨c, rfl⟩ := h
  obtain ⟨c', rfl⟩ := h'
  exact ⟨c, rfl⟩

/-- A listing, which moves the place of all listings. -/
def FileOp.isListing : FileOp → Bool
  | readDirectory _ _ => true
  | _ => false

/-- An outcome with another image. -/
def withImage {α : Type} (r : α × FsDescriptor × Initrd) (s : Initrd) : α × FsDescriptor × Initrd :=
  (r.1, r.2.1, s)

theorem initrdOpen_image (path : CString) (fd : FsDescriptor) (s : Initrd) (c : Word) :
    initrdOpen path fd { s with currentFile := c } =
      withImage (initrdOpen path fd s) { s with currentFile := c } := by
  have hfind : ({ s with currentFile := c } : Initrd).findFile path = s.findFile path := rfl
  simp only [initrdOpen, hfind]
  split
  · rfl
  · cases s.findFile path <;> rfl

theorem StreamCall.perform_image (call : StreamCall) (fd : FsDescriptor) (s : Initrd) (c : Word) :
    call.perform fd { s with currentFile := c } =
      withImage (call.perform fd s) { s with currentFile := c } := by
  have hnum : ({ s with currentFile := c } : Initrd).numFiles = s.numFiles := rfl
  have hsize : ∀ i, ({ s with currentFile := c } : Initrd).fileSize i = s.fileSize i := fun _ => rfl
  by_cases hdir : s.numFiles ≤ fd.inode
  · cases call with
    | read size =>
      simp only [perform, initrdRead, hnum, if_pos hdir]
      rfl
    | seek offset =>
      simp only [perform, initrdSeek, hnum, if_pos hdir]
      rfl
  · cases call with
    | read size =>
      simp only [perform, initrdRead, hnum, hsize, if_neg hdir]
      by_cases hend : s.fileSize fd.inode.toNat ≤ fd.position
      · simp only [if_pos hend]
        rfl
      · simp only [if_neg hend]
        rfl
    | seek offset =>
      simp only [perform, initrdSeek, hnum, hsize, if_neg hdir]
      by_cases hpast : s.fileSize fd.inode.toNat < offset
      · simp only [if_pos hpast]
        rfl
      · simp only [if_neg hpast]
        rfl

namespace Vfs

section Separate

variable {v : Vfs} {ops : Word} (hv : v.Rooted ops) {fs : Word → FsOps Initrd}
variable (hfs : fs ops = initrdOps)
include hv hfs

/-- Whatever place the listing is at, a call that is no listing has one outcome. -/
theorem Rooted.step_image {call : Nat × FileOp} (hcall : call.2.isListing = false)
    (fd : FsDescriptor) (s : Initrd) (c : Word) :
    (v.service fs).step call fd { s with currentFile := c } =
      withImage ((v.service fs).step call fd s) { s with currentFile := c } := by
  obtain ⟨k, op⟩ := call
  cases op with
  | openFile path =>
    by_cases hpath : path.text.head? = some slash
    · obtain ⟨q, hq⟩ := List.head?_eq_some_iff.mp hpath
      simp only [service, hv.openFile_initrd hfs hq, initrdOpen_image]
      rfl
    · simp only [service, openFile_fails fs (hv.pathOps_relative hpath)]
      rfl
  | closeFile =>
    simp only [service, hv.closeFile_initrd hfs]
    rfl
  | readFile size =>
    have hperform := StreamCall.perform_image (.read size) fd s c
    simp only [service, hv.readFile_initrd hfs]
    exact hperform
  | writeFile buffer size =>
    simp only [service, hv.writeFile_initrd hfs]
    rfl
  | seekFile offset =>
    have hperform := StreamCall.perform_image (.seek offset) fd s c
    simp only [service, hv.seekFile_initrd hfs]
    exact hperform
  | readDirectory name size => cases hcall

/-- No call changes the image. -/
theorem Rooted.step_keeps (call : Nat × FileOp) (fd : FsDescriptor) (s : Initrd) :
    ((v.service fs).step call fd s).2.2.SameImage s := by
  cases hcall : call.2.isListing with
  | false =>
    have hsame := hv.step_image hfs hcall fd s s.currentFile
    rw [show (v.service fs).step call fd s = withImage ((v.service fs).step call fd s) s from hsame]
    exact .refl s
  | true =>
    obtain ⟨k, op⟩ := call
    cases op with
    | readDirectory name size =>
      obtain ⟨r, name', c, hr⟩ := Initrd.readdir_keeps fd name size s
      simp only [service, hv.readDirectory_initrd hfs, hr]
      exact ⟨c, rfl⟩
    | _ => cases hcall

theorem Rooted.separate :
    (v.service fs).Separate Initrd.SameImage fun call => call.2.isListing = false where
  trans := Initrd.SameImage.trans
  keeps := hv.step_keeps hfs
  own call fd s s' hcall hsame := by
    obtain ⟨c, rfl⟩ := hsame
    rw [hv.step_image hfs hcall]
    obtain ⟨c', hc'⟩ := hv.step_keeps hfs call fd s'
    exact ⟨rfl, rfl, c, by rw [hc']; rfl⟩
  other call fd s hcall := by
    obtain ⟨k, op⟩ := call
    cases op with
    | readDirectory name size =>
      obtain ⟨r, name', c, hr⟩ := Initrd.readdir_keeps fd name size s
      simp only [service, hv.readDirectory_initrd hfs, hr]
    | _ => exact absurd rfl hcall

/-- The calls go as on a file system that is only read. -/
theorem Rooted.simulates {image : Initrd} {files : List HostFile} (h : image.Shows files)
    (htype : ∀ i < files.length, image.fileType i ≠ fsTypeDirectory) :
    (v.service fs).Simulates (ReadOnlyFs.service (Initrd.named files) Nat) (Prod.map id FileOp.op)
      FileOp.expected Initrd.Value (image.At files) (· ≠ .invalid) (fun call => call.2.HasBuffer) where
  handle _ := rfl
  others call fd s fd₁ handle hvalue := by
    obtain ⟨c, hc⟩ := hv.step_keeps hfs call fd s
    rw [hc]
    exact hvalue.setCurrentFile c
  step call fd s handle place hbuffer hvalue hat := by
    have hfiles : s.Shows files := by
      rw [hat.1]
      exact h.setCurrentFile _
    have htypes : ∀ i < files.length, s.fileType i ≠ fsTypeDirectory := by
      rw [hat.1]
      exact htype
    obtain ⟨k, op⟩ := call
    cases op with
    | openFile path => exact Initrd.openFile_answers hv k hvalue hat hfs hfiles htypes path
    | closeFile => exact Initrd.closeFile_answers hv k hvalue hat hfs
    | readFile size => exact Initrd.readFile_answers hv k hvalue hat hfs size
    | writeFile buffer size => exact Initrd.writeFile_answers hv k hvalue hat hfs buffer size
    | seekFile offset => exact Initrd.seekFile_answers hv k hvalue hat hfs offset
    | readDirectory name size => exact Initrd.readDirectory_answers hv k hvalue hat hfs hfiles hbuffer

end Separate

end Vfs

/-- Every pointer to operations leads to those of the ramdisk. -/
def ramdiskOps (_ops : Word) : FsOps Initrd := initrdOps

theorem Initrd.greeting_shows :
    greeting.Shows [(CString.ofText [0x61], [0x68, 0x69])] := by
  have honly : ∀ {P : Nat → HostFile → Prop}, P 0 (CString.ofText [0x61], [0x68, 0x69]) →
      ∀ i f, [((CString.ofText [0x61], [0x68, 0x69]) : HostFile)][i]? = some f → P i f := by
    intro P h0 i f hf
    cases i with
    | zero =>
      obtain rfl := Option.some.inj hf
      exact h0
    | succ i => cases hf
  refine ⟨by decide, by decide, by decide, honly ⟨?_, by decide⟩, honly (by decide), ?_,
    honly ?_⟩
  · exact List.mem_of_getElem? (i := 1) (by decide)
  · simp
  · show greeting.mem.bytes _ 2 = [0x68, 0x69]
    decide

/-- With the ramdisk at the root, calls in any order on any descriptors return what they would from a
file system with these files that is only read, as long as no descriptor is used that is not open,
and the image stays as it is. -/
theorem vfs_serves_files {v : Vfs} {ops : Word} (hv : v.Rooted ops) {fs : Word → FsOps Initrd}
    (hfs : fs ops = initrdOps) {image : Initrd} {files : List HostFile} (h : image.Shows files)
    (htype : ∀ i < files.length, image.fileType i ≠ fsTypeDirectory) (hplace : image.currentFile = 0)
    (fds : Nat → FsDescriptor) {calls : List (Nat × FileOp)}
    (hbuffers : ∀ call ∈ calls, call.2.HasBuffer)
    (hopen : ∀ r ∈ ((ReadOnlyFs.service (Initrd.named files) Nat).performAll
      (calls.map (Prod.map id FileOp.op)) (ReadOnlyFs.closed Nat)).1, r ≠ .invalid) :
    ((v.service fs).performAll calls (fds, image)).1 =
        ((ReadOnlyFs.service (Initrd.named files) Nat).performAll
          (calls.map (Prod.map id FileOp.op)) (ReadOnlyFs.closed Nat)).1.map FileOp.expected ∧
      ((v.service fs).performAll calls (fds, image)).2.2.SameImage image := by
  have hat : image.At files image 0 := ⟨by rw [← BitVec.ofNat_eq_ofNat, ← hplace], Nat.zero_le _⟩
  obtain ⟨hreplies, -, hshared⟩ := (hv.simulates hfs h htype).performAll hbuffers (fds, image)
    (ReadOnlyFs.closed Nat) (fun _ => trivial) hat hopen
  exact ⟨hreplies, _, hshared.1⟩

/-- Two descriptors on one file and a third on the directory. -/
theorem vfs_serves_files_sample :
    ((((Vfs.zero.initVfs).mountFs (.ofText [slash]) (.ofText []) 1 0).2.service
        ramdiskOps).performAll
      [(0, .openFile (.ofText [slash, 0x61])), (1, .openFile (.ofText [slash])),
        (0, .readFile 1), (2, .openFile (.ofText [slash, 0x61])), (0, .writeFile [0x62] 1),
        (2, .readFile 8), (0, .readFile 8), (2, .openFile (.ofText [0x61]))]
      (fun _ => ⟨0, 0, 0, 0, 0⟩, Initrd.greeting)).1 =
    [(0, []), (0, []), (1, [0x68]), (0, []), (-1, []), (2, [0x68, 0x69]), (1, [0x69]), (-1, [])] := by
  have hroot : (CString.ofText [slash]).text = [slash] := rfl
  have hrooted := Vfs.zero.rooted_mountFs hroot (.ofText []) 1 0
  have hops : ramdiskOps 1 = initrdOps := rfl
  refine (vfs_serves_files hrooted hops Initrd.greeting_shows ?_ rfl _ ?_ ?_).1.trans ?_
  · simp +decide
  · simp [FileOp.HasBuffer]
  · decide +kernel
  · decide +kernel

/-- Whatever calls are made on other descriptors, and whatever these and the image are like, the
opens, reads, seeks, writes and closes on a descriptor go as if they were the only calls. -/
theorem descriptor_alone {v : Vfs} {ops : Word} (hv : v.Rooted ops) {fs : Word → FsOps Initrd}
    (hfs : fs ops = initrdOps) (image : Initrd) (fds : Nat → FsDescriptor)
    (calls : List (Nat × FileOp)) (k : Nat) :
    let own := calls.filter fun call => call.1 = k ∧ call.2.isListing = false
    (v.service fs).repliesOn k (fun call => call.2.isListing = false) calls
        ((v.service fs).performAll calls (fds, image)).1 =
      ((v.service fs).performAll own (fds, image)).1 ∧
    ((v.service fs).performAll calls (fds, image)).2.1 k =
      ((v.service fs).performAll own (fds, image)).2.1 k :=
  (hv.separate hfs).alone k calls (fds, image) (fds, image) rfl (.refl image)

/-- A file is read while the directory is listed and another descriptor, never opened, is sought. -/
theorem descriptor_alone_sample :
    let v := (Vfs.zero.initVfs.mountFs (.ofText [slash]) (.ofText []) 1 0).2
    let fds : Nat → FsDescriptor := fun _ => ⟨7, 7, 7, 7, 7⟩
    ((v.service ramdiskOps).performAll
      [(1, .openFile (.ofText [slash])), (0, .openFile (.ofText [slash, 0x61])),
        (1, .readDirectory [0, 0] 2), (2, .seekFile 1), (0, .readFile 8)]
      (fds, Initrd.greeting)).2.1 0 =
    ((v.service ramdiskOps).performAll
      [(0, .openFile (.ofText [slash, 0x61])), (0, .readFile 8)] (fds, Initrd.greeting)).2.1 0 := by
  have hroot : (CString.ofText [slash]).text = [slash] := rfl
  have hrooted := Vfs.zero.rooted_mountFs hroot (.ofText []) 1 0
  have hops : ramdiskOps 1 = initrdOps := rfl
  exact (descriptor_alone hrooted hops Initrd.greeting
    (fun _ => ⟨7, 7, 7, 7, 7⟩) [(1, .openFile (.ofText [slash])),
      (0, .openFile (.ofText [slash, 0x61])), (1, .readDirectory [0, 0] 2), (2, .seekFile 1),
      (0, .readFile 8)] 0).2

end Lbos

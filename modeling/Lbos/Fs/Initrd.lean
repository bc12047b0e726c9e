import Lbos.Fs.Vfs
import Lbos.Lib.Bytes

/-! The initial ramdisk of `fs/initrd.c`, in the kernel's memory. -/

namespace Lbos

open Lib

def initrdMagic : Word := 0xBF

/-- `INITRD_SIGNATURE`, a string constant. -/
def initrdSignature : List Byte := [0x49, 0x4E, 0x49, 0x54, 0x52, 0x44, 0]

def initrdMaxFiles : Nat := 64

/-- `sizeof(initrd_file_header_t)`. -/
def initrdFileHeaderSize : Nat := 48

/-- `sizeof(initrd_header_t)`. -/
def initrdHeaderSize : Nat := 8 + initrdFileHeaderSize * initrdMaxFiles

/-- Memory and the static variables of `initrd.c`: the pointers `initrd_header` and `initrd_data`,
the addresses of the statics that stand in for a missing image, and the position of
`initrd_readdir`. -/
structure Initrd where
  mem : Mem
  header : Word
  data : Word
  tempHeader : Word
  tempFiles : Word
  tempData : Word
  currentFile : Word

/-- The string that a pointer leads to. -/
def cstr (m : Mem) (p : Word) : List Byte := m.bytes p (2 ^ 32)

namespace Initrd

variable (s : Initrd)

/-- `initrd_header->magic`. -/
def magic : Word := s.mem.read32 s.header

/-- `initrd_header->num_files`. -/
def numFiles : Word := s.mem.read32 (s.header + 4)

/-- `&initrd_header->files[i]`. -/
def file (i : Nat) : Word := s.header + 8 + BitVec.ofNat 32 (initrdFileHeaderSize * i)

/-- `initrd_header->files[i].size`, and the fields after it. -/
def fileSize (i : Nat) : Word := s.mem.read32 (s.file i + 32)

def fileOffset (i : Nat) : Word := s.mem.read32 (s.file i + 36)

def fileType (i : Nat) : Word := s.mem.read32 (s.file i + 40)

def filePermissions (i : Nat) : Word := s.mem.read32 (s.file i + 44)

/-- `temp_data`, without its terminator. -/
def tempText : List Byte := "This is a test file created in memory.".toList.map fun c =>
  BitVec.ofNat 8 c.toNat

/-- `test.txt`. -/
def tempName : List Byte := [0x74, 0x65, 0x73, 0x74, 0x2E, 0x74, 0x78, 0x74, 0]

/-- The end of `init_initrd` where there is no image: an image with one file is put together from
statics. -/
def initTemp : Initrd :=
  let m := s.mem.write32 s.tempHeader initrdMagic
  let m := m.write32 (s.tempHeader + 4) 1
  let m := m.writeBytes s.tempFiles tempName
  let m := m.write32 (s.tempFiles + 32) (BitVec.ofNat 32 tempText.length)
  let m := m.write32 (s.tempFiles + 36) 0
  let m := m.write32 (s.tempFiles + 40) fsTypeFile
  let m := m.write32 (s.tempFiles + 44) fsPermRead
  let m := m.writeBytes (s.tempHeader + 8) (m.bytes s.tempFiles initrdFileHeaderSize)
  { s with mem := m, header := s.tempHeader, data := s.tempData }

def initInitrd (initrdLocation : Word) : Initrd :=
  let s :=
    if strncmp (cstr s.mem initrdLocation) initrdSignature 6 = some 0 then
      { s with header := initrdLocation + 8 }
    else
      match search (fun i => s.mem.read32 (initrdLocation + BitVec.ofNat 32 i) = initrdMagic) 64 0 with
      | some i => { s with header := initrdLocation + BitVec.ofNat 32 i }
      | none => s
  if s.header = 0 then s.initTemp
  else if s.magic ≠ initrdMagic then s
  else { s with data := s.header + BitVec.ofNat 32 initrdHeaderSize }

/-- The index of the file. -/
def findFile (path : CString) : Option Nat :=
  if s.header = 0 then none
  else
    let name := if path.bytes.head? = some slash then path.bytes.tail else path.bytes
    search (fun i => strcmp (cstr s.mem (s.file i)) name = some 0) s.numFiles.toNat 0

end Initrd

def initrdOpen (path : CString) (fd : FsDescriptor) (s : Initrd) : Int × FsDescriptor × Initrd :=
  if strcmp path.bytes [slash, 0] = some 0 then
    (0, ⟨0xFFFFFFFF, 0, fsTypeDirectory, 0, fsPermRead⟩, s)
  else
    match s.findFile path with
    | none => (-1, fd, s)
    | some i =>
      (0, ⟨BitVec.ofNat 32 i, 0, s.fileType i, s.fileSize i, s.filePermissions i⟩, s)

def initrdClose (fd : FsDescriptor) (s : Initrd) : Int × FsDescriptor × Initrd := (0, fd, s)

def initrdRead (fd : FsDescriptor) (size : Word) (s : Initrd) :
    Int × List Byte × FsDescriptor × Initrd :=
  if s.numFiles ≤ fd.inode then (-1, [], fd, s)
  else
    let file := fd.inode.toNat
    if s.fileSize file ≤ fd.position then (0, [], fd, s)
    else
      let remaining := s.fileSize file - fd.position
      let toRead := if size < remaining then size else remaining
      (toRead.toInt, s.mem.bytes (s.data + s.fileOffset file + fd.position) toRead.toNat,
        { fd with position := fd.position + toRead }, s)

/-- A read of a file: as many bytes as are asked for and there, from the position on. -/
theorem initrdRead_file {fd : FsDescriptor} {s : Initrd} (hlt : fd.inode < s.numFiles) (size : Word) :
    ∃ toRead : Word, toRead.toNat =
        min size.toNat ((s.fileSize fd.inode.toNat).toNat - fd.position.toNat) ∧
      initrdRead fd size s = (toRead.toInt,
        s.mem.bytes (s.data + s.fileOffset fd.inode.toNat + fd.position) toRead.toNat,
        { fd with position := fd.position + toRead }, s) := by
  rw [initrdRead, if_neg (BitVec.not_le.mpr hlt)]
  by_cases hend : s.fileSize fd.inode.toNat ≤ fd.position
  · rw [if_pos hend]
    rw [BitVec.le_def] at hend
    have hposition : fd.position + 0 = fd.position := BitVec.add_zero fd.position
    refine ⟨0, ?_, ?_⟩
    · rw [Nat.sub_eq_zero_of_le hend, Nat.min_zero]
      rfl
    · rw [hposition]
      rfl
  · rw [if_neg hend]
    rw [BitVec.le_def, Nat.not_le] at hend
    refine ⟨_, ?_, rfl⟩
    have hremaining : (s.fileSize fd.inode.toNat - fd.position).toNat =
        (s.fileSize fd.inode.toNat).toNat - fd.position.toNat :=
      BitVec.toNat_sub_of_le (by rw [BitVec.le_def]; exact Nat.le_of_lt hend)
    rw [← hremaining]
    split
    · next hless => exact (Nat.min_eq_left (Nat.le_of_lt hless)).symm
    · next hmore => exact (Nat.min_eq_right (Nat.le_of_not_lt hmore)).symm

def initrdWrite (fd : FsDescriptor) (_buffer : List Byte) (_size : Word) (s : Initrd) :
    Int × FsDescriptor × Initrd := (-1, fd, s)

def initrdSeek (fd : FsDescriptor) (offset : Word) (s : Initrd) : Int × FsDescriptor × Initrd :=
  if s.numFiles ≤ fd.inode then (-1, fd, s)
  else if s.fileSize fd.inode.toNat < offset then (-1, fd, s)
  else (0, { fd with position := offset }, s)

def initrdReaddir (fd : FsDescriptor) (name : List Byte) (size : Word) (s : Initrd) :
    Int × List Byte × FsDescriptor × Initrd :=
  if fd.type = fsTypeDirectory then
    if s.numFiles ≤ s.currentFile then (0, name, fd, { s with currentFile := 0 })
    else
      let count := (size - 1).toNat
      let name := (strncpy name (cstr s.mem (s.file s.currentFile.toNat)) count).set count 0
      (1, name, fd, { s with currentFile := s.currentFile + 1 })
  else (0, name, fd, s)

/-- The operations behind `get_initrd_ops`. -/
def initrdOps : FsOps Initrd where
  open_ := some initrdOpen
  close := some initrdClose
  read := some initrdRead
  write := some initrdWrite
  seek := some initrdSeek
  readdir := some initrdReaddir

end Lbos

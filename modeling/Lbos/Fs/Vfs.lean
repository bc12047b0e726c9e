import Mathlib.Data.List.FinRange
import Lbos.CString
import Lbos.Lib.Loop

/-! The virtual file system of `fs/vfs.c`: the mount table, whose entries point into two arrays of
string buffers, and the operations on files, which it hands to the file systems. -/

namespace Lbos

open Lib

def maxMountPoints : Nat := 8

def maxPathLen : Nat := 256

def slash : Byte := 0x2F

/-- A `char[MAX_PATH_LEN]` that holds a string. -/
structure PathBuffer where
  bytes : List Byte
  length_eq : bytes.length = maxPathLen
  terminated : 0 ∈ bytes

namespace PathBuffer

/-- The characters in a buffer. -/
def text (b : PathBuffer) : List Byte := Lbos.text b.bytes

theorem length_text_lt (b : PathBuffer) : b.text.length < maxPathLen :=
  (Lbos.length_text_lt b.terminated).trans_eq b.length_eq

/-- `strncpy(b, s, MAX_PATH_LEN - 1); b[MAX_PATH_LEN - 1] = '\0'`. -/
def fill (b : PathBuffer) (s : CString) : PathBuffer where
  bytes := (strncpy b.bytes s.bytes (maxPathLen - 1)).set (maxPathLen - 1) 0
  length_eq := by rw [List.length_set, length_strncpy, b.length_eq]
  terminated := by
    obtain ⟨rest, h⟩ := text_strncpy_set b.bytes s.terminated (n := maxPathLen - 1)
      (by rw [b.length_eq]; decide)
    rw [h]
    exact List.mem_append_right _ List.mem_cons_self

/-- `strcpy(b, src)`. -/
def copy (b src : PathBuffer) : PathBuffer where
  bytes := strcpy b.bytes src.bytes
  length_eq := by rw [length_strcpy, b.length_eq]
  terminated := by
    obtain ⟨rest, h⟩ := strcpy_eq b.bytes src.terminated
      (by rw [b.length_eq]; exact src.length_text_lt)
    rw [h]
    exact List.mem_append_right _ List.mem_cons_self

@[simp] theorem text_fill (b : PathBuffer) (s : CString) :
    (b.fill s).text = s.text.take (maxPathLen - 1) :=
  text_strncpy b.bytes s.terminated (by rw [b.length_eq]; decide)

theorem text_fill_short (b : PathBuffer) {s : CString} (h : s.text.length < maxPathLen) :
    (b.fill s).text = s.text := by
  rw [text_fill]
  exact List.take_of_length_le (Nat.le_pred_of_lt h)

@[simp] theorem text_copy (b src : PathBuffer) : (b.copy src).text = src.text := by
  obtain ⟨rest, h⟩ := strcpy_eq b.bytes src.terminated
    (by rw [b.length_eq]; exact src.length_text_lt)
  exact (congrArg Lbos.text h).trans (text_append (zero_notMem_text _) rest)

/-- A cleared buffer. -/
def zero : PathBuffer := ⟨List.replicate maxPathLen 0, List.length_replicate, by decide⟩

end PathBuffer

/-- An index into `mount_points`, `path_buffers` and `device_buffers`. -/
abbrev MountIndex := Fin maxMountPoints

/-- `mount_point_t`: the strings are pointers to the buffers. -/
structure MountPoint where
  path : Option MountIndex
  device : Option MountIndex
  ops : Word
  privateData : Word

/-- The static variables of `vfs.c`. -/
structure Vfs where
  mountPoints : MountIndex → MountPoint
  numMountPoints : Nat
  pathBuffers : MountIndex → PathBuffer
  deviceBuffers : MountIndex → PathBuffer
  num_le : numMountPoints ≤ maxMountPoints

namespace Vfs

variable (v : Vfs)

/-- The variables before `init_vfs`. -/
def zero : Vfs where
  mountPoints _ := ⟨none, none, 0, 0⟩
  numMountPoints := 0
  pathBuffers _ := .zero
  deviceBuffers _ := .zero
  num_le := Nat.zero_le _

def initVfs : Vfs :=
  { v with numMountPoints := 0, mountPoints := fun _ => ⟨none, none, 0, 0⟩, num_le := Nat.zero_le _ }

/-- The string behind `mount_points[i].path`. -/
def path (i : MountIndex) : List Byte :=
  ((v.mountPoints i).path.map fun b => (v.pathBuffers b).bytes).getD []

/-- The string behind `mount_points[i].device`. -/
def device (i : MountIndex) : List Byte :=
  ((v.mountPoints i).device.map fun b => (v.deviceBuffers b).bytes).getD []

/-- The first mount point with this path. -/
def findPath (path : CString) : Option MountIndex :=
  (List.finRange maxMountPoints).find? fun i =>
    i.val < v.numMountPoints ∧ strcmp (v.path i) path.bytes = some 0

def mountFs (path device : CString) (ops privateData : Word) : Int × Vfs :=
  if h : v.numMountPoints < maxMountPoints then
    match v.findPath path with
    | some _ => (-1, v)
    | none =>
      let idx : MountIndex := ⟨v.numMountPoints, h⟩
      (0, {
        pathBuffers := Function.update v.pathBuffers idx ((v.pathBuffers idx).fill path)
        deviceBuffers := Function.update v.deviceBuffers idx ((v.deviceBuffers idx).fill device)
        mountPoints := Function.update v.mountPoints idx ⟨some idx, some idx, ops, privateData⟩
        numMountPoints := v.numMountPoints + 1
        num_le := h })
  else (-1, v)

/-- A round of the loop of `unmount_fs`: mount point `j` and its buffers take what the next ones
hold. -/
def shift (j : Nat) (v : Vfs) : Vfs :=
  if h : j + 1 < maxMountPoints then
    let idx : MountIndex := ⟨j, Nat.lt_of_succ_lt h⟩
    let next : MountIndex := ⟨j + 1, h⟩
    { v with
      mountPoints := Function.update v.mountPoints idx (v.mountPoints next)
      pathBuffers := Function.update v.pathBuffers idx
        ((v.pathBuffers idx).copy (v.pathBuffers next))
      deviceBuffers := Function.update v.deviceBuffers idx
        ((v.deviceBuffers idx).copy (v.deviceBuffers next)) }
  else v

/-- `num_mount_points--`. -/
def dropLast : Vfs :=
  { v with
    numMountPoints := v.numMountPoints - 1
    num_le := (Nat.sub_le _ 1).trans v.num_le }

def unmountFs (path : CString) : Int × Vfs :=
  match v.findPath path with
  | some i => (0, (loop shift (v.numMountPoints - 1 - i.val) i.val v).dropLast)
  | none => (-1, v)

/-- A round of the loop of `find_mount_point`, with the best match and its length so far. -/
def matchMount (path : CString) (best : Option MountIndex × Nat) (i : MountIndex) :
    Option MountIndex × Nat :=
  let mountPathLen := (strlen (v.path i)).getD 0
  if mountPathLen = 1 ∧ (v.path i)[0]? = some slash ∧ path.bytes[0]? = some slash then
    if best.2 = 0 then (some i, 1) else best
  else if strncmp path.bytes (v.path i) mountPathLen = some 0 then
    if path.bytes[mountPathLen]? = some slash ∨ path.bytes[mountPathLen]? = some 0 then
      if best.2 < mountPathLen then (some i, mountPathLen) else best
    else best
  else best

def findMountPoint (path : CString) : Option MountIndex :=
  (((List.finRange maxMountPoints).filter fun i => i.val < v.numMountPoints).foldl
    (v.matchMount path) (none, 0)).1

def findMountPointByInode (_inode : Word) : Option MountIndex :=
  if h : 0 < v.numMountPoints then some ⟨0, Nat.lt_of_lt_of_le h v.num_le⟩ else none

end Vfs

/-- `fs_descriptor_t`, with the number of its `fs_type_t`. -/
structure FsDescriptor where
  inode : Word
  position : Word
  type : Word
  size : Word
  permissions : Word
  deriving DecidableEq

def fsTypeFile : Word := 0

def fsTypeDirectory : Word := 1

def fsPermRead : Word := 0x1

/-- The functions of an `fs_ops_t` that files are used with, over the state `σ` of the file
systems.  A null pointer is `none`.  A function that fills a buffer of its caller gives its
bytes. -/
structure FsOps (σ : Type) where
  open_ : Option (CString → FsDescriptor → σ → Int × FsDescriptor × σ)
  close : Option (FsDescriptor → σ → Int × FsDescriptor × σ)
  read : Option (FsDescriptor → Word → σ → Int × List Byte × FsDescriptor × σ)
  write : Option (FsDescriptor → List Byte → Word → σ → Int × FsDescriptor × σ)
  seek : Option (FsDescriptor → Word → σ → Int × FsDescriptor × σ)
  readdir : Option (FsDescriptor → List Byte → Word → σ → Int × List Byte × FsDescriptor × σ)

namespace Vfs

variable {σ : Type} {α : Type} (v : Vfs) (fs : Word → FsOps σ)

/-- The operations of the file system for a path. -/
def pathOps (path : CString) : Option Word :=
  (v.findMountPoint path).map fun i => (v.mountPoints i).ops

/-- The operations of the file system for a descriptor. -/
def descriptorOps (fd : FsDescriptor) : Option Word :=
  (v.findMountPointByInode fd.inode).map fun i => (v.mountPoints i).ops

/-- Hands a call to the file system with these operations: it fails when there is none, or the file
system lacks the function. -/
def dispatch (ops : Option Word) (call : FsOps σ → Option α) (failed : α) : α :=
  (ops.bind fun p => call (fs p)).getD failed

def openFile (path : CString) (fd : FsDescriptor) (s : σ) : Int × FsDescriptor × σ :=
  dispatch fs (v.pathOps path) (fun ops => ops.open_.map fun f => f path fd s) (-1, fd, s)

def closeFile (fd : FsDescriptor) (s : σ) : Int × FsDescriptor × σ :=
  dispatch fs (v.descriptorOps fd) (fun ops => ops.close.map fun f => f fd s) (-1, fd, s)

def readFile (fd : FsDescriptor) (size : Word) (s : σ) : Int × List Byte × FsDescriptor × σ :=
  dispatch fs (v.descriptorOps fd) (fun ops => ops.read.map fun f => f fd size s) (-1, [], fd, s)

def writeFile (fd : FsDescriptor) (buffer : List Byte) (size : Word) (s : σ) :
    Int × FsDescriptor × σ :=
  dispatch fs (v.descriptorOps fd) (fun ops => ops.write.map fun f => f fd buffer size s) (-1, fd, s)

def seekFile (fd : FsDescriptor) (offset : Word) (s : σ) : Int × FsDescriptor × σ :=
  dispatch fs (v.descriptorOps fd) (fun ops => ops.seek.map fun f => f fd offset s) (-1, fd, s)

def readDirectory (fd : FsDescriptor) (name : List Byte) (size : Word) (s : σ) :
    Int × List Byte × FsDescriptor × σ :=
  dispatch fs (v.descriptorOps fd) (fun ops => ops.readdir.map fun f => f fd name size s)
    (-1, name, fd, s)

end Vfs

end Lbos

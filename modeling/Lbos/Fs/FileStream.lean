import Lbos.Fs.Initrd
import Lbos.Lib.Stream

/-! Reads and seeks on an open file of the ramdisk: in any order and with any arguments they act as
on a stream over the file's bytes.  The bytes go to a buffer of the caller, which is no part of the
image. -/

namespace Lbos

open Lib Mem

/-- `initrd_read(size)` or `initrd_seek(offset)`. -/
inductive StreamCall where
  | read (size : Word)
  | seek (offset : Word)

namespace StreamCall

/-- The result and the bytes read. -/
def perform : StreamCall → FsDescriptor → Initrd → (Int × List Byte) × FsDescriptor × Initrd
  | read size, fd, s =>
    let (r, bytes, fd, s) := initrdRead fd size s
    ((r, bytes), fd, s)
  | seek offset, fd, s =>
    let (r, fd, s) := initrdSeek fd offset s
    ((r, []), fd, s)

def performAll : List StreamCall → FsDescriptor → Initrd → List (Int × List Byte) × FsDescriptor × Initrd
  | [], fd, s => ([], fd, s)
  | call :: calls, fd, s =>
    let (r, fd, s) := call.perform fd s
    let (rs, fd, s) := performAll calls fd s
    (r :: rs, fd, s)

/-- What a call is to do with the stream. -/
def op : StreamCall → Stream.Op
  | read size => .read size.toNat
  | seek offset => .seek offset.toNat

/-- What a call is to return. -/
def expected : Stream.Result Byte → Int × List Byte
  | .read bytes => (bytes.length, bytes)
  | .sought => (0, [])
  | .refused => (-1, [])

end StreamCall

namespace Initrd

variable (s : Initrd)

/-- The bytes of file `i`. -/
def fileBytes (i : Nat) : List Byte := s.mem.bytes (s.data + s.fileOffset i) (s.fileSize i).toNat

@[simp] theorem length_fileBytes (i : Nat) : (s.fileBytes i).length = (s.fileSize i).toNat :=
  length_bytes ..

/-- The descriptor stands at the stream's position in its file. -/
structure Reads (fd : FsDescriptor) (st : Stream Byte) : Prop where
  inode_lt : fd.inode < s.numFiles
  size_lt : (s.fileSize fd.inode.toNat).toNat < 2 ^ 31
  contents : st.contents = s.fileBytes fd.inode.toNat
  position : fd.position = BitVec.ofNat 32 st.position

variable {s} {fd : FsDescriptor} {st : Stream Byte}

theorem Reads.length_eq (h : s.Reads fd st) :
    st.contents.length = (s.fileSize fd.inode.toNat).toNat := by
  rw [h.contents, length_fileBytes]

theorem Reads.toNat_position (h : s.Reads fd st) : fd.position.toNat = st.position := by
  have hle := st.position_le
  have hsize := h.size_lt
  rw [h.length_eq] at hle
  rw [h.position, BitVec.toNat_ofNat, Nat.mod_eq_of_lt (by omega)]

/-- The bytes from the position on. -/
theorem Reads.bytes_eq (h : s.Reads fd st) (count : Nat) :
    s.mem.bytes (s.data + s.fileOffset fd.inode.toNat + fd.position) (st.avail count) =
      st.rest.take (st.avail count) := by
  have hholds : s.mem.Holds (s.data + s.fileOffset fd.inode.toNat) st.contents := by
    rw [h.contents, Holds, length_fileBytes]
    rfl
  rw [h.position]
  exact hholds.drop_take (st.position_add_avail count)

/-- The descriptor at another position of the same file. -/
theorem Reads.move (h : s.Reads fd st) {st' : Stream Byte} (hcontents : st'.contents = st.contents) :
    s.Reads { fd with position := BitVec.ofNat 32 st'.position } st' :=
  ⟨h.inode_lt, h.size_lt, hcontents.trans h.contents, rfl⟩

theorem Reads.read (h : s.Reads fd st) (size : Word) :
    initrdRead fd size s = ((st.avail size.toNat : Int), st.rest.take (st.avail size.toNat),
      { fd with position := BitVec.ofNat 32 (st.position + st.avail size.toNat) }, s) := by
  obtain ⟨toRead, hmin, hread⟩ := initrdRead_file h.inode_lt size
  have hcount : toRead.toNat = st.avail size.toNat := by
    rw [hmin, Stream.avail, h.length_eq, h.toNat_position]
  have hsize := h.size_lt
  have hint : toRead.toInt = (st.avail size.toNat : Int) := by
    rw [BitVec.toInt_eq_toNat_of_lt (by omega), hcount]
  have hmoved : fd.position + toRead = BitVec.ofNat 32 (st.position + st.avail size.toNat) := by
    rw [BitVec.ofNat_add, ← h.position, ← hcount, BitVec.ofNat_toNat, BitVec.setWidth_eq]
  rw [hread, hcount, h.bytes_eq, hint, hmoved]

theorem Reads.seek (h : s.Reads fd st) (offset : Word) : initrdSeek fd offset s =
    if offset.toNat ≤ st.contents.length then (0, { fd with position := offset }, s)
    else (-1, fd, s) := by
  rw [initrdSeek, if_neg (BitVec.not_le.mpr h.inode_lt), h.length_eq]
  by_cases hle : offset.toNat ≤ (s.fileSize fd.inode.toNat).toNat
  · rw [if_pos hle, if_neg]
    rw [BitVec.lt_def]
    omega
  · rw [if_neg hle, if_pos]
    rw [BitVec.lt_def]
    omega

/-- Each call acts on the descriptor as on the stream. -/
theorem Reads.perform (h : s.Reads fd st) (call : StreamCall) : call.perform fd s =
    (StreamCall.expected (st.step call.op).1,
      { fd with position := BitVec.ofNat 32 (st.step call.op).2.position }, s) := by
  cases call with
  | read size =>
    have hle := st.position_add_avail size.toNat
    have hlen : (st.rest.take (st.avail size.toNat)).length = st.avail size.toNat := by
      rw [List.length_take_of_le]
      rw [Stream.rest, List.length_drop]
      omega
    simp only [StreamCall.perform, h.read, StreamCall.op, Stream.step, StreamCall.expected, hlen]
  | seek offset =>
    simp only [StreamCall.perform, h.seek, StreamCall.op, Stream.step]
    split
    · simp [StreamCall.expected]
    · simp [StreamCall.expected, ← h.position]

theorem Reads.performAll (h : s.Reads fd st) (calls : List StreamCall) :
    StreamCall.performAll calls fd s = ((st.run (calls.map StreamCall.op)).1.map StreamCall.expected,
      { fd with position := BitVec.ofNat 32 (st.run (calls.map StreamCall.op)).2.position }, s) := by
  induction calls generalizing fd st with
  | nil =>
    simp only [StreamCall.performAll, List.map_nil, Stream.run, ← h.position]
  | cons call calls ih =>
    have hnext := ih (h.move (st.step_contents call.op))
    simp only [StreamCall.performAll, h.perform, hnext, List.map_cons, Stream.run]

/-- An opened file is read from its beginning. -/
theorem reads_of_open {path : CString} {fd₀ : FsDescriptor} (hopen : initrdOpen path fd₀ s = (0, fd, s))
    (hfile : fd.inode < s.numFiles) (hsize : (s.fileSize fd.inode.toNat).toNat < 2 ^ 31) :
    s.Reads fd (.start (s.fileBytes fd.inode.toNat)) := by
  refine ⟨hfile, hsize, rfl, ?_⟩
  unfold initrdOpen at hopen
  split at hopen
  · obtain ⟨-, hpair⟩ := Prod.mk.inj hopen
    obtain ⟨rfl, -⟩ := Prod.mk.inj hpair
    rfl
  · split at hopen
    · cases hopen
    · obtain ⟨-, hpair⟩ := Prod.mk.inj hopen
      obtain ⟨rfl, -⟩ := Prod.mk.inj hpair
      rfl

variable (s)

/-- What the next calls on a descriptor do, by the bytes of its file. -/
structure Serves (fd : FsDescriptor) (bytes : List Byte) : Prop where
  position_le : fd.position.toNat ≤ bytes.length
  read : ∀ size : Word, ∃ n, n = min size.toNat (bytes.length - fd.position.toNat) ∧
    initrdRead fd size s = ((n : Int), (bytes.drop fd.position.toNat).take n,
      { fd with position := BitVec.ofNat 32 (fd.position.toNat + n) }, s)
  seek : ∀ offset : Word, offset.toNat ≤ bytes.length →
    initrdSeek fd offset s = (0, { fd with position := offset }, s)
  refused : ∀ offset : Word, bytes.length < offset.toNat → initrdSeek fd offset s = (-1, fd, s)
  chunks : ∀ sizes : List Word,
    ((StreamCall.performAll (sizes.map .read) fd s).1.map Prod.snd).flatten =
      (bytes.drop fd.position.toNat).take (sizes.map BitVec.toNat).sum

variable {s}

/-- The bytes that the expected results carry. -/
theorem expected_bytes (r : Stream.Result Byte) : (StreamCall.expected r).2 = r.elements := by
  cases r <;> rfl

theorem Reads.chunks (h : s.Reads fd st) (sizes : List Word) :
    ((StreamCall.performAll (sizes.map .read) fd s).1.map Prod.snd).flatten =
      st.rest.take (sizes.map BitVec.toNat).sum := by
  have hops : (sizes.map StreamCall.read).map StreamCall.op =
      (sizes.map BitVec.toNat).map Stream.Op.read := by
    rw [List.map_map, List.map_map]
    rfl
  have hbytes : Prod.snd ∘ StreamCall.expected = Stream.Result.elements := funext expected_bytes
  rw [h.performAll, hops, List.map_map, hbytes, st.flatten_reads]

theorem Reads.serves (h : s.Reads fd st) : s.Serves fd (s.fileBytes fd.inode.toNat) := by
  have hposition := h.toNat_position
  refine ⟨?_, fun size => ⟨_, rfl, ?_⟩, fun offset hle => ?_, fun offset hlt => ?_, fun sizes => ?_⟩
  · rw [hposition, ← h.contents]
    exact st.position_le
  · rw [h.read, hposition, ← h.contents]
    rfl
  · rw [h.seek, if_pos (h.contents ▸ hle)]
  · rw [h.seek, if_neg (h.contents ▸ Nat.not_le.mpr hlt)]
  · rw [h.chunks, hposition, ← h.contents]
    rfl

end Initrd

/-- On an opened file every sequence of reads and seeks returns what it would on a stream over the
file's bytes, and leaves the descriptor where the stream stands. -/
theorem reads_and_seeks_stream {s : Initrd} {path : CString} {fd₀ fd : FsDescriptor}
    (hopen : initrdOpen path fd₀ s = (0, fd, s)) (hfile : fd.inode < s.numFiles)
    (hsize : (s.fileSize fd.inode.toNat).toNat < 2 ^ 31) (calls : List StreamCall) :
    ∃ fd', StreamCall.performAll calls fd s =
        (((Stream.start (s.fileBytes fd.inode.toNat)).run (calls.map StreamCall.op)).1.map
          StreamCall.expected, fd', s) ∧
      fd' = { fd with position := fd'.position } ∧
      s.Serves fd' (s.fileBytes fd.inode.toNat) := by
  have h := Initrd.reads_of_open hopen hfile hsize
  exact ⟨_, h.performAll calls, rfl, (h.move (Stream.run_contents _ _)).serves⟩

/-- A ramdisk with one file, `a`, that says `hi`. -/
def Initrd.greeting : Initrd where
  mem := (((((Mem.write32 (fun _ => 0) 0x200000 initrdMagic).write32 0x200004 1).write 0x200008
    0x61).write32 0x200028 2).write 0x200C08 0x68).write 0x200C09 0x69
  header := 0x200000
  data := 0x200C08
  tempHeader := 0x110000
  tempFiles := 0x111000
  tempData := 0x112000
  currentFile := 0

/-- One byte is read, then what is left of five. -/
theorem reads_and_seeks_stream_sample : ∃ fd', StreamCall.performAll [.read 1, .seek 3, .read 5]
    ⟨0, 0, 0, 2, 0⟩ Initrd.greeting = ([(1, [0x68]), (-1, []), (1, [0x69])], fd', Initrd.greeting) := by
  have hopen : initrdOpen (.ofText [0x61]) ⟨0, 0, 0, 0, 0⟩ Initrd.greeting =
      (0, ⟨0, 0, 0, 2, 0⟩, Initrd.greeting) := by
    have hfind : Initrd.greeting.findFile (.ofText [0x61]) = some 0 := by decide
    rw [initrdOpen, if_neg (by decide), hfind]
    rfl
  obtain ⟨fd', hcalls, -⟩ := reads_and_seeks_stream hopen (by decide) (by decide)
    [.read 1, .seek 3, .read 5]
  exact ⟨fd', hcalls⟩

end Lbos

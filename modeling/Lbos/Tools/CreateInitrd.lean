import Lbos.CString
import Lbos.Lib.Bytes

/-! The host program `tools/create_initrd.c`, which writes the image of the initial ramdisk. -/

namespace Lbos.CreateInitrd

open Lib

def initrdMagic : Word := 0xBF

def maxFiles : Nat := 64

def fsTypeFile : Word := 0

def fsPermRead : Word := 0x1

/-- The size of `name` in `initrd_file_header_t`. -/
def nameSize : Nat := 32

/-- `initrd_file_header_t`. -/
structure FileHeader where
  name : List Byte
  size : Word
  offset : Word
  type : Word
  permissions : Word
  name_length : name.length = nameSize

/-- `initrd_header_t`. -/
structure Header where
  magic : Word
  numFiles : Word
  files : List FileHeader
  files_length : files.length = maxFiles

/-- A structure as it lies in memory, and in the file. -/
def FileHeader.bytes (f : FileHeader) : List Byte :=
  f.name ++ (wordBytes f.size ++ (wordBytes f.offset ++ (wordBytes f.type ++
    wordBytes f.permissions)))

def Header.bytes (h : Header) : List Byte :=
  wordBytes h.magic ++ (wordBytes h.numFiles ++ h.files.flatMap FileHeader.bytes)

def FileHeader.zero : FileHeader :=
  ⟨List.replicate nameSize 0, 0, 0, 0, 0, List.length_replicate⟩

/-- A file that is being written: its bytes and the position. -/
structure Output where
  bytes : List Byte
  pos : Nat

namespace Output

variable (f : Output)

def fwrite (data : List Byte) : Output :=
  ⟨f.bytes.take f.pos ++ data ++ f.bytes.drop (f.pos + data.length), f.pos + data.length⟩

/-- `fseek(f, offset, SEEK_SET)`. -/
def seekSet (offset : Nat) : Output := { f with pos := offset }

/-- `fseek(f, 0, SEEK_END)`. -/
def seekEnd : Output := { f with pos := f.bytes.length }

end Output

/-- The loop of `add_file` that copies the input through a buffer of 1024 bytes. -/
def copyInput (input : List Byte) (output : Output) : Output :=
  if input = [] then output
  else copyInput (input.drop 1024) (output.fwrite (input.take 1024))
  termination_by input.length
  decreasing_by
    rename_i hne
    have hpos := List.length_pos_iff.mpr hne
    rw [List.length_drop]
    omega

/-- `add_file`, with what `fopen(filepath)` gives to read.  A write behind the array of the header's
files gives `none`. -/
def addFile (header : Header) (output : Output) (filename : List Byte) :
    Option (List Byte) → Option (Header × Output)
  | none => some (header, output)
  | some input =>
    let n := header.numFiles.toNat
    match header.files[n]? with
    | none => none
    | some old =>
      let fileSize := BitVec.ofNat 32 input.length
      let offset := (header.files.take n).foldl (fun offset f => offset + f.size) 0
      let file : FileHeader := {
        name := (strncpy old.name filename 31).set 31 0
        size := fileSize
        offset
        type := fsTypeFile
        permissions := fsPermRead
        name_length := by rw [List.length_set, length_strncpy, old.name_length] }
      some ({ header with
        files := header.files.set n file
        numFiles := header.numFiles + 1
        files_length := by rw [List.length_set, header.files_length] },
        copyInput input output.seekEnd)

/-- The part of a string from the last occurrence of a character on. -/
def strrchr : List Byte → Byte → Option (List Byte)
  | [], _ => none
  | d :: s, c =>
    match if d = 0 then none else strrchr s c with
    | some found => some found
    | none => if d = c then some (d :: s) else none

/-- The name of a file without its directory. -/
def baseName (filepath : List Byte) : List Byte :=
  match strrchr filepath 0x2F with
  | some filename => filename.tail
  | none => filepath

/-- An argument of the program: the path, and what `fopen` gives to read. -/
abbrev Argument := CString × Option (List Byte)

/-- The loop of `main` over the files. -/
def addFiles : List Argument → Header × Output → Option (Header × Output)
  | [], st => some st
  | (filepath, input) :: args, (header, output) =>
    (addFile header output (baseName filepath.bytes) input).bind (addFiles args)

def signature : List Byte := [0x49, 0x4E, 0x49, 0x54, 0x52, 0x44, 0, 0]

def initialHeader : Header :=
  ⟨initrdMagic, 0, List.replicate maxFiles .zero, List.length_replicate⟩

/-- The bytes that `main` writes to an output that it can create.  It asks for at least one file. -/
def createInitrd (args : List Argument) : Option (List Byte) :=
  if args.isEmpty then none
  else
    let output : Output := ⟨[], 0⟩
    let output := output.fwrite signature
    let output := output.fwrite initialHeader.bytes
    (addFiles args (initialHeader, output)).map fun st => ((st.2.seekSet 8).fwrite st.1.bytes).bytes

/-! ### Names -/

theorem strrchr_some {s found : List Byte} {c : Byte} (hc : c ≠ 0) (h : strrchr s c = some found) :
    ∃ rest, found = c :: rest ∧ (0 ∈ s → 0 ∈ rest) := by
  induction s generalizing found with
  | nil => cases h
  | cons d s ih =>
    rw [strrchr] at h
    by_cases hd : d = 0
    · rw [if_pos hd, hd] at h
      have hstop : 0 = c ∧ 0 :: s = found := by simpa using h
      exact absurd hstop.1.symm hc
    · rw [if_neg hd] at h
      cases hrest : strrchr s c with
      | some found' =>
        rw [hrest] at h
        obtain rfl := Option.some.inj h
        obtain ⟨rest, hfound, hmem⟩ := ih hrest
        exact ⟨rest, hfound, fun hz => hmem ((List.mem_cons.mp hz).resolve_left (Ne.symm hd))⟩
      | none =>
        rw [hrest] at h
        by_cases heq : d = c
        · simp only [heq, if_true] at h
          obtain rfl := Option.some.inj h
          exact ⟨s, rfl, fun hz => (List.mem_cons.mp hz).resolve_left (Ne.symm hd)⟩
        · simp [heq] at h

theorem zero_mem_baseName {s : List Byte} (h : 0 ∈ s) : 0 ∈ baseName s := by
  rw [baseName]
  split
  · next found hfound =>
    obtain ⟨rest, rfl, hmem⟩ := strrchr_some (by decide) hfound
    exact hmem h
  · exact h

/-! ### What the program writes -/

theorem FileHeader.length_bytes (f : FileHeader) : f.bytes.length = 48 := by
  simp [FileHeader.bytes, f.name_length, nameSize]

theorem Header.length_bytes (h : Header) : h.bytes.length = 3080 := by
  have hfiles : (h.files.flatMap FileHeader.bytes).length = 64 * 48 := by
    have hconst : ∀ fs : List FileHeader, (fs.flatMap FileHeader.bytes).length = fs.length * 48 := by
      intro fs
      induction fs with
      | nil => rfl
      | cons f fs ih =>
        rw [List.flatMap_cons, List.length_append, ih, f.length_bytes, List.length_cons]
        omega
    rw [hconst, h.files_length]
    rfl
  simp [Header.bytes, hfiles]

/-- Writing at the end appends. -/
theorem Output.fwrite_end {f : Output} (h : f.pos = f.bytes.length) (data : List Byte) :
    f.fwrite data = ⟨f.bytes ++ data, (f.bytes ++ data).length⟩ := by
  rw [Output.fwrite, h, List.take_length, List.drop_eq_nil_of_le (Nat.le_add_right _ _),
    List.append_nil, List.length_append]

theorem copyInput_end (input : List Byte) {output : Output}
    (h : output.pos = output.bytes.length) :
    copyInput input output = ⟨output.bytes ++ input, (output.bytes ++ input).length⟩ := by
  induction input, output using copyInput.induct with
  | case1 output =>
    rw [copyInput, if_pos rfl, List.append_nil, ← h]
  | case2 input output hne ih =>
    rw [copyInput, if_neg hne, ih (by rw [Output.fwrite_end h]), Output.fwrite_end h,
      List.append_assoc, List.take_append_drop]

/-- A file as an argument that can be read. -/
abbrev HostFile := CString × List Byte

def HostFile.argument (f : HostFile) : Argument := (f.1, some f.2)

/-- The characters of a file's name, as the image has them. -/
def HostFile.name (f : HostFile) : List Byte := text (baseName f.1.bytes)

/-- The sum of the sizes of some files. -/
def totalSize (files : List HostFile) : Nat := (files.map fun f => f.2.length).sum

/-- The header of a file whose data come at an offset. -/
def HostFile.header (f : HostFile) (offset : Word) : FileHeader where
  name := (strncpy (List.replicate nameSize 0) (baseName f.1.bytes) 31).set 31 0
  size := BitVec.ofNat 32 f.2.length
  offset
  type := fsTypeFile
  permissions := fsPermRead
  name_length := by rw [List.length_set, length_strncpy, List.length_replicate]

/-- The headers of some files whose data come one after the other from an offset on. -/
def fileHeaders : Nat → List HostFile → List FileHeader
  | _, [] => []
  | offset, f :: files =>
    f.header (BitVec.ofNat 32 offset) :: fileHeaders (offset + f.2.length) files

@[simp] theorem length_fileHeaders (offset : Nat) (files : List HostFile) :
    (fileHeaders offset files).length = files.length := by
  induction files generalizing offset with
  | nil => rfl
  | cons f files ih => rw [fileHeaders, List.length_cons, List.length_cons, ih]

theorem totalSize_cons (f : HostFile) (files : List HostFile) :
    totalSize (f :: files) = f.2.length + totalSize files := by
  rw [totalSize, List.map_cons, List.sum_cons, totalSize]

theorem getElem?_fileHeaders (offset i : Nat) (files : List HostFile) :
    (fileHeaders offset files)[i]? =
      files[i]?.map fun f => f.header (BitVec.ofNat 32 (offset + totalSize (files.take i))) := by
  induction files generalizing offset i with
  | nil => rfl
  | cons f files ih =>
    rw [fileHeaders]
    cases i with
    | zero => rfl
    | succ i =>
      rw [List.getElem?_cons_succ, List.getElem?_cons_succ, ih, List.take_succ_cons,
        totalSize_cons, Nat.add_assoc]

theorem fileHeaders_append (offset : Nat) (files : List HostFile) (f : HostFile) :
    fileHeaders offset (files ++ [f]) =
      fileHeaders offset files ++ [f.header (BitVec.ofNat 32 (offset + totalSize files))] := by
  induction files generalizing offset with
  | nil => rfl
  | cons g files ih =>
    rw [List.cons_append, fileHeaders, fileHeaders, ih, totalSize_cons, Nat.add_assoc,
      List.cons_append]

/-- `add_file` finds the offset by adding up the sizes. -/
theorem foldl_size (offset : Nat) (files : List HostFile) (start : Word) :
    (fileHeaders offset files).foldl (fun total f => total + f.size) start =
      start + BitVec.ofNat 32 (totalSize files) := by
  induction files generalizing offset start with
  | nil => exact (BitVec.add_zero start).symm
  | cons f files ih =>
    rw [fileHeaders, List.foldl_cons, ih, totalSize_cons, HostFile.header, Mem.add_ofNat_add]

/-- The header and the output when some files have been added. -/
structure Written (files : List HostFile) (st : Header × Output) : Prop where
  magic : st.1.magic = initrdMagic
  numFiles : st.1.numFiles = BitVec.ofNat 32 files.length
  headers : st.1.files = fileHeaders 0 files ++ List.replicate (maxFiles - files.length) .zero
  bytes : st.2.bytes = signature ++ (initialHeader.bytes ++ (files.map Prod.snd).flatten)

theorem Written.addFile {files : List HostFile} {st : Header × Output} (h : Written files st)
    (hlt : files.length < maxFiles) (f : HostFile) :
    ∃ st', addFile st.1 st.2 (baseName f.1.bytes) (some f.2) = some st' ∧
      Written (files ++ [f]) st' := by
  have hmax : maxFiles = 64 := rfl
  have hn : st.1.numFiles.toNat = files.length := by
    rw [h.numFiles, BitVec.toNat_ofNat]
    omega
  obtain ⟨k, hk⟩ := Nat.exists_eq_add_of_lt hlt
  have hfree : maxFiles - files.length = k + 1 := by omega
  have hold : st.1.files[files.length]? = some .zero := by
    rw [h.headers, hfree, List.getElem?_append_right (by rw [length_fileHeaders]),
      length_fileHeaders, Nat.sub_self]
    rfl
  have hoffset : (st.1.files.take files.length).foldl (fun total f => total + f.size) 0 =
      BitVec.ofNat 32 (totalSize files) := by
    rw [h.headers, List.take_left' (length_fileHeaders ..), foldl_size]
    exact BitVec.zero_add _
  simp only [CreateInitrd.addFile, hn, hold, hoffset]
  refine ⟨_, rfl, h.magic, ?_, ?_, ?_⟩
  · show st.1.numFiles + 1 = _
    rw [h.numFiles, List.length_append, List.length_singleton, BitVec.ofNat_add]
    rfl
  · simp only [h.headers, hfree]
    rw [List.set_append_right _ _ (by rw [length_fileHeaders]), length_fileHeaders, Nat.sub_self,
      List.replicate_succ, List.set_cons_zero, fileHeaders_append, List.append_assoc,
      List.length_append, List.length_singleton, show maxFiles - (files.length + 1) = k by omega,
      Nat.zero_add]
    rfl
  · have hcopy := copyInput_end f.2 (show st.2.seekEnd.pos = st.2.seekEnd.bytes.length from rfl)
    have hbytes : (copyInput f.2 st.2.seekEnd).bytes = st.2.bytes ++ f.2 := by
      rw [hcopy]
      rfl
    show (copyInput f.2 st.2.seekEnd).bytes = _
    rw [hbytes, h.bytes, List.map_append, List.flatten_append, List.map_singleton,
      List.flatten_singleton, List.append_assoc, List.append_assoc]

theorem Written.addFiles {done : List HostFile} {st : Header × Output} (h : Written done st)
    (files : List HostFile) (hle : (done ++ files).length ≤ maxFiles) :
    ∃ st', addFiles (files.map HostFile.argument) st = some st' ∧ Written (done ++ files) st' := by
  induction files generalizing done st with
  | nil => exact ⟨st, rfl, by rwa [List.append_nil]⟩
  | cons f files ih =>
    rw [List.length_append, List.length_cons] at hle
    obtain ⟨st₁, hadd, h₁⟩ := h.addFile (by omega) f
    obtain ⟨st₂, hrest, h₂⟩ := ih h₁ (by
      rw [List.length_append, List.length_append, List.length_singleton]
      omega)
    rw [List.append_assoc, List.singleton_append] at h₂
    refine ⟨st₂, ?_, h₂⟩
    rw [List.map_cons, HostFile.argument, CreateInitrd.addFiles, hadd]
    exact hrest

/-- The image: the signature, the header, and the contents of the files. -/
theorem createInitrd_eq {files : List HostFile} (hsome : files ≠ []) (hle : files.length ≤ maxFiles) :
    ∃ header : Header, header.magic = initrdMagic ∧
      header.numFiles = BitVec.ofNat 32 files.length ∧
      header.files = fileHeaders 0 files ++ List.replicate (maxFiles - files.length) .zero ∧
      createInitrd (files.map HostFile.argument) =
        some (signature ++ (header.bytes ++ (files.map Prod.snd).flatten)) := by
  have hinit : Written [] (initialHeader,
      ((⟨[], 0⟩ : Output).fwrite signature).fwrite initialHeader.bytes) := by
    refine ⟨rfl, rfl, rfl, ?_⟩
    rw [Output.fwrite_end (by rw [Output.fwrite_end rfl]), Output.fwrite_end rfl]
    simp
  obtain ⟨⟨header, output⟩, hadd, h⟩ := hinit.addFiles files hle
  refine ⟨header, h.magic, h.numFiles, h.headers, ?_⟩
  have hargs : (files.map HostFile.argument).isEmpty = false := by simpa using hsome
  rw [createInitrd, hargs, if_neg Bool.false_ne_true]
  simp only [hadd]
  rw [Option.map_some, Output.fwrite, Output.seekSet, h.bytes]
  have hlen := header.length_bytes
  have hsign : signature.length = 8 := rfl
  simp only [List.take_left' hsign, List.append_assoc, hlen, Option.some.injEq]
  rw [show 8 + 3080 = signature.length + initialHeader.bytes.length by
    rw [Header.length_bytes, hsign], ← List.drop_drop, List.drop_left, List.drop_left,
    List.nil_append]

end Lbos.CreateInitrd

import Lbos.Fs.FileService
import Lbos.Fs.ImageRoundTrip
import Lbos.Kernel.BootModules
import Lbos.Log

/-! What `kmain` does with ramdisks: the first module that is one is mounted, its root directory
listed and three files read, through buffers on the stack.  The logs are those of the functions of
`kmain.c`, without what the file systems log themselves. -/

namespace Lbos

open Lib Mem CreateInitrd

/-- An argument of a format: a string, or a word for `%d` and `%x`. -/
inductive LogArgument where
  | string (s : List Byte)
  | word (w : Word)
  deriving DecidableEq

/-- `log_write`, called through the macro of the level, or `LOG_LINE`. -/
inductive Logged where
  | write (level : LogLevel) (format : String) (args : List LogArgument)
  | line
  deriving DecidableEq

def logInfo (format : String) (args : List LogArgument) : Logged := .write .info format args

def logError (format : String) (args : List LogArgument) : Logged := .write .error format args

/-- An array after bytes are stored from its beginning on: nothing if they go beyond its end. -/
def storeBytes (buffer bytes : List Byte) : Option (List Byte) :=
  if bytes.length ≤ buffer.length then some (bytes ++ buffer.drop bytes.length) else none

/-- `buffer[i] = c`. -/
def storeAt (buffer : List Byte) (i : Int) (c : Byte) : Option (List Byte) :=
  if 0 ≤ i ∧ i.toNat < buffer.length then some (buffer.set i.toNat c) else none

/-- The local variables of the two functions, with what the stack happens to hold. -/
structure TestLocals where
  fd : FsDescriptor
  buffer : List Byte
  name : List Byte
  length_buffer : buffer.length = 512
  length_name : name.length = 64

namespace Vfs

variable {σ : Type} (v : Vfs) (fs : Word → FsOps σ)

/-- The log, and the state of the file systems; nothing where a byte goes beyond `buffer`. -/
def testReadFile (path : CString) (locals : TestLocals) (s : σ) : Option (List Logged × σ) :=
  let testing := logInfo "Testing read for file: %s" [.string path.text]
  let (r, fd, s) := v.openFile fs path locals.fd s
  if r ≠ 0 then some ([testing, logError "Failed to open file: %s" [.string path.text]], s)
  else
    let opened := logInfo "Opened file %s (size: %d bytes)" [.string path.text, .word fd.size]
    if locals.buffer.length ≤ fd.size.toNat then
      let (_, _, s) := v.closeFile fs fd s
      some ([testing, opened, logError "File too large for buffer" []], s)
    else
      let (bytesRead, bytes, fd, s) := v.readFile fs fd fd.size s
      (storeBytes locals.buffer bytes).bind fun buffer =>
        if bytesRead < 0 then
          let (_, _, s) := v.closeFile fs fd s
          some ([testing, opened, logError "Error reading file" []], s)
        else
          (storeAt buffer bytesRead 0).map fun buffer =>
            let (_, _, s) := v.closeFile fs fd s
            ([testing, opened,
              logInfo "Read %d bytes from file" [.word (BitVec.ofInt 32 bytesRead)],
              logInfo "File contents: %s" [.string (text buffer)]], s)

/-- The loop of `test_list_directory`, for as many rounds at most: nothing if there are more. -/
def testListLoop : Nat → FsDescriptor → List Byte → σ → Option (List Logged × FsDescriptor × σ)
  | 0, _, _, _ => none
  | rounds + 1, fd, name, s =>
    let (r, name, fd, s) := v.readDirectory fs fd name 64 s
    if r ≠ 0 then
      (testListLoop rounds fd name s).map fun (logs, fd, s) =>
        (logInfo "  %s" [.string (text name)] :: logs, fd, s)
    else some ([], fd, s)

def testListDirectory (rounds : Nat) (locals : TestLocals) (s : σ) : Option (List Logged × σ) :=
  let listing := logInfo "Listing root directory contents:" []
  let (r, fd, s) := v.openFile fs (.ofText [slash]) locals.fd s
  if r ≠ 0 then some ([listing, logError "Failed to open root directory" []], s)
  else
    (v.testListLoop fs rounds fd locals.name s).map fun (logs, fd, s) =>
      let (_, _, s) := v.closeFile fs fd s
      (listing :: logs ++ [.line], s)

end Vfs

/-! ### The loop over the modules -/

/-- `multiboot_module_t`, with the string that `cmdline` leads to, where it is not null. -/
structure NamedModule extends MultibootModule where
  cmdline : Option CString

namespace Vfs

def helloPath : CString := .ofText ("/hello.txt".toList.map charByte)

def testPath : CString := .ofText ("/test.txt".toList.map charByte)

def readmePath : CString := .ofText ("/README.txt".toList.map charByte)

section Ramdisk

variable (fs : Word → FsOps Initrd) (ops : Word) (rounds : Nat) (locals : Nat → TestLocals)

/-- The part of the loop of `kmain` for a ramdisk at an address, where `ops` is
`get_initrd_ops()`. -/
def mountRamdisk (loc : Word) (st : Vfs × Initrd) : Option (List Logged × Vfs × Initrd) :=
  let s := st.2.initInitrd loc
  let (r, v) := st.1.mountFs (.ofText [slash]) (.ofText ("initrd".toList.map charByte)) ops 0
  if r = 0 then do
    let (listed, s) ← v.testListDirectory fs rounds (locals 0) s
    let (hello, s) ← v.testReadFile fs helloPath (locals 1) s
    let (test, s) ← v.testReadFile fs testPath (locals 2) s
    let (readme, s) ← v.testReadFile fs readmePath (locals 3) s
    some (logInfo "Successfully mounted initrd filesystem at /" [] ::
      (listed ++ hello ++ test ++ readme), v, s)
  else some ([logError "Failed to mount initrd filesystem" []], v, s)

/-- What is logged of each module. -/
def moduleReport (pm : PhysMem) (module : NamedModule) (i : Nat) : List Logged :=
  [logInfo "Module %d physical address: 0x%x - 0x%x (size: %d bytes)"
      [.word (BitVec.ofNat 32 i), .word module.modStart, .word module.modEnd,
        .word (module.modEnd - module.modStart)],
    logInfo "Module %d virtual address: 0x%x"
      [.word (BitVec.ofNat 32 i), .word (pm.physToVirt module.modStart)]] ++
    match module.cmdline with
    | none => []
    | some cmdline =>
      [logInfo "Module %d cmdline: %s" [.word (BitVec.ofNat 32 i), .string cmdline.text]]

/-- A round of the loop, without the process that the first module becomes. -/
def visitModule (pm : PhysMem) (module : NamedModule) (i : Nat) (st : Vfs × Initrd) :
    Option (List Logged × Vfs × Initrd) :=
  if module.cmdline.isSome ∧ 0 < i then
    (mountRamdisk fs ops rounds locals (pm.physToVirt module.modStart) st).map fun (logs, st) =>
      (moduleReport pm module i ++
        logInfo "Found initrd module at index %d" [.word (BitVec.ofNat 32 i)] :: logs, st)
  else some (moduleReport pm module i, st)

def visitModules (pm : PhysMem) :
    List (NamedModule × Nat) → Vfs × Initrd → Option (List Logged × Vfs × Initrd)
  | [], st => some ([], st)
  | (module, i) :: modules, st => do
    let (logs, st) ← visitModule fs ops rounds locals pm module i st
    let (rest, st) ← visitModules pm modules st
    some (logs ++ rest, st)

end Ramdisk

end Vfs

/-! ### The buffer for a file -/

section Buffer

variable {buffer bytes : List Byte}

theorem storeBytes_some (h : bytes.length ≤ buffer.length) :
    storeBytes buffer bytes = some (bytes ++ buffer.drop bytes.length) := if_pos h

theorem text_append_zero (s rest : List Byte) : text (s ++ 0 :: rest) = text s := by
  induction s with
  | nil => rfl
  | cons c s ih => simp only [text, List.cons_append, List.takeWhile_cons] at ih ⊢; rw [ih]

/-- A string that is stored with room for its terminator reads up to its first zero byte. -/
theorem storeAt_text (h : bytes.length < buffer.length) :
    ∃ buffer', storeAt (bytes ++ buffer.drop bytes.length) bytes.length 0 = some buffer' ∧
      text buffer' = text bytes := by
  have hroom : (bytes.length : Int).toNat < (bytes ++ buffer.drop bytes.length).length := by
    simp only [Int.toNat_natCast, List.length_append, List.length_drop]
    omega
  refine ⟨_, if_pos ⟨Int.natCast_nonneg _, hroom⟩, ?_⟩
  obtain ⟨c, rest, hrest⟩ : ∃ c rest, buffer.drop bytes.length = c :: rest :=
    List.exists_cons_of_ne_nil (by simp [h])
  rw [Int.toNat_natCast, hrest, List.set_append_right _ _ (Nat.le_refl _), Nat.sub_self,
    List.set_cons_zero, text_append_zero]

end Buffer

/-! ### On the ramdisk -/

/-- What is logged of a file's size and contents. -/
def fileReport (path bytes : List Byte) : List Logged :=
  logInfo "Opened file %s (size: %d bytes)" [.string path, .word (BitVec.ofNat 32 bytes.length)] ::
    if 512 ≤ bytes.length then [logError "File too large for buffer" []]
    else [logInfo "Read %d bytes from file" [.word (BitVec.ofNat 32 bytes.length)],
      logInfo "File contents: %s" [.string (text bytes)]]

/-- What `test_read_file` is to log, with these files. -/
def readReport (files : List (List Byte × List Byte)) (path : List Byte) : List Logged :=
  let failed := [logError "Failed to open file: %s" [.string path]]
  logInfo "Testing read for file: %s" [.string path] ::
    match FileOp.target path with
    | .nothing => failed
    | .directory =>
      [logInfo "Opened file %s (size: %d bytes)" [.string path, .word 0],
        logError "Error reading file" []]
    | .file name =>
      match files.find? (·.1 = name) with
      | none => failed
      | some file => fileReport path file.2

/-- What `test_list_directory` is to log of files with these names. -/
def listReport (names : List (List Byte)) : List Logged :=
  logInfo "Listing root directory contents:" [] ::
    names.map (fun name => logInfo "  %s" [.string (name.take 63)]) ++ [.line]

/-- A read of as much as a file has. -/
theorem Initrd.read_whole {s : Initrd} {path : CString} {i : Nat}
    (hfind : s.findFile path = some i) (type permissions : Word) :
    ∃ fd, initrdRead ⟨BitVec.ofNat 32 i, 0, type, s.fileSize i, permissions⟩ (s.fileSize i) s =
      ((s.fileSize i).toInt, s.fileBytes i, fd, s) := by
  obtain ⟨hval, hlt⟩ := inode_lt hfind
  obtain ⟨toRead, hmin, hread⟩ := @initrdRead_file
    ⟨BitVec.ofNat 32 i, 0, type, s.fileSize i, permissions⟩ s hlt (s.fileSize i)
  have hall : toRead = s.fileSize i := by
    refine BitVec.eq_of_toNat_eq ?_
    simpa [hval] using hmin
  have hbytes : s.mem.bytes (s.data + s.fileOffset i + 0) (s.fileSize i).toNat = s.fileBytes i :=
    congrArg (s.mem.bytes · _) (BitVec.add_zero _)
  simp only [hval, hall, hbytes] at hread
  exact ⟨_, hread⟩

/-- The file that is found is the first of its name. -/
theorem Initrd.Shows.find?_of_findFile {s : Initrd} {files : List HostFile} (h : s.Shows files)
    {path : CString} {q : List Byte} (hpath : path.text = slash :: q) {i : Nat}
    (hfind : s.findFile path = some i) :
    ∃ f, (named files).find? (·.1 = q) = some f ∧ s.fileBytes i = f.2 := by
  rw [h.findFile_findIdx? hpath] at hfind
  obtain ⟨hlt, -⟩ := List.findIdx?_eq_some_iff_getElem.mp hfind
  refine ⟨(named files)[i], ?_, ?_⟩
  · rw [List.find?_eq_bind_findIdx?_getElem?, hfind, Option.bind_some, List.getElem?_eq_getElem hlt]
  · rw [named, List.length_map] at hlt
    simpa [named] using h.fileBytes (List.getElem?_eq_getElem hlt)

namespace Vfs

section Rooted

variable {v : Vfs} {ops : Word} (hv : v.Rooted ops) {fs : Word → FsOps Initrd}
variable (hfs : fs ops = initrdOps)
include hv hfs

/-- A file is opened, and found too large or read to its end. -/
theorem Rooted.testReadFile_found {path : CString} {q : List Byte} (hpath : path.text = slash :: q)
    (hq : q ≠ []) {s : Initrd} {i : Nat} (hfind : s.findFile path = some i) (locals : TestLocals) :
    v.testReadFile fs path locals s =
      some (logInfo "Testing read for file: %s" [.string path.text] ::
        fileReport path.text (s.fileBytes i), s) := by
  have hroot : ¬path.IsRoot := by simp [Initrd.isRoot_iff, hpath, hq]
  obtain ⟨hval, hlt⟩ := Initrd.inode_lt hfind
  have hlen : (s.fileBytes i).length = (s.fileSize i).toNat := s.length_fileBytes i
  simp only [testReadFile, hv.openFile_initrd hfs hpath, Initrd.open_found hroot hfind,
    hv.closeFile_initrd hfs, locals.length_buffer, fileReport, hlen, BitVec.ofNat_toNat,
    BitVec.setWidth_eq, ne_eq, not_true_eq_false, if_false]
  by_cases hlarge : 512 ≤ (s.fileSize i).toNat
  · simp [hlarge]
  · obtain ⟨fd, hread⟩ := Initrd.read_whole hfind (s.fileType i) (s.filePermissions i)
    have hint : (s.fileSize i).toInt = ((s.fileBytes i).length : Int) := by
      rw [hlen, BitVec.toInt_eq_toNat_of_lt (by omega)]
    have hshort : (s.fileBytes i).length < locals.buffer.length := by
      rw [locals.length_buffer, hlen]
      omega
    obtain ⟨buffer', hstore, htext⟩ := storeAt_text hshort
    simp only [hlarge, if_false, hv.readFile_initrd hfs, hread, storeBytes_some hshort.le,
      Option.bind_some, hint, hstore, Option.map_some, htext]
    rw [if_neg (Int.not_lt.mpr (Int.natCast_nonneg _))]
    simp [hlen]

/-- The root directory is opened and cannot be read. -/
theorem Rooted.testReadFile_root {path : CString} (hpath : path.text = [slash]) (s : Initrd)
    (locals : TestLocals) :
    v.testReadFile fs path locals s =
      some ([logInfo "Testing read for file: %s" [.string path.text],
        logInfo "Opened file %s (size: %d bytes)" [.string path.text, .word 0],
        logError "Error reading file" []], s) := by
  have hroot : path.IsRoot := Initrd.isRoot_iff.mpr hpath
  have hstore : storeBytes locals.buffer [] = some locals.buffer :=
    storeBytes_some (Nat.zero_le _)
  simp [testReadFile, hv.openFile_initrd hfs hpath, Initrd.open_root hroot,
    hv.closeFile_initrd hfs, locals.length_buffer, hv.readFile_initrd hfs, Initrd.read_root, hstore]

/-- No path leads to another outcome, and no image makes the test leave its buffer. -/
theorem Rooted.testReadFile_eq (path : CString) (locals : TestLocals) (s : Initrd) :
    (∃ logs, v.testReadFile fs path locals s = some (logs, s)) ∧
      ∀ files, s.Shows files → v.testReadFile fs path locals s =
        some (readReport (Initrd.named files) path.text, s) := by
  by_cases habsolute : path.text.head? = some slash
  · obtain ⟨q, hpath⟩ := List.head?_eq_some_iff.mp habsolute
    by_cases hq : q = []
    · have hrun := hv.testReadFile_root hfs (hq ▸ hpath) s locals
      refine ⟨⟨_, hrun⟩, fun files _ => hrun.trans ?_⟩
      simp [readReport, FileOp.target, hpath, hq]
    · cases hfind : s.findFile path with
      | some i =>
        have hrun := hv.testReadFile_found hfs hpath hq hfind locals
        refine ⟨⟨_, hrun⟩, fun files h => hrun.trans ?_⟩
        obtain ⟨f, hf, hbytes⟩ := h.find?_of_findFile hpath hfind
        simp [readReport, FileOp.target, hpath, hq, hf, hbytes]
      | none =>
        have hopen : initrdOpen path locals.fd s = (-1, locals.fd, s) := by
          have hroot : ¬path.IsRoot := by simp [Initrd.isRoot_iff, hpath, hq]
          rw [initrdOpen, if_neg hroot, hfind]
        have hrun : v.testReadFile fs path locals s =
            some ([logInfo "Testing read for file: %s" [.string path.text],
              logError "Failed to open file: %s" [.string path.text]], s) := by
          simp [testReadFile, hv.openFile_initrd hfs hpath, hopen]
        refine ⟨⟨_, hrun⟩, fun files h => hrun.trans ?_⟩
        have hnone : (Initrd.named files).find? (·.1 = q) = none := by
          rw [List.find?_eq_bind_findIdx?_getElem?, ← h.findFile_findIdx? hpath, hfind,
            Option.bind_none]
        simp [readReport, FileOp.target, hpath, hq, hnone]
  · have hrun : v.testReadFile fs path locals s =
        some ([logInfo "Testing read for file: %s" [.string path.text],
          logError "Failed to open file: %s" [.string path.text]], s) := by
      simp [testReadFile, openFile_fails fs (hv.pathOps_relative habsolute)]
    refine ⟨⟨_, hrun⟩, fun files _ => hrun.trans ?_⟩
    rw [readReport, FileOp.target_relative habsolute]

/-- The loop tells the names from the place of the listing on, and leaves that at the beginning. -/
theorem Rooted.testListLoop_eq {rounds : Nat} (fd : FsDescriptor) (htype : fd.type = fsTypeDirectory)
    {name : List Byte} (hname : name.length = 64) {s : Initrd}
    (hrounds : s.numFiles.toNat - s.currentFile.toNat < rounds) :
    ∃ logs, v.testListLoop fs rounds fd name s = some (logs, fd, { s with currentFile := 0 }) ∧
      ∀ files, s.Shows files → logs = (files.drop s.currentFile.toNat).map fun f =>
        logInfo "  %s" [.string (f.name.take 63)] := by
  induction rounds generalizing name s with
  | zero => exact absurd hrounds (Nat.not_lt_zero _)
  | succ rounds ih =>
    by_cases hend : s.numFiles ≤ s.currentFile
    · have hread : v.readDirectory fs fd name 64 s = (0, name, fd, { s with currentFile := 0 }) := by
        rw [hv.readDirectory_initrd hfs, initrdReaddir, if_pos htype, if_pos hend]
      refine ⟨[], by rw [testListLoop, hread]; rfl, fun files h => ?_⟩
      rw [BitVec.le_def, h.numFiles] at hend
      rw [List.drop_eq_nil_of_le hend, List.map_nil]
    · have hread : v.readDirectory fs fd name 64 s = (1,
          (strncpy name (cstr s.mem (s.file s.currentFile.toNat)) 63).set 63 0, fd,
          { s with currentFile := s.currentFile + 1 }) := by
        rw [hv.readDirectory_initrd hfs, initrdReaddir, if_pos htype, if_neg hend]
        rfl
      rw [BitVec.le_def, Nat.not_le] at hend
      have hnext : (s.currentFile + 1).toNat = s.currentFile.toNat + 1 := by
        have hlt := s.numFiles.isLt
        rw [BitVec.toNat_add, Nat.mod_eq_of_lt (by simp; omega)]
        rfl
      obtain ⟨logs, hrun, hlogs⟩ := @ih
        ((strncpy name (cstr s.mem (s.file s.currentFile.toNat)) 63).set 63 0)
        (by simp [hname]) { s with currentFile := s.currentFile + 1 } (by
          have hnum : ({ s with currentFile := s.currentFile + 1 } : Initrd).numFiles = s.numFiles :=
            rfl
          simp only [hnum, hnext]
          omega)
      refine ⟨_, by simp only [testListLoop, hread, hrun]; rfl, fun files h => ?_⟩
      have hlt : s.currentFile.toNat < files.length := by rwa [← h.numFiles]
      have hf := List.getElem?_eq_getElem hlt
      obtain ⟨hterm, htext⟩ := h.name _ _ hf
      rw [hlogs files (h.setCurrentFile _), List.drop_eq_getElem_cons hlt, List.map_cons, hnext,
        text_strncpy name hterm (by omega), htext]

/-- The listing of the root directory ends, whatever the image. -/
theorem Rooted.testListDirectory_eq {rounds : Nat} (locals : TestLocals) {s : Initrd}
    (hrounds : s.numFiles.toNat < rounds) :
    ∃ logs, v.testListDirectory fs rounds locals s = some (logs, { s with currentFile := 0 }) ∧
      ∀ files, s.Shows files → s.currentFile = 0 → logs = listReport (files.map HostFile.name) := by
  have hpath : (CString.ofText [slash]).text = [slash] := by decide
  have hroot : (CString.ofText [slash]).IsRoot := by decide
  have hleft : s.numFiles.toNat - s.currentFile.toNat < rounds := by omega
  obtain ⟨logs, hrun, hlogs⟩ := hv.testListLoop_eq hfs
    ⟨0xFFFFFFFF, 0, fsTypeDirectory, 0, fsPermRead⟩ rfl locals.length_name hleft
  refine ⟨logInfo "Listing root directory contents:" [] :: logs ++ [.line], ?_,
    fun files h hplace => ?_⟩
  · simp only [testListDirectory, hv.openFile_initrd hfs hpath, Initrd.open_root hroot, hrun]
    rw [if_neg (by decide), Option.map_some, hv.closeFile_initrd hfs]
  · rw [hlogs files h, hplace]
    simp [listReport, Function.comp_def]

end Rooted

/-- The root is mounted where nothing else is. -/
theorem rooted_of_empty {v : Vfs} (hempty : v.numMountPoints = 0) (device : CString) (ops : Word) :
    ∃ v', v.mountFs (.ofText [slash]) device ops 0 = (0, v') ∧ v'.Rooted ops := by
  have h := only_mountFs hempty (m := .ofText [slash]) (by decide) device ops 0
  have hnone : v.findPath (.ofText [slash]) = none := by
    cases hfind : v.findPath (.ofText [slash]) with
    | none => rfl
    | some i => exact absurd (hempty ▸ findPath_lt hfind) (Nat.not_lt_zero _)
  obtain ⟨v', idx, hr, -⟩ := mountFs_accepted (hempty ▸ maxMountPoints_pos) hnone device ops 0
  rw [hr] at h
  exact ⟨v', hr, h.num, h.terminated, h.path, h.ops⟩

/-- A second file system at the root is refused. -/
theorem Rooted.mountRamdisk_again {v : Vfs} {ops : Word} (hv : v.Rooted ops)
    (fs : Word → FsOps Initrd) (rounds : Nat) (locals : Nat → TestLocals) (loc : Word)
    (s : Initrd) : mountRamdisk fs ops rounds locals loc (v, s) =
      some ([logError "Failed to mount initrd filesystem" []], v, s.initInitrd loc) := by
  have hroot : strcmp (v.path firstMount) (CString.ofText [slash]).bytes = some 0 := by
    rw [strcmp_eq_zero_iff hv.terminated (CString.ofText [slash]).terminated, hv.path]
    rfl
  have hfind : v.findPath (.ofText [slash]) = some firstMount := by
    have hfirst : List.finRange maxMountPoints = firstMount :: (List.finRange maxMountPoints).tail :=
      rfl
    rw [findPath, hfirst, List.find?_cons_of_pos]
    exact decide_eq_true ⟨by rw [hv.num]; exact Nat.zero_lt_one, hroot⟩
  simp only [mountRamdisk, mountFs_present _ _ _ _ hfind]
  rfl

/-- What the tests are to log of these files. -/
def ramdiskReport (files : List HostFile) : List Logged :=
  listReport (files.map HostFile.name) ++ readReport (Initrd.named files) helloPath.text ++
    readReport (Initrd.named files) testPath.text ++ readReport (Initrd.named files) readmePath.text

section Mount

variable {fs : Word → FsOps Initrd} {ops : Word} (hfs : fs ops = initrdOps) {rounds : Nat}
variable (hrounds : 2 ^ 32 ≤ rounds) (locals : Nat → TestLocals)
include hfs hrounds

/-- The first ramdisk is mounted and passes the tests. -/
theorem mountRamdisk_first {v : Vfs} (hempty : v.numMountPoints = 0) (loc : Word) (s : Initrd) :
    ∃ tests v', mountRamdisk fs ops rounds locals loc (v, s) =
        some (logInfo "Successfully mounted initrd filesystem at /" [] :: tests, v',
          { s.initInitrd loc with currentFile := 0 }) ∧
      v'.Rooted ops ∧ ∀ files, (s.initInitrd loc).Shows files → (s.initInitrd loc).currentFile = 0 →
        tests = ramdiskReport files := by
  obtain ⟨v', hmount, hv⟩ := rooted_of_empty hempty (.ofText ("initrd".toList.map charByte)) ops
  have hnum : (s.initInitrd loc).numFiles.toNat < rounds :=
    Nat.lt_of_lt_of_le (s.initInitrd loc).numFiles.isLt hrounds
  obtain ⟨listed, hlist, hlisted⟩ := hv.testListDirectory_eq hfs (locals 0) hnum
  let s' : Initrd := { s.initInitrd loc with currentFile := 0 }
  obtain ⟨⟨hello, hhello⟩, hhello'⟩ := hv.testReadFile_eq hfs helloPath (locals 1) s'
  obtain ⟨⟨test, htest⟩, htest'⟩ := hv.testReadFile_eq hfs testPath (locals 2) s'
  obtain ⟨⟨readme, hreadme⟩, hreadme'⟩ := hv.testReadFile_eq hfs readmePath (locals 3) s'
  refine ⟨listed ++ hello ++ test ++ readme, v', ?_, hv, fun files h hplace => ?_⟩
  · simp only [mountRamdisk, hmount, if_true, hlist, Option.bind_eq_bind, Option.bind_some, s'] at *
    rw [hhello, Option.bind_some, htest, Option.bind_some, hreadme, Option.bind_some]
  · have h' : s'.Shows files := h.setCurrentFile 0
    rw [hhello' files h', Option.some.injEq, Prod.mk.injEq] at hhello
    rw [htest' files h', Option.some.injEq, Prod.mk.injEq] at htest
    rw [hreadme' files h', Option.some.injEq, Prod.mk.injEq] at hreadme
    rw [hlisted files h hplace, ← hhello.1, ← htest.1, ← hreadme.1, ramdiskReport]

end Mount

end Vfs

/-! ### All modules -/

/-- A module that `kmain` takes for a ramdisk, with its index. -/
def IsRamdisk (x : NamedModule × Nat) : Prop := x.1.cmdline.isSome ∧ 0 < x.2

instance : DecidablePred IsRamdisk := fun _ => inferInstanceAs (Decidable (_ ∧ _))

/-- What is logged of a module once the root is mounted. -/
def refusedReport (pm : PhysMem) (x : NamedModule × Nat) : List Logged :=
  Vfs.moduleReport pm x.1 x.2 ++
    if IsRamdisk x then
      [logInfo "Found initrd module at index %d" [.word (BitVec.ofNat 32 x.2)],
        logError "Failed to mount initrd filesystem" []]
    else []

/-- The ramdisk after further modules: each takes the place of the one before. -/
def initRamdisks (pm : PhysMem) (modules : List (NamedModule × Nat)) (s : Initrd) : Initrd :=
  (modules.filter IsRamdisk).foldl (fun s x => s.initInitrd (pm.physToVirt x.1.modStart)) s

namespace Vfs

section Loop

variable {fs : Word → FsOps Initrd} {ops : Word} {rounds : Nat} {locals : Nat → TestLocals}
variable {pm : PhysMem}

theorem visitModules_append (modules modules' : List (NamedModule × Nat)) (st : Vfs × Initrd) :
    visitModules fs ops rounds locals pm (modules ++ modules') st =
      (visitModules fs ops rounds locals pm modules st).bind fun r =>
        (visitModules fs ops rounds locals pm modules' r.2).map fun r' => (r.1 ++ r'.1, r'.2) := by
  induction modules generalizing st with
  | nil => simp [visitModules]
  | cons x modules ih =>
    obtain ⟨module, i⟩ := x
    simp only [List.cons_append, visitModules, Option.bind_eq_bind, ih]
    cases visitModule fs ops rounds locals pm module i st with
    | none => rfl
    | some r =>
      simp only [Option.bind_some]
      cases visitModules fs ops rounds locals pm modules r.2 with
      | none => rfl
      | some r' =>
        simp only [Option.bind_some]
        cases visitModules fs ops rounds locals pm modules' r'.2 <;> simp

/-- Modules that are no ramdisks are told of, and no more. -/
theorem visitModules_plain {modules : List (NamedModule × Nat)} (h : ∀ x ∈ modules, ¬IsRamdisk x)
    (st : Vfs × Initrd) : visitModules fs ops rounds locals pm modules st =
      some (modules.flatMap fun x => moduleReport pm x.1 x.2, st) := by
  induction modules with
  | nil => rfl
  | cons x modules ih =>
    obtain ⟨module, i⟩ := x
    have hplain : ¬(module.cmdline.isSome ∧ 0 < i) := h _ List.mem_cons_self
    simp [visitModules, visitModule, hplain, ih fun x hx => h x (List.mem_cons_of_mem _ hx)]

/-- With the root mounted, ramdisks are initialised and refused. -/
theorem Rooted.visitModules {v : Vfs} (hv : v.Rooted ops) (modules : List (NamedModule × Nat))
    (s : Initrd) : visitModules fs ops rounds locals pm modules (v, s) =
      some (modules.flatMap (refusedReport pm), v, initRamdisks pm modules s) := by
  induction modules generalizing s with
  | nil => rfl
  | cons x modules ih =>
    obtain ⟨module, i⟩ := x
    by_cases hramdisk : module.cmdline.isSome ∧ 0 < i
    · have h : IsRamdisk (module, i) := hramdisk
      simp [Vfs.visitModules, visitModule, hramdisk, hv.mountRamdisk_again, ih, initRamdisks,
        refusedReport, h]
    · have h : ¬IsRamdisk (module, i) := hramdisk
      simp [Vfs.visitModules, visitModule, hramdisk, ih, initRamdisks, refusedReport, h]

end Loop

end Vfs

/-- Of the modules that are ramdisks `kmain` mounts the first at the root, and what it logs of that
one's files is exact; the later ones are refused, but each becomes the ramdisk behind the mount. -/
theorem first_ramdisk_mounted {fs : Word → FsOps Initrd} {ops : Word} (hfs : fs ops = initrdOps)
    {rounds : Nat} (hrounds : 2 ^ 32 ≤ rounds) (locals : Nat → TestLocals) (pm : PhysMem) (v : Vfs)
    (s : Initrd) (modules : List NamedModule) :
    ((∀ x ∈ modules.zipIdx, ¬IsRamdisk x) →
      Vfs.visitModules fs ops rounds locals pm modules.zipIdx (v.initVfs, s) =
        some (modules.zipIdx.flatMap fun x => Vfs.moduleReport pm x.1 x.2, v.initVfs, s)) ∧
    ∀ before x after, modules.zipIdx = before ++ x :: after → (∀ y ∈ before, ¬IsRamdisk y) →
      IsRamdisk x → ∃ tests v',
        Vfs.visitModules fs ops rounds locals pm modules.zipIdx (v.initVfs, s) =
          some ((before.flatMap fun y => Vfs.moduleReport pm y.1 y.2) ++
              (Vfs.moduleReport pm x.1 x.2 ++
                [logInfo "Found initrd module at index %d" [.word (BitVec.ofNat 32 x.2)],
                  logInfo "Successfully mounted initrd filesystem at /" []] ++ tests ++
                after.flatMap (refusedReport pm)), v',
            initRamdisks pm after
              { s.initInitrd (pm.physToVirt x.1.modStart) with currentFile := 0 }) ∧
        v'.Rooted ops ∧
        ∀ files, (s.initInitrd (pm.physToVirt x.1.modStart)).Shows files →
          (s.initInitrd (pm.physToVirt x.1.modStart)).currentFile = 0 →
            tests = Vfs.ramdiskReport files := by
  refine ⟨fun h => Vfs.visitModules_plain h _, fun before x after hsplit hbefore hx => ?_⟩
  obtain ⟨module, i⟩ := x
  obtain ⟨tests, v', hmount, hv, htests⟩ := Vfs.mountRamdisk_first hfs hrounds locals
    (v := v.initVfs) rfl (pm.physToVirt module.modStart) s
  have hvisit : Vfs.visitModule fs ops rounds locals pm module i (v.initVfs, s) = _ :=
    (if_pos hx).trans (congrArg (Option.map _) hmount)
  refine ⟨tests, v', ?_, hv, htests⟩
  rw [hsplit, Vfs.visitModules_append, Vfs.visitModules_plain hbefore, Option.bind_some,
    Vfs.visitModules, hvisit]
  simp [hv.visitModules]

/-- A stack of zeros. -/
def TestLocals.zero : TestLocals :=
  ⟨⟨0, 0, 0, 0, 0⟩, List.replicate 512 0, List.replicate 64 0, List.length_replicate,
    List.length_replicate⟩

/-- A program, and two ramdisks, one behind the other. -/
def sampleProgram : NamedModule := ⟨⟨0x100000, 0x101000⟩, none⟩

def sampleRamdisk : NamedModule := ⟨⟨0x200000, 0x200C12⟩, some (.ofText [charByte 'i'])⟩

def sampleLater : NamedModule := ⟨⟨0x200C12, 0x201823⟩, some (.ofText [charByte 'j'])⟩

/-- One of the files that `kmain` reads. -/
def sampleHello : List HostFile := [(.ofText ("hello.txt".toList.map charByte), [0x68, 0x69])]

def sampleOther : List HostFile := [(.ofText [charByte 'b'], [0x21])]

example : Vfs.ramdiskReport sampleHello =
    [logInfo "Listing root directory contents:" [],
      logInfo "  %s" [.string ("hello.txt".toList.map charByte)], .line,
      logInfo "Testing read for file: %s" [.string Vfs.helloPath.text],
      logInfo "Opened file %s (size: %d bytes)" [.string Vfs.helloPath.text, .word 2],
      logInfo "Read %d bytes from file" [.word 2],
      logInfo "File contents: %s" [.string [0x68, 0x69]],
      logInfo "Testing read for file: %s" [.string Vfs.testPath.text],
      logError "Failed to open file: %s" [.string Vfs.testPath.text],
      logInfo "Testing read for file: %s" [.string Vfs.readmePath.text],
      logError "Failed to open file: %s" [.string Vfs.readmePath.text]] := by decide

/-- The images of both, one behind the other. -/
theorem sample_images : ∃ (m : Mem) (image image' : List Byte), createInitrd (sampleHello.map HostFile.argument) =
      some image ∧ createInitrd (sampleOther.map HostFile.argument) = some image' ∧
    m.Holds 0xC0200000 image ∧ m.Holds 0xC0200C12 image' ∧ image.length = 3090 ∧
      image'.length = 3089 := by
  have hexists : ∀ files : List HostFile, files ≠ [] → files.length ≤ maxFiles → ∃ image,
      createInitrd (files.map HostFile.argument) = some image ∧
        image.length = 3088 + totalSize files := fun files hsome hle => by
    obtain ⟨header, -, -, -, himage⟩ := createInitrd_eq hsome hle
    exact ⟨_, himage, length_of_createInitrd hsome hle himage⟩
  obtain ⟨image, himage, hlen⟩ := hexists sampleHello (by decide) (by decide)
  obtain ⟨image', himage', hlen'⟩ := hexists sampleOther (by decide) (by decide)
  obtain ⟨m, hm⟩ := exists_holds 0xC0200000 (image ++ image') (by
    rw [List.length_append, hlen, hlen']
    decide)
  obtain ⟨hfirst, hlater⟩ := holds_append.mp hm
  rw [hlen] at hlater
  exact ⟨m, image, image', himage, himage', hfirst, hlater, hlen, hlen'⟩

/-- The first ramdisk is mounted and tested, the second is refused, and its files are shown then. -/
theorem first_ramdisk_mounted_sample :
    let pm := PhysMem.sample fun _ => 0
    ∃ m v' s', Vfs.visitModules ramdiskOps 1 (2 ^ 32) (fun _ => .zero) pm
        [(sampleProgram, 0), (sampleRamdisk, 1), (sampleLater, 2)]
        (Vfs.zero.initVfs, ⟨m, 0, 0, 0, 0, 0, 0⟩) =
      some (Vfs.moduleReport pm sampleProgram 0 ++
        (Vfs.moduleReport pm sampleRamdisk 1 ++
          [logInfo "Found initrd module at index %d" [.word 1],
            logInfo "Successfully mounted initrd filesystem at /" []] ++
          Vfs.ramdiskReport sampleHello ++ refusedReport pm (sampleLater, 2)), v', s') ∧
      v'.Rooted 1 ∧ s'.Shows sampleOther := by
  intro pm
  have hops : ramdiskOps 1 = initrdOps := rfl
  have hloc : pm.physToVirt sampleRamdisk.modStart = 0xC0200000 := by decide
  have hloc' : pm.physToVirt sampleLater.modStart = 0xC0200C12 := by decide
  obtain ⟨m, image, image', himage, himage', hfirst, hlater, hlen, hlen'⟩ := sample_images
  let s : Initrd := ⟨m, 0, 0, 0, 0, 0, 0⟩
  obtain ⟨tests, v', hrun, hv, htests⟩ := (first_ramdisk_mounted hops (Nat.le_refl (2 ^ 32))
    (fun _ => .zero) pm .zero s [sampleProgram, sampleRamdisk, sampleLater]).2
    [(sampleProgram, 0)] (sampleRamdisk, 1) [(sampleLater, 2)] rfl (by simp [IsRamdisk]) (by decide)
  have hfits : (0xC0200000 : Word).toNat + image.length ≤ 2 ^ 32 := by
    rw [hlen]
    decide
  have hfits' : (0xC0200C12 : Word).toNat + image'.length ≤ 2 ^ 32 := by
    rw [hlen']
    decide
  obtain ⟨hshows, hplace, hmem⟩ := initInitrd_shows (s := s) (by decide) (by decide) (by decide)
    (by decide) himage hfirst hfits
  obtain ⟨hshows', -⟩ := initInitrd_shows (s := { s.initInitrd 0xC0200000 with currentFile := 0 })
    (by decide) (by decide) (by decide) (by decide) himage' (hmem ▸ hlater) hfits'
  have hlast : ∀ t : Initrd, initRamdisks pm [(sampleLater, 2)] t = t.initInitrd 0xC0200C12 :=
    fun t => congrArg t.initInitrd hloc'
  rw [hloc, hlast] at hrun
  rw [hloc] at htests
  rw [htests sampleHello hshows hplace] at hrun
  refine ⟨m, v', _, hrun.trans ?_, hv, hshows'⟩
  simp

end Lbos

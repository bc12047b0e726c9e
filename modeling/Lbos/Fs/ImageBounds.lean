import Lbos.Fs.InitrdLoads

/-! What the operations of `initrd.c` touch when the image is not one that the host program made:
which entries of the file table, and which bytes. -/

namespace Lbos

open Lib

/-- The descriptors that were opened, over an image. -/
structure OpenFiles where
  initrd : Initrd
  fds : Nat → Option FsDescriptor

inductive FileCall where
  | open_ (fd : Nat) (path : CString) (old : FsDescriptor)
  | seek (fd : Nat) (offset : Word)
  | read (fd : Nat) (size : Word)
  | readdir (fd : Nat) (name : List Byte) (size : Word)

namespace OpenFiles

variable (st : OpenFiles)

def open_ (fd : Nat) (path : CString) (old : FsDescriptor) : OpenFiles :=
  let (r, d, s) := initrdOpen path old st.initrd
  ⟨s, if r = 0 then Function.update st.fds fd (some d) else st.fds⟩

def seek (fd : Nat) (offset : Word) : OpenFiles :=
  match st.fds fd with
  | none => st
  | some d =>
    let (_, d, s) := initrdSeek d offset st.initrd
    ⟨s, Function.update st.fds fd (some d)⟩

def read (fd : Nat) (size : Word) : OpenFiles :=
  match st.fds fd with
  | none => st
  | some d =>
    let (_, _, d, s) := initrdRead d size st.initrd
    ⟨s, Function.update st.fds fd (some d)⟩

def readdir (fd : Nat) (name : List Byte) (size : Word) : OpenFiles :=
  match st.fds fd with
  | none => st
  | some d =>
    let (_, _, d, s) := initrdReaddir d name size st.initrd
    ⟨s, Function.update st.fds fd (some d)⟩

def after : FileCall → OpenFiles
  | .open_ fd path old => st.open_ fd path old
  | .seek fd offset => st.seek fd offset
  | .read fd size => st.read fd size
  | .readdir fd name size => st.readdir fd name size

/-- The operations in any order, over one image. -/
def system (s : Initrd) : System OpenFiles FileCall where
  init st := st = ⟨s, fun _ => none⟩
  step st call st' := st' = st.after call

end OpenFiles

/-- `path` is the root for `initrd_open`. -/
abbrev CString.IsRoot (path : CString) : Prop := strcmp path.bytes [slash, 0] = some 0

namespace Initrd

variable (s : Initrd)

/-- How many entries `find_file` compares with a path. -/
def compared (path : CString) : Nat :=
  if s.header = 0 then 0 else (s.findFile path).elim s.numFiles.toNat (· + 1)

/-- A call goes to entry `i` of the file table. -/
def Visits (fds : Nat → Option FsDescriptor) (i : Nat) : FileCall → Prop
  | .open_ _ path _ => ¬path.IsRoot ∧ i < s.compared path
  | .seek fd _ | .read fd _ => ∃ d, fds fd = some d ∧ d.inode < s.numFiles ∧ i = d.inode.toNat
  | .readdir fd _ _ => ∃ d, fds fd = some d ∧ d.type = fsTypeDirectory ∧
      s.currentFile < s.numFiles ∧ i = s.currentFile.toNat

/-- A call copies the byte at address `a`, which is counted from `initrd_data` on without wrapping. -/
def Copies (fds : Nat → Option FsDescriptor) (a : Nat) : FileCall → Prop
  | .read fd size => ∃ d, fds fd = some d ∧
      let start := s.data.toNat + (s.fileOffset d.inode.toNat).toNat + d.position.toNat
      start ≤ a ∧ a < start + (initrdRead d size s).2.1.length
  | _ => False

/-- The file table is not too long, and each file that `find_file` finds is empty or lies in the
module's bytes, `len` from `loc` on. -/
structure Fits (loc : Word) (len : Nat) : Prop where
  numFiles : s.numFiles.toNat ≤ initrdMaxFiles
  file : ∀ path : CString, ¬path.IsRoot → ∀ i, s.findFile path = some i → (s.fileSize i).toNat ≠ 0 →
    loc.toNat ≤ s.data.toNat + (s.fileOffset i).toNat ∧
      s.data.toNat + (s.fileOffset i).toNat + (s.fileSize i).toNat ≤ loc.toNat + len

/-- A descriptor as the operations leave it: that of the root, or of a file that was found, with a
position that is not behind its end. -/
def FromOpen (d : FsDescriptor) : Prop :=
  d.inode = 0xFFFFFFFF ∨ ∃ path : CString, ∃ i, ¬path.IsRoot ∧ s.findFile path = some i ∧
    d.inode = BitVec.ofNat 32 i ∧ d.position ≤ s.fileSize i

end Initrd

/-- A call stays in the file table and in the module. -/
structure OpenFiles.Inside (st : OpenFiles) (loc : Word) (len : Nat) (call : FileCall) : Prop where
  table : ∀ i, st.initrd.Visits st.fds i call → i < initrdMaxFiles
  bytes : ∀ a, st.initrd.Copies st.fds a call → loc.toNat ≤ a ∧ a < loc.toNat + len

namespace Initrd

variable {s : Initrd} {path : CString} {i : Nat}

theorem findFile_lt (h : s.findFile path = some i) : i < s.numFiles.toNat := by
  unfold findFile at h
  split at h
  · cases h
  · obtain ⟨hlt, -⟩ := search_some h
    omega

theorem inode_lt (h : s.findFile path = some i) :
    (BitVec.ofNat 32 i).toNat = i ∧ BitVec.ofNat 32 i < s.numFiles := by
  have hlt := findFile_lt h
  have hval : (BitVec.ofNat 32 i).toNat = i := by
    rw [BitVec.toNat_ofNat, Nat.mod_eq_of_lt (Nat.lt_trans hlt s.numFiles.isLt)]
  refine ⟨hval, ?_⟩
  rw [BitVec.lt_def, hval]
  exact hlt

theorem compared_le (s : Initrd) (path : CString) : s.compared path ≤ s.numFiles.toNat := by
  unfold compared
  split
  · exact Nat.zero_le _
  · cases hfind : s.findFile path with
    | none => exact Nat.le_refl _
    | some i => exact findFile_lt hfind

/-- The descriptor of the root has no file behind it. -/
theorem not_root_lt (s : Initrd) : ¬(0xFFFFFFFF : Word) < s.numFiles := by
  have hlt := s.numFiles.isLt
  rw [BitVec.lt_def]
  exact fun hc => absurd hlt (Nat.not_lt.mpr hc)

/-! ### One call -/

/-- A read of a file: the bytes from the position on, as many as are asked for and there, and the
position behind them. -/
theorem read_found {d : FsDescriptor} (hfind : s.findFile path = some i)
    (hinode : d.inode = BitVec.ofNat 32 i) (size : Word) :
    ∃ n bytes p, initrdRead d size s = (n, bytes, { d with position := p }, s) ∧
      bytes.length = min size.toNat ((s.fileSize i).toNat - d.position.toNat) ∧
      (d.position ≤ s.fileSize i → p ≤ s.fileSize i) := by
  obtain ⟨hval, hlt⟩ := inode_lt hfind
  rw [← hinode] at hval hlt
  obtain ⟨toRead, hmin, hread⟩ := initrdRead_file hlt size
  rw [hval] at hmin hread
  refine ⟨_, _, d.position + toRead, hread, ?_, fun hposition => ?_⟩
  · rw [Mem.length_bytes, hmin]
  · have hbound := (s.fileSize i).isLt
    rw [BitVec.le_def] at hposition
    rw [BitVec.le_def, BitVec.toNat_add, Nat.mod_eq_of_lt (by omega)]
    omega

/-- The descriptor of the root cannot be read. -/
theorem read_root {d : FsDescriptor} (hinode : d.inode = 0xFFFFFFFF) (size : Word) :
    initrdRead d size s = (-1, [], d, s) := by
  rw [initrdRead, hinode, if_pos (BitVec.not_lt.mp s.not_root_lt)]

theorem FromOpen.read {d : FsDescriptor} (h : s.FromOpen d) (size : Word) :
    ∃ n bytes d', initrdRead d size s = (n, bytes, d', s) ∧ s.FromOpen d' := by
  rcases h with hroot | ⟨path, i, hpath, hfind, hinode, hpos⟩
  · exact ⟨_, _, d, read_root hroot size, .inl hroot⟩
  · obtain ⟨n, bytes, p, hr, -, hp⟩ := read_found hfind hinode size
    exact ⟨n, bytes, _, hr, .inr ⟨path, i, hpath, hfind, hinode, hp hpos⟩⟩

theorem seek_found {d : FsDescriptor} (hfind : s.findFile path = some i)
    (hinode : d.inode = BitVec.ofNat 32 i) {offset : Word} (hle : offset ≤ s.fileSize i) :
    initrdSeek d offset s = (0, { d with position := offset }, s) := by
  obtain ⟨hval, hlt⟩ := inode_lt hfind
  rw [← hinode] at hval hlt
  rw [initrdSeek, if_neg (BitVec.not_le.mpr hlt), hval, if_neg (BitVec.not_lt.mpr hle)]

theorem FromOpen.seek {d : FsDescriptor} (h : s.FromOpen d) (offset : Word) :
    ∃ n d', initrdSeek d offset s = (n, d', s) ∧ s.FromOpen d' := by
  rcases h with hroot | ⟨path, i, hpath, hfind, hinode, hpos⟩
  · rw [initrdSeek, hroot, if_pos (BitVec.not_lt.mp s.not_root_lt)]
    exact ⟨-1, d, rfl, .inl hroot⟩
  · by_cases hle : offset ≤ s.fileSize i
    · exact ⟨_, _, seek_found hfind hinode hle, .inr ⟨path, i, hpath, hfind, hinode, hle⟩⟩
    · obtain ⟨hval, hlt⟩ := inode_lt hfind
      rw [← hinode] at hval hlt
      rw [initrdSeek, if_neg (BitVec.not_le.mpr hlt), hval, if_pos (BitVec.not_le.mp hle)]
      exact ⟨-1, d, rfl, .inr ⟨path, i, hpath, hfind, hinode, hpos⟩⟩

theorem open_found (hpath : ¬path.IsRoot) (hfind : s.findFile path = some i) (old : FsDescriptor) :
    initrdOpen path old s =
      (0, ⟨BitVec.ofNat 32 i, 0, s.fileType i, s.fileSize i, s.filePermissions i⟩, s) := by
  rw [initrdOpen, if_neg hpath, hfind]

theorem open_root (hpath : path.IsRoot) (old : FsDescriptor) :
    initrdOpen path old s = (0, ⟨0xFFFFFFFF, 0, fsTypeDirectory, 0, fsPermRead⟩, s) := by
  rw [initrdOpen, if_pos hpath]

theorem open_fromOpen (path : CString) (old : FsDescriptor) :
    ∃ r d, initrdOpen path old s = (r, d, s) ∧ (r = 0 → s.FromOpen d) := by
  by_cases hpath : path.IsRoot
  · exact ⟨_, _, open_root hpath old, fun _ => .inl rfl⟩
  · cases hfind : s.findFile path with
    | some i =>
      refine ⟨_, _, open_found hpath hfind old, fun _ => .inr ⟨path, i, hpath, hfind, rfl, ?_⟩⟩
      exact BitVec.le_def.mpr (Nat.zero_le _)
    | none =>
      rw [initrdOpen, if_neg hpath, hfind]
      exact ⟨-1, old, rfl, nofun⟩

theorem readdir_keeps (d : FsDescriptor) (name : List Byte) (size : Word) (s : Initrd) :
    ∃ r name' c, initrdReaddir d name size s = (r, name', d, { s with currentFile := c }) := by
  unfold initrdReaddir
  split
  · split
    · exact ⟨_, _, _, rfl⟩
    · exact ⟨_, _, _, rfl⟩
  · exact ⟨_, _, _, rfl⟩

end Initrd

/-! ### Sequences of calls -/

namespace OpenFiles

variable {s : Initrd} {st : OpenFiles}

/-- The image is as at the beginning, but for the place of the listing, and the descriptors are those
that the operations leave. -/
structure Serves (s : Initrd) (st : OpenFiles) : Prop where
  image : ∃ c, st.initrd = { s with currentFile := c }
  opened : ∀ fd d, st.fds fd = some d → s.FromOpen d

theorem Serves.put (h : Serves s st) (c : Word) (fd : Nat) {d : FsDescriptor} (hd : s.FromOpen d) :
    Serves s ⟨{ s with currentFile := c }, Function.update st.fds fd (some d)⟩ := by
  refine ⟨⟨c, rfl⟩, fun fd' d' hfd' => ?_⟩
  change Function.update st.fds fd (some d) fd' = some d' at hfd'
  by_cases hne : fd' = fd
  · rw [hne, Function.update_self] at hfd'
    exact Option.some.inj hfd' ▸ hd
  · rw [Function.update_of_ne hne] at hfd'
    exact h.opened fd' d' hfd'

theorem Serves.after (h : Serves s st) (call : FileCall) : Serves s (st.after call) := by
  obtain ⟨c, himage⟩ := h.image
  cases call with
  | open_ fd path old =>
    obtain ⟨r, d, hr, hd⟩ := Initrd.open_fromOpen (s := { s with currentFile := c }) path old
    rw [OpenFiles.after, open_, himage]
    simp only [hr]
    split
    · next hz => exact h.put c fd (hd hz)
    · exact ⟨⟨c, rfl⟩, h.opened⟩
  | seek fd offset =>
    rw [OpenFiles.after, seek]
    cases hfd : st.fds fd with
    | none => exact h
    | some d =>
      have hopen : ({ s with currentFile := c } : Initrd).FromOpen d := h.opened fd d hfd
      obtain ⟨n, d', hr, hd'⟩ := hopen.seek offset
      simp only [himage, hr]
      exact h.put c fd hd'
  | read fd size =>
    rw [OpenFiles.after, read]
    cases hfd : st.fds fd with
    | none => exact h
    | some d =>
      have hopen : ({ s with currentFile := c } : Initrd).FromOpen d := h.opened fd d hfd
      obtain ⟨n, bytes, d', hr, hd'⟩ := hopen.read size
      simp only [himage, hr]
      exact h.put c fd hd'
  | readdir fd name size =>
    rw [OpenFiles.after, readdir]
    cases hfd : st.fds fd with
    | none => exact h
    | some d =>
      obtain ⟨r, name', c', hr⟩ := Initrd.readdir_keeps d name size { s with currentFile := c }
      simp only [himage, hr]
      exact h.put c' fd (h.opened fd d hfd)

theorem serves_of_reach (h : (system s).Reach st) : Serves s st :=
  h.invariant (fun st hinit => by
    obtain rfl : st = ⟨s, fun _ => none⟩ := hinit
    exact ⟨⟨s.currentFile, rfl⟩, nofun⟩) fun _ call _ _ hs _ hstep => by
    rw [show _ = _ from hstep]
    exact hs.after call

/-- In an image that fits no call leaves it. -/
theorem Serves.inside (h : Serves s st) {loc : Word} {len : Nat} (hfits : s.Fits loc len)
    (call : FileCall) : st.Inside loc len call := by
  obtain ⟨c, himage⟩ := h.image
  have hcount := hfits.numFiles
  have hlt : ∀ w : Word, w < s.numFiles → w.toNat < initrdMaxFiles := fun w hw =>
    Nat.lt_of_lt_of_le hw hcount
  refine ⟨fun i hi => ?_, fun a ha => ?_⟩
  · rw [himage] at hi
    cases call with
    | open_ fd path old =>
      have hle := s.compared_le path
      have hi : i < s.compared path := hi.2
      omega
    | seek fd offset =>
      obtain ⟨d, -, hless, rfl⟩ := hi
      exact hlt d.inode hless
    | read fd size =>
      obtain ⟨d, -, hless, rfl⟩ := hi
      exact hlt d.inode hless
    | readdir fd name size =>
      obtain ⟨d, -, -, hless, rfl⟩ := hi
      exact hlt c hless
  · rw [himage] at ha
    cases call with
    | read fd size =>
      obtain ⟨d, hfd, hlow, hhigh⟩ := ha
      rcases h.opened fd d hfd with hroot | ⟨path, i, hpath, hfind, hinode, hpos⟩
      · rw [Initrd.read_root hroot] at hhigh
        exact absurd hlow (Nat.not_le.mpr hhigh)
      · obtain ⟨hval, -⟩ := Initrd.inode_lt hfind
        obtain ⟨n, bytes, p, hr, hlength, -⟩ := Initrd.read_found (s := { s with currentFile := c })
          hfind hinode size
        rw [hr] at hhigh
        rw [hinode, hval] at hlow hhigh
        have hlength : bytes.length = min size.toNat ((s.fileSize i).toNat - d.position.toNat) :=
          hlength
        have hlow : s.data.toNat + (s.fileOffset i).toNat + d.position.toNat ≤ a := hlow
        have hhigh : a < s.data.toNat + (s.fileOffset i).toNat + d.position.toNat + bytes.length :=
          hhigh
        have hbound := hfits.file path hpath i hfind (by omega)
        omega
    | _ => exact ha.elim

/-! ### Images that do not fit -/

theorem reach_after (h : (system s).Reach st) (call : FileCall) :
    (system s).Reach (st.after call) := .step h trivial rfl

theorem readdir_next {c : Word} (himage : st.initrd = { s with currentFile := c }) {fd : Nat}
    {d : FsDescriptor} (hfd : st.fds fd = some d) (htype : d.type = fsTypeDirectory)
    (name : List Byte) (size : Word) :
    st.after (.readdir fd name size) =
      ⟨{ s with currentFile := if s.numFiles ≤ c then 0 else c + 1 },
        Function.update st.fds fd (some d)⟩ := by
  rw [after, readdir, hfd]
  simp only [himage, initrdReaddir, if_pos htype]
  by_cases hend : s.numFiles ≤ c
  · rw [if_pos hend, if_pos (show ({ s with currentFile := c } : Initrd).numFiles ≤ c from hend)]
  · rw [if_neg hend, if_neg (show ¬({ s with currentFile := c } : Initrd).numFiles ≤ c from hend)]

/-- The listing of an open directory comes to each entry behind its place. -/
theorem reach_place (h : (system s).Reach st) {fd : Nat} {d : FsDescriptor}
    (hfd : st.fds fd = some d) (htype : d.type = fsTypeDirectory) (k : Nat)
    (hk : st.initrd.currentFile.toNat + k ≤ s.numFiles.toNat) :
    ∃ st', (system s).Reach st' ∧ st'.fds fd = some d ∧
      st'.initrd.currentFile.toNat = st.initrd.currentFile.toNat + k := by
  induction k with
  | zero => exact ⟨st, h, hfd, rfl⟩
  | succ k ih =>
    obtain ⟨st', hreach, hfd', hplace⟩ := ih (by omega)
    obtain ⟨c, himage⟩ := (serves_of_reach hreach).image
    have hc : c.toNat = st.initrd.currentFile.toNat + k := by
      rw [← hplace, himage]
    have hless : ¬s.numFiles ≤ c := by
      rw [BitVec.le_def]
      omega
    have hbound := s.numFiles.isLt
    refine ⟨_, reach_after hreach (.readdir fd [] 0), ?_⟩
    rw [readdir_next himage hfd' htype, if_neg hless]
    refine ⟨Function.update_self .., ?_⟩
    show (c + 1).toNat = _
    have hone : (1 : Word).toNat = 1 := rfl
    rw [BitVec.toNat_add, hone, Nat.mod_eq_of_lt (by omega)]
    omega

theorem after_open {path : CString} {d : FsDescriptor} (fd : Nat) (old : FsDescriptor)
    (hr : initrdOpen path old st.initrd = (0, d, st.initrd)) :
    st.after (.open_ fd path old) = ⟨st.initrd, Function.update st.fds fd (some d)⟩ := by
  rw [after, open_, hr]
  rfl

theorem reach_seek (h : (system s).Reach st) (fd : Nat) {d d' : FsDescriptor} {offset : Word}
    {n : Int} (hfd : st.fds fd = some d)
    (hr : initrdSeek d offset st.initrd = (n, d', st.initrd)) :
    (system s).Reach ⟨st.initrd, Function.update st.fds fd (some d')⟩ := by
  have hseek := reach_after h (.seek fd offset)
  rw [after, seek, hfd] at hseek
  simp only [hr] at hseek
  exact hseek

/-- The first open descriptor. -/
theorem reach_open {path : CString} {d : FsDescriptor} (hr : initrdOpen path d s = (0, d, s)) :
    (system s).Reach ⟨s, Function.update (fun _ => none) 0 (some d)⟩ := by
  have hinit : (system s).Reach ⟨s, fun _ => none⟩ := .init rfl
  have hopen := reach_after hinit (.open_ 0 path d)
  rwa [after_open 0 d hr] at hopen

/-- A table with more entries is left by a listing. -/
theorem numFiles_le {loc : Word} {len : Nat}
    (h : ∀ st, (system s).Reach st → ∀ call, st.Inside loc len call) :
    s.numFiles.toNat ≤ initrdMaxFiles := by
  by_contra hmany
  have hmany : 64 < s.numFiles.toNat := Nat.not_le.mp hmany
  have hroot : (CString.ofText [slash]).IsRoot := by decide
  have hopen := reach_open (Initrd.open_root (s := s) hroot
    ⟨0xFFFFFFFF, 0, fsTypeDirectory, 0, fsPermRead⟩)
  have htype : (⟨0xFFFFFFFF, 0, fsTypeDirectory, 0, fsPermRead⟩ : FsDescriptor).type =
    fsTypeDirectory := rfl
  generalize (⟨0xFFFFFFFF, 0, fsTypeDirectory, 0, fsPermRead⟩ : FsDescriptor) = root at hopen htype
  -- a place before the end is before entry 64
  have hplace : ∀ st, (system s).Reach st → st.fds 0 = some root →
      st.initrd.currentFile.toNat < s.numFiles.toNat → st.initrd.currentFile.toNat < 64 := by
    intro st hst hfd hless
    obtain ⟨c, himage⟩ := (serves_of_reach hst).image
    refine (h st hst (.readdir 0 [] 0)).table _ ⟨root, hfd, htype, ?_, rfl⟩
    rw [himage] at hless ⊢
    exact hless
  -- but from there the listing goes on to entry 64
  have hclimb : ∀ st, (system s).Reach st → st.fds 0 = some root →
      64 ≤ st.initrd.currentFile.toNat := by
    intro st hst hfd
    by_contra hlow
    obtain ⟨st', hst', hfd', hc⟩ := reach_place hst hfd htype (64 - st.initrd.currentFile.toNat)
      (by omega)
    have hless := hplace st' hst' hfd' (by omega)
    omega
  have hfirst := Function.update_self (0 : Nat) (some root) fun _ => none
  have hend : s.numFiles ≤ s.currentFile := Nat.not_lt.mp fun hless =>
    absurd (hclimb _ hopen hfirst) (Nat.not_le.mpr (hplace _ hopen hfirst hless))
  have hreset := reach_after hopen (.readdir 0 [] 0)
  rw [readdir_next (c := s.currentFile) rfl hfirst htype, if_pos hend] at hreset
  have hagain := Function.update_self (0 : Nat) (some root)
    (Function.update (fun _ => none) 0 (some root))
  have hlow : 64 ≤ (0 : Word).toNat := hclimb _ hreset hagain
  exact absurd hlow (by decide)

/-- A byte of a file that a descriptor leads to lies in the module. -/
theorem byte_inside {fds : Nat → Option FsDescriptor} {loc : Word} {len : Nat}
    (h : ∀ call, OpenFiles.Inside ⟨s, fds⟩ loc len call) (fd : Nat) {d : FsDescriptor}
    (hfd : fds fd = some d) {path : CString} {i : Nat} (hfind : s.findFile path = some i)
    (hinode : d.inode = BitVec.ofNat 32 i) (hpos : d.position.toNat < (s.fileSize i).toNat) :
    loc.toNat ≤ s.data.toNat + (s.fileOffset i).toNat + d.position.toNat ∧
      s.data.toNat + (s.fileOffset i).toNat + d.position.toNat < loc.toNat + len := by
  obtain ⟨hval, -⟩ := Initrd.inode_lt hfind
  obtain ⟨n, bytes, p, hr, hlength, -⟩ := Initrd.read_found hfind hinode 1
  have hone : (1 : Word).toNat = 1 := rfl
  refine (h (.read fd 1)).bytes _ ⟨d, hfd, ?_⟩
  rw [hr, hinode, hval]
  refine ⟨Nat.le_refl _, ?_⟩
  show _ < s.data.toNat + (s.fileOffset i).toNat + d.position.toNat + bytes.length
  omega

/-- A file that is found and not empty is read at its first byte and at its last. -/
theorem file_inside {loc : Word} {len : Nat}
    (h : ∀ st, (system s).Reach st → ∀ call, st.Inside loc len call) {path : CString}
    (hpath : ¬path.IsRoot) {i : Nat} (hfind : s.findFile path = some i)
    (hsize : (s.fileSize i).toNat ≠ 0) :
    loc.toNat ≤ s.data.toNat + (s.fileOffset i).toNat ∧
      s.data.toNat + (s.fileOffset i).toNat + (s.fileSize i).toNat ≤ loc.toNat + len := by
  have hlast : (s.fileSize i - 1).toNat = (s.fileSize i).toNat - 1 :=
    BitVec.toNat_sub_of_le (by rw [BitVec.le_def]; exact Nat.one_le_iff_ne_zero.mpr hsize)
  have hle : s.fileSize i - 1 ≤ s.fileSize i := by
    rw [BitVec.le_def, hlast]
    omega
  have hopen := reach_open (Initrd.open_found hpath hfind
    ⟨BitVec.ofNat 32 i, 0, s.fileType i, s.fileSize i, s.filePermissions i⟩)
  obtain ⟨d, hd, hinode, hzero⟩ : ∃ d, d = (⟨BitVec.ofNat 32 i, 0, s.fileType i, s.fileSize i,
      s.filePermissions i⟩ : FsDescriptor) ∧ d.inode = BitVec.ofNat 32 i ∧ d.position = 0 :=
    ⟨_, rfl, rfl, rfl⟩
  rw [← hd] at hopen
  have hfirst := Function.update_self (0 : Nat) (some d) (fun _ => none : Nat → Option FsDescriptor)
  have hseek : (system s).Reach ⟨s, Function.update (Function.update (fun _ => none) 0 (some d)) 0
      (some { d with position := s.fileSize i - 1 })⟩ :=
    reach_seek hopen 0 hfirst (Initrd.seek_found hfind hinode hle)
  have hstart : d.position.toNat = 0 := by rw [hzero]; rfl
  obtain ⟨hlow, -⟩ := byte_inside (h _ hopen) 0 hfirst hfind hinode (by omega)
  have hless : (s.fileSize i - 1).toNat < (s.fileSize i).toNat := by omega
  obtain ⟨-, hhigh⟩ := byte_inside (h _ hseek) 0 (Function.update_self ..) hfind hinode hless
  have hhigh : s.data.toNat + (s.fileOffset i).toNat + (s.fileSize i - 1).toNat <
    loc.toNat + len := hhigh
  omega

/-- All calls of all sequences stay in the file table and in the module exactly when the image
fits. -/
theorem inside_iff_fits (s : Initrd) (loc : Word) (len : Nat) :
    (∀ st, (system (s.initInitrd loc)).Reach st → ∀ call, st.Inside loc len call) ↔
      (s.initInitrd loc).Fits loc len :=
  ⟨fun h => ⟨numFiles_le h, fun _ hpath _ hfind hsize => file_inside h hpath hfind hsize⟩,
    fun hfits _ hst => (serves_of_reach hst).inside hfits⟩

/-- A module of 4096 bytes with one file, `a`, of 8192 bytes. -/
def sampleModule : Mem :=
  ((((Mem.write32 (fun _ => 0) 0x200000 0xBF).write32 0x200004 1).write 0x200008 0x61).write32
    0x200028 8192)

/-- The module is accepted, its header lies in it, and its file leads out of it. -/
theorem oversized_file_escapes :
    ∃ (s : Initrd) (loc : Word) (len : Nat), Initrd.system.init s ∧ s.ModuleAt loc ∧
      ¬s.Rejects loc ∧ loc.toNat ≤ (s.initInitrd loc).header.toNat ∧
      (s.initInitrd loc).header.toNat + initrdHeaderSize ≤ loc.toNat + len ∧
      ¬∀ st, (system (s.initInitrd loc)).Reach st → ∀ call, st.Inside loc len call := by
  have hsigned : ¬(Initrd.unloaded sampleModule).Signed 0x200000 := by decide
  have hscan : (Initrd.unloaded sampleModule).scan 0x200000 = some 0 := by decide
  have hlocated := Initrd.located_unsigned hsigned hscan
  have hmagic : sampleModule.read32 0x200000 = initrdMagic := by decide
  refine ⟨Initrd.unloaded sampleModule, 0x200000, 4096, Initrd.unloaded_init _,
    Initrd.unloaded_moduleAt _, fun hr => (hlocated ▸ hr.2) hmagic, ?_⟩
  rw [Initrd.initInitrd_magic hlocated (show (0x200000 + 0 : Word) ≠ 0 by decide) hmagic]
  refine ⟨by decide, by decide, fun h => ?_⟩
  have hpath : ¬(CString.ofText [0x61]).IsRoot := by decide
  have hinside := (file_inside (i := 0) h hpath (by decide) (by decide)).2
  exact absurd hinside (by decide)

end OpenFiles

end Lbos

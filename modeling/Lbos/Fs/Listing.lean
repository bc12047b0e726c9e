import Lbos.Fs.Initrd
import Lbos.Lib.Transition

/-! Directory listings through several descriptors.  `initrd_readdir` keeps its place in a static
variable, which `initrd_open` leaves alone, so what a descriptor is given depends on the others. -/

namespace Lbos

open Lib

/-- With a zero byte anywhere, every address leads to a string. -/
theorem zero_mem_cstr {m : Mem} {a : Word} (h : m a = 0) (p : Word) : 0 ∈ cstr m p := by
  have hin : m (p + BitVec.ofNat 32 (a - p).toNat) ∈ cstr m p := Mem.mem_bytes (a - p).isLt
  rwa [BitVec.ofNat_toNat, BitVec.setWidth_eq, BitVec.add_comm, BitVec.sub_add_cancel, h] at hin

namespace Initrd

/-- The header is that of an image. -/
structure Loaded (s : Initrd) : Prop where
  header_ne : s.header ≠ 0
  magic : s.magic = initrdMagic

/-- The name of file `i`. -/
def name (s : Initrd) (i : Nat) : List Byte := text (cstr s.mem (s.file i))

/-- What the call for entry `i` has to tell a caller with a buffer of `size` bytes: 1 and the name, as
far as the buffer has room for it, and 0 behind the last file. -/
def dirEntry (s : Initrd) (i : Nat) (size : Word) : Int × List Byte :=
  if i < s.numFiles.toNat then (1, (s.name i).take (size.toNat - 1)) else (0, [])

variable {s : Initrd}

/-- The magic number has a zero byte, so the names in an image end. -/
theorem Loaded.zero_mem_name (h : s.Loaded) (i : Nat) : 0 ∈ cstr s.mem (s.file i) := by
  have hmagic : s.mem.read32 s.header = 0xBF := h.magic
  have htop := Mem.extract_read32_top s.mem s.header
  rw [hmagic] at htop
  exact zero_mem_cstr (htop.symm.trans (by decide)) _

end Initrd

/-- What the caller of `initrd_readdir` learns from its result and its buffer. -/
def dirReply (r : Int) (name : List Byte) : Int × List Byte := if r = 0 then (0, []) else (r, text name)

/-- A call for a directory tells the entry at `current_file`. -/
theorem Initrd.Loaded.readdir {s : Initrd} (h : s.Loaded) {d : FsDescriptor}
    (htype : d.type = fsTypeDirectory) {name : List Byte} {size : Word} (hpos : 0 < size.toNat)
    (hroom : size.toNat ≤ name.length) :
    ∃ r name' c, initrdReaddir d name size s = (r, name', d, { s with currentFile := c }) ∧
      dirReply r name' = s.dirEntry s.currentFile.toNat size := by
  rw [initrdReaddir, if_pos htype]
  by_cases hend : s.numFiles ≤ s.currentFile
  · rw [if_pos hend]
    rw [BitVec.le_def] at hend
    refine ⟨0, name, 0, rfl, ?_⟩
    rw [Initrd.dirEntry, if_neg (Nat.not_lt.mpr hend)]
    rfl
  · rw [if_neg hend]
    rw [BitVec.le_def, Nat.not_le] at hend
    have hcount : (size - 1).toNat = size.toNat - 1 :=
      BitVec.toNat_sub_of_le (by rw [BitVec.le_def]; exact hpos)
    refine ⟨1, _, s.currentFile + 1, rfl, ?_⟩
    rw [Initrd.dirEntry, if_pos hend, dirReply, if_neg Int.one_ne_zero,
      text_strncpy name (h.zero_mem_name s.currentFile.toNat) (by omega), hcount]
    rfl

/-- The ramdisk and the directory descriptors that were opened, each with the replies that it was
given since then and the sizes of their buffers. -/
structure Listings where
  initrd : Initrd
  opened : Nat → Option (FsDescriptor × List (Word × Int × List Byte))

inductive DirCall where
  | open_ (fd : Nat) (old : FsDescriptor)
  | readdir (fd : Nat) (name : List Byte) (size : Word)

/-- A buffer has as many bytes as its caller says, and one at least. -/
def DirCall.HasBuffer : DirCall → Prop
  | .open_ _ _ => True
  | .readdir _ name size => 0 < size.toNat ∧ size.toNat ≤ name.length

namespace Listings

def rootPath : CString := .ofText [slash]

variable (st : Listings)

def open_ (fd : Nat) (old : FsDescriptor) : Listings :=
  let (_, d, s) := initrdOpen rootPath old st.initrd
  ⟨s, Function.update st.opened fd (some (d, []))⟩

def readdir (fd : Nat) (name : List Byte) (size : Word) : Listings :=
  match st.opened fd with
  | none => st
  | some (d, replies) =>
    let (r, name, d, s) := initrdReaddir d name size st.initrd
    ⟨s, Function.update st.opened fd (some (d, replies ++ [(size, dirReply r name)]))⟩

def after : DirCall → Listings
  | .open_ fd old => st.open_ fd old
  | .readdir fd name size => st.readdir fd name size

/-- An initialised image, and calls in any order. -/
def system : System Listings DirCall where
  init st := st.initrd.Loaded ∧ st.initrd.currentFile = 0 ∧ ∀ fd, st.opened fd = none
  step st call st' := call.HasBuffer ∧ st' = st.after call

/-- Each descriptor has been told the files in order, and then the end. -/
def Right : Prop :=
  ∀ fd d replies, st.opened fd = some (d, replies) → ∀ i ≤ st.initrd.numFiles.toNat,
    ∀ size reply, replies[i]? = some (size, reply) → reply = st.initrd.dirEntry i size

/-- The entry at `current_file` reads as the next one of the descriptor, unless that has been told the
end. -/
def InPlace : DirCall → Prop
  | .open_ _ _ => True
  | .readdir fd _ size => ∀ d replies, st.opened fd = some (d, replies) →
    replies.length ≤ st.initrd.numFiles.toNat →
    st.initrd.dirEntry st.initrd.currentFile.toNat size = st.initrd.dirEntry replies.length size

/-- The image is there, and the descriptors are those of directories. -/
structure Ready : Prop where
  loaded : st.initrd.Loaded
  directory : ∀ fd d replies, st.opened fd = some (d, replies) → d.type = fsTypeDirectory

variable {st}

/-- The state with another place of `initrd_readdir` and other replies to one descriptor. -/
def put (st : Listings) (c : Word) (fd : Nat) (p : FsDescriptor × List (Word × Int × List Byte)) :
    Listings :=
  ⟨{ st.initrd with currentFile := c }, Function.update st.opened fd (some p)⟩

theorem opened_put {c : Word} {fd fd' : Nat} {p q : FsDescriptor × List (Word × Int × List Byte)}
    (h : (st.put c fd p).opened fd' = some q) :
    fd' = fd ∧ p = q ∨ fd' ≠ fd ∧ st.opened fd' = some q := by
  change Function.update st.opened fd (some p) fd' = some q at h
  by_cases hne : fd' = fd
  · rw [hne, Function.update_self] at h
    exact .inl ⟨hne, Option.some.inj h⟩
  · rw [Function.update_of_ne hne] at h
    exact .inr ⟨hne, h⟩

/-- The outcomes of a call: a descriptor starts over, or is told the entry at `current_file`. -/
inductive Effect (st : Listings) : DirCall → Listings → Prop
  | opened (fd : Nat) (old : FsDescriptor) {d : FsDescriptor} : d.type = fsTypeDirectory →
      Effect st (.open_ fd old) (st.put st.initrd.currentFile fd (d, []))
  | missed {fd : Nat} (name : List Byte) (size : Word) : st.opened fd = none →
      Effect st (.readdir fd name size) st
  | told {fd : Nat} {d : FsDescriptor} {replies : List (Word × Int × List Byte)} (name : List Byte)
      (size c : Word) : st.opened fd = some (d, replies) →
      Effect st (.readdir fd name size) (st.put c fd
        (d, replies ++ [(size, st.initrd.dirEntry st.initrd.currentFile.toNat size)]))

theorem Ready.effect {st' : Listings} {call : DirCall} (h : st.Ready)
    (hstep : system.step st call st') : st.Effect call st' := by
  obtain ⟨hbuffer, rfl⟩ := hstep
  cases call with
  | open_ fd old =>
    have hroot : strcmp rootPath.bytes [slash, 0] = some 0 := by decide
    rw [after, open_, initrdOpen, if_pos hroot]
    exact .opened fd old rfl
  | readdir fd name size =>
    obtain ⟨hpos, hroom⟩ := hbuffer
    rw [after, readdir]
    cases hfd : st.opened fd with
    | none => exact .missed name size hfd
    | some p =>
      obtain ⟨d, replies⟩ := p
      obtain ⟨r, name', c, hr, hreply⟩ := h.loaded.readdir (h.directory fd d replies hfd) hpos hroom
      simp only [hr, hreply]
      exact .told name size c hfd

theorem Ready.step {st' : Listings} {call : DirCall} (h : st.Ready)
    (hstep : system.step st call st') : st'.Ready := by
  cases h.effect hstep with
  | @opened fd old d htype =>
    refine ⟨⟨h.loaded.header_ne, h.loaded.magic⟩, fun fd' d' replies' hfd' => ?_⟩
    rcases opened_put hfd' with ⟨-, heq⟩ | ⟨-, hold⟩
    · obtain ⟨rfl, -⟩ := Prod.mk.inj heq
      exact htype
    · exact h.directory fd' d' replies' hold
  | missed => exact h
  | @told fd d replies name size c hfd =>
    refine ⟨⟨h.loaded.header_ne, h.loaded.magic⟩, fun fd' d' replies' hfd' => ?_⟩
    rcases opened_put hfd' with ⟨-, heq⟩ | ⟨-, hold⟩
    · obtain ⟨rfl, -⟩ := Prod.mk.inj heq
      exact h.directory fd d replies hfd
    · exact h.directory fd' d' replies' hold

theorem ready_of_reach (h : system.Reach st) : st.Ready :=
  h.invariant
    (fun _ hinit => ⟨hinit.1, fun fd _ _ hfd => nomatch (hinit.2.2 fd).symm.trans hfd⟩)
    fun _ _ _ _ hs _ hstep => hs.step hstep

/-- A call keeps the replies right exactly when it finds the descriptor's place in `current_file`. -/
theorem right_step_iff (h : st.Ready) (hright : st.Right) {call : DirCall} {st' : Listings}
    (hstep : system.step st call st') : st'.Right ↔ st.InPlace call := by
  cases h.effect hstep with
  | opened fd old =>
    refine iff_of_true (fun fd' d' replies' hfd' => ?_) trivial
    rcases opened_put hfd' with ⟨-, heq⟩ | ⟨-, hold⟩
    · obtain ⟨-, rfl⟩ := Prod.mk.inj heq
      intro i _ size reply hi
      cases hi
    · exact hright fd' d' replies' hold
  | missed name size hfd =>
    exact iff_of_true hright fun d replies hsome => nomatch hfd.symm.trans hsome
  | @told fd d replies name size c hfd =>
    constructor
    · intro hright' d' replies' hfd' hle
      obtain ⟨rfl, rfl⟩ := Prod.mk.inj (Option.some.inj (hfd.symm.trans hfd'))
      refine hright' fd _ _ (Function.update_self ..) _ hle size _ ?_
      rw [List.getElem?_append_right (Nat.le_refl _), Nat.sub_self]
      rfl
    · intro hplace fd' d' replies' hfd' i hi size' reply hreply
      rcases opened_put hfd' with ⟨rfl, heq⟩ | ⟨-, hold⟩
      · obtain ⟨-, rfl⟩ := Prod.mk.inj heq
        rcases Nat.lt_trichotomy i replies.length with hlt | rfl | hgt
        · rw [List.getElem?_append_left hlt] at hreply
          exact hright _ _ replies hfd i hi size' reply hreply
        · rw [List.getElem?_append_right (Nat.le_refl _), Nat.sub_self] at hreply
          obtain ⟨rfl, rfl⟩ := Prod.mk.inj (Option.some.inj hreply)
          exact hplace _ replies hfd hi
        · rw [List.getElem?_eq_none (by rw [List.length_append, List.length_singleton]; omega)]
            at hreply
          cases hreply
      · exact hright fd' d' replies' hold i hi size' reply hreply

/-- From a fresh image on, all descriptors are told the files in order exactly when each call finds
its descriptor's place in `current_file`. -/
theorem listings_right_iff {st : Listings} (h : system.init st) {run : List (DirCall × Listings)}
    (hrun : system.Run st run) :
    System.Along Right st run ↔ System.Meets InPlace st run := by
  refine hrun.along_iff_meets (fun s a s' hs hright hstep =>
    right_step_iff (ready_of_reach hs) hright hstep) (.init h) fun fd d replies hfd => ?_
  exact nomatch (h.2.2 fd).symm.trans hfd

/-- An image with one file, and no descriptor. -/
def sample : Listings :=
  ⟨⟨(Mem.write32 (fun _ => 0) 0x1000 0xBF).write32 0x1004 1, 0x1000, 0x1C08, 0, 0, 0, 0⟩,
    fun _ => none⟩

theorem sample_init : system.init sample :=
  ⟨⟨by decide, by decide⟩, rfl, fun _ => rfl⟩

def sampleFd : FsDescriptor := ⟨0, 0, 0, 0, 0⟩

def sampleBuffer : List Byte := List.replicate 8 0

/-- The steps of a list of calls. -/
def calls : Listings → List DirCall → List (DirCall × Listings)
  | _, [] => []
  | st, call :: cs => (call, st.after call) :: calls (st.after call) cs

theorem run_calls (st : Listings) {cs : List DirCall} (h : ∀ call ∈ cs, call.HasBuffer) :
    system.Run st (calls st cs) := by
  induction cs generalizing st with
  | nil => exact .nil st
  | cons call cs ih =>
    exact .cons ⟨h call List.mem_cons_self, rfl⟩ (ih _ fun c hc => h c (List.mem_cons_of_mem _ hc))

/-- One listing, to its end. -/
theorem listings_right_iff_sample :
    System.Along Right sample (calls sample
      [.open_ 0 sampleFd, .readdir 0 sampleBuffer 8, .readdir 0 sampleBuffer 8]) := by
  refine (listings_right_iff sample_init (run_calls sample ?_)).mpr ⟨trivial, ?_, ?_, trivial⟩
  · simp [DirCall.HasBuffer, sampleBuffer]
  · intro d replies hfd _
    obtain ⟨-, rfl⟩ := Prod.mk.inj (Option.some.inj hfd)
    rfl
  · intro d replies hfd _
    obtain ⟨-, rfl⟩ := Prod.mk.inj (Option.some.inj hfd)
    rfl

/-- A listing that is left after its first file; the next one is told the end at once. -/
theorem abandoned_listing_misleads :
    ∃ st run, system.init st ∧ system.Run st run ∧ ¬System.Along Right st run := by
  refine ⟨sample, calls sample [.open_ 0 sampleFd, .readdir 0 sampleBuffer 8, .open_ 1 sampleFd,
    .readdir 1 sampleBuffer 8], sample_init, run_calls sample ?_, fun h => ?_⟩
  · simp [DirCall.HasBuffer, sampleBuffer]
  · have hlast := h.2 _ (List.mem_of_getElem? (i := 3) rfl)
    have hreply := hlast 1 _ _ rfl 0 (Nat.zero_le _) 8 _ rfl
    exact absurd (congrArg Prod.fst hreply) (by decide)

end Listings

end Lbos

import Lbos.Fs.FileStream
import Lbos.Fs.ImageBounds
import Lbos.Fs.InitrdFiles

/-! The ramdisk at other mount points than the root.  `open_file` hands the whole path to the file
system, and `initrd_open` takes only a leading slash off, so that below another mount point no name
of the image is found. -/

namespace Lbos

open Lib

/-- Strings that `strcmp` finds equal. -/
theorem text_eq_of_strcmp {s t : List Byte} (h : strcmp s t = some 0) : text s = text t := by
  induction s generalizing t with
  | nil => cases h
  | cons c s ih =>
    cases t with
    | nil => cases h
    | cons d t =>
      rw [strcmp] at h
      split at h
      · next heq =>
        obtain ⟨hc, rfl⟩ := heq
        rw [text_cons hc, text_cons hc, ih h]
      · next hne =>
        obtain ⟨rfl, rfl⟩ := (stop_eq_zero_iff hne).mp h
        rfl

/-- `/`, or an absolute path without a slash at its end that fits into a buffer. -/
def MountPath (m : List Byte) : Prop :=
  m = [slash] ∨ (m.head? = some slash ∧ m.getLast? ≠ some slash ∧ m.length < maxPathLen)

/-- A name below a mount point, behind one slash. -/
def joined (m name : List Byte) : List Byte :=
  if m = [slash] then slash :: name else m ++ slash :: name

namespace Initrd

variable {s : Initrd} {path : CString} {i : Nat}

/-- The image has a file of this name. -/
def HasFile (s : Initrd) (name : List Byte) : Prop :=
  ∃ i, i < s.numFiles.toNat ∧ 0 ∈ cstr s.mem (s.file i) ∧ text (cstr s.mem (s.file i)) = name

/-- A file that is found has the name that the path gives below the root. -/
theorem findFile_name (hfind : s.findFile path = some i) {q : List Byte}
    (hpath : path.text = slash :: q) : text (cstr s.mem (s.file i)) = q := by
  obtain ⟨rest, hbytes, -, htext⟩ := CString.tail_text hpath
  unfold findFile at hfind
  split at hfind
  · cases hfind
  · obtain ⟨-, hcmp⟩ := search_some hfind
    rw [hbytes] at hcmp
    have hname := text_eq_of_strcmp (of_decide_eq_true hcmp)
    exact hname.trans htext

/-- Every name is found below the root. -/
theorem HasFile.findFile {name : List Byte} (h : s.HasFile name) (hs : s.header ≠ 0)
    (hpath : path.text = slash :: name) : ∃ i, s.findFile path = some i := by
  obtain ⟨rest, hbytes, hterm, htext⟩ := CString.tail_text hpath
  obtain ⟨i, hi, hi0, hname⟩ := h
  cases hfind : s.findFile path with
  | some j => exact ⟨j, rfl⟩
  | none =>
    rw [Initrd.findFile, if_neg hs, search_eq_none_iff] at hfind
    have hmiss := of_decide_eq_false (hfind i (Nat.zero_le i) (by omega))
    rw [hbytes] at hmiss
    exact absurd ((strcmp_eq_zero_iff hi0 hterm).mpr (hname.trans htext.symm)) hmiss

theorem isRoot_iff : path.IsRoot ↔ path.text = [slash] :=
  strcmp_eq_zero_iff path.terminated (by decide)

/-- A path that opens is the root or that of a file. -/
theorem open_cases {fd fd' : FsDescriptor} (hopen : initrdOpen path fd s = (0, fd', s)) :
    path.IsRoot ∧ fd'.inode = 0xFFFFFFFF ∨
      ∃ i, s.findFile path = some i ∧ fd'.inode = BitVec.ofNat 32 i := by
  by_cases hroot : path.IsRoot
  · rw [open_root hroot] at hopen
    have hfd := (Prod.mk.inj (Prod.mk.inj hopen).2).1
    exact .inl ⟨hroot, by rw [← hfd]⟩
  · cases hfind : s.findFile path with
    | none =>
      rw [initrdOpen, if_neg hroot, hfind] at hopen
      cases hopen
    | some i =>
      rw [open_found hroot hfind] at hopen
      have hfd := (Prod.mk.inj (Prod.mk.inj hopen).2).1
      exact .inr ⟨i, rfl, by rw [← hfd]⟩

theorem inode_ne_root (hfind : s.findFile path = some i) : BitVec.ofNat 32 i ≠ 0xFFFFFFFF := by
  intro heq
  exact s.not_root_lt (heq ▸ (inode_lt hfind).2)

/-- A path and a shorter one do not open as the same file. -/
theorem open_names {path' : CString} {q q' : List Byte} (hpath : path.text = slash :: q)
    (hpath' : path'.text = slash :: q') {fd fd' : FsDescriptor}
    (hopen : initrdOpen path fd s = (0, fd', s)) (hopen' : initrdOpen path' fd s = (0, fd', s)) :
    q = q' := by
  rcases open_cases hopen with ⟨hroot, hinode⟩ | ⟨i, hi, hinode⟩
  · rcases open_cases hopen' with ⟨hroot', -⟩ | ⟨j, hj, hinode'⟩
    · rw [isRoot_iff, hpath] at hroot
      rw [isRoot_iff, hpath'] at hroot'
      exact (List.cons.inj hroot).2.trans (List.cons.inj hroot').2.symm
    · exact absurd (hinode'.symm.trans hinode) (inode_ne_root hj)
  · rcases open_cases hopen' with ⟨-, hinode'⟩ | ⟨j, hj, hinode'⟩
    · exact absurd (hinode.symm.trans hinode') (inode_ne_root hi)
    · have hij : i = j := by
        have heq := congrArg BitVec.toNat (hinode.symm.trans hinode')
        rwa [(inode_lt hi).1, (inode_lt hj).1] at heq
      rw [← findFile_name hi hpath, hij]
      exact findFile_name hj hpath'

end Initrd

namespace Vfs

/-- A name below the mount point opens as it does with the ramdisk at the root. -/
def OpensFile (v root : Vfs) (fs : Word → FsOps Initrd) (s : Initrd) (m name : List Byte) : Prop :=
  ∀ fd, ∃ fd', v.openFile fs (.ofText (joined m name)) fd s = (0, fd', s) ∧
    root.openFile fs (.ofText (slash :: name)) fd s = (0, fd', s)

/-- The mount point opens as the root directory. -/
def OpensRoot (v : Vfs) (fs : Word → FsOps Initrd) (s : Initrd) (m : List Byte) : Prop :=
  ∀ fd, v.openFile fs (.ofText m) fd s = (0, ⟨0xFFFFFFFF, 0, fsTypeDirectory, 0, fsPermRead⟩, s)

end Vfs

theorem MountPath.ne_nil {m : List Byte} (h : MountPath m) : m ≠ [] := by
  rintro rfl
  rcases h with h | ⟨h, -⟩
  · cases h
  · cases h

theorem MountPath.length_lt {m : List Byte} (h : MountPath m) : m.length < maxPathLen := by
  rcases h with rfl | ⟨-, -, h⟩
  · decide
  · exact h

/-- A mount point starts with a slash, and the root has nothing more. -/
theorem MountPath.cons {m : List Byte} (h : MountPath m) : ∃ m', m = slash :: m' := by
  rcases h with rfl | ⟨h, -⟩
  · exact ⟨[], rfl⟩
  · exact List.head?_eq_some_iff.mp h

theorem joined_matches {e : MountEntry} {m : List Byte} (he : e.path = m) (name : List Byte) :
    e.Matches (joined m name) := by
  unfold joined MountEntry.Matches
  rw [he]
  split
  · next hroot => exact .inl ⟨hroot, rfl⟩
  · exact .inr (.inr ⟨name, by simp⟩)

section MountedInitrd

variable {v root : Vfs} {m : CString} {ops : Word} {fs : Word → FsOps Initrd} {s : Initrd}
variable {name : List Byte} (hv : v.Only m.text ops) (hroot : root.Only [slash] ops)
variable (hfs : fs ops = initrdOps) (hm : MountPath m.text)
include hv hfs hm

theorem opensRoot_iff : v.OpensRoot fs s m.text ↔ m.text = [slash] := by
  have hzero : 0 ∉ m.text := zero_notMem_text m.bytes
  have hopen : ∀ fd, v.openFile fs (.ofText m.text) fd s = initrdOpen (.ofText m.text) fd s :=
    fun fd => hv.openFile_initrd hm.ne_nil
      (fun e he => .inr (.inl (by rw [he, text_ofText hzero]))) hfs fd s
  constructor
  · intro h
    have hfd := (hopen ⟨0, 0, 0, 0, 0⟩).symm.trans (h _)
    rcases Initrd.open_cases hfd with ⟨hr, -⟩ | ⟨i, hi, hinode⟩
    · rwa [Initrd.isRoot_iff, text_ofText hzero] at hr
    · exact absurd hinode.symm (Initrd.inode_ne_root hi)
  · intro hm' fd
    rw [hopen, Initrd.open_root]
    rwa [Initrd.isRoot_iff, text_ofText hzero]

include hroot

theorem opensFile_iff (hs : s.header ≠ 0) (hname : s.HasFile name) :
    v.OpensFile root fs s m.text name ↔ m.text = [slash] := by
  have hzero : 0 ∉ name := by
    obtain ⟨i, -, -, rfl⟩ := hname
    exact zero_notMem_text _
  have hbelow : 0 ∉ slash :: name := List.not_mem_cons_of_ne_of_not_mem (by decide) hzero
  have hjoined : 0 ∉ joined m.text name := by
    unfold joined
    split
    · exact hbelow
    · exact List.not_mem_append (zero_notMem_text m.bytes) hbelow
  have hopen : ∀ fd, v.openFile fs (.ofText (joined m.text name)) fd s =
      initrdOpen (.ofText (joined m.text name)) fd s := fun fd =>
    hv.openFile_initrd hm.ne_nil (fun e he => by
      rw [text_ofText hjoined]
      exact joined_matches he name) hfs fd s
  have hopenRoot : ∀ fd, root.openFile fs (.ofText (slash :: name)) fd s =
      initrdOpen (.ofText (slash :: name)) fd s := fun fd =>
    hroot.openFile_initrd (List.cons_ne_nil _ _) (fun e he => by
      rw [text_ofText hbelow]
      exact .inl ⟨he, rfl⟩) hfs fd s
  constructor
  · intro h
    obtain ⟨fd', hfd, hfdRoot⟩ := h ⟨0, 0, 0, 0, 0⟩
    rw [hopen] at hfd
    rw [hopenRoot] at hfdRoot
    by_contra hne
    obtain ⟨m', hm'⟩ := hm.cons
    have hpath : (CString.ofText (joined m.text name)).text = slash :: (m' ++ slash :: name) := by
      rw [text_ofText hjoined, joined, if_neg hne, hm']
      rfl
    have hlen := congrArg List.length (Initrd.open_names hpath (text_ofText hbelow) hfd hfdRoot)
    rw [List.length_append, List.length_cons] at hlen
    omega
  · intro hm' fd
    have hsame : joined m.text name = slash :: name := if_pos hm'
    rw [hsame] at hopen
    rw [hsame, hopen, hopenRoot]
    by_cases hr : (CString.ofText (slash :: name)).IsRoot
    · exact ⟨_, Initrd.open_root hr fd, Initrd.open_root hr fd⟩
    · obtain ⟨i, hi⟩ := hname.findFile hs (text_ofText hbelow)
      exact ⟨_, Initrd.open_found hr hi fd, Initrd.open_found hr hi fd⟩

end MountedInitrd

/-- As the only file system, the ramdisk opens its files as at the root, and its root directory,
exactly when it is mounted at the root. -/
theorem mounted_alike_iff {v : Vfs} (hv : v.numMountPoints = 0) {m : CString} (hm : MountPath m.text)
    (device : CString) {ops : Word} {fs : Word → FsOps Initrd} (hfs : fs ops = initrdOps)
    {s : Initrd} (hs : s.header ≠ 0) {name : List Byte} (hname : s.HasFile name) :
    ((v.mountFs m device ops 0).2.OpensFile (v.mountFs (.ofText [slash]) device ops 0).2 fs s
        m.text name ↔ m.text = [slash]) ∧
      ((v.mountFs m device ops 0).2.OpensRoot fs s m.text ↔ m.text = [slash]) := by
  have hmount := Vfs.only_mountFs hv hm.length_lt device ops 0
  have hroot : (v.mountFs (.ofText [slash]) device ops 0).2.Only [slash] ops :=
    Vfs.only_mountFs hv (m := .ofText [slash]) (by decide) device ops 0
  exact ⟨opensFile_iff hmount hroot hfs hm hs hname, opensRoot_iff hmount hfs hm⟩

theorem Initrd.greeting_hasFile : Initrd.greeting.HasFile [0x61] :=
  ⟨0, by decide, List.mem_of_getElem? (i := 1) (by decide), by decide⟩

theorem mounted_alike_iff_sample :
    (Vfs.zero.mountFs (.ofText [slash]) (.ofText []) 1 0).2.OpensFile
        (Vfs.zero.mountFs (.ofText [slash]) (.ofText []) 1 0).2 (fun _ => initrdOps) Initrd.greeting
        [slash] [0x61] ∧
      (Vfs.zero.mountFs (.ofText [slash]) (.ofText []) 1 0).2.OpensRoot (fun _ => initrdOps)
        Initrd.greeting [slash] :=
  (mounted_alike_iff (v := .zero) rfl (m := .ofText [slash]) (.inl rfl) (.ofText []) rfl (by decide)
    Initrd.greeting_hasFile).imp (·.mpr rfl) (·.mpr rfl)

/-- Mounted at `/m`, the ramdisk opens neither its file `a` nor its root. -/
theorem mounted_below_root_fails :
    let v := (Vfs.zero.mountFs (.ofText [slash, 0x6D]) (.ofText []) 1 0).2
    let root := (Vfs.zero.mountFs (.ofText [slash]) (.ofText []) 1 0).2
    MountPath [slash, 0x6D] ∧ Initrd.greeting.header ≠ 0 ∧ Initrd.greeting.HasFile [0x61] ∧
      (∀ fd, v.openFile (fun _ => initrdOps) (.ofText [slash, 0x6D, slash, 0x61]) fd
        Initrd.greeting = (-1, fd, Initrd.greeting)) ∧
      ¬v.OpensFile root (fun _ => initrdOps) Initrd.greeting [slash, 0x6D] [0x61] ∧
      ¬v.OpensRoot (fun _ => initrdOps) Initrd.greeting [slash, 0x6D] := by
  intro v root
  have hm : MountPath [slash, 0x6D] := .inr (by decide)
  have hv : v.Only [slash, 0x6D] 1 :=
    Vfs.only_mountFs (v := .zero) rfl (m := .ofText [slash, 0x6D]) (by decide) (.ofText []) 1 0
  have hfile : ∀ fd, v.openFile (fun _ => initrdOps) (.ofText [slash, 0x6D, slash, 0x61]) fd
      Initrd.greeting = (-1, fd, Initrd.greeting) := fun fd => by
    have hnone : Initrd.greeting.findFile (.ofText [slash, 0x6D, slash, 0x61]) = none := by decide
    have hmatch : ∀ e : MountEntry, e.path = [slash, 0x6D] →
        e.Matches (CString.ofText [slash, 0x6D, slash, 0x61]).text := fun e he =>
      joined_matches he [0x61]
    rw [hv.openFile_initrd hm.ne_nil hmatch rfl, initrdOpen, if_neg (by decide), hnone]
  refine ⟨hm, by decide, Initrd.greeting_hasFile, hfile, fun h => ?_, fun h => ?_⟩
  · obtain ⟨fd', hfd, -⟩ := h ⟨0, 0, 0, 0, 0⟩
    cases (hfile _).symm.trans hfd
  · exact absurd ((opensRoot_iff (m := .ofText [slash, 0x6D]) hv rfl hm).mp h) (by decide)

end Lbos

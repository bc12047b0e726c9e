import Lbos.Fs.MountTable

/-! Whether the operations on an open file go to the file system that opened it: paths are looked up
in the mount table, descriptors always lead to its first entry.  An entry is followed through the
calls, as `unmount_fs` moves the entries behind the one that it removes. -/

namespace Lbos

open Lib

/-- An operation on an open file. -/
inductive FsOp where
  | close
  | read (size : Word)
  | write (buffer : List Byte) (size : Word)
  | seek (offset : Word)
  | readdir (name : List Byte) (size : Word)

/-- The calls of the virtual file system. -/
inductive FsCall where
  | mountFs (path device : CString) (ops privateData : Word)
  | unmountFs (path : CString)
  | openFile (path : CString) (fd : FsDescriptor)
  | onFile (op : FsOp) (fd : FsDescriptor)

section Operations

variable {σ : Type}

/-- The result of a function that gives no bytes. -/
def noBytes (x : Int × FsDescriptor × σ) : Int × List Byte × FsDescriptor × σ := (x.1, [], x.2)

/-- `close_file`, `read_file`, `write_file`, `seek_file` or `read_directory`. -/
def Vfs.perform (v : Vfs) (fs : Word → FsOps σ) (fd : FsDescriptor) (s : σ) :
    FsOp → Int × List Byte × FsDescriptor × σ
  | .close => noBytes (v.closeFile fs fd s)
  | .read size => v.readFile fs fd size s
  | .write buffer size => noBytes (v.writeFile fs fd buffer size s)
  | .seek offset => noBytes (v.seekFile fs fd offset s)
  | .readdir name size => v.readDirectory fs fd name size s

/-- The function of one file system for an operation, which fails where the file system lacks it. -/
def FsOps.perform (ops : FsOps σ) (fd : FsDescriptor) (s : σ) :
    FsOp → Int × List Byte × FsDescriptor × σ
  | .close => noBytes ((ops.close.map fun f => f fd s).getD (-1, fd, s))
  | .read size => (ops.read.map fun f => f fd size s).getD (-1, [], fd, s)
  | .write buffer size => noBytes ((ops.write.map fun f => f fd buffer size s).getD (-1, fd, s))
  | .seek offset => noBytes ((ops.seek.map fun f => f fd offset s).getD (-1, fd, s))
  | .readdir name size => (ops.readdir.map fun f => f fd name size s).getD (-1, name, fd, s)

/-- File systems that do nothing but leave a mark. -/
def markingFs (ops : Word) : FsOps Word where
  open_ := some fun _ fd _ => (0, fd, ops)
  close := some fun fd _ => (0, fd, ops)
  read := some fun fd _ _ => (0, [], fd, ops)
  write := some fun fd _ _ _ => (0, fd, ops)
  seek := some fun fd _ _ => (0, fd, ops)
  readdir := some fun fd name _ _ => (0, name, fd, ops)

theorem markingFs_perform (ops : Word) (fd : FsDescriptor) (s : Word) (op : FsOp) :
    ((markingFs ops).perform fd s op).2.2.2 = ops := by
  cases op <;> rfl

end Operations

namespace Vfs

/-- Whatever the file systems are, the operation on the descriptor is that of the one with these
`fs_ops`. -/
def DispatchesTo (v : Vfs) (op : FsOp) (fd : FsDescriptor) (ops : Word) : Prop :=
  ∀ (σ : Type) (fs : Word → FsOps σ) (s : σ), v.perform fs fd s op = (fs ops).perform fd s op

/-- The first entry of the table has the `fs_ops` of entry `i`. -/
def FirstServes (v : Vfs) (i : MountIndex) : Prop :=
  (v.mountPoints ⟨0, by decide⟩).ops = (v.mountPoints i).ops

/-- Where entry `i` of the table is after a call, unless the call unmounts it. -/
def follow (v : Vfs) (i : MountIndex) : FsCall → Option MountIndex
  | .unmountFs path =>
    match v.findPath path with
    | none => some i
    | some r =>
      if i < r then some i
      else if r < i then some ⟨i.val - 1, Nat.lt_of_le_of_lt (Nat.sub_le ..) i.isLt⟩
      else none
  | _ => some i

variable {σ : Type} (fs : Word → FsOps σ)

/-- The mount table and the state of the file systems after a call. -/
def afterCall (st : Vfs × σ) : FsCall → Vfs × σ
  | .mountFs path device ops privateData => ((st.1.mountFs path device ops privateData).2, st.2)
  | .unmountFs path => ((st.1.unmountFs path).2, st.2)
  | .openFile path fd => (st.1, (st.1.openFile fs path fd st.2).2.2)
  | .onFile op fd => (st.1, (st.1.perform fs fd st.2 op).2.2.2)

def afterCalls (st : Vfs × σ) (calls : List FsCall) : Vfs × σ := calls.foldl (afterCall fs) st

/-- Where entry `i` is after some calls, unless it is unmounted on the way. -/
def followAll (st : Vfs × σ) (i : MountIndex) : List FsCall → Option MountIndex
  | [] => some i
  | call :: calls => (st.1.follow i call).bind fun i => followAll (afterCall fs st call) i calls

variable {v v' : Vfs}

/-- A mount leaves the entries of the table where they are. -/
theorem mountFs_kept (path device : CString) (ops privateData : Word) {i : MountIndex}
    (hi : i.val < v.numMountPoints) :
    i.val < (v.mountFs path device ops privateData).2.numMountPoints ∧
      (v.mountFs path device ops privateData).2.mountPoints i = v.mountPoints i := by
  cases hfind : v.findPath path with
  | some j =>
    rw [mountFs_present path device ops privateData hfind]
    exact ⟨hi, rfl⟩
  | none =>
    by_cases hlt : v.numMountPoints < maxMountPoints
    · obtain ⟨v', idx, hr, hmounted⟩ := mountFs_accepted hlt hfind device ops privateData
      rw [hr]
      exact ⟨by rw [hmounted.num]; omega, hmounted.mountPoints_old hi⟩
    · rw [mountFs_full hlt]
      exact ⟨hi, rfl⟩

/-- An unmount moves the entries behind the one that it removes. -/
theorem unmountFs_follow {path : CString} {i j : MountIndex} (hi : i.val < v.numMountPoints)
    (h : v.follow i (.unmountFs path) = some j) :
    j.val < (v.unmountFs path).2.numMountPoints ∧
      (v.unmountFs path).2.mountPoints j = v.mountPoints i := by
  cases hfind : v.findPath path with
  | none =>
    simp only [follow, hfind, Option.some.injEq] at h
    rw [unmountFs_absent hfind, ← h]
    exact ⟨hi, rfl⟩
  | some r =>
    obtain ⟨v', hr, hunmounted⟩ := unmountFs_found hfind
    have hnum := hunmounted.num
    have hlt := hunmounted.lt
    simp only [follow, hfind] at h
    rw [hr]
    split at h
    · next hbefore =>
      obtain rfl := Option.some.inj h
      have hir : i.val < r.val := hbefore
      exact ⟨by simp only; omega, (hunmounted.kept i fun hc => by omega).1⟩
    · split at h
      · next hbehind =>
        obtain rfl := Option.some.inj h
        have hri : r.val < i.val := hbehind
        exact ⟨by simp only; omega,
          (hunmounted.moved _ i (by simp only; omega) (by simp only; omega) hi).1⟩
      · cases h

/-- An entry that is followed through a call is the same entry. -/
theorem follow_kept (st : Vfs × σ) {call : FsCall} {i j : MountIndex}
    (hi : i.val < st.1.numMountPoints) (h : st.1.follow i call = some j) :
    j.val < (afterCall fs st call).1.numMountPoints ∧
      (afterCall fs st call).1.mountPoints j = st.1.mountPoints i := by
  cases call with
  | mountFs path device ops privateData =>
    obtain rfl := Option.some.inj h
    exact mountFs_kept path device ops privateData hi
  | unmountFs path => exact unmountFs_follow hi h
  | openFile => exact Option.some.inj h ▸ ⟨hi, rfl⟩
  | onFile => exact Option.some.inj h ▸ ⟨hi, rfl⟩

theorem followAll_kept (st : Vfs × σ) {calls : List FsCall} {i j : MountIndex}
    (hi : i.val < st.1.numMountPoints) (h : followAll fs st i calls = some j) :
    j.val < (afterCalls fs st calls).1.numMountPoints ∧
      (afterCalls fs st calls).1.mountPoints j = st.1.mountPoints i := by
  induction calls generalizing st i with
  | nil => exact Option.some.inj h ▸ ⟨hi, rfl⟩
  | cons call calls ih =>
    obtain ⟨i', hfollow, hrest⟩ := Option.bind_eq_some_iff.mp h
    obtain ⟨hi', hsame⟩ := follow_kept fs st hi hfollow
    obtain ⟨hj, heq⟩ := ih _ hi' hrest
    exact ⟨hj, heq.trans hsame⟩

/-- A path leads to an entry of the table. -/
theorem findMountPoint_lt {path : CString} {i : MountIndex} (h : v.findMountPoint path = some i) :
    i.val < v.numMountPoints := by
  -- each round keeps the best match, or takes the entry that it looks at
  have hround : ∀ (best : Option MountIndex × Nat) (j : MountIndex),
      v.matchMount path best j = best ∨ (v.matchMount path best j).1 = some j := by
    intro best j
    unfold matchMount
    grind
  have hloop : ∀ (l : List MountIndex) (best : Option MountIndex × Nat),
      (l.foldl (v.matchMount path) best).1 = some i → best.1 = some i ∨ i ∈ l := by
    intro l
    induction l with
    | nil => exact fun _ hbest => .inl hbest
    | cons j l ih =>
      intro best hbest
      rcases ih _ hbest with hi | hi
      · rcases hround best j with heq | heq
        · exact .inl (heq ▸ hi)
        · exact .inr (List.mem_cons.mpr (.inl (Option.some.inj (hi.symm.trans heq))))
      · exact .inr (List.mem_cons_of_mem _ hi)
  rcases hloop _ _ h with hnone | hi
  · cases hnone
  · exact of_decide_eq_true (List.mem_filter.mp hi).2

theorem descriptorOps_eq (h : 0 < v.numMountPoints) (fd : FsDescriptor) :
    v.descriptorOps fd = some (v.mountPoints ⟨0, by decide⟩).ops := by
  rw [descriptorOps, findMountPointByInode, dif_pos h]
  rfl

/-- Every operation goes to the first entry of the table. -/
theorem perform_eq (h : 0 < v.numMountPoints) (fd : FsDescriptor) (s : σ) (op : FsOp) :
    v.perform fs fd s op = (fs (v.mountPoints ⟨0, by decide⟩).ops).perform fd s op := by
  have hops := descriptorOps_eq h fd
  cases op with
  | close => rw [perform, closeFile, hops]; rfl
  | read size => rw [perform, readFile, hops]; rfl
  | write buffer size => rw [perform, writeFile, hops]; rfl
  | seek offset => rw [perform, seekFile, hops]; rfl
  | readdir name size => rw [perform, readDirectory, hops]; rfl

theorem dispatchesTo_iff (h : 0 < v.numMountPoints) (op : FsOp) (fd : FsDescriptor) (ops : Word) :
    v.DispatchesTo op fd ops ↔ (v.mountPoints ⟨0, by decide⟩).ops = ops := by
  constructor
  · intro hdispatch
    have hmarks := hdispatch Word markingFs 0
    rw [perform_eq markingFs h] at hmarks
    have hmark := congrArg (fun r => r.2.2.2) hmarks
    rwa [markingFs_perform, markingFs_perform] at hmark
  · rintro rfl σ fs s
    exact perform_eq fs h fd s op

theorem openFile_fails {path : CString} (h : v.pathOps path = none) (fd : FsDescriptor) (s : σ) :
    v.openFile fs path fd s = (-1, fd, s) := by
  rw [openFile, h]
  rfl

end Vfs

/-- A file is opened after any calls, and any more calls are made, which leave the file system of the
file mounted.  Then an operation on a descriptor goes to that file system exactly if the first entry
of the table has its `fs_ops`. -/
theorem descriptor_dispatch_iff {σ : Type} (fs : Word → FsOps σ) (st : Vfs × σ)
    (before after : List FsCall) (path : CString) (fd fd' : FsDescriptor) (op : FsOp) :
    let opened := Vfs.afterCalls fs st before
    let calls := FsCall.openFile path fd :: after
    (opened.1.openFile fs path fd opened.2).1 = 0 →
      ∃ i, opened.1.findMountPoint path = some i ∧
        ∀ j, Vfs.followAll fs opened i calls = some j →
          ((Vfs.afterCalls fs opened calls).1.DispatchesTo op fd' (opened.1.mountPoints i).ops ↔
            (Vfs.afterCalls fs opened calls).1.FirstServes j) := by
  intro opened calls hopen
  cases hfind : opened.1.findMountPoint path with
  | none =>
    have hnone : opened.1.pathOps path = none := by rw [Vfs.pathOps, hfind]; rfl
    rw [Vfs.openFile_fails fs hnone] at hopen
    have hfail : (-1 : Int) = 0 := hopen
    exact absurd hfail (by decide)
  | some i =>
    refine ⟨i, rfl, fun j hj => ?_⟩
    obtain ⟨hlt, hsame⟩ := Vfs.followAll_kept fs opened (Vfs.findMountPoint_lt hfind) hj
    rw [Vfs.dispatchesTo_iff (Nat.zero_lt_of_lt hlt), Vfs.FirstServes, hsame]

/-- File systems that open every path, and whose files have one byte. -/
def sampleFs (ops : Word) : FsOps Unit where
  open_ := some fun _ fd s => (0, fd, s)
  close := none
  read := some fun fd _ s => (1, [ops.setWidth 8], fd, s)
  write := none
  seek := none
  readdir := none

def sampleFd : FsDescriptor := ⟨0, 0, 0, 0, 0⟩

/-- File systems at `/` and `/d`. -/
def sampleMounts : List FsCall :=
  [.mountFs (.ofText [slash]) (.ofText []) 1 0, .mountFs (samplePath 0x64) (.ofText []) 2 0]

/-- `/d/f`. -/
def sampleFile : CString := .ofText [slash, 0x64, slash, 0x66]

/-- After the file is opened, `/` is unmounted and `/e` is mounted. -/
theorem descriptor_dispatch_iff_sample :
    (Vfs.afterCalls sampleFs (Vfs.afterCalls sampleFs (Vfs.zero.initVfs, ()) sampleMounts)
      [.openFile sampleFile sampleFd, .unmountFs (.ofText [slash]), .onFile (.read 8) sampleFd,
        .mountFs (samplePath 0x65) (.ofText []) 3 0]).1.DispatchesTo (.read 8) sampleFd 2 := by
  obtain ⟨i, hi, hdispatch⟩ := descriptor_dispatch_iff sampleFs (Vfs.zero.initVfs, ()) sampleMounts
    [.unmountFs (.ofText [slash]), .onFile (.read 8) sampleFd,
      .mountFs (samplePath 0x65) (.ofText []) 3 0]
    sampleFile sampleFd sampleFd (.read 8) (by decide +kernel)
  have hsecond : (Vfs.afterCalls sampleFs (Vfs.zero.initVfs, ()) sampleMounts).1.findMountPoint
      sampleFile = some ⟨1, by decide⟩ := by decide +kernel
  obtain rfl := Option.some.inj (hsecond.symm.trans hi)
  exact (hdispatch ⟨0, by decide⟩ (by decide +kernel)).mpr rfl

/-- A file below `/d` is opened there, and then read through the file system at `/`. -/
theorem sample_descriptor_misled :
    let opened := Vfs.afterCalls sampleFs (Vfs.zero.initVfs, ()) sampleMounts
    (opened.1.openFile sampleFs sampleFile sampleFd opened.2).1 = 0 ∧
      opened.1.findMountPoint sampleFile = some ⟨1, by decide⟩ ∧
      (opened.1.mountPoints ⟨1, by decide⟩).ops = 2 ∧
      Vfs.followAll sampleFs opened ⟨1, by decide⟩ [.openFile sampleFile sampleFd] =
        some ⟨1, by decide⟩ ∧
      (opened.1.readFile sampleFs sampleFd 8 opened.2).2.1 = [1] ∧
      ¬opened.1.DispatchesTo (.read 8) sampleFd 2 := by
  refine ⟨by decide +kernel, by decide +kernel, by decide +kernel, by decide +kernel,
    by decide +kernel, fun hdispatch => ?_⟩
  have hread := congrArg (fun r => r.2.1) (hdispatch Unit sampleFs ())
  exact absurd hread (by decide +kernel)

end Lbos

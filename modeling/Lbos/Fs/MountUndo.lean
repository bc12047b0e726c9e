import Lbos.Fs.MountTable

/-! Whether `unmount_fs` undoes `mount_fs`.  A path is stored in a buffer of 256 bytes, cut off if need
be, but both functions compare what is stored with the whole path, so that a path that was cut off is
never found again. -/

namespace Lbos

open Lib

/-- The arguments of `mount_fs`. -/
structure MountArgs where
  path : CString
  device : CString
  ops : Word
  privateData : Word

namespace Vfs

variable (v : Vfs)

def mount (args : MountArgs) : Int × Vfs :=
  v.mountFs args.path args.device args.ops args.privateData

/-- The path was mounted, which led from `v` to `v'`, and can be unmounted: mounting it again is
refused as it is there, and unmounting it leaves the table as it was. -/
structure Undoable (v v' : Vfs) (path : CString) : Prop where
  present : ∃ i, v'.findPath path = some i
  again : ∀ device ops privateData, v'.mountFs path device ops privateData = (-1, v')
  unmounts : (v'.unmountFs path).1 = 0
  restores : (v'.unmountFs path).2.live = v.live

/-- A mount that is accepted can be undone. -/
def Undone (args : MountArgs) : Prop := (v.mount args).1 = 0 → v.Undoable (v.mount args).2 args.path

/-- A path that is not there, when there is room, fits into a buffer. -/
def AcceptsShort (args : MountArgs) : Prop :=
  v.numMountPoints < maxMountPoints → v.findPath args.path = none →
    args.path.text.length < maxPathLen

def PathsDistinct : Prop := (v.live.map (·.path)).Nodup

/-- Entry `i` has buffers `i`. -/
def OwnBuffers : Prop := ∀ i : MountIndex, i.val < v.numMountPoints →
  (v.mountPoints i).path = some i ∧ (v.mountPoints i).device = some i

end Vfs

/-- Mounts only. -/
def mountsOnly : System Vfs MountArgs where
  init v := ∃ v₀ : Vfs, v = v₀.initVfs
  step v args v' := v' = (v.mount args).2

namespace Vfs

variable {v v' : Vfs} {idx : MountIndex} {path device : CString} {ops privateData : Word}

theorem OwnBuffers.text_path (h : v.OwnBuffers) {i : MountIndex} (hi : i.val < v.numMountPoints) :
    text (v.path i) = (v.pathBuffers i).text := Vfs.text_path (h i hi).1

theorem OwnBuffers.pathsStored (h : v.OwnBuffers) : v.PathsStored := fun i hi => ⟨i, (h i hi).1⟩

/-! ### An accepted mount -/

theorem Mounted.index_cases (hm : Mounted v v' idx path device ops privateData) {i : MountIndex}
    (hi : i.val < v'.numMountPoints) : i.val < v.numMountPoints ∨ i = idx := by
  rw [hm.num] at hi
  rcases Nat.lt_succ_iff_lt_or_eq.mp hi with hlt | heq
  · exact .inl hlt
  · exact .inr (Fin.ext (heq.trans hm.idx_eq.symm))

theorem Mounted.own (hm : Mounted v v' idx path device ops privateData) (h : v.OwnBuffers) :
    v'.OwnBuffers := by
  intro i hi
  rcases hm.index_cases hi with hlt | rfl
  · rw [hm.mountPoints_old hlt]
    exact h i hlt
  · rw [hm.mountPoints, Function.update_self]
    exact ⟨rfl, rfl⟩

/-- The entries that were there stay. -/
theorem Mounted.entry_kept (hm : Mounted v v' idx path device ops privateData) (h : v.OwnBuffers)
    {i : MountIndex} (hi : i.val < v.numMountPoints) : v'.entry i = v.entry i := by
  have hne : i ≠ idx := fun heq => by
    rw [heq, hm.idx_eq] at hi
    exact Nat.lt_irrefl _ hi
  have hsame := hm.mountPoints_old hi
  obtain ⟨hpath, hdevice⟩ := h i hi
  rw [entry, entry, Vfs.text_path (hsame ▸ hpath), text_device (hsame ▸ hdevice), Vfs.text_path hpath,
    text_device hdevice, hsame, hm.pathBuffers, hm.deviceBuffers, Function.update_of_ne hne,
    Function.update_of_ne hne]

/-- What is stored of the new path. -/
theorem Mounted.text_new (hm : Mounted v v' idx path device ops privateData) :
    text (v'.path idx) = path.text.take (maxPathLen - 1) := by
  have hmount : (v'.mountPoints idx).path = some idx := by rw [hm.mountPoints, Function.update_self]
  rw [Vfs.text_path hmount, hm.pathBuffers, Function.update_self, PathBuffer.text_fill]

theorem Mounted.live_dropLast (hm : Mounted v v' idx path device ops privateData)
    (h : v.OwnBuffers) : v'.dropLast.live = v.live := by
  have hnum : v'.dropLast.numMountPoints = v.numMountPoints := by
    show v'.numMountPoints - 1 = _
    rw [hm.num]
    rfl
  rw [live_eq_iff, length_live]
  refine ⟨hnum.symm, fun i hi => ?_⟩
  rw [hnum] at hi
  rw [getElem?_live hi]
  exact congrArg some (hm.entry_kept h hi).symm

/-- Unmounting the last entry moves nothing. -/
theorem Mounted.unmountFs_new (hm : Mounted v v' idx path device ops privateData)
    (hfind : v'.findPath path = some idx) : v'.unmountFs path = (0, v'.dropLast) := by
  have hlast : v'.numMountPoints - 1 - idx.val = 0 := by
    rw [hm.num, hm.idx_eq]
    omega
  rw [unmountFs, hfind]
  simp only [hlast]
  rfl

/-- It can be undone exactly if its path fits into a buffer. -/
theorem Mounted.undoable_iff (hm : Mounted v v' idx path device ops privateData) (h : v.OwnBuffers)
    (hnone : v.findPath path = none) :
    v.Undoable v' path ↔ path.text.length < maxPathLen := by
  have hown := hm.own h
  have hidx : idx.val < v'.numMountPoints := by
    rw [hm.num, hm.idx_eq]
    exact Nat.lt_succ_self _
  constructor
  · rintro ⟨⟨i, hi⟩, -⟩
    -- what is stored is shorter than a buffer
    by_contra hlong
    have hmiss : v'.findPath path = none := hown.pathsStored.findPath_none_iff.mpr fun j hj heq => by
      have hstored := (v'.pathBuffers j).length_text_lt
      rw [← hown.text_path hj, heq] at hstored
      exact hlong hstored
    cases hi.symm.trans hmiss
  · intro hshort
    have htext : text (v'.path idx) = path.text :=
      hm.text_new.trans (List.take_of_length_le (Nat.le_pred_of_lt hshort))
    have hbefore : ∀ j < idx, text (v'.path j) ≠ path.text := fun j hj => by
      have hlt : j.val < v.numMountPoints := hm.idx_eq ▸ hj
      have hsame : text (v'.path j) = text (v.path j) :=
        congrArg MountEntry.path (hm.entry_kept h hlt)
      rw [hsame]
      exact h.pathsStored.findPath_none_iff.mp hnone j hlt
    have hfind : v'.findPath path = some idx :=
      hown.pathsStored.findPath_some_iff.mpr ⟨hidx, htext, hbefore⟩
    have hunmount := hm.unmountFs_new hfind
    refine ⟨⟨idx, hfind⟩, fun device ops privateData => mountFs_present path device ops privateData hfind,
      ?_, ?_⟩
    · rw [hunmount]
    · rw [hunmount]
      exact hm.live_dropLast h

/-- The new path is none of those that were there. -/
theorem Mounted.pathsDistinct (hm : Mounted v v' idx path device ops privateData) (h : v.OwnBuffers)
    (hnone : v.findPath path = none) (hshort : path.text.length < maxPathLen)
    (hdistinct : v.PathsDistinct) : v'.PathsDistinct := by
  have htext : text (v'.path idx) = path.text :=
    hm.text_new.trans (List.take_of_length_le (Nat.le_pred_of_lt hshort))
  have hlive : v'.live = v.live ++ [v'.entry idx] := by
    rw [live_eq_iff, List.length_append, length_live]
    refine ⟨hm.num.symm, fun i hi => ?_⟩
    rcases hm.index_cases hi with hlt | rfl
    · rw [List.getElem?_append_left (by rwa [length_live]), getElem?_live hlt, hm.entry_kept h hlt]
    · rw [List.getElem?_append_right (by rw [length_live, hm.idx_eq]), length_live, hm.idx_eq,
        Nat.sub_self]
      rfl
  rw [PathsDistinct, hlive, List.map_append, List.map_singleton, List.nodup_append]
  refine ⟨hdistinct, List.nodup_singleton _, fun q hq q' hq' => ?_⟩
  obtain ⟨e, he, rfl⟩ := List.mem_map.mp hq
  obtain ⟨i, hi, rfl⟩ := mem_live.mp he
  rw [List.mem_singleton.mp hq']
  exact fun heq => h.pathsStored.findPath_none_iff.mp hnone i hi (heq.trans htext)

/-! ### Runs -/

/-- A mount is refused, or appends an entry. -/
theorem mount_cases (v : Vfs) (args : MountArgs) :
    (v.mount args = (-1, v) ∧
      ¬(v.numMountPoints < maxMountPoints ∧ v.findPath args.path = none)) ∨
    (v.numMountPoints < maxMountPoints ∧ v.findPath args.path = none) ∧
      ∃ v' idx, v.mount args = (0, v') ∧
        Mounted v v' idx args.path args.device args.ops args.privateData := by
  by_cases hlt : v.numMountPoints < maxMountPoints
  · cases hfind : v.findPath args.path with
    | some i => exact .inl ⟨mountFs_present _ _ _ _ hfind, fun hc => by cases hc.2⟩
    | none => exact .inr ⟨⟨hlt, rfl⟩, mountFs_accepted hlt hfind args.device args.ops args.privateData⟩
  · exact .inl ⟨mountFs_full hlt _ _ _ _, fun hc => hlt hc.1⟩

theorem OwnBuffers.mount (h : v.OwnBuffers) (args : MountArgs) : (v.mount args).2.OwnBuffers := by
  rcases v.mount_cases args with ⟨hr, -⟩ | ⟨-, v', idx, hr, hm⟩
  · rwa [hr]
  · rw [hr]
    exact hm.own h

theorem OwnBuffers.undone_iff (h : v.OwnBuffers) (args : MountArgs) :
    v.Undone args ↔ v.AcceptsShort args := by
  rcases v.mount_cases args with ⟨hr, hrefused⟩ | ⟨⟨hlt, hnone⟩, v', idx, hr, hm⟩
  · have hfail : (-1 : Int) ≠ 0 := by decide
    rw [Undone, AcceptsShort, hr]
    exact iff_of_true (fun hc => absurd hc hfail) fun hlt hnone => absurd ⟨hlt, hnone⟩ hrefused
  · have hundoable := hm.undoable_iff h hnone
    rw [Undone, AcceptsShort, hr]
    exact ⟨fun hu _ _ => hundoable.mp (hu rfl), fun hshort _ => hundoable.mpr (hshort hlt hnone)⟩

theorem OwnBuffers.pathsDistinct (h : v.OwnBuffers) {args : MountArgs} (hshort : v.AcceptsShort args)
    (hdistinct : v.PathsDistinct) : (v.mount args).2.PathsDistinct := by
  rcases v.mount_cases args with ⟨hr, -⟩ | ⟨⟨hlt, hnone⟩, v', idx, hr, hm⟩
  · rwa [hr]
  · rw [hr]
    exact hm.pathsDistinct h hnone (hshort hlt hnone) hdistinct

end Vfs

theorem ownBuffers_of_reach {v : Vfs} (hv : mountsOnly.Reach v) : v.OwnBuffers := by
  refine hv.invariant ?_ fun v args v' _ h _ hstep => ?_
  · rintro _ ⟨v₀, rfl⟩ i hi
    exact absurd hi (Nat.not_lt_zero _)
  · obtain rfl : v' = (v.mount args).2 := hstep
    exact h.mount args

/-- In a run of mounts every one that is accepted can be undone, and the stored paths stay pairwise
distinct, exactly if every path that is mounted anew fits into a buffer. -/
theorem mounts_undone_iff {v : Vfs} (hv : mountsOnly.init v) {run : List (MountArgs × Vfs)}
    (hrun : mountsOnly.Run v run) :
    System.Meets Vfs.Undone v run ∧ System.Along Vfs.PathsDistinct v run ↔
      System.Meets Vfs.AcceptsShort v run := by
  have hundone : System.Meets Vfs.Undone v run ↔ System.Meets Vfs.AcceptsShort v run :=
    hrun.meets_iff_meets (I := fun _ => True)
      (fun v args _ hreach _ _ => (ownBuffers_of_reach hreach).undone_iff args)
      (fun _ _ _ _ _ _ _ => trivial) (.init hv) trivial
  refine ⟨fun h => hundone.mp h.1, fun h => ⟨hundone.mpr h, ?_⟩⟩
  refine hrun.along_of_meets (fun v args v' hreach hdistinct hshort hstep => ?_) (.init hv) ?_ h
  · obtain rfl : v' = (v.mount args).2 := hstep
    exact (ownBuffers_of_reach hreach).pathsDistinct hshort hdistinct
  · obtain ⟨v₀, rfl⟩ := hv
    exact List.nodup_nil

/-- The root, a path below it, and the root again, which is refused. -/
def undoneMounts : List MountArgs :=
  [⟨.ofText [slash], .ofText [], 1, 0⟩, ⟨.ofText [slash, 0x61], .ofText [], 2, 0⟩,
    ⟨.ofText [slash], .ofText [], 3, 0⟩]

theorem mounts_undone_iff_sample : ∃ run, run.map Prod.fst = undoneMounts ∧
    mountsOnly.Run Vfs.zero.initVfs run ∧ System.Meets Vfs.Undone Vfs.zero.initVfs run ∧
      System.Along Vfs.PathsDistinct Vfs.zero.initVfs run := by
  have hshort : ∀ (i : Nat) (hi : i < undoneMounts.length),
      (undoneMounts[i]).path.text.length < maxPathLen := by decide
  have hrun : mountsOnly.Run Vfs.zero.initVfs _ :=
    .cons (a := undoneMounts[0]) rfl (.cons (a := undoneMounts[1]) rfl
      (.cons (a := undoneMounts[2]) rfl (.nil _)))
  refine ⟨_, rfl, hrun, (mounts_undone_iff ⟨.zero, rfl⟩ hrun).mpr ⟨?_, ?_, ?_, trivial⟩⟩
  · exact fun _ _ => hshort 0 (by decide)
  · exact fun _ _ => hshort 1 (by decide)
  · exact fun _ _ => hshort 2 (by decide)

/-- A path of 256 characters. -/
def longMount : MountArgs := ⟨.ofText (List.replicate 256 0x61), .ofText [], 1, 0⟩

/-- It is mounted twice, stored as the same path twice, and cannot be unmounted. -/
theorem long_path_not_undone :
    ∃ v, mountsOnly.Reach v ∧ (v.mount longMount).1 = 0 ∧
      ((v.mount longMount).2.unmountFs longMount.path).1 = -1 ∧
      ((v.mount longMount).2.mount longMount).1 = 0 ∧
      ¬((v.mount longMount).2.mount longMount).2.PathsDistinct := by
  refine ⟨Vfs.zero.initVfs, .init ⟨.zero, rfl⟩, by decide +kernel, by decide +kernel,
    by decide +kernel, ?_⟩
  rw [Vfs.PathsDistinct]
  decide +kernel

end Lbos

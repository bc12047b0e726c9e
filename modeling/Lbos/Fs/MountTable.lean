import Lbos.Fs.Vfs
import Lbos.Lib.Transition

/-! The mount table as an ordered map from paths to file systems.  `unmount_fs` moves the entries
and also what their buffers hold, so that an entry which is moved points to a buffer that is not at
its own index any more: the table is the map as long as no buffer is overwritten behind an entry. -/

namespace Lbos

open Lib

/-- An entry of the map. -/
structure MountEntry where
  path : List Byte
  device : List Byte
  ops : Word
  privateData : Word
  deriving DecidableEq

/-- The calls that change the table. -/
inductive MountCall where
  | mountFs (path device : CString) (ops privateData : Word)
  | unmountFs (path : CString)

/-- The strings of a call fit into the buffers. -/
def MountCall.Short : MountCall → Prop
  | mountFs path device _ _ => path.text.length < maxPathLen ∧ device.text.length < maxPathLen
  | unmountFs path => path.text.length < maxPathLen

/-- What a call does to the map: a mount is refused when the path is there or the map is full, an
unmount when the path is not there. -/
def MountCall.spec : MountCall → List MountEntry → Int × List MountEntry
  | mountFs path device ops privateData, t =>
    if path.text ∈ t.map (·.path) ∨ maxMountPoints ≤ t.length then (-1, t)
    else (0, t ++ [⟨path.text, device.text, ops, privateData⟩])
  | unmountFs path, t =>
    if path.text ∈ t.map (·.path) then (0, t.eraseP fun e => e.path = path.text) else (-1, t)

namespace Vfs

variable (v : Vfs)

def call : MountCall → Int × Vfs
  | .mountFs path device ops privateData => v.mountFs path device ops privateData
  | .unmountFs path => v.unmountFs path

/-- A mount point, read through its pointers. -/
def entry (i : MountIndex) : MountEntry :=
  ⟨text (v.path i), text (v.device i), (v.mountPoints i).ops, (v.mountPoints i).privateData⟩

/-- The mount points `[0, num_mount_points)`. -/
def live : List MountEntry :=
  List.ofFn fun k : Fin v.numMountPoints => v.entry (k.castLE v.num_le)

/-- The call overwrites no buffer that an entry which stays points to: a mount fills the buffer of
index `num_mount_points`, an unmount of entry `i` fills those from `i` on. -/
def BuffersUnshared : MountCall → Prop
  | .mountFs path _ _ _ => v.findPath path = none → ∀ j : MountIndex, j.val < v.numMountPoints →
      ∀ b, (v.mountPoints j).path = some b → b.val ≠ v.numMountPoints
  | .unmountFs path => ∀ i, v.findPath path = some i → ∀ j : MountIndex,
      j.val < v.numMountPoints → j ≠ i → ∀ b, (v.mountPoints j).path = some b →
        ¬(i.val ≤ b.val ∧ b.val + 1 < v.numMountPoints)

instance : DecidablePred v.BuffersUnshared
  | .mountFs .. => inferInstanceAs (Decidable (_ = none → _))
  | .unmountFs .. => inferInstanceAs (Decidable (∀ i, _ = some i → _))

/-- The entries point to buffers of their own, and a buffer behind that of an entry holds another
path than its. -/
structure Sound : Prop where
  pointers : ∀ i : MountIndex, i.val < v.numMountPoints →
    ∃ b, (v.mountPoints i).path = some b ∧ (v.mountPoints i).device = some b
  distinct : ∀ i j : MountIndex, i.val < v.numMountPoints → j.val < v.numMountPoints →
    (v.mountPoints i).path = (v.mountPoints j).path → i = j
  apart : ∀ i : MountIndex, i.val < v.numMountPoints → ∀ b, (v.mountPoints i).path = some b →
    ∀ q : MountIndex, b < q → q.val < v.numMountPoints →
      (v.pathBuffers q).text ≠ (v.pathBuffers b).text

variable {v}

theorem text_path {i b : MountIndex} (h : (v.mountPoints i).path = some b) :
    text (v.path i) = (v.pathBuffers b).text := by
  rw [path, h]
  rfl

theorem text_device {i b : MountIndex} (h : (v.mountPoints i).device = some b) :
    text (v.device i) = (v.deviceBuffers b).text := by
  rw [device, h]
  rfl

theorem length_live : v.live.length = v.numMountPoints := List.length_ofFn

theorem getElem?_live {k : Nat} (hk : k < v.numMountPoints) :
    v.live[k]? = some (v.entry ⟨k, Nat.lt_of_lt_of_le hk v.num_le⟩) := by
  rw [live, List.getElem?_ofFn, dif_pos hk]
  rfl

theorem mem_live {e : MountEntry} :
    e ∈ v.live ↔ ∃ i : MountIndex, i.val < v.numMountPoints ∧ v.entry i = e := by
  rw [live, List.mem_ofFn]
  constructor
  · rintro ⟨k, hk⟩
    exact ⟨_, k.isLt, hk⟩
  · rintro ⟨i, hi, he⟩
    exact ⟨⟨i.val, hi⟩, he⟩

theorem live_eq_iff {t : List MountEntry} : v.live = t ↔
    t.length = v.numMountPoints ∧ ∀ i : MountIndex, i.val < v.numMountPoints →
      t[i.val]? = some (v.entry i) := by
  constructor
  · rintro rfl
    exact ⟨length_live, fun i hi => getElem?_live hi⟩
  · rintro ⟨hlength, hget⟩
    refine List.ext_getElem? fun k => ?_
    by_cases hk : k < v.numMountPoints
    · rw [getElem?_live hk, ← hget ⟨k, Nat.lt_of_lt_of_le hk v.num_le⟩ hk]
    · rw [List.getElem?_eq_none (by rw [length_live]; omega), List.getElem?_eq_none (by omega)]

/-! ### The search for a path -/

theorem findPath_lt {p : CString} {i : MountIndex} (hi : v.findPath p = some i) :
    i.val < v.numMountPoints := by
  rw [findPath] at hi
  have hfound := List.find?_some hi
  exact (of_decide_eq_true hfound).1

/-- The path of an entry is compared with the whole of another. -/
theorem strcmp_path {i b : MountIndex} (hb : (v.mountPoints i).path = some b) (p : CString) :
    strcmp (v.path i) p.bytes = some 0 ↔ text (v.path i) = p.text := by
  have hpath : v.path i = (v.pathBuffers b).bytes := by
    rw [path, hb]
    rfl
  rw [hpath]
  exact strcmp_eq_zero_iff (v.pathBuffers b).terminated p.terminated

/-- Every entry points to a buffer. -/
def PathsStored (v : Vfs) : Prop :=
  ∀ i : MountIndex, i.val < v.numMountPoints → ∃ b, (v.mountPoints i).path = some b

theorem Sound.pathsStored (h : v.Sound) : v.PathsStored := fun i hi =>
  (h.pointers i hi).imp fun _ hb => hb.1

section Search

variable (h : v.PathsStored) {p : CString}
include h

theorem PathsStored.matches_iff (i : MountIndex) :
    (i.val < v.numMountPoints ∧ strcmp (v.path i) p.bytes = some 0) ↔
      i.val < v.numMountPoints ∧ text (v.path i) = p.text :=
  and_congr_right fun hi => (h i hi).elim fun _ hb => strcmp_path hb p

/-- The first entry with that path is found. -/
theorem PathsStored.findPath_some_iff {i : MountIndex} :
    v.findPath p = some i ↔ i.val < v.numMountPoints ∧ text (v.path i) = p.text ∧
      ∀ j < i, text (v.path j) ≠ p.text := by
  rw [findPath, ← Fin.find?_eq_find?_finRange, Fin.find?_eq_some_iff]
  simp only [decide_eq_true_eq, decide_eq_false_iff_not, h.matches_iff, and_assoc]
  refine and_congr_right fun hi => and_congr_right fun _ => forall₂_congr fun j hj => ?_
  exact not_congr (and_iff_right (Nat.lt_trans hj hi))

theorem PathsStored.findPath_none_iff :
    v.findPath p = none ↔ ∀ i : MountIndex, i.val < v.numMountPoints → text (v.path i) ≠ p.text := by
  rw [findPath, ← Fin.find?_eq_find?_finRange, Fin.find?_eq_none_iff]
  simp only [decide_eq_false_iff_not, h.matches_iff, not_and, ne_eq]

end Search

section Search

variable (h : v.Sound)
include h

theorem Sound.mem_paths_iff (p : CString) :
    p.text ∈ v.live.map (·.path) ↔ ∃ i, v.findPath p = some i := by
  rw [List.mem_map]
  constructor
  · rintro ⟨e, he, hpath⟩
    obtain ⟨i, hi, rfl⟩ := mem_live.mp he
    cases hfind : v.findPath p with
    | none => exact absurd hpath (h.pathsStored.findPath_none_iff.mp hfind i hi)
    | some j => exact ⟨j, rfl⟩
  · rintro ⟨i, hi⟩
    obtain ⟨hlt, htext, -⟩ := h.pathsStored.findPath_some_iff.mp hi
    exact ⟨v.entry i, mem_live.mpr ⟨i, hlt, rfl⟩, htext⟩

/-- The entry of the path that is found is erased from the map. -/
theorem Sound.eraseP_live {p : CString} {i : MountIndex} (hi : v.findPath p = some i) :
    v.live.eraseP (fun e => e.path = p.text) = v.live.eraseIdx i.val := by
  obtain ⟨hlt, htext, hbefore⟩ := h.pathsStored.findPath_some_iff.mp hi
  have hfind : v.live.findIdx? (fun e => e.path = p.text) = some i.val := by
    rw [List.findIdx?_eq_some_iff_getElem]
    refine ⟨hlt.trans_eq length_live.symm, ?_, fun j hj => ?_⟩
    · have hget := getElem?_live hlt
      rw [List.getElem?_eq_getElem (hlt.trans_eq length_live.symm)] at hget
      rw [Option.some.inj hget]
      exact decide_eq_true htext
    · have hjlt : j < v.numMountPoints := Nat.lt_trans hj hlt
      have hget := getElem?_live hjlt
      rw [List.getElem?_eq_getElem (hjlt.trans_eq length_live.symm)] at hget
      rw [Option.some.inj hget]
      exact fun hc => hbefore ⟨j, _⟩ hj (of_decide_eq_true hc)
  rw [List.eraseP_eq_eraseIdx, hfind]

end Search

/-! ### A mount -/

theorem mountFs_full (hfull : ¬v.numMountPoints < maxMountPoints) (path device : CString)
    (ops privateData : Word) : v.mountFs path device ops privateData = (-1, v) := dif_neg hfull

theorem mountFs_present (path device : CString) (ops privateData : Word) {i : MountIndex}
    (hi : v.findPath path = some i) : v.mountFs path device ops privateData = (-1, v) := by
  rw [mountFs, hi]
  split <;> rfl

/-- The state after an accepted mount in slot `idx`. -/
structure Mounted (v v' : Vfs) (idx : MountIndex) (path device : CString) (ops privateData : Word) :
    Prop where
  idx_eq : idx.val = v.numMountPoints
  num : v'.numMountPoints = v.numMountPoints + 1
  mountPoints : v'.mountPoints =
    Function.update v.mountPoints idx ⟨some idx, some idx, ops, privateData⟩
  pathBuffers : v'.pathBuffers =
    Function.update v.pathBuffers idx ((v.pathBuffers idx).fill path)
  deviceBuffers : v'.deviceBuffers =
    Function.update v.deviceBuffers idx ((v.deviceBuffers idx).fill device)

theorem mountFs_accepted {path : CString} (hlt : v.numMountPoints < maxMountPoints)
    (hnone : v.findPath path = none) (device : CString) (ops privateData : Word) :
    ∃ v' idx, v.mountFs path device ops privateData = (0, v') ∧
      Mounted v v' idx path device ops privateData := by
  rw [mountFs, dif_pos hlt, hnone]
  exact ⟨_, ⟨v.numMountPoints, hlt⟩, rfl, rfl, rfl, rfl, rfl, rfl⟩

section Mount

variable {v' : Vfs} {idx : MountIndex} {path device : CString} {ops privateData : Word}
variable (h : Mounted v v' idx path device ops privateData)
include h

theorem Mounted.mountPoints_old {i : MountIndex} (hi : i.val < v.numMountPoints) :
    v'.mountPoints i = v.mountPoints i := by
  rw [h.mountPoints, Function.update_of_ne fun heq => ?_]
  rw [heq, h.idx_eq] at hi
  exact Nat.lt_irrefl _ hi

theorem Mounted.entry_new (hpath : path.text.length < maxPathLen)
    (hdevice : device.text.length < maxPathLen) :
    v'.entry idx = ⟨path.text, device.text, ops, privateData⟩ := by
  have hmount : v'.mountPoints idx = ⟨some idx, some idx, ops, privateData⟩ := by
    rw [h.mountPoints, Function.update_self]
  rw [entry, text_path (congrArg MountPoint.path hmount),
    text_device (congrArg MountPoint.device hmount), hmount, h.pathBuffers, h.deviceBuffers,
    Function.update_self, Function.update_self, PathBuffer.text_fill_short _ hpath,
    PathBuffer.text_fill_short _ hdevice]

/-- An entry stays unless its buffer is filled. -/
theorem Mounted.entry_old (hv : v.Sound) {i b : MountIndex} (hi : i.val < v.numMountPoints)
    (hb : (v.mountPoints i).path = some b) (hne : b ≠ idx) : v'.entry i = v.entry i := by
  obtain ⟨b', hb', hdevice⟩ := hv.pointers i hi
  obtain rfl := Option.some.inj (hb.symm.trans hb')
  have hsame := h.mountPoints_old hi
  rw [entry, entry, text_path (hsame ▸ hb), text_device (hsame ▸ hdevice), text_path hb,
    text_device hdevice, hsame, h.pathBuffers, h.deviceBuffers, Function.update_of_ne hne,
    Function.update_of_ne hne]

theorem Mounted.path_overwritten {i : MountIndex} (hi : i.val < v.numMountPoints)
    (hb : (v.mountPoints i).path = some idx) (hpath : path.text.length < maxPathLen) :
    text (v'.path i) = path.text := by
  have hsame := h.mountPoints_old hi
  rw [text_path (hsame ▸ hb), h.pathBuffers, Function.update_self,
    PathBuffer.text_fill_short _ hpath]

/-- An accepted mount appends to the map exactly when no entry points to the buffer that it
fills. -/
theorem Mounted.live_iff (hv : v.Sound) (hnone : v.findPath path = none)
    (hpath : path.text.length < maxPathLen) (hdevice : device.text.length < maxPathLen) :
    v'.live = v.live ++ [⟨path.text, device.text, ops, privateData⟩] ↔
      ∀ j : MountIndex, j.val < v.numMountPoints → ∀ b, (v.mountPoints j).path = some b →
        b.val ≠ v.numMountPoints := by
  rw [live_eq_iff]
  constructor
  · rintro ⟨-, hget⟩ j hj b hb hbnum
    obtain rfl : b = idx := Fin.ext (hbnum.trans h.idx_eq.symm)
    have hentry := hget j (by rw [h.num]; omega)
    rw [List.getElem?_append_left (by rw [length_live]; exact hj), getElem?_live hj] at hentry
    have hsame : text (v.path j) = text (v'.path j) :=
      congrArg MountEntry.path (Option.some.inj hentry)
    rw [h.path_overwritten hj hb hpath] at hsame
    exact hv.pathsStored.findPath_none_iff.mp hnone j hj hsame
  · intro hout
    refine ⟨by rw [List.length_append, length_live, h.num]; rfl, fun i hi => ?_⟩
    by_cases hlt : i.val < v.numMountPoints
    · obtain ⟨b, hb, -⟩ := hv.pointers i hlt
      rw [List.getElem?_append_left (by rw [length_live]; exact hlt), getElem?_live hlt,
        h.entry_old hv hlt hb fun heq => hout i hlt b hb (heq ▸ h.idx_eq)]
    · obtain rfl : i = idx := Fin.ext (by rw [h.num] at hi; rw [h.idx_eq]; omega)
      rw [List.getElem?_append_right (by rw [length_live]; omega), length_live, h.idx_eq,
        Nat.sub_self, h.entry_new hpath hdevice]
      rfl

theorem Mounted.sound (hv : v.Sound) (hnone : v.findPath path = none)
    (hpath : path.text.length < maxPathLen)
    (hout : ∀ j : MountIndex, j.val < v.numMountPoints → ∀ b, (v.mountPoints j).path = some b →
      b.val ≠ v.numMountPoints) : v'.Sound := by
  have hnew : v'.mountPoints idx = ⟨some idx, some idx, ops, privateData⟩ := by
    rw [h.mountPoints, Function.update_self]
  have hcases : ∀ i : MountIndex, i.val < v'.numMountPoints → i.val < v.numMountPoints ∨ i = idx :=
    fun i hi => by
      rw [h.num] at hi
      rcases Nat.lt_succ_iff_lt_or_eq.mp hi with hlt | heq
      · exact .inl hlt
      · exact .inr (Fin.ext (heq.trans h.idx_eq.symm))
  have hne : ∀ i : MountIndex, i.val < v.numMountPoints → (v.mountPoints i).path ≠ some idx :=
    fun i hi hb => hout i hi idx hb h.idx_eq
  refine ⟨fun i hi => ?_, fun i j hi hj heq => ?_, fun i hi b hb q hq hqnum => ?_⟩
  · rcases hcases i hi with hlt | rfl
    · rw [h.mountPoints_old hlt]
      exact hv.pointers i hlt
    · rw [hnew]
      exact ⟨i, rfl, rfl⟩
  · rcases hcases i hi with hi | rfl
    · rcases hcases j hj with hj | rfl
      · rw [h.mountPoints_old hi, h.mountPoints_old hj] at heq
        exact hv.distinct i j hi hj heq
      · rw [h.mountPoints_old hi, hnew] at heq
        exact absurd heq (hne i hi)
    · rcases hcases j hj with hj | rfl
      · rw [h.mountPoints_old hj, hnew] at heq
        exact absurd heq.symm (hne j hj)
      · rfl
  · rcases hcases i hi with hlt | rfl
    · rw [h.mountPoints_old hlt] at hb
      have hbi : b ≠ idx := fun heq => hne i hlt (heq ▸ hb)
      rw [h.pathBuffers, Function.update_of_ne hbi]
      rcases hcases q hqnum with hqlt | rfl
      · have hqi : q ≠ idx := fun heq => by
          rw [heq, h.idx_eq] at hqlt
          exact Nat.lt_irrefl _ hqlt
        rw [Function.update_of_ne hqi]
        exact hv.apart i hlt b hb q hq hqlt
      · rw [Function.update_self, PathBuffer.text_fill_short _ hpath, ← text_path hb]
        exact (hv.pathsStored.findPath_none_iff.mp hnone i hlt).symm
    · rw [hnew] at hb
      obtain rfl := Option.some.inj hb
      rw [h.num] at hqnum
      have hlt : i.val < q.val := hq
      rw [h.idx_eq] at hlt
      omega

end Mount

/-! ### An unmount -/

/-- The loop of `unmount_fs`, begun at entry `i` of `v`, has reached entry `j`. -/
structure Shifted (v : Vfs) (i j : Nat) (s : Vfs) : Prop where
  num : s.numMountPoints = v.numMountPoints
  kept : ∀ k : MountIndex, ¬(i ≤ k.val ∧ k.val < j) → s.mountPoints k = v.mountPoints k ∧
    s.pathBuffers k = v.pathBuffers k ∧ s.deviceBuffers k = v.deviceBuffers k
  moved : ∀ k q : MountIndex, i ≤ k.val → k.val < j → q.val = k.val + 1 →
    s.mountPoints k = v.mountPoints q ∧ (s.pathBuffers k).text = (v.pathBuffers q).text ∧
      (s.deviceBuffers k).text = (v.deviceBuffers q).text

theorem Shifted.shift {s : Vfs} {i j : Nat} (h : Shifted v i j s) (hij : i ≤ j)
    (hj : j + 1 < maxMountPoints) : Shifted v i (j + 1) (shift j s) := by
  rw [Vfs.shift, dif_pos hj]
  refine ⟨h.num, fun k hk => ?_, fun k q hik hkj hq => ?_⟩
  · obtain ⟨hmount, hpath, hdevice⟩ := h.kept k fun hc => hk ⟨hc.1, by omega⟩
    have hne : k ≠ ⟨j, Nat.lt_of_succ_lt hj⟩ := fun hc => by
      have hval : k.val = j := congrArg Fin.val hc
      exact hk ⟨by omega, by omega⟩
    simp only [Function.update_of_ne hne]
    exact ⟨hmount, hpath, hdevice⟩
  · by_cases heq : k.val = j
    · obtain rfl : k = ⟨j, Nat.lt_of_succ_lt hj⟩ := Fin.ext heq
      obtain rfl : q = ⟨j + 1, hj⟩ := Fin.ext hq
      obtain ⟨hmount, hpath, hdevice⟩ := h.kept ⟨j + 1, hj⟩ fun hc => absurd hc.2 (by simp)
      simp only [Function.update_self, PathBuffer.text_copy, hmount, hpath, hdevice, and_self]
    · have hne : k ≠ ⟨j, Nat.lt_of_succ_lt hj⟩ := fun hc => heq (congrArg Fin.val hc)
      simp only [Function.update_of_ne hne]
      exact h.moved k q hik (by omega) hq

/-- The state after entry `i` was unmounted: the entries behind it, and what their buffers hold, have
moved down. -/
structure Unmounted (v : Vfs) (i : MountIndex) (v' : Vfs) : Prop where
  lt : i.val < v.numMountPoints
  num : v'.numMountPoints + 1 = v.numMountPoints
  kept : ∀ k : MountIndex, ¬(i.val ≤ k.val ∧ k.val + 1 < v.numMountPoints) →
    v'.mountPoints k = v.mountPoints k ∧ v'.pathBuffers k = v.pathBuffers k ∧
      v'.deviceBuffers k = v.deviceBuffers k
  moved : ∀ k q : MountIndex, i.val ≤ k.val → q.val = k.val + 1 → q.val < v.numMountPoints →
    v'.mountPoints k = v.mountPoints q ∧ (v'.pathBuffers k).text = (v.pathBuffers q).text ∧
      (v'.deviceBuffers k).text = (v.deviceBuffers q).text

theorem unmountFs_found {path : CString} {i : MountIndex} (hi : v.findPath path = some i) :
    ∃ v', v.unmountFs path = (0, v') ∧ Unmounted v i v' := by
  have hlt := findPath_lt hi
  have hle := v.num_le
  have hloop : Shifted v i (i.val + (v.numMountPoints - 1 - i.val))
      (loop shift (v.numMountPoints - 1 - i.val) i.val v) :=
    loop_invariant shift (Shifted v i)
      ⟨rfl, fun _ _ => ⟨rfl, rfl, rfl⟩, fun k _ hik hki _ => absurd hki (Nat.not_lt.mpr hik)⟩
      fun j s hij hj hs => hs.shift hij (by omega)
  refine ⟨_, by rw [unmountFs, hi], hlt, ?_, fun k hk => ?_, fun k q hik hq hqlt => ?_⟩
  · show (loop shift _ i.val v).numMountPoints - 1 + 1 = v.numMountPoints
    rw [hloop.num]
    omega
  · exact hloop.kept k fun hc => hk ⟨hc.1, by omega⟩
  · exact hloop.moved k q hik (by omega) hq

theorem unmountFs_absent {path : CString} (hnone : v.findPath path = none) :
    v.unmountFs path = (-1, v) := by
  rw [unmountFs, hnone]

section Unmount

variable {v' : Vfs} {i : MountIndex} (h : Unmounted v i v') (hv : v.Sound)
include h

/-- The entry that is behind index `k` afterwards was behind this one. -/
theorem Unmounted.mountPoints_eq {k : MountIndex} (hk : k.val < v'.numMountPoints) :
    ∃ j : MountIndex, j.val < v.numMountPoints ∧ j ≠ i ∧
      j.val = (if k.val < i.val then k.val else k.val + 1) ∧ v'.mountPoints k = v.mountPoints j := by
  have hnum := h.num
  have hle := v.num_le
  by_cases hlt : k.val < i.val
  · refine ⟨k, by omega, fun heq => ?_, (if_pos hlt).symm, (h.kept k fun hc => by omega).1⟩
    rw [heq] at hlt
    exact Nat.lt_irrefl _ hlt
  · refine ⟨⟨k.val + 1, by omega⟩, by simp only; omega, fun heq => ?_, (if_neg hlt).symm,
      (h.moved k _ (by omega) rfl (by simp only; omega)).1⟩
    have hval : k.val + 1 = i.val := congrArg Fin.val heq
    omega

theorem Unmounted.survives {j : MountIndex} (hj : j.val < v.numMountPoints) (hji : j ≠ i) :
    ∃ k : MountIndex, k.val < v'.numMountPoints ∧
      j.val = (if k.val < i.val then k.val else k.val + 1) ∧ v'.mountPoints k = v.mountPoints j := by
  have hnum := h.num
  have hval : j.val ≠ i.val := fun heq => hji (Fin.ext heq)
  have hlt := h.lt
  by_cases hbelow : j.val < i.val
  · exact ⟨j, by omega, (if_pos hbelow).symm, (h.kept j fun hc => by omega).1⟩
  · refine ⟨⟨j.val - 1, by omega⟩, by simp only; omega, ?_,
      (h.moved _ j (by simp only; omega) (by simp only; omega) hj).1⟩
    rw [if_neg (by simp only; omega)]
    simp only
    omega

include hv

/-- A moved entry reads what it read before exactly when its buffer is not filled. -/
theorem Unmounted.entry_iff {j k b : MountIndex} (hj : j.val < v.numMountPoints)
    (hkj : v'.mountPoints k = v.mountPoints j) (hb : (v.mountPoints j).path = some b) :
    v'.entry k = v.entry j ↔ ¬(i.val ≤ b.val ∧ b.val + 1 < v.numMountPoints) := by
  obtain ⟨b', hb', hdevice⟩ := hv.pointers j hj
  obtain rfl := Option.some.inj (hb.symm.trans hb')
  have hle := v.num_le
  constructor
  · rintro heq ⟨hlow, hhigh⟩
    have hpath : text (v'.path k) = text (v.path j) := congrArg MountEntry.path heq
    obtain ⟨-, hmoved, -⟩ := h.moved b ⟨b.val + 1, by omega⟩ hlow rfl hhigh
    rw [text_path (hkj ▸ hb), text_path hb, hmoved] at hpath
    exact hv.apart j hj b hb _ (Nat.lt_succ_self _) hhigh hpath
  · intro hout
    obtain ⟨-, hpath, hdev⟩ := h.kept b hout
    rw [entry, entry, text_path (hkj ▸ hb), text_device (hkj ▸ hdevice), text_path hb,
      text_device hdevice, hkj, hpath, hdev]

/-- An unmount erases an entry of the map exactly when it fills no buffer that another entry points
to. -/
theorem Unmounted.live_iff : v'.live = v.live.eraseIdx i.val ↔
    ∀ j : MountIndex, j.val < v.numMountPoints → j ≠ i → ∀ b, (v.mountPoints j).path = some b →
      ¬(i.val ≤ b.val ∧ b.val + 1 < v.numMountPoints) := by
  have hnum := h.num
  have hle := v.num_le
  have hget : ∀ j k : MountIndex, j.val < v.numMountPoints →
      j.val = (if k.val < i.val then k.val else k.val + 1) →
      (v.live.eraseIdx i.val)[k.val]? = some (v.entry j) := fun j k hj hjk => by
    rw [List.getElem?_eraseIdx, ← getElem?_live hj, hjk]
    split <;> rfl
  rw [live_eq_iff]
  constructor
  · rintro ⟨-, hsame⟩ j hj hji b hb
    obtain ⟨k, hk, hjk, hkj⟩ := h.survives hj hji
    refine (h.entry_iff hv hj hkj hb).mp ?_
    exact (Option.some.inj ((hget j k hj hjk).symm.trans (hsame k hk))).symm
  · intro hout
    refine ⟨?_, fun k hk => ?_⟩
    · rw [List.length_eraseIdx_of_lt (by rw [length_live]; exact h.lt), length_live]
      omega
    · obtain ⟨j, hj, hji, hjk, hkj⟩ := h.mountPoints_eq hk
      obtain ⟨b, hb, -⟩ := hv.pointers j hj
      rw [hget j k hj hjk, (h.entry_iff hv hj hkj hb).mpr (hout j hj hji b hb)]

theorem Unmounted.sound
    (hout : ∀ j : MountIndex, j.val < v.numMountPoints → j ≠ i → ∀ b,
      (v.mountPoints j).path = some b → ¬(i.val ≤ b.val ∧ b.val + 1 < v.numMountPoints)) :
    v'.Sound := by
  have hnum := h.num
  have hle := v.num_le
  refine ⟨fun k hk => ?_, fun k k' hk hk' heq => ?_, fun k hk b hb q hbq hq => ?_⟩
  · obtain ⟨j, hj, -, -, hkj⟩ := h.mountPoints_eq hk
    rw [hkj]
    exact hv.pointers j hj
  · obtain ⟨j, hj, -, hjk, hkj⟩ := h.mountPoints_eq hk
    obtain ⟨j', hj', -, hjk', hkj'⟩ := h.mountPoints_eq hk'
    rw [hkj, hkj'] at heq
    have hval := congrArg Fin.val (hv.distinct j j' hj hj' heq)
    rw [hjk, hjk'] at hval
    refine Fin.ext ?_
    split at hval <;> split at hval <;> omega
  · obtain ⟨j, hj, hji, -, hkj⟩ := h.mountPoints_eq hk
    rw [hkj] at hb
    rw [(h.kept b (hout j hj hji b hb)).2.1]
    by_cases hmoved : i.val ≤ q.val ∧ q.val + 1 < v.numMountPoints
    · obtain ⟨-, htext, -⟩ := h.moved q ⟨q.val + 1, by omega⟩ hmoved.1 rfl hmoved.2
      rw [htext]
      exact hv.apart j hj b hb _ (Nat.lt_succ_of_lt hbq) hmoved.2
    · rw [(h.kept q hmoved).2.1]
      exact hv.apart j hj b hb q hbq (by omega)

end Unmount

/-! ### Runs -/

theorem sound_initVfs (v : Vfs) : v.initVfs.Sound :=
  ⟨fun _ hi => absurd hi (Nat.not_lt_zero _), fun _ _ hi => absurd hi (Nat.not_lt_zero _),
    fun _ hi => absurd hi (Nat.not_lt_zero _)⟩

/-- A call does to the table what it does to the map, exactly when it overwrites no buffer behind an
entry. -/
theorem Sound.call_iff (h : v.Sound) {call : MountCall} (hshort : call.Short) :
    ((v.call call).1 = (call.spec v.live).1 ∧ (v.call call).2.live = (call.spec v.live).2) ↔
      v.BuffersUnshared call := by
  cases call with
  | mountFs path device ops privateData =>
    obtain ⟨hpath, hdevice⟩ := hshort
    simp only [call, MountCall.spec, BuffersUnshared, h.mem_paths_iff, length_live]
    cases hfind : v.findPath path with
    | some i =>
      rw [mountFs_present path device ops privateData hfind, if_pos (.inl ⟨i, rfl⟩)]
      exact iff_of_true ⟨rfl, rfl⟩ nofun
    | none =>
      by_cases hlt : v.numMountPoints < maxMountPoints
      · obtain ⟨v', idx, hr, hmounted⟩ := mountFs_accepted hlt hfind device ops privateData
        rw [hr, if_neg (by rintro (⟨_, ⟨⟩⟩ | hfull); exact absurd hlt (Nat.not_lt.mpr hfull)),
          hmounted.live_iff h hfind hpath hdevice]
        exact ⟨fun hc _ => hc.2, fun hc => ⟨rfl, hc rfl⟩⟩
      · rw [mountFs_full hlt, if_pos (.inr (Nat.not_lt.mp hlt))]
        refine iff_of_true ⟨rfl, rfl⟩ fun _ j _ b _ hb => ?_
        exact hlt (hb ▸ b.isLt)
  | unmountFs path =>
    simp only [call, MountCall.spec, BuffersUnshared, h.mem_paths_iff]
    cases hfind : v.findPath path with
    | none =>
      rw [unmountFs_absent hfind, if_neg nofun]
      exact iff_of_true ⟨rfl, rfl⟩ nofun
    | some i =>
      obtain ⟨v', hr, hunmounted⟩ := unmountFs_found hfind
      rw [hr, if_pos ⟨i, rfl⟩, h.eraseP_live hfind, hunmounted.live_iff h]
      constructor
      · rintro ⟨-, hc⟩ i' heq
        obtain rfl := Option.some.inj heq
        exact hc
      · exact fun hc => ⟨rfl, hc i rfl⟩

theorem Sound.call (h : v.Sound) {call : MountCall} (hshort : call.Short)
    (hcond : v.BuffersUnshared call) : (v.call call).2.Sound := by
  cases call with
  | mountFs path device ops privateData =>
    obtain ⟨hpath, -⟩ := hshort
    show (v.mountFs path device ops privateData).2.Sound
    cases hfind : v.findPath path with
    | some i =>
      rw [mountFs_present path device ops privateData hfind]
      exact h
    | none =>
      by_cases hlt : v.numMountPoints < maxMountPoints
      · obtain ⟨v', idx, hr, hmounted⟩ := mountFs_accepted hlt hfind device ops privateData
        rw [hr]
        exact hmounted.sound h hfind hpath (hcond hfind)
      · rw [mountFs_full hlt]
        exact h
  | unmountFs path =>
    show (v.unmountFs path).2.Sound
    cases hfind : v.findPath path with
    | none =>
      rw [unmountFs_absent hfind]
      exact h
    | some i =>
      obtain ⟨v', hr, hunmounted⟩ := unmountFs_found hfind
      rw [hr]
      exact hunmounted.sound h (hcond i hfind)

end Vfs

/-- The mount table beside the map, from `init_vfs` on, under calls whose strings fit. -/
def mountSystem : System (Vfs × List MountEntry) MountCall where
  init st := ∃ v : Vfs, st = (v.initVfs, [])
  step st call st' := call.Short ∧ st' = ((st.1.call call).2, (call.spec st.2).2)

/-- The table returns what the map does, and then shows the same entries in the same order. -/
def RefinesMap (st : Vfs × List MountEntry) (call : MountCall) : Prop :=
  (st.1.call call).1 = (call.spec st.2).1 ∧ (st.1.call call).2.live = (call.spec st.2).2

/-- In a run every call refines the map exactly if every call leaves the buffers behind the other
entries alone. -/
theorem mount_table_iff {st : Vfs × List MountEntry} (hst : mountSystem.init st)
    {run : List (MountCall × (Vfs × List MountEntry))} (hrun : mountSystem.Run st run) :
    System.Meets RefinesMap st run ↔
      System.Meets (fun st call => st.1.BuffersUnshared call) st run := by
  refine System.Run.meets_iff_meets (I := fun st => st.1.Sound ∧ st.1.live = st.2)
    (fun st call st' _ hI hstep => ?_) (fun st call st' _ hI hstep hcond => ?_) (.init hst) ?_ hrun
  · obtain ⟨hsound, hlive⟩ := hI
    rw [RefinesMap, ← hlive]
    exact hsound.call_iff hstep.1
  · obtain ⟨hsound, hlive⟩ := hI
    obtain ⟨hshort, rfl⟩ := hstep
    refine ⟨hsound.call hshort hcond, ?_⟩
    rw [← hlive]
    exact ((hsound.call_iff hshort).mpr hcond).2
  · obtain ⟨v, rfl⟩ := hst
    exact ⟨v.sound_initVfs, rfl⟩

/-- The run of some calls. -/
def mountRun (st : Vfs × List MountEntry) :
    List MountCall → List (MountCall × (Vfs × List MountEntry))
  | [] => []
  | call :: calls =>
    let st' := ((st.1.call call).2, (call.spec st.2).2)
    (call, st') :: mountRun st' calls

theorem mountSystem_run (st : Vfs × List MountEntry) {calls : List MountCall}
    (h : ∀ call ∈ calls, call.Short) : mountSystem.Run st (mountRun st calls) := by
  induction calls generalizing st with
  | nil => exact .nil st
  | cons call calls ih =>
    exact .cons ⟨h call List.mem_cons_self, rfl⟩
      (ih _ fun c hc => h c (List.mem_cons_of_mem _ hc))

/-- `/a`, `/b` and so on. -/
def samplePath (c : Byte) : CString := .ofText [slash, c]

def sampleMount (c : Byte) : MountCall := .mountFs (samplePath c) (samplePath c) 0 0

theorem sampleMount_short {c : Byte} (h : c ≠ 0) : (sampleMount c).Short := by
  have htext : (samplePath c).text = [slash, c] :=
    text_ofText (by simpa [slash] using Ne.symm h)
  have hlt : 2 < maxPathLen := by decide
  rw [sampleMount, MountCall.Short, htext]
  exact ⟨hlt, hlt⟩

theorem sampleUnmount_short {c : Byte} (h : c ≠ 0) : (MountCall.unmountFs (samplePath c)).Short :=
  (sampleMount_short h).1

/-- Two mounts, the first again, which is refused, the last unmounted, another in its place, and a
path that is not there. -/
def sampleMountCalls : List MountCall :=
  [sampleMount 0x61, sampleMount 0x62, sampleMount 0x61, .unmountFs (samplePath 0x62),
    sampleMount 0x63, .unmountFs (samplePath 0x64)]

theorem mount_table_iff_sample :
    System.Meets RefinesMap (Vfs.zero.initVfs, [])
      (mountRun (Vfs.zero.initVfs, []) sampleMountCalls) := by
  refine (mount_table_iff ⟨.zero, rfl⟩ (mountSystem_run _ fun call hcall => ?_)).mpr ?_
  · simp only [sampleMountCalls, List.mem_cons, List.not_mem_nil, or_false] at hcall
    rcases hcall with rfl | rfl | rfl | rfl | rfl | rfl
    · exact sampleMount_short (by decide)
    · exact sampleMount_short (by decide)
    · exact sampleMount_short (by decide)
    · exact sampleUnmount_short (by decide)
    · exact sampleMount_short (by decide)
    · exact sampleUnmount_short (by decide)
  · exact ⟨by decide +kernel, by decide +kernel, by decide +kernel, by decide +kernel,
      by decide +kernel, by decide +kernel, trivial⟩

/-- After three mounts the first one is unmounted: what was `/b` reads `/c` then. -/
theorem sample_unmount_shares :
    ∃ st run, mountSystem.init st ∧ mountSystem.Run st run ∧ ¬System.Meets RefinesMap st run := by
  refine ⟨(Vfs.zero.initVfs, []), mountRun (Vfs.zero.initVfs, [])
    [sampleMount 0x61, sampleMount 0x62, sampleMount 0x63, .unmountFs (samplePath 0x61)],
    ⟨.zero, rfl⟩, mountSystem_run _ fun call hcall => ?_, ?_⟩
  · simp only [List.mem_cons, List.not_mem_nil, or_false] at hcall
    rcases hcall with rfl | rfl | rfl | rfl
    · exact sampleMount_short (by decide)
    · exact sampleMount_short (by decide)
    · exact sampleMount_short (by decide)
    · exact sampleUnmount_short (by decide)
  · rintro ⟨-, -, -, ⟨-, hlive⟩, -⟩
    exact absurd (congrArg (List.map MountEntry.path) hlive) (by decide +kernel)

end Lbos

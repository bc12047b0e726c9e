import Lbos.Lib.Argmax
import Lbos.Fs.MountTable

/-! Which mount point a path belongs to: `find_mount_point` takes the longest path of the table that
the path is or lies below, in whatever order the file systems were mounted. -/

namespace Lbos

open Lib

/-- The path is at or below the mount point: the root takes every absolute path. -/
def MountEntry.Matches (e : MountEntry) (p : List Byte) : Prop :=
  (e.path = [slash] ∧ p.head? = some slash) ∨ p = e.path ∨ e.path ++ [slash] <+: p

instance (e : MountEntry) (p : List Byte) : Decidable (e.Matches p) :=
  inferInstanceAs (Decidable (_ ∨ _))

theorem MountEntry.Matches.prefix {e : MountEntry} {p : List Byte} (h : e.Matches p) :
    e.path <+: p := by
  rcases h with ⟨hroot, hfirst⟩ | rfl | hbelow
  · obtain ⟨q, rfl⟩ := List.head?_eq_some_iff.mp hfirst
    exact hroot ▸ ⟨q, rfl⟩
  · exact List.prefix_refl _
  · exact (List.prefix_append _ _).trans hbelow

/-! ### Strings -/

theorem CString.bytes_eq (p : CString) : ∃ rest, p.bytes = p.text ++ 0 :: rest :=
  eq_text_append p.terminated

theorem getElem?_text {s : List Byte} (hs : 0 ∈ s) {c : Byte} (hc : c ≠ 0) :
    s[0]? = some c ↔ (text s).head? = some c := by
  obtain ⟨rest, hrest⟩ := eq_text_append hs
  have hget : s[0]? = (text s ++ 0 :: rest)[0]? := congrArg (fun l : List Byte => l[0]?) hrest
  rw [hget]
  cases text s with
  | nil => exact iff_of_false (fun heq => hc (Option.some.inj heq).symm) nofun
  | cons d q => rfl

/-- Comparing as many characters as a string has tells whether it is a prefix. -/
theorem strncmp_prefix_iff {s t : List Byte} (hs : 0 ∈ s) (ht : 0 ∈ t) :
    strncmp s t (text t).length = some 0 ↔ text t <+: text s := by
  rw [strncmp_eq_zero_iff hs ht, List.take_length, List.prefix_iff_eq_take]
  exact eq_comm

theorem strncmp_isSome {s t : List Byte} (hs : 0 ∈ s) (ht : 0 ∈ t) (n : Nat) :
    ∃ r, strncmp s t n = some r := by
  induction n generalizing s t with
  | zero => exact ⟨0, by simp [strncmp]⟩
  | succ n ih =>
    cases s with
    | nil => cases hs
    | cons c s =>
      cases t with
      | nil => cases ht
      | cons d t =>
        rw [strncmp]
        split
        · next heq =>
          obtain ⟨hc, rfl⟩ := heq
          exact ih ((List.mem_cons.mp hs).resolve_left (Ne.symm hc))
            ((List.mem_cons.mp ht).resolve_left (Ne.symm hc))
        · exact ⟨_, rfl⟩

/-- The character behind a prefix is a slash or the terminator. -/
theorem CString.boundary_iff (p : CString) {m : List Byte} (h : m <+: p.text) :
    (p.bytes[m.length]? = some slash ∨ p.bytes[m.length]? = some 0) ↔
      p.text = m ∨ m ++ [slash] <+: p.text := by
  obtain ⟨q, hq⟩ := h
  obtain ⟨rest, hrest⟩ := p.bytes_eq
  have hzero : 0 ∉ q := fun hmem => zero_notMem_text p.bytes (by
    show 0 ∈ p.text
    rw [← hq]
    exact List.mem_append_right _ hmem)
  rw [hrest, ← hq, List.append_assoc, List.getElem?_append_right (Nat.le_refl _), Nat.sub_self,
    List.prefix_append_right_inj, List.append_right_eq_self]
  cases q with
  | nil => exact iff_of_true (.inr rfl) (.inl rfl)
  | cons c q =>
    constructor
    · rintro (hslash | hend)
      · exact .inr ⟨q, congrArg (· :: q) (Option.some.inj hslash).symm⟩
      · exact absurd (Option.some.inj hend ▸ List.mem_cons_self) hzero
    · rintro (hnil | ⟨q', hq'⟩)
      · cases hnil
      · exact .inl (congrArg some (List.cons.inj hq').1.symm)

namespace Vfs

variable {v : Vfs}

/-- An entry with a path has it in a buffer. -/
theorem terminated_of_ne_nil {i : MountIndex} (h : text (v.path i) ≠ []) : 0 ∈ v.path i := by
  unfold path at h ⊢
  cases hb : (v.mountPoints i).path with
  | none =>
    rw [hb] at h
    exact absurd rfl h
  | some b => exact (v.pathBuffers b).terminated

/-- A round of the scan takes an entry that matches and is longer than the best so far. -/
theorem matchMount_eq {i : MountIndex} (hne : text (v.path i) ≠ []) (p : CString)
    (best : Option MountIndex × Nat) : v.matchMount p best i =
      keepBest (fun i => (v.entry i).Matches p.text) (fun i => (v.entry i).path.length) best i := by
  have hterm := terminated_of_ne_nil hne
  have hroot : ((text (v.path i)).length = 1 ∧ (v.path i)[0]? = some slash ∧
      p.bytes[0]? = some slash) ↔ text (v.path i) = [slash] ∧ p.text.head? = some slash := by
    rw [getElem?_text hterm (by decide), getElem?_text p.terminated (by decide)]
    constructor
    · rintro ⟨hlen, hfirst, hp⟩
      obtain ⟨c, hc⟩ := List.length_eq_one_iff.mp hlen
      rw [hc] at hfirst
      exact ⟨by rw [hc, Option.some.inj hfirst], hp⟩
    · rintro ⟨hpath, hp⟩
      rw [hpath]
      exact ⟨rfl, rfl, hp⟩
  have hcmp : strncmp p.bytes (v.path i) (text (v.path i)).length = some 0 ↔
      text (v.path i) <+: p.text := strncmp_prefix_iff p.terminated hterm
  rw [matchMount, strlen_eq hterm, Option.getD_some]
  simp only [hroot, hcmp]
  unfold keepBest
  by_cases hr : text (v.path i) = [slash] ∧ p.text.head? = some slash
  · have hmatch : (v.entry i).Matches p.text := .inl hr
    have hlen : (v.entry i).path.length = 1 := congrArg List.length hr.1
    rw [if_pos hr]
    simp only [hmatch, hlen, true_and, Nat.lt_one_iff]
  · rw [if_neg hr]
    by_cases hpre : text (v.path i) <+: p.text
    · have hmatch : (v.entry i).Matches p.text ↔
          (p.bytes[(text (v.path i)).length]? = some slash ∨
            p.bytes[(text (v.path i)).length]? = some 0) := by
        rw [p.boundary_iff hpre]
        exact or_iff_right hr
      rw [if_pos hpre]
      by_cases hb : p.bytes[(text (v.path i)).length]? = some slash ∨
          p.bytes[(text (v.path i)).length]? = some 0
      · simp only [if_pos hb, hmatch.mpr hb, true_and]
        rfl
      · rw [if_neg hb, if_neg fun hc => hb (hmatch.mp hc.1)]
    · have hmatch : ¬(v.entry i).Matches p.text := fun hc => hpre hc.prefix
      rw [if_neg hpre, if_neg fun hc => hmatch hc.1]

/-! ### The result -/

/-- The indices of the mount points. -/
def indices (v : Vfs) : List MountIndex :=
  (List.finRange maxMountPoints).filter fun i => i.val < v.numMountPoints

theorem mem_indices {i : MountIndex} : i ∈ v.indices ↔ i.val < v.numMountPoints := by
  simp [indices]

/-- The paths of the table are there and all different. -/
structure Distinct (v : Vfs) : Prop where
  nonempty : ∀ e ∈ v.live, e.path ≠ []
  nodup : (v.live.map (·.path)).Nodup

section Result

variable (h : v.Distinct)
include h

theorem Distinct.path_ne {i : MountIndex} (hi : i ∈ v.indices) : text (v.path i) ≠ [] :=
  h.nonempty _ (mem_live.mpr ⟨i, mem_indices.mp hi, rfl⟩)

theorem Distinct.entry_eq {e e' : MountEntry} (he : e ∈ v.live) (he' : e' ∈ v.live)
    (hpath : e.path = e'.path) : e = e' :=
  List.inj_on_of_nodup_map h.nodup he he' hpath

theorem Distinct.findMountPoint_eq (p : CString) : v.findMountPoint p =
    (v.indices.filter fun i => (v.entry i).Matches p.text).argmax fun i =>
      (v.entry i).path.length := by
  have hfold : v.indices.foldl (v.matchMount p) (none, 0) =
      v.indices.foldl (keepBest (fun i => (v.entry i).Matches p.text)
        fun i => (v.entry i).path.length) (none, 0) :=
    List.foldl_ext _ _ _ fun best i hi => matchMount_eq (h.path_ne hi) p best
  have hpos : ∀ i ∈ v.indices, (v.entry i).Matches p.text → 0 < (v.entry i).path.length :=
    fun i hi _ => List.length_pos_iff.mpr (h.path_ne hi)
  exact congrArg Prod.fst (hfold.trans (foldl_keepBest _ _ hpos))

/-- The entry found matches, and every other one that matches is shorter. -/
theorem Distinct.findMountPoint_some {p : CString} {i : MountIndex}
    (hi : v.findMountPoint p = some i) : v.entry i ∈ v.live ∧ (v.entry i).Matches p.text ∧
      ∀ e ∈ v.live, e.Matches p.text → e ≠ v.entry i → e.path.length < (v.entry i).path.length := by
  rw [h.findMountPoint_eq] at hi
  obtain ⟨hmem, hmatch⟩ := List.mem_filter.mp (List.argmax_mem hi)
  have hmatch := of_decide_eq_true hmatch
  have hlive : v.entry i ∈ v.live := mem_live.mpr ⟨i, mem_indices.mp hmem, rfl⟩
  refine ⟨hlive, hmatch, fun e he hematch hne => ?_⟩
  obtain ⟨j, hj, rfl⟩ := mem_live.mp he
  have hcand : j ∈ v.indices.filter fun i => (v.entry i).Matches p.text :=
    List.mem_filter.mpr ⟨mem_indices.mpr hj, decide_eq_true hematch⟩
  have hle := List.le_of_mem_argmax hcand hi
  refine lt_of_le_of_ne hle fun heq => hne (h.entry_eq he hlive ?_)
  -- both paths are prefixes of `p`
  exact (List.prefix_of_prefix_length_le hematch.prefix hmatch.prefix hle).eq_of_length heq

theorem Distinct.findMountPoint_none {p : CString} :
    v.findMountPoint p = none ↔ ∀ e ∈ v.live, ¬e.Matches p.text := by
  rw [h.findMountPoint_eq, List.argmax_eq_none, List.filter_eq_nil_iff]
  constructor
  · rintro hnone e he
    obtain ⟨i, hi, rfl⟩ := mem_live.mp he
    exact fun hmatch => hnone i (mem_indices.mpr hi) (decide_eq_true hmatch)
  · intro hnone i hi hmatch
    exact hnone _ (mem_live.mpr ⟨i, mem_indices.mp hi, rfl⟩) (of_decide_eq_true hmatch)

/-- The same entries in another order. -/
theorem Distinct.perm {v' : Vfs} (hperm : v'.live.Perm v.live) : v'.Distinct :=
  ⟨fun e he => h.nonempty e (hperm.mem_iff.mp he), (hperm.map _).nodup_iff.mpr h.nodup⟩

/-- The order of the table does not matter. -/
theorem Distinct.findMountPoint_perm {v' : Vfs} (hperm : v'.live.Perm v.live) (p : CString) :
    (v'.findMountPoint p).map v'.entry = (v.findMountPoint p).map v.entry := by
  have h' := h.perm hperm
  cases hi : v.findMountPoint p with
  | none =>
    have hnone : v'.findMountPoint p = none := h'.findMountPoint_none.mpr fun e he =>
      h.findMountPoint_none.mp hi e (hperm.mem_iff.mp he)
    rw [hnone]
    rfl
  | some i =>
    obtain ⟨hlive, hmatch, hlongest⟩ := h.findMountPoint_some hi
    cases hj : v'.findMountPoint p with
    | none => exact absurd hmatch (h'.findMountPoint_none.mp hj _ (hperm.mem_iff.mpr hlive))
    | some j =>
      obtain ⟨hlive', hmatch', hlongest'⟩ := h'.findMountPoint_some hj
      refine congrArg some (not_not.mp fun hne => ?_)
      have hlt := hlongest _ (hperm.mem_iff.mp hlive') hmatch' hne
      exact Nat.lt_asymm hlt (hlongest' _ (hperm.mem_iff.mpr hlive) hmatch (Ne.symm hne))

end Result

/-! ### The characters read -/

section Reads

variable (v)

/-- `mount_path_len == 1 && mount_points[i].path[0] == '/' && path[0] == '/'`. -/
def rootReads (mountPath path : List Byte) (mountPathLen : Nat) : Option Bool :=
  if mountPathLen = 1 then do
    let c ← mountPath[0]?
    if c = slash then do
      let d ← path[0]?
      pure (decide (d = slash))
    else pure false
  else pure false

/-- `matchMount` with its reads in order: it fails at the first one that is outside of a string. -/
def matchMountReads (path : List Byte) (best : Option MountIndex × Nat) (i : MountIndex) :
    Option (Option MountIndex × Nat) := do
  let mountPathLen ← strlen (v.path i)
  let root ← rootReads (v.path i) path mountPathLen
  if root then pure (if best.2 = 0 then (some i, 1) else best)
  else do
    let r ← strncmp path (v.path i) mountPathLen
    if r = 0 then do
      let c ← path[mountPathLen]?
      pure (if c = slash ∨ c = 0 then
        if best.2 < mountPathLen then (some i, mountPathLen) else best
      else best)
    else pure best

def findMountPointReads (path : List Byte) : Option (Option MountIndex) :=
  (v.indices.foldlM (v.matchMountReads path) (none, 0)).map Prod.fst

end Reads

theorem rootReads_eq {m p : List Byte} (hm : 0 ∈ m) (hp : 0 ∈ p) (n : Nat) :
    rootReads m p n = some (decide (n = 1 ∧ m[0]? = some slash ∧ p[0]? = some slash)) := by
  obtain ⟨c, hc⟩ : ∃ c, m[0]? = some c :=
    ⟨_, List.getElem?_eq_getElem (List.length_pos_of_mem hm)⟩
  obtain ⟨d, hd⟩ : ∃ d, p[0]? = some d :=
    ⟨_, List.getElem?_eq_getElem (List.length_pos_of_mem hp)⟩
  rw [rootReads, hc, hd]
  by_cases hn : n = 1
  · by_cases hslash : c = slash
    · simp [hn, hslash]
    · simp [hn, hslash]
  · simp [hn]

/-- All reads of a round are in the strings. -/
theorem matchMountReads_eq {i : MountIndex} (hne : text (v.path i) ≠ []) (p : CString)
    (best : Option MountIndex × Nat) :
    v.matchMountReads p.bytes best i = some (v.matchMount p best i) := by
  have hterm := terminated_of_ne_nil hne
  obtain ⟨r, hr⟩ := strncmp_isSome p.terminated hterm (text (v.path i)).length
  -- the character behind the mount path is read only when the path starts with it
  have hnext : r = 0 → ∃ e, p.bytes[(text (v.path i)).length]? = some e := by
    rintro rfl
    have hle := ((strncmp_prefix_iff p.terminated hterm).mp hr).length_le
    exact ⟨_, List.getElem?_eq_getElem (Nat.lt_of_le_of_lt hle (length_text_lt p.terminated))⟩
  simp only [matchMountReads, matchMount, strlen_eq hterm, rootReads_eq hterm p.terminated,
    Option.bind_eq_bind, Option.bind_some, Option.pure_def, Option.getD_some, hr, Option.some.injEq,
    decide_eq_true_eq]
  split
  · rfl
  · by_cases hzero : r = 0
    · obtain ⟨e, he⟩ := hnext hzero
      simp only [hzero, if_true, he, Option.bind_some, Option.some.injEq]
    · rw [if_neg hzero, if_neg hzero]

theorem foldlM_matchMountReads (p : CString) {l : List MountIndex}
    (hl : ∀ i ∈ l, text (v.path i) ≠ []) (best : Option MountIndex × Nat) :
    l.foldlM (v.matchMountReads p.bytes) best = some (l.foldl (v.matchMount p) best) := by
  induction l generalizing best with
  | nil => rfl
  | cons i l ih =>
    rw [List.foldlM_cons, matchMountReads_eq (hl i List.mem_cons_self)]
    exact ih (fun j hj => hl j (List.mem_cons_of_mem i hj)) _

/-- The scan needs the characters of the path and the terminator only. -/
theorem Distinct.findMountPointReads_eq (h : v.Distinct) (p : CString) :
    v.findMountPointReads (p.text ++ [0]) = some (v.findMountPoint p) := by
  have htext : (CString.ofText p.text).text = p.text := text_ofText (zero_notMem_text p.bytes)
  have hread := foldlM_matchMountReads (.ofText p.text) (fun i hi => h.path_ne hi) (none, 0)
  have hsame : v.findMountPoint (.ofText p.text) = v.findMountPoint p := by
    rw [h.findMountPoint_eq, h.findMountPoint_eq, htext]
  rw [← hsame]
  exact congrArg (Option.map Prod.fst) hread

end Vfs

/-- `find_mount_point` finds the entry with the longest path among those that the path matches, none
exactly if there is none, in any order of the table, and reads no character behind the path's
terminator. -/
theorem find_mount_point_longest {v : Vfs} (h : v.Distinct) (p : CString) :
    (∀ i, v.findMountPoint p = some i → v.entry i ∈ v.live ∧ (v.entry i).Matches p.text ∧
      ∀ e ∈ v.live, e.Matches p.text → e ≠ v.entry i →
        e.path.length < (v.entry i).path.length) ∧
    (v.findMountPoint p = none ↔ ∀ e ∈ v.live, ¬e.Matches p.text) ∧
    (∀ v' : Vfs, v'.live.Perm v.live →
      (v'.findMountPoint p).map v'.entry = (v.findMountPoint p).map v.entry) ∧
    v.findMountPointReads (p.text ++ [0]) = some (v.findMountPoint p) :=
  ⟨fun _ hi => h.findMountPoint_some hi, h.findMountPoint_none,
    fun _ hperm => h.findMountPoint_perm hperm p, h.findMountPointReads_eq p⟩

/-- A file system at `/` and one at `/a`. -/
def sampleTable : Vfs :=
  ((Vfs.zero.initVfs.mountFs (.ofText [slash]) (.ofText []) 1 0).2.mountFs (samplePath 0x61)
    (.ofText []) 2 0).2

theorem sampleTable_paths : sampleTable.live.map (·.path) = [[slash], [slash, 0x61]] := by
  decide +kernel

theorem sampleTable_distinct : sampleTable.Distinct := by
  refine ⟨fun e he => ?_, by rw [sampleTable_paths]; decide⟩
  have hpath : e.path ∈ [[slash], [slash, 0x61]] := by
    rw [← sampleTable_paths]
    exact List.mem_map_of_mem he
  rcases List.mem_cons.mp hpath with heq | hmem
  · rw [heq]
    exact nofun
  · rw [List.mem_singleton.mp hmem]
    exact nofun

/-- `/ab` does not lie below `/a`. -/
theorem find_mount_point_longest_sample :
    (sampleTable.findMountPoint (.ofText [slash, 0x61, 0x62])).map (fun i => i.val) = some 0 ∧
      sampleTable.findMountPointReads ((CString.ofText [slash, 0x61, 0x62]).text ++ [0]) =
        some (sampleTable.findMountPoint (.ofText [slash, 0x61, 0x62])) :=
  ⟨by decide +kernel,
    (find_mount_point_longest sampleTable_distinct (.ofText [slash, 0x61, 0x62])).2.2.2⟩

end Lbos

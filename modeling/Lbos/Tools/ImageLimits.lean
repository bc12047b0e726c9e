import Lbos.Tools.CreateInitrd

/-! The limits of the image format.  The builder checks neither the number of files, so that it writes
behind the table of its header, nor the sum of their sizes, so that offsets wrap. -/

namespace Lbos.CreateInitrd

open Lib

/-- The arguments that can be read. -/
def readable (args : List Argument) : List HostFile :=
  args.filterMap fun arg => arg.2.map fun input => (arg.1, input)

/-- The state of `main` before its loop. -/
def initialState : Header × Output :=
  (initialHeader, ((⟨[], 0⟩ : Output).fwrite signature).fwrite initialHeader.bytes)

theorem written_initialState : Written [] initialState := by
  refine ⟨rfl, rfl, rfl, ?_⟩
  rw [initialState, Output.fwrite_end (by rw [Output.fwrite_end rfl]), Output.fwrite_end rfl]
  simp

/-- The loop stays in the table, and the header that is written has no more files than the table and
for each file the sum of the sizes of those before it. -/
def WithinLimits (args : List Argument) : Prop :=
  ∃ st, addFiles args initialState = some st ∧ st.1.numFiles.toNat ≤ maxFiles ∧
    ∀ i, i < (readable args).length → ∃ f, st.1.files[i]? = some f ∧
      f.offset.toNat = totalSize ((readable args).take i)

/-- Files that cannot be read are skipped. -/
theorem addFiles_readable (args : List Argument) (st : Header × Output) :
    addFiles args st = addFiles ((readable args).map HostFile.argument) st := by
  induction args generalizing st with
  | nil => rfl
  | cons arg args ih =>
    obtain ⟨path, input⟩ := arg
    cases input with
    | none => exact ih st
    | some input =>
      show (addFile st.1 st.2 (baseName path.bytes) (some input)).bind (addFiles args) =
        (addFile st.1 st.2 (baseName path.bytes) (some input)).bind _
      exact congrArg _ (funext ih)

theorem addFiles_append (args args' : List Argument) (st : Header × Output) :
    addFiles (args ++ args') st = (addFiles args st).bind (addFiles args') := by
  induction args generalizing st with
  | nil => rfl
  | cons arg args ih =>
    obtain ⟨path, input⟩ := arg
    rw [List.cons_append, addFiles, addFiles, Option.bind_assoc]
    exact congrArg _ (funext ih)

/-- With a full table the next file is written behind it. -/
theorem Written.overrun {files : List HostFile} {st : Header × Output} (h : Written files st)
    (hfull : files.length = maxFiles) (f : HostFile) (rest : List Argument) :
    CreateInitrd.addFiles (f.argument :: rest) st = none := by
  have hn : st.1.numFiles.toNat = maxFiles := by
    rw [h.numFiles, hfull]
    rfl
  have hbehind : st.1.files[maxFiles]? = none :=
    List.getElem?_eq_none (Nat.le_of_eq st.1.files_length)
  rw [HostFile.argument, CreateInitrd.addFiles, CreateInitrd.addFile]
  simp only [hn, hbehind, Option.bind_none]

theorem addFiles_overrun {files : List HostFile} (hlong : maxFiles < files.length) :
    addFiles (files.map HostFile.argument) initialState = none := by
  obtain ⟨f, rest, hrest⟩ := List.exists_cons_of_length_pos (l := files.drop maxFiles) (by
    rw [List.length_drop]
    omega)
  have hlength : (files.take maxFiles).length = maxFiles := List.length_take_of_le (Nat.le_of_lt hlong)
  obtain ⟨st, hst, h⟩ := written_initialState.addFiles (files.take maxFiles) (by
    rw [List.nil_append, hlength])
  rw [List.nil_append] at h
  rw [← List.take_append_drop maxFiles files, List.map_append, addFiles_append, hst, hrest]
  exact h.overrun hlength f _

/-! ### Offsets -/

theorem totalSize_append (files files' : List HostFile) :
    totalSize (files ++ files') = totalSize files + totalSize files' := by
  rw [totalSize, List.map_append, List.sum_append]
  rfl

theorem totalSize_take_le (files : List HostFile) {i n : Nat} (h : i ≤ n) :
    totalSize (files.take i) ≤ totalSize (files.take n) := by
  obtain ⟨k, rfl⟩ := Nat.exists_eq_add_of_le h
  rw [List.take_add, totalSize_append]
  exact Nat.le_add_right _ _

/-- The last offset is the largest. -/
theorem totalSize_dropLast_lt_iff (files : List HostFile) (n : Nat) (hn : 0 < n) :
    totalSize files.dropLast < n ↔ ∀ i < files.length, totalSize (files.take i) < n := by
  rw [List.dropLast_eq_take]
  constructor
  · exact fun h i hi => Nat.lt_of_le_of_lt (totalSize_take_le files (Nat.le_pred_of_lt hi)) h
  · intro h
    cases hlen : files.length with
    | zero => exact hn
    | succ k => exact h k (hlen ▸ Nat.lt_succ_self k)

/-- The offsets in the header are the sums of the sizes, in 32 bits. -/
theorem Written.offset {files : List HostFile} {st : Header × Output} (h : Written files st) {i : Nat}
    (hi : i < files.length) :
    ∃ f, st.1.files[i]? = some f ∧ f.offset = BitVec.ofNat 32 (totalSize (files.take i)) := by
  refine ⟨files[i].header (BitVec.ofNat 32 (0 + totalSize (files.take i))), ?_, ?_⟩
  · rw [h.headers, List.getElem?_append_left (by rwa [length_fileHeaders]), getElem?_fileHeaders,
      List.getElem?_eq_getElem hi, Option.map_some]
  · rw [Nat.zero_add]
    rfl

/-- The builder keeps to the format exactly when there are at most 64 files that can be read, and all
of them but the last together have less than 2³² bytes. -/
theorem within_limits_iff (args : List Argument) : WithinLimits args ↔
    (readable args).length ≤ maxFiles ∧ totalSize (readable args).dropLast < 2 ^ 32 := by
  rw [WithinLimits, addFiles_readable, totalSize_dropLast_lt_iff _ _ (Nat.two_pow_pos 32)]
  generalize readable args = files
  by_cases hle : files.length ≤ maxFiles
  · obtain ⟨st, hst, h⟩ := written_initialState.addFiles files (by rwa [List.nil_append])
    rw [List.nil_append] at h
    have hnum : st.1.numFiles.toNat = files.length := by
      have hmax : maxFiles = 64 := rfl
      rw [h.numFiles, BitVec.toNat_ofNat]
      omega
    constructor
    · rintro ⟨st', hst', -, hoffsets⟩
      obtain rfl := Option.some.inj (hst.symm.trans hst')
      refine ⟨hle, fun i hi => ?_⟩
      obtain ⟨f, -, hf⟩ := hoffsets i hi
      exact hf ▸ f.offset.isLt
    · rintro ⟨-, hlt⟩
      refine ⟨st, hst, hnum ▸ hle, fun i hi => ?_⟩
      obtain ⟨f, hf, hoffset⟩ := h.offset hi
      refine ⟨f, hf, ?_⟩
      rw [hoffset, BitVec.toNat_ofNat, Nat.mod_eq_of_lt (hlt i hi)]
  · refine iff_of_false ?_ fun h => hle h.1
    rintro ⟨st, hst, -⟩
    rw [addFiles_overrun (Nat.lt_of_not_le hle)] at hst
    cases hst

/-- `f00`, `f01` and so on, all empty. -/
def sixtyFiveFiles : List Argument := (List.range 65).map fun n =>
  (.ofText [0x66, BitVec.ofNat 8 (0x30 + n / 10), BitVec.ofNat 8 (0x30 + n % 10)], some [])

/-- The builder writes behind its table when it is given 65 files. -/
theorem sixty_five_files_overrun :
    ∃ args : List Argument, (readable args).length = 65 ∧ addFiles args initialState = none ∧
      ¬WithinLimits args := by
  have hlength : (readable sixtyFiveFiles).length = 65 := by decide
  have hnone : addFiles sixtyFiveFiles initialState = none := by
    rw [addFiles_readable]
    exact addFiles_overrun (by rw [hlength]; decide)
  refine ⟨_, hlength, hnone, ?_⟩
  rintro ⟨st, hst, -⟩
  rw [hnone] at hst
  cases hst

end Lbos.CreateInitrd

import Mathlib.Data.List.Sort
import Lbos.Kernel.System
import Lbos.Mem.AddressSpace

/-! The creation of a process, in one relation for `create_process`, `create_kernel_process` and
`sys_fork`: no slot, a slot but no frame, or a new ready process with a directory of its own. -/

namespace Lbos

open Lib Mem

namespace Kernel

variable (k : Kernel)

/-- The page directories of the processes. -/
def dirs : Set Word :=
  {d | ∃ i, (k.processTable i).state ≠ .free ∧ (k.processTable i).context.cr3 = d}

/-- What a creation is to give to the new process. -/
structure Birth where
  parentPid : Word
  reg : CpuState
  stack : StackState
  words : List Word

/-- The kernel stacks after slot `i` was taken and its first words were pushed. -/
def pushedKstacks (i : Slot) (words : List Word) : Word × Mem :=
  (memset k.kstacks (k.kstackAddr i) 0xCD processKernelStackSize).pushAll (k.kstackTop i) words

/-- The creation in slot `i` found no frame: the slot stays free. -/
structure Failed (k k' : Kernel) (i : Slot) (parentPid : Word) : Prop where
  slot : k.findFree = some i
  isolated : Isolated k'.mem k.dirs
  keeps : k.mem.Keeps k'.mem
  exhausted : k'.mem.Exhausted
  kstacks : k'.kstacks = memset k.kstacks (k.kstackAddr i) 0xCD processKernelStackSize
  nextPid : k'.nextPid = k.nextPid + 1
  currentProcess : k'.currentProcess = k.currentProcess
  readyQueueHead : k'.readyQueueHead = k.readyQueueHead
  processTableAddr : k'.processTableAddr = k.processTableAddr
  state : (k'.processTable i).state = .free
  parentPid : (k'.processTable i).parentPid = parentPid
  others : ∀ j ≠ i, k'.processTable j = k.processTable j

/-- The creation in slot `i` succeeded, with page directory `d`. -/
structure Created (k k' : Kernel) (i : Slot) (d : Word) (birth : Birth) : Prop where
  slot : k.findFree = some i
  free : k.mem.FreeFrame (pageOf d)
  new_dir : d ∉ k.dirs
  isolated : Isolated k'.mem (insert d k.dirs)
  keeps : k.mem.Keeps k'.mem
  kstacks : k'.kstacks = (k.pushedKstacks i birth.words).2
  nextPid : k'.nextPid = k.nextPid + 1
  currentProcess : k'.currentProcess = k.currentProcess
  readyQueueHead : k'.readyQueueHead = some i
  processTableAddr : k'.processTableAddr = k.processTableAddr
  table : k'.processTable = Function.update k.processTable i {
    pid := k.nextPid
    state := .ready
    context := ⟨{ birth.reg with esp := (k.pushedKstacks i birth.words).1 }, birth.stack, d⟩
    nextInReadyQueue := k.readyQueueHead
    parentPid := birth.parentPid }

/-- The outcomes of a creation that gives `birth i` to the process in slot `i`. -/
inductive Spawn (birth : Slot → Birth) : Option Slot × Kernel → Prop
  | noSlot : k.findFree = none → Spawn birth (none, k)
  | failed {k' : Kernel} {i : Slot} : Failed k k' i (birth i).parentPid → Spawn birth (none, k')
  | created {k' : Kernel} {i : Slot} {d : Word} : Created k k' i d (birth i) →
      Spawn birth (some i, k')

variable {k}

theorem findFree_none (h : k.findFree = none) (i : Slot) : (k.processTable i).state ≠ .free := by
  rw [findFree, List.find?_eq_none] at h
  simpa using h i (List.mem_finRange i)

theorem exists_slot_ne (i : Slot) : ∃ j : Slot, j ≠ i :=
  have : Nontrivial Slot := inferInstanceAs (Nontrivial (Fin 64))
  exists_ne i

theorem exists_slot_apart (i j : Slot) : ∃ x : Slot, x ≠ i ∧ x ≠ j := by
  by_contra hnone
  push Not at hnone
  have h0 := hnone ⟨0, by decide⟩
  have h1 := hnone ⟨1, by decide⟩
  have h2 := hnone ⟨2, by decide⟩
  simp only [Fin.ext_iff, Ne] at h0 h1 h2
  omega

theorem findFree_exists {i : Slot} (h : (k.processTable i).state = .free) :
    ∃ j, k.findFree = some j := by
  cases hfind : k.findFree with
  | none => exact absurd h (findFree_none hfind i)
  | some j => exact ⟨j, rfl⟩

/-- The slot found is the first free one. -/
theorem findFree_some {i : Slot} (h : k.findFree = some i) :
    (k.processTable i).state = .free ∧ ∀ j < i, (k.processTable j).state ≠ .free := by
  rw [findFree, ← Fin.find?_eq_find?_finRange] at h
  have hi := Fin.eq_true_of_find?_eq_some h
  refine ⟨by simpa using hi, fun j hj => ?_⟩
  have hbefore := Fin.eq_false_of_find?_eq_some_of_lt h j hj
  simpa using hbefore

theorem createProcess_spawn (h : Isolated k.mem k.dirs) (data size : Word) :
    k.Spawn (fun i => ⟨(k.processTable i).parentPid, .zero, entryStack, entryStack.frame⟩)
      (k.createProcess data size) := by
  unfold createProcess
  cases hfree : k.findFree with
  | none =>
    simp only [allocatePcbAndPid, hfree]
    exact .noSlot hfree
  | some i =>
    simp only [allocatePcbAndPid, hfree, takeSlot_mem, setMem_mem]
    rcases h.of_createPageDirectory with ⟨hex, hr⟩ | ⟨d, mem, hr, hne, hphys, hfd, hkeep, hnew, hiso⟩
    · simp only [hr, if_true]
      refine .failed (i := i) ⟨hfree, h, .refl _, hex, rfl, rfl, rfl, rfl, rfl, ?_, ?_, ?_⟩
      all_goals simp +contextual [setState]
    · simp only [hr, if_neg hne, hphys, setContext, setProcess_mem, setMem_mem]
      obtain ⟨hiso', hkeep', hend⟩ := hiso.of_loadLoop (Set.mem_insert d _) data size rfl
      generalize loopWhile (loadPage d data size) ((size + frameSize - 1) / frameSize).toNat 0 mem =
        r at *
      obtain ⟨_ | _, mem'⟩ := r
      · refine .failed (i := i) ⟨hfree, hiso'.mono (Set.subset_insert d _), hkeep.trans hkeep',
          hend rfl, rfl, rfl, rfl, rfl, rfl, ?_, ?_, ?_⟩
        all_goals simp +contextual [setState]
      · refine .created ⟨hfree, hfd, hnew, hiso', hkeep.trans hkeep', ?_, rfl, rfl, rfl, rfl, ?_⟩
        all_goals simp [finishCreation, pushedKstacks, kstackTop, kstackAddr]

theorem createKernelProcess_spawn (h : Isolated k.mem k.dirs) (entryPoint : Word) :
    k.Spawn (fun i => ⟨(k.processTable i).parentPid, .zero,
        ⟨entryPoint, kernelCsSelector, kernelEflags, 0, 0⟩,
        [k.kernelIdle, kernelEflags, kernelCsSelector, entryPoint]⟩)
      (k.createKernelProcess entryPoint) := by
  unfold createKernelProcess
  cases hfree : k.findFree with
  | none =>
    simp only [allocatePcbAndPid, hfree]
    exact .noSlot hfree
  | some i =>
    simp only [allocatePcbAndPid, hfree, takeSlot_mem, setMem_mem]
    rcases h.of_createPageDirectory with ⟨hex, hr⟩ | ⟨d, mem, hr, hne, hphys, hfd, hkeep, hnew, hiso⟩
    · simp only [hr, if_true]
      refine .failed (i := i) ⟨hfree, h, .refl _, hex, rfl, rfl, rfl, rfl, rfl, ?_, ?_, ?_⟩
      all_goals simp +contextual [setState]
    · simp only [hr, if_neg hne, hphys, setContext]
      refine .created ⟨hfree, hfd, hnew, hiso, hkeep, ?_, rfl, rfl, rfl, rfl, ?_⟩
      all_goals simp [finishCreation, pushedKstacks, kstackTop, kstackAddr]

theorem createKernelProcess_memory {i : Slot} (h : k.findFree = some i) (entryPoint : Word) :
    (k.createKernelProcess entryPoint).2.mem = k.mem.createPageDirectory.2 ∧
      ((k.createKernelProcess entryPoint).1 = none → k.mem.createPageDirectory.1 = 0) := by
  unfold createKernelProcess
  simp only [allocatePcbAndPid, h, takeSlot_mem]
  split
  · next hz => exact ⟨rfl, fun _ => hz⟩
  · exact ⟨rfl, nofun⟩

/-- A kernel process is created when there is a slot and a frame for it. -/
theorem createKernelProcess_created (h : Isolated k.mem k.dirs) {i : Slot}
    (hi : k.findFree = some i) {n : Nat} (hn : k.mem.FreeFrame n) (entryPoint : Word) :
    ∃ d birth, Created k (k.createKernelProcess entryPoint).2 i d birth := by
  have hsome : (k.createKernelProcess entryPoint).1 ≠ none := fun hnone => by
    have hz := (createKernelProcess_memory hi entryPoint).2 hnone
    rcases h.of_createPageDirectory with ⟨hex, -⟩ | ⟨d, pm', hr, hne, -⟩
    · exact hex n hn
    · rw [hr] at hz
      exact hne hz
  have hspawn := createKernelProcess_spawn h entryPoint
  generalize k.createKernelProcess entryPoint = r at *
  cases hspawn with
  | noSlot => exact absurd rfl hsome
  | failed => exact absurd rfl hsome
  | created hnew =>
    obtain rfl := Option.some.inj (hi.symm.trans hnew.slot)
    exact ⟨_, _, hnew⟩

/-- What a child of process `current` is given. -/
def childBirth (k : Kernel) (current : Slot) : Birth :=
  let p := k.processTable current
  ⟨p.pid, { p.context.reg with eax := 0 }, p.context.stack, p.context.stack.frame⟩

/-- What `sys_fork` returns after the creation of a child. -/
def forkResult (k : Kernel) (r : Option Slot × Kernel) : Exit Word × Kernel :=
  (.ret (r.1.elim (-1) fun _ => k.nextPid), r.2)

theorem sysFork_spawn (h : Isolated k.mem k.dirs) {current : Slot}
    (hcur : k.currentProcess = some current) (hlive : (k.processTable current).state ≠ .free) :
    ∃ r, k.sysFork = k.forkResult r ∧ k.Spawn (fun _ => k.childBirth current) r := by
  have hpde : (kernelVirtualStart / 0x400000).toNat = 768 := by decide
  unfold sysFork
  simp only [hcur, hpde]
  cases hfree : k.findFree with
  | none =>
    simp only [allocatePcbAndPid, hfree]
    exact ⟨_, rfl, .noSlot hfree⟩
  | some i =>
    have hne : current ≠ i := fun heq => hlive (heq ▸ (findFree_some hfree).1)
    simp only [allocatePcbAndPid, hfree, takeSlot_mem, setMem_mem, setProcess_mem]
    rcases h.of_createPageDirectory with ⟨hex, hr⟩ | ⟨d, mem, hr, hnz, hphys, hfd, hkeep, hnew, hiso⟩
    · simp only [hr, if_true]
      refine ⟨(none, _), rfl, .failed (i := i)
        ⟨hfree, h, .refl _, hex, rfl, rfl, rfl, rfl, rfl, ?_, ?_, ?_⟩⟩
      all_goals simp +contextual [childBirth, hne]
    · simp only [hr, if_neg hnz, hphys, setContext, setProcess_mem, setMem_mem]
      have hparent : ∀ p q : Process, (((((k.takeSlot i).setProcess i p).setMem mem).setProcess i
          q).processTable current).context.cr3 = (k.processTable current).context.cr3 := by
        simp [hne]
      simp only [hparent]
      obtain ⟨hiso', hkeep', hend⟩ := hiso.of_forkLoop (Set.mem_insert d _)
        (mem.physToVirt (k.processTable current).context.cr3)
      generalize loopWhile (forkTable d _) 768 0 mem = r at *
      obtain ⟨_ | _, mem'⟩ := r
      · refine ⟨(none, _), rfl, .failed (i := i) ⟨hfree, hiso'.mono (Set.subset_insert d _),
          hkeep.trans hkeep', hend rfl, rfl, rfl, rfl, rfl, rfl, ?_, ?_, ?_⟩⟩
        all_goals simp +contextual [childBirth, hne]
      · refine ⟨(some i, _), Prod.ext ?_ rfl, .created (d := d) ?_⟩
        · simp [finishCreation, forkResult]
        · refine ⟨hfree, hfd, hnew, hiso', hkeep.trans hkeep', ?_, rfl, rfl, rfl, rfl, ?_⟩
          · simp [pushedKstacks, kstackTop, kstackAddr, childBirth, hne]
          · simp [pushedKstacks, kstackTop, kstackAddr, childBirth, hne]

end Kernel

end Lbos

import Lbos.Kernel.System

/-! The creations of processes step by step.  The system calls run with interrupts enabled, so that
between two steps of a creation others may start and go on; a creation that runs alone does what
`create_process`, `create_kernel_process` and `sys_fork` do as one call. -/

namespace Lbos

open Lib

/-- The function that a creation is a call of. -/
inductive Origin
  | createProcess (moduleData moduleSize : Word)
  | createKernelProcess (entryPoint : Word)
  | sysFork

/-- Where a creation is: it has its slot but no page directory, or it is at a round of its loop, with
the parent's page directory in the case of `sys_fork`. -/
inductive Stage
  | allocated
  | loading (parentPageDir : Word) (i : Nat)

structure Creation where
  origin : Origin
  newProc : Slot
  stage : Stage

/-- What a step of a creation leads to. -/
inductive Progress
  | goesOn (c : Creation)
  | ready
  | failed

namespace Origin

/-- The rounds of the loop. -/
def rounds : Origin → Nat
  | createProcess _ moduleSize => ((moduleSize + frameSize - 1) / frameSize).toNat
  | createKernelProcess _ => 0
  | sysFork => (kernelVirtualStart / 0x400000).toNat

/-- The body of the loop; a kernel process has none. -/
def round (cr3 parentPageDir : Word) : Origin → Nat → PhysMem → Bool × PhysMem
  | createProcess moduleData moduleSize => loadPage cr3 moduleData moduleSize
  | createKernelProcess _ => fun _ pm => (true, pm)
  | sysFork => forkTable cr3 parentPageDir

end Origin

namespace Kernel

variable (k : Kernel)

/-- The first step of `create_process` and `create_kernel_process` behind the allocation. -/
def openDirectory (origin : Origin) (newProc : Slot) : Progress × Kernel :=
  let (pageDirVirtual, mem) := k.mem.createPageDirectory
  let k := k.setMem mem
  if pageDirVirtual = 0 then (.failed, k.setState newProc .free)
  else
    let cr3 := k.mem.virtToPhys pageDirVirtual
    (.goesOn ⟨origin, newProc, .loading 0 0⟩,
      k.setContext newProc { (k.processTable newProc).context with cr3 })

/-- That of `sys_fork`, which has a current process. -/
def openFork (child : Slot) : Progress × Kernel :=
  match k.currentProcess with
  | none => (.goesOn ⟨.sysFork, child, .allocated⟩, k)
  | some current =>
    let k := k.setProcess child { k.processTable child with
      parentPid := (k.processTable current).pid }
    let (childPageDir, mem) := k.mem.createPageDirectory
    let k := k.setMem mem
    if childPageDir = 0 then (.failed, k.setState child .free)
    else
      let cr3 := k.mem.virtToPhys childPageDir
      let k := k.setContext child { (k.processTable current).context with cr3 }
      let parentPageDir := k.mem.physToVirt (k.processTable current).context.cr3
      (.goesOn ⟨.sysFork, child, .loading parentPageDir 0⟩, k)

/-- What follows the loop: the process is made ready. -/
def complete (newProc : Slot) : Origin → Kernel
  | .createProcess .. =>
    let k := k.setContext newProc { (k.processTable newProc).context with stack := entryStack }
    k.finishCreation newProc (k.processTable newProc).context.stack.frame
  | .createKernelProcess entryPoint =>
    let stack : StackState := ⟨entryPoint, kernelCsSelector, kernelEflags, 0, 0⟩
    let k := k.setContext newProc { (k.processTable newProc).context with stack }
    k.finishCreation newProc [k.kernelIdle, stack.eflags, stack.cs, stack.eip]
  | .sysFork =>
    let context := (k.processTable newProc).context
    let k := k.setContext newProc { context with reg := { context.reg with eax := 0 } }
    k.finishCreation newProc context.stack.frame

/-- The next step of a creation. -/
def advance (c : Creation) : Progress × Kernel :=
  match c.stage with
  | .allocated =>
    match c.origin with
    | .sysFork => k.openFork c.newProc
    | origin => k.openDirectory origin c.newProc
  | .loading parentPageDir i =>
    if i < c.origin.rounds then
      let cr3 := (k.processTable c.newProc).context.cr3
      match c.origin.round cr3 parentPageDir i k.mem with
      | (true, mem) => (.goesOn { c with stage := .loading parentPageDir (i + 1) }, k.setMem mem)
      | (false, mem) => (.failed, (k.setMem mem).setState c.newProc .free)
    else (.ready, k.complete c.newProc c.origin)

/-- A creation that goes on undisturbed: whether it ends with a ready process, if it ends within so
many steps. -/
def runAlone : Nat → Kernel → Creation → Option (Bool × Kernel)
  | 0, _, _ => none
  | n + 1, k, c =>
    match k.advance c with
    | (.goesOn c, k) => runAlone n k c
    | (.ready, k) => some (true, k)
    | (.failed, k) => some (false, k)

end Kernel

namespace Kernel

variable {k : Kernel}

/-- The rounds that are left, and the end. -/
theorem runAlone_loading (origin : Origin) (newProc : Slot) (parentPageDir : Word) {n i : Nat}
    (h : i + n = origin.rounds) :
    k.runAlone (n + 1) ⟨origin, newProc, .loading parentPageDir i⟩ =
      match loopWhile (origin.round (k.processTable newProc).context.cr3 parentPageDir) n i k.mem with
      | (true, mem) => some (true, (k.setMem mem).complete newProc origin)
      | (false, mem) => some (false, (k.setMem mem).setState newProc .free) := by
  induction n generalizing k i with
  | zero =>
    rw [runAlone, advance]
    dsimp only
    rw [if_neg (by omega)]
    rfl
  | succ n ih =>
    rw [runAlone, advance]
    dsimp only
    rw [if_pos (by omega), loopWhile]
    rcases origin.round (k.processTable newProc).context.cr3 parentPageDir i k.mem with ⟨_ | _, mem⟩
    · rfl
    · exact ih (by omega)

theorem allocatePcbAndPid_of_findFree {i : Slot} (h : k.findFree = some i) :
    k.allocatePcbAndPid = (some (i, k.nextPid), k.takeSlot i) := by
  rw [allocatePcbAndPid, h]

/-- Alone, a creation in the slot that was found does what `create_process` does. -/
theorem createProcess_alone {i : Slot} (h : k.findFree = some i) (moduleData moduleSize : Word) :
    ∃ n done k', (k.takeSlot i).runAlone n ⟨.createProcess moduleData moduleSize, i, .allocated⟩ =
        some (done, k') ∧
      k.createProcess moduleData moduleSize = (if done then some i else none, k') := by
  refine ⟨(Origin.createProcess moduleData moduleSize).rounds + 2, ?_⟩
  rw [createProcess, allocatePcbAndPid_of_findFree h, runAlone, advance]
  dsimp only
  rw [openDirectory]
  rcases (k.takeSlot i).mem.createPageDirectory with ⟨dir, mem⟩
  dsimp only
  by_cases hzero : dir = 0
  · rw [if_pos hzero, if_pos hzero]
    exact ⟨false, _, rfl, rfl⟩
  · rw [if_neg hzero, if_neg hzero]
    dsimp only
    rw [runAlone_loading _ _ _ (Nat.zero_add _)]
    generalize hk : ((k.takeSlot i).setMem mem).setContext i _ = k'
    have hcr3 : (k'.processTable i).context.cr3 =
        ((k.takeSlot i).setMem mem).mem.virtToPhys dir := by
      rw [← hk]
      simp [setContext]
    rw [hcr3]
    dsimp only [Origin.round, Origin.rounds]
    rcases loopWhile (loadPage _ moduleData moduleSize) _ 0 k'.mem with ⟨_ | _, mem'⟩
    · exact ⟨false, _, rfl, rfl⟩
    · exact ⟨true, _, rfl, rfl⟩

theorem createKernelProcess_alone {i : Slot} (h : k.findFree = some i) (entryPoint : Word) :
    ∃ n done k', (k.takeSlot i).runAlone n ⟨.createKernelProcess entryPoint, i, .allocated⟩ =
        some (done, k') ∧
      k.createKernelProcess entryPoint = (if done then some i else none, k') := by
  refine ⟨2, ?_⟩
  rw [createKernelProcess, allocatePcbAndPid_of_findFree h, runAlone, advance]
  dsimp only
  rw [openDirectory]
  rcases (k.takeSlot i).mem.createPageDirectory with ⟨dir, mem⟩
  dsimp only
  by_cases hzero : dir = 0
  · rw [if_pos hzero, if_pos hzero]
    exact ⟨false, _, rfl, rfl⟩
  · rw [if_neg hzero, if_neg hzero]
    exact ⟨true, _, rfl, rfl⟩

/-- The child's pid is the one that the slot was given. -/
theorem sysFork_alone {current i : Slot} (hcurrent : k.currentProcess = some current)
    (h : k.findFree = some i) :
    ∃ n done k', (k.takeSlot i).runAlone n ⟨.sysFork, i, .allocated⟩ = some (done, k') ∧
      k.sysFork = (.ret (if done then k.nextPid else -1), k') := by
  refine ⟨Origin.sysFork.rounds + 2, ?_⟩
  rw [sysFork, hcurrent, allocatePcbAndPid_of_findFree h, runAlone, advance]
  dsimp only
  rw [openFork, takeSlot_currentProcess, hcurrent]
  dsimp only
  generalize hparent : (k.takeSlot i).setProcess i _ = k₁
  have hpid : (k₁.processTable i).pid = k.nextPid := by
    rw [← hparent]
    simp
  rcases k₁.mem.createPageDirectory with ⟨dir, mem⟩
  dsimp only
  by_cases hzero : dir = 0
  · rw [if_pos hzero, if_pos hzero]
    exact ⟨false, _, rfl, rfl⟩
  · rw [if_neg hzero, if_neg hzero]
    dsimp only
    rw [runAlone_loading _ _ _ (Nat.zero_add _)]
    generalize hk : (k₁.setMem mem).setContext i _ = k'
    have hcr3 : (k'.processTable i).context.cr3 = (k₁.setMem mem).mem.virtToPhys dir := by
      rw [← hk]
      simp [setContext]
    have hpid' : (k'.processTable i).pid = k.nextPid := by
      rw [← hk, ← hpid]
      simp [setContext]
    rw [hcr3]
    dsimp only [Origin.round, Origin.rounds]
    rcases loopWhile (forkTable _ _) _ 0 k'.mem with ⟨_ | _, mem'⟩
    · exact ⟨false, _, rfl, rfl⟩
    · refine ⟨true, _, rfl, Prod.ext ?_ rfl⟩
      simp [finishCreation, setContext, hpid']

end Kernel

end Lbos

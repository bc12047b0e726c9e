import Lbos.Kernel.SavedContext
import Lbos.Kernel.SpawnSupply

/-! What a creation that runs out of frames leaves behind: the slot is free again, the frames that it
took are not. -/

namespace Lbos

open Lib Mem Stock

namespace Kernel

variable {k k' : Kernel} {i : Slot}

/-- A call that takes a slot and fails: a frame was missing. -/
def OutOfFrames (k : Kernel) : Call → Prop
  | .createProcess data size => k.findFree ≠ none ∧ (k.createProcess data size).1 = none
  | .createKernelProcess entryPoint =>
    k.findFree ≠ none ∧ (k.createKernelProcess entryPoint).1 = none
  | .sysFork => k.findFree ≠ none ∧ k.currentProcess ≠ none ∧ k.sysFork.1 = .ret 0xFFFFFFFF
  | _ => False

/-- The processes are as before: the slots that are not free and the kernel stacks in them, the ready
queue and the current process. -/
structure SameProcesses (k k' : Kernel) : Prop where
  currentProcess : k'.currentProcess = k.currentProcess
  readyQueueHead : k'.readyQueueHead = k.readyQueueHead
  live_iff : ∀ j, (k'.processTable j).state ≠ .free ↔ (k.processTable j).state ≠ .free
  live : ∀ j, (k.processTable j).state ≠ .free → k'.processTable j = k.processTable j
  kstack : ∀ j, (k.processTable j).state ≠ .free → ∀ x, (x - k.kstackAddr j).toNat < 4096 →
    k'.kstacks x = k.kstacks x

theorem Failed.sameProcesses {parentPid : Word} (h : Failed k k' i parentPid) :
    k.SameProcesses k' := by
  have hfree := (findFree_some h.slot).1
  refine ⟨h.currentProcess, h.readyQueueHead, fun j => ?_, fun j hj => ?_, fun j hj x hx => ?_⟩
  · by_cases hne : j = i
    · rw [hne, h.state, hfree]
    · rw [h.others j hne]
  · exact h.others j fun heq => hj (heq ▸ hfree)
  · have hne : i ≠ j := fun heq => hj (heq ▸ hfree)
    have hout : 4096 ≤ (x - k.kstackAddr i).toNat := kstack_apart hne hx
    rw [h.kstacks, memset_apply _ _ _ _ (by decide),
      if_neg (by rw [processKernelStackSize]; omega)]

theorem Spawn.failed_of_none {birth : Slot → Birth} {r : Option Slot × Kernel}
    (h : k.Spawn birth r) (hslot : k.findFree ≠ none) (hnone : r.1 = none) :
    ∃ i, Failed k r.2 i (birth i).parentPid := by
  cases h with
  | noSlot hno => exact absurd hno hslot
  | @failed k' i hfail => exact ⟨i, hfail⟩
  | created => cases hnone

/-- A call that has run out of frames is a creation that failed. -/
theorem WellFormed.failed_of_outOfFrames (hk : k.WellFormed) {call : Call}
    (h : k.OutOfFrames call) (hafter : k.after call = some k') :
    ∃ i parentPid, Failed k k' i parentPid := by
  cases call with
  | createProcess data size =>
    obtain ⟨hslot, hnone⟩ := h
    obtain rfl := Option.some.inj hafter
    obtain ⟨i, hfail⟩ := (createProcess_spawn hk.isolated data size).failed_of_none hslot hnone
    exact ⟨i, _, hfail⟩
  | createKernelProcess entryPoint =>
    obtain ⟨hslot, hnone⟩ := h
    obtain rfl := Option.some.inj hafter
    obtain ⟨i, hfail⟩ :=
      (createKernelProcess_spawn hk.isolated entryPoint).failed_of_none hslot hnone
    exact ⟨i, _, hfail⟩
  | sysFork =>
    obtain ⟨hslot, hcur, hret⟩ := h
    obtain rfl := Option.some.inj hafter
    obtain ⟨current, hcur⟩ := Option.ne_none_iff_exists'.mp hcur
    obtain ⟨r, hr, hspawn⟩ := sysFork_spawn hk.isolated hcur (hk.current current hcur).not_free
    have hnone : r.1 = none := by
      cases hspawn with
      | noSlot => rfl
      | failed => rfl
      | created hnew =>
        rw [hr] at hret
        exact absurd (Exit.ret.inj hret) (hk.nextPid_fresh hnew.free).1
    obtain ⟨i, hfail⟩ := hspawn.failed_of_none hslot hnone
    rw [hr]
    exact ⟨i, _, hfail⟩
  | sysExit => cases h
  | sysWait => cases h
  | schedule => cases h
  | pageFault => cases h
  | userStore => cases h

/-- A module of more pages than there are frames is not loaded. -/
theorem createProcess_too_large (h : Isolated k.mem k.dirs) (hi : k.findFree = some i)
    (hsome : 0 < k.mem.freeCount) (data : Word) {size : Word}
    (hsize : 32768 < ((size + frameSize - 1) / frameSize).toNat) :
    (k.createProcess data size).1 = none := by
  obtain ⟨d, s, -, -, hret, hdone⟩ := createProcess_fill h hi hsome data size rfl
  rw [hret]
  split
  · next htrue =>
    have hle := (hdone htrue).2
    omega
  · rfl

end Kernel

/-- In every reachable state, a creation that runs out of frames leaves the processes as they were,
but no frame free: the frames are those that were free before only if there were none. -/
theorem failed_creation_keeps_processes (img : KernelImage) {k k' : Kernel}
    (hk : img.system.Reach k) {call : Call} (h : k.OutOfFrames call)
    (hafter : k.after call = some k') :
    k.SameProcesses k' ∧ k'.mem.Exhausted ∧ (k.mem.SameFree k'.mem ↔ k.mem.Exhausted) := by
  have hwf := (KernelImage.running_of_reach hk).wellFormed
  obtain ⟨i, parentPid, hfail⟩ := hwf.failed_of_outOfFrames h hafter
  exact ⟨hfail.sameProcesses, hfail.exhausted, hfail.exhausted.sameFree_iff⟩

/-- The booted kernel runs out of frames with a module of 256 MiB. -/
theorem KernelImage.sample_outOfFrames :
    KernelImage.sampleBoot.OutOfFrames (.createProcess 0xC0110000 0x10000000) := by
  have hwf := (KernelImage.running_of_reach (.init KernelImage.sampleBoot_init)).wellFormed
  have hfree := KernelImage.sample_freeCount
  have hempty : (KernelImage.sampleBoot.processTable ⟨0, by decide⟩).state = .free := rfl
  obtain ⟨i, hi⟩ := Kernel.findFree_exists hempty
  refine ⟨by rw [hi]; exact nofun, ?_⟩
  exact Kernel.createProcess_too_large hwf.isolated hi (by omega) _ (by decide)

/-- A parent and its child are there when the frames run out. -/
theorem failed_creation_keeps_processes_sample :
    ∃ k i j, KernelImage.sample.system.Reach k ∧ k.currentProcess = some i ∧
      (k.processTable j).state = .ready ∧ k.OutOfFrames (.createProcess 0xC0110000 0x10000000) ∧
      k.SameProcesses (k.createProcess 0xC0110000 0x10000000).2 := by
  obtain ⟨k₁, k₂, i, j, d, d', birth, h⟩ := KernelImage.sample_family
  have hwf := (KernelImage.running_of_reach h.reach).wellFormed
  have hleft := h.left
  obtain ⟨x, hi, hj⟩ := Kernel.exists_slot_apart i j
  obtain ⟨free, hfree⟩ := Kernel.findFree_exists (h.others hi hj)
  have hout : k₂.sysFork.2.OutOfFrames (.createProcess 0xC0110000 0x10000000) :=
    ⟨by rw [hfree]; exact nofun, Kernel.createProcess_too_large hwf.isolated hfree (by omega) _
      (by decide)⟩
  exact ⟨_, i, j, h.reach, h.current, h.ready, hout,
    (failed_creation_keeps_processes .sample h.reach hout rfl).1⟩

/-- The frames that such a creation took stay taken. -/
theorem failed_creation_loses_frames :
    KernelImage.sample.system.Reach KernelImage.sampleBoot ∧
      KernelImage.sampleBoot.OutOfFrames (.createProcess 0xC0110000 0x10000000) ∧
      ¬KernelImage.sampleBoot.mem.SameFree
        (KernelImage.sampleBoot.createProcess 0xC0110000 0x10000000).2.mem := by
  have hreach : KernelImage.sample.system.Reach KernelImage.sampleBoot :=
    .init KernelImage.sampleBoot_init
  have hwf := (KernelImage.running_of_reach hreach).wellFormed
  have hafter : KernelImage.sampleBoot.after (.createProcess 0xC0110000 0x10000000) =
    some (KernelImage.sampleBoot.createProcess 0xC0110000 0x10000000).2 := rfl
  obtain ⟨i, parentPid, hfail⟩ :=
    hwf.failed_of_outOfFrames KernelImage.sample_outOfFrames hafter
  refine ⟨hreach, KernelImage.sample_outOfFrames, fun hsame => ?_⟩
  have hex := (hfail.exhausted.sameFree_iff).mp hsame
  exact hex 289 (KernelImage.sample_freeFrame (by decide) (by decide))

end Lbos

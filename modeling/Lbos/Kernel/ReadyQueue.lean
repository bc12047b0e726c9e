import Lbos.Kernel.SpawnSupply

/-! Whether every runnable process is accounted for: it is when `schedule` never takes the
processor from a running process while another one is ready, as the running process is then neither
put back into the queue nor current. -/

namespace Lbos

open Lib Mem

namespace Kernel

variable {k k' : Kernel}

/-- Every runnable process is the current one or in the ready queue, and only the current one is
running. -/
structure Accounted (k : Kernel) : Prop where
  runnable : ∀ i, (k.processTable i).state = .ready ∨ (k.processTable i).state = .running →
    k.currentProcess = some i ∨
      Reaches (fun j => (k.processTable j).nextInReadyQueue) k.readyQueueHead i
  running : ∀ i, (k.processTable i).state = .running → k.currentProcess = some i

/-- The ready processes are never lost, so the running ones are what matters. -/
theorem WellFormed.accounted_iff (hk : k.WellFormed) :
    k.Accounted ↔ ∀ i, (k.processTable i).state = .running → k.currentProcess = some i := by
  obtain ⟨l, hq⟩ := hk.queue
  constructor
  · intro h
    exact h.running
  · intro h
    refine ⟨fun i hi => ?_, h⟩
    rcases hi with hi | hi
    · exact .inr (hq.linked.reaches_iff.mpr ((hq.mem_iff i).mpr hi))
    · exact .inl (h i hi)

/-- The call is no `schedule` that finds the current process running and another one ready. -/
def KeepsCurrent (k : Kernel) (call : Call) : Prop :=
  call = .schedule → ∀ c, k.currentProcess = some c → (k.processTable c).state = .running →
    k.readyQueueHead = none

theorem Spawn.running {birth : Slot → Birth} {r : Option Slot × Kernel} (h : k.Spawn birth r)
    (hrun : ∀ i, (k.processTable i).state = .running → k.currentProcess = some i) (i : Slot)
    (hi : (r.2.processTable i).state = .running) : r.2.currentProcess = some i := by
  cases h with
  | noSlot => exact hrun i hi
  | @failed _ j h =>
    have hne : i ≠ j := by
      rintro rfl
      rw [h.state] at hi
      cases hi
    rw [h.currentProcess]
    rw [h.others i hne] at hi
    exact hrun i hi
  | @created _ j _ h =>
    have hne : i ≠ j := by
      rintro rfl
      rw [h.new] at hi
      cases hi
    rw [h.currentProcess]
    rw [h.others hne] at hi
    exact hrun i hi

theorem exited_running {current : Slot} (status : Word) (hcur : k.currentProcess = some current)
    (hrun : ∀ i, (k.processTable i).state = .running → k.currentProcess = some i) (i : Slot) :
    ((k.exited current status).processTable i).state ≠ .running := by
  intro hi
  by_cases hne : i = current
  · rw [hne, exited_self] at hi
    cases hi
  · rw [exited_others status hne] at hi
    exact hne (Option.some.inj ((hrun i hi).symm.trans hcur))

/-- After a dispatch the new process alone is running exactly if none was. -/
theorem dispatch_running_iff (hk : k.WellFormed) {head : Slot} (h : k.readyQueueHead = some head) :
    (∀ i, ((k.dispatch head).processTable i).state = .running →
      (k.dispatch head).currentProcess = some i) ↔ ∀ i, (k.processTable i).state ≠ .running := by
  obtain ⟨l, hq⟩ := hk.queue
  have hready := hq.head_ready h
  constructor
  · intro hall i hi
    have hne : i ≠ head := by
      rintro rfl
      rw [hready] at hi
      cases hi
    rw [← dispatch_others hne] at hi
    exact hne (Option.some.inj (hall i hi)).symm
  · intro hnone i hi
    by_cases hne : i = head
    · rw [hne]
      rfl
    · rw [dispatch_others hne] at hi
      exact absurd hi (hnone i)

/-- One call keeps the processes accounted for exactly if it keeps the current one. -/
theorem accounted_after_iff (hk : k.WellFormed) (hacc : k.Accounted) {call : Call}
    (hafter : k.after call = some k') : k'.Accounted ↔ k.KeepsCurrent call := by
  obtain ⟨k₁, hafter₁, hk', -⟩ := hk.after call
  obtain rfl := Option.some.inj (hafter₁.symm.trans hafter)
  rw [hk'.accounted_iff]
  have hrun := hacc.running
  cases hk.effect hafter with
  | @spawn call birth r hbirth hspawn =>
    refine iff_of_true (hspawn.running hrun) ?_
    rintro rfl
    cases hbirth
  | noParent => exact iff_of_true hrun nofun
  | noCaller => exact iff_of_true hrun nofun
  | exit status hcur =>
    refine iff_of_true (fun i hi => ?_) nofun
    exact absurd hi (exited_running status hcur hrun i)
  | exitTo status hcur hhead =>
    refine iff_of_true ?_ nofun
    exact (dispatch_running_iff (hk.exited hcur status) hhead).mpr (exited_running status hcur hrun)
  | wait => exact iff_of_true hrun nofun
  | idle hhead => exact iff_of_true hrun fun _ _ _ _ => hhead
  | dispatch hhead =>
    rw [dispatch_running_iff hk hhead]
    constructor
    · intro hnone _ c _ hc
      exact absurd hc (hnone c)
    · intro hkeep i hi
      have hempty := hkeep rfl i (hrun i hi) hi
      rw [hhead] at hempty
      cases hempty
  | pageFault => exact iff_of_true hrun nofun
  | userStore => exact iff_of_true hrun nofun

/-- Two processes are created and `schedule` is called twice: the first call starts the second
process, and the second call loses it. -/
theorem created_twice_loses {k₁ k₂ : Kernel} {i j : Slot} {d d' : Word} {birth birth' : Birth}
    (hfirst : Created k k₁ i d birth) (hsecond : Created k₁ k₂ j d' birth') :
    ¬k₂.schedule.2.schedule.2.Accounted := by
  have hne : j ≠ i := by
    rintro rfl
    have hfree := (findFree_some hsecond.slot).1
    rw [hfirst.new] at hfree
    cases hfree
  have hnext : (k₂.dispatch j).readyQueueHead = some i := by
    rw [dispatch, hsecond.new]
    exact hfirst.readyQueueHead
  have hrun : (((k₂.dispatch j).dispatch i).processTable j).state = .running := by
    rw [dispatch_others hne, dispatch_self]
  rw [schedule_some hsecond.readyQueueHead, schedule_some hnext]
  intro hacc
  exact hne (Option.some.inj (hacc.running j hrun)).symm

end Kernel

/-- Along a run of the kernel from boot every runnable process is accounted for exactly if each
call of the run keeps the current process. -/
theorem accounted_along_iff (img : KernelImage) {k : Kernel} (hk : img.system.init k)
    {run : List (Call × Kernel)} (hrun : img.system.Run k run) :
    System.Along Kernel.Accounted k run ↔ System.Meets Kernel.KeepsCurrent k run := by
  refine System.Run.along_iff_meets (fun k call k' hreach hacc hstep => ?_) (.init hk) ?_ hrun
  · have hk := KernelImage.running_of_reach hreach
    exact Kernel.accounted_after_iff hk.wellFormed hacc (hk.step hstep).1
  · obtain ⟨ram, bitmap, rfl⟩ := hk
    exact (img.boot_wellFormed ram bitmap).accounted_iff.mpr fun _ => nofun

/-- A program is loaded, runs and forks: then it is running, and its child is in the queue. -/
theorem accounted_along_iff_sample :
    ∃ k₁ k₂ i j, System.Along Kernel.Accounted KernelImage.sampleBoot
        [(Call.createProcess 0xC0110000 4096, k₁), (Call.schedule, k₂),
          (Call.sysFork, k₂.sysFork.2)] ∧
      (k₂.sysFork.2.processTable i).state = .running ∧
      (k₂.sysFork.2.processTable j).state = .ready := by
  obtain ⟨k₁, k₂, i, j, d, d', birth, h⟩ := KernelImage.sample_family
  refine ⟨k₁, k₂, i, j, ?_, h.running, h.ready⟩
  refine (accounted_along_iff .sample KernelImage.sampleBoot_init h.run).mpr
    ⟨nofun, fun _ c hc => ?_, nofun, trivial⟩
  rw [h.loaded_idle] at hc
  cases hc

/-- In the sample kernel there is room for two kernel processes. -/
theorem KernelImage.sample_two_created : ∃ i j d d' birth birth',
    Kernel.Created KernelImage.sampleBoot
      (KernelImage.sampleBoot.createKernelProcess 0xC0100000).2 i d birth ∧
    Kernel.Created (KernelImage.sampleBoot.createKernelProcess 0xC0100000).2
      ((KernelImage.sampleBoot.createKernelProcess 0xC0100000).2.createKernelProcess 0xC0100000).2
      j d' birth' := by
  have hreach : KernelImage.sample.system.Reach KernelImage.sampleBoot :=
    .init KernelImage.sampleBoot_init
  have hwf := (KernelImage.running_of_reach hreach).wellFormed
  have hempty : ∀ i, (KernelImage.sampleBoot.processTable i).state = .free := fun _ => rfl
  have h289 := KernelImage.sample_freeFrame (n := 289) (by decide) (by decide)
  have h290 := KernelImage.sample_freeFrame (n := 290) (by decide) (by decide)
  -- the first process
  obtain ⟨i, hi⟩ := Kernel.findFree_exists (hempty ⟨0, by decide⟩)
  obtain ⟨d, birth, hfirst⟩ := Kernel.createKernelProcess_created hwf.isolated hi h289 0xC0100000
  obtain ⟨k₁, hafter₁, hwf₁, -⟩ := hwf.after (.createKernelProcess 0xC0100000)
  obtain rfl := Option.some.inj hafter₁
  obtain ⟨n, hn⟩ : ∃ n, (KernelImage.sampleBoot.createKernelProcess 0xC0100000).2.mem.FreeFrame n := by
    rw [(Kernel.createKernelProcess_memory hi 0xC0100000).1]
    rcases hwf.isolated.createPageDirectory_free h289 h290 (by decide) with hn | hn
    · exact ⟨_, hn⟩
    · exact ⟨_, hn⟩
  -- the second process, in a slot and with a frame that are left
  obtain ⟨j, hj⟩ : ∃ j, (KernelImage.sampleBoot.createKernelProcess 0xC0100000).2.findFree =
      some j := by
    obtain ⟨j, hne⟩ := Kernel.exists_slot_ne i
    exact Kernel.findFree_exists (by rw [hfirst.others hne]; exact hempty j)
  obtain ⟨d', birth', hsecond⟩ := Kernel.createKernelProcess_created hwf₁.isolated hj hn 0xC0100000
  exact ⟨i, j, d, d', birth, birth', hfirst, hsecond⟩

/-- Two processes and two timer ticks: the second tick loses the process that the first one
started. -/
theorem ready_queue_loses_process :
    ∃ k, KernelImage.sampleBoot.afterAll [.createKernelProcess 0xC0100000,
        .createKernelProcess 0xC0100000, .schedule, .schedule] = some k ∧
      KernelImage.sample.system.Reach k ∧ ¬k.Accounted := by
  obtain ⟨i, j, d, d', birth, birth', hfirst, hsecond⟩ := KernelImage.sample_two_created
  have hafter : KernelImage.sampleBoot.afterAll [.createKernelProcess 0xC0100000,
      .createKernelProcess 0xC0100000, .schedule, .schedule] =
        some (((KernelImage.sampleBoot.createKernelProcess 0xC0100000).2.createKernelProcess
          0xC0100000).2.schedule.2.schedule.2) := rfl
  exact ⟨_, hafter, KernelImage.reach_afterAll (.init KernelImage.sampleBoot_init) hafter,
    Kernel.created_twice_loses hfirst hsecond⟩

end Lbos

import Lbos.Kernel.SavedContext
import Lbos.Kernel.SpawnSupply

/-! Where a forked process continues.  `sys_fork` copies the context in the parent's `process_t`,
which no trap ever writes to, so that the child starts at the program's entry wherever the parent
forked. -/

namespace Lbos

open Lib Mem

/-- A user process forked, by the system call with this trap frame, the child in a slot. -/
structure Forked (k k' : Kernel) (state : CpuState) (info : IdtInfo) (exec : StackState)
    (child : Slot) : Prop where
  user : ∃ parent, k.currentProcess = some parent ∧
    (k.processTable parent).context.stack.cs = userCsSelector
  number : state.eax = 2
  call : ∃ r, syscallInterruptHandler Kernel.syscallTable state info exec k = (.ret r, k')
  slot : (k.processTable child).state = .free
  child : (k'.processTable child).state = .ready

/-- A part of a run in which the process waits for its first turn. -/
inductive Waits (img : KernelImage) (i : Slot) (k : Kernel) : Kernel → Prop
  | refl : Waits img i k k
  | step {k' k'' : Kernel} {call : Call} : Waits img i k k' → img.system.step k' call k'' →
      (k''.processTable i).state = .ready → Waits img i k k''

/-- The call ends with the switch to the process of slot `i`, with these registers. -/
inductive SwitchesTo (k : Kernel) (i : Slot) (cpu : Cpu) : Call → Prop
  | schedule {cr3 : Word} {k' : Kernel} : k.schedule = (.switched cpu cr3, k') →
      k'.currentProcess = some i → SwitchesTo k i cpu .schedule
  | sysExit {status cr3 : Word} {k' : Kernel} : k.sysExit status = (.switched cpu cr3, k') →
      k'.currentProcess = some i → SwitchesTo k i cpu (.sysExit status)

/-- The registers that a child is to start with: those of the trap frame, but for `eax`. -/
def resumedCpu (state : CpuState) (exec : StackState) : Cpu where
  reg := { state with eax := 0, esp := exec.esp }
  eip := exec.eip
  cs := exec.cs
  eflags := exec.eflags
  ss := exec.ss

/-- The registers at a program's entry. -/
def entryCpu : Cpu := resumedCpu .zero Kernel.entryStack

/-- The trap frame is that of a program that has not executed an instruction. -/
structure AtEntry (state : CpuState) (exec : StackState) : Prop where
  registers : Kernel.ZeroRegisters state
  stack : exec = Kernel.entryStack

theorem resumedCpu_eq_entry (state : CpuState) (exec : StackState) :
    entryCpu = resumedCpu state exec ↔ AtEntry state exec := by
  obtain ⟨edi, esi, ebp, edx, ecx, ebx, eax, esp⟩ := state
  obtain ⟨eip, cs, eflags, usp, ss⟩ := exec
  constructor
  · intro h
    simp only [entryCpu, resumedCpu, CpuState.zero, Cpu.mk.injEq, CpuState.mk.injEq] at h
    obtain ⟨⟨rfl, rfl, rfl, rfl, rfl, rfl, -, rfl⟩, rfl, rfl, rfl, rfl⟩ := h
    exact ⟨rfl, rfl⟩
  · rintro ⟨hreg, hstack⟩
    simp only [Kernel.ZeroRegisters, CpuState.zero, CpuState.mk.injEq, and_true] at hreg
    obtain ⟨rfl, rfl, rfl, rfl, rfl, rfl⟩ := hreg
    rw [hstack]
    rfl

namespace Kernel

variable {k k' : Kernel} {i : Slot} {cpu : Cpu}

/-- A user process that `schedule` selects for the first time starts at its program's entry. -/
theorem Contexts.schedule_cpu (hk : k.Contexts) (hready : (k.processTable i).state = .ready)
    (huser : (k.processTable i).context.stack.cs = userCsSelector) {cr3 : Word}
    (h : k.schedule = (.switched cpu cr3, k')) (hcur : k'.currentProcess = some i) :
    cpu = entryCpu := by
  have hlive : (k.processTable i).state ≠ .free := by
    rw [hready]
    exact nofun
  obtain ⟨rfl, hswitch, hprepared, hcontext⟩ := hk.schedule_prepared hready h hcur
  rw [hprepared.switchToProcess (by rwa [hcontext]), hcontext] at hswitch
  obtain ⟨rfl, -⟩ := Exit.switched.inj hswitch
  have hstack := hk.stack i hlive huser
  have heax := hk.eax i hready
  have hzero := hk.registers i hlive
  rw [hzero.eq_zero heax, hstack]
  rfl

/-- The same for the switch at the end of any call. -/
theorem Contexts.switch_cpu (hk : k.Contexts) (hwf : k.WellFormed)
    (hready : (k.processTable i).state = .ready)
    (huser : (k.processTable i).context.stack.cs = userCsSelector) {call : Call}
    (h : SwitchesTo k i cpu call) : cpu = entryCpu := by
  cases h with
  | schedule hret hcur => exact hk.schedule_cpu hready huser hret hcur
  | @sysExit status cr3 k' hret hcur =>
    obtain ⟨current, hc, hschedule⟩ := sysExit_switched hret
    have hdisp := hwf.current current hc
    have hne : i ≠ current := by
      rintro rfl
      exact hdisp.not_ready hready
    have hsame := exited_others (k := k) status hne
    refine (hk.exited hdisp status).schedule_cpu ?_ ?_ hschedule hcur
    · rwa [hsame]
    · rwa [hsame]

end Kernel

/-! ### The child -/

section Child

variable {img : KernelImage} {k k' k'' : Kernel} {i : Slot}

theorem syscallHandler_fork {state : CpuState} (h : state.eax = 2) :
    syscallHandler Kernel.syscallTable state.eax = some fun _ _ _ _ _ k => k.sysFork := by
  rw [h]
  rfl

/-- The child is created with the user mode stack of its parent. -/
theorem Forked.spawned {state : CpuState} {info : IdtInfo} {exec : StackState}
    (h : Forked k k' state info exec i) (hwf : k.WellFormed) :
    k.after .sysFork = some k' ∧ (k'.processTable i).context.stack.cs = userCsSelector := by
  obtain ⟨parent, hparent, huser⟩ := h.user
  obtain ⟨r, hcall⟩ := h.call
  obtain rfl : k.sysFork.2 = k' := by
    rw [syscallInterruptHandler, syscallHandler_fork h.number] at hcall
    exact congrArg Prod.snd hcall
  obtain ⟨d, hnew⟩ := Kernel.created_of_fork hwf hparent h.slot h.child
  refine ⟨rfl, ?_⟩
  rw [hnew.new]
  exact huser

theorem Waits.kept (h : Waits img i k k') (hk : img.system.Reach k)
    (hready : (k.processTable i).state = .ready) :
    img.system.Reach k' ∧ k'.processTable i = k.processTable i := by
  induction h with
  | refl => exact ⟨hk, rfl⟩
  | step _ hstep hready' ih =>
    obtain ⟨hreach, hsame⟩ := ih
    have hrun := KernelImage.running_of_reach hreach
    refine ⟨.step hreach trivial hstep, ?_⟩
    rw [← hsame]
    exact hrun.wellFormed.consistent.ready_kept (hrun.wellFormed.effect (hrun.step hstep).1)
      (by rw [hsame, hready]) hready'

/-- A child starts at the program's entry. -/
theorem child_cpu (hk : img.system.Reach k) {state : CpuState} {info : IdtInfo} {exec : StackState}
    (hfork : Forked k k' state info exec i) (hwaits : Waits img i k' k'') {call : Call} {cpu : Cpu}
    (hswitch : SwitchesTo k'' i cpu call) : cpu = entryCpu := by
  obtain ⟨hafter, huser⟩ := hfork.spawned (KernelImage.running_of_reach hk).wellFormed
  obtain ⟨hreach, hsame⟩ := hwaits.kept (KernelImage.reach_after hk hafter) hfork.child
  have hwf := (KernelImage.running_of_reach hreach).wellFormed
  refine (KernelImage.contexts_of_reach hreach).switch_cpu hwf ?_ ?_ hswitch
  · rw [hsame]
    exact hfork.child
  · rw [hsame]
    exact huser

/-- A new user process that is dispatched can fork, by a system call with any trap frame, when a
slot and enough frames are left; its child is dispatched next. -/
theorem fork_after_creation {k₁ : Kernel} {i j : Slot} {d : Word} {birth : Kernel.Birth}
    (hnew : Kernel.Created k k₁ i d birth) (hstack : birth.stack = Kernel.entryStack)
    (hwf : (k₁.dispatch i).WellFormed) (hne : j ≠ i) (hj : (k.processTable j).state = .free)
    (hsupply : 1 + 2 * (userPages k₁.mem.ram d).card ≤ k₁.mem.freeCount) {state : CpuState}
    (h : state.eax = 2) (info : IdtInfo) (exec : StackState) :
    ∃ k' child cpu, Forked (k₁.dispatch i) k' state info exec child ∧
      SwitchesTo k' child cpu .schedule := by
  have hcur : (k₁.dispatch i).currentProcess = some i := rfl
  obtain ⟨child, d', hcreated, -⟩ := Kernel.fork_dispatched hne hj hnew hwf hsupply
  have hslot := (Kernel.findFree_some hcreated.slot).1
  have hready : ((k₁.dispatch i).sysFork.2.processTable child).state = .ready := by
    rw [hcreated.new]
  obtain ⟨r, hr, -⟩ := Kernel.sysFork_spawn hwf.isolated hcur (hwf.current i hcur).not_free
  refine ⟨(k₁.dispatch i).sysFork.2, child, _, ⟨⟨i, hcur, ?_⟩, h, ?_, hslot, hready⟩,
    .schedule (Kernel.schedule_some hcreated.readyQueueHead) rfl⟩
  · rw [Kernel.dispatch_self, hnew.new, hstack]
    rfl
  · rw [syscallInterruptHandler, syscallHandler_fork h]
    simp only [hr]
    exact ⟨_, rfl⟩

end Child

/-- A child that is dispatched for the first time has the registers of its parent's trap frame, and
zero in `eax`, exactly when that frame was the one of the program's entry. -/
theorem fork_resumes_iff (img : KernelImage) {k k' k'' : Kernel} (hk : img.system.Reach k)
    {state : CpuState} {info : IdtInfo} {exec : StackState} {child : Slot}
    (hfork : Forked k k' state info exec child) (hwaits : Waits img child k' k'') {call : Call}
    {cpu : Cpu} (hswitch : SwitchesTo k'' child cpu call) :
    cpu = resumedCpu state exec ↔ AtEntry state exec := by
  rw [child_cpu hk hfork hwaits hswitch]
  exact resumedCpu_eq_entry state exec

/-- A process with one page of code starts, forks by a system call with any trap frame, and its
child is dispatched. -/
theorem fork_run (state : CpuState) (info : IdtInfo) (exec : StackState) (h : state.eax = 2) :
    ∃ k k' child cpu, KernelImage.sample.system.Reach k ∧ Forked k k' state info exec child ∧
      SwitchesTo k' child cpu .schedule := by
  have hempty : ∀ i, (KernelImage.sampleBoot.processTable i).state = .free := fun _ => rfl
  have hfree := KernelImage.sample_freeCount
  obtain ⟨i, d, birth, hnew, hstack, hpages, hspent, hreach⟩ := KernelImage.sample_process
  obtain ⟨j, hne⟩ := Kernel.exists_slot_ne i
  obtain ⟨k', child, cpu, hfork, hswitch⟩ := fork_after_creation hnew hstack
    (KernelImage.running_of_reach hreach).wellFormed hne (hempty j) (by omega) h info exec
  exact ⟨_, k', child, cpu, hreach, hfork, hswitch⟩

/-- A fork at the program's entry. -/
theorem fork_resumes_iff_sample :
    ∃ k k' child cpu, Forked k k' { CpuState.zero with eax := 2 } ⟨0x80, 0⟩ Kernel.entryStack child ∧
      SwitchesTo k' child cpu .schedule ∧
      cpu = resumedCpu { CpuState.zero with eax := 2 } Kernel.entryStack := by
  obtain ⟨k, k', child, cpu, hreach, hfork, hswitch⟩ :=
    fork_run { CpuState.zero with eax := 2 } ⟨0x80, 0⟩ Kernel.entryStack rfl
  exact ⟨k, k', child, cpu, hfork, hswitch,
    (fork_resumes_iff .sample hreach hfork .refl hswitch).mpr ⟨rfl, rfl⟩⟩

/-- A fork behind the program's first instructions: the child starts over. -/
theorem fork_starts_over :
    ∃ k k' child cpu, KernelImage.sample.system.Reach k ∧
      Forked k k' { CpuState.zero with eax := 2 } ⟨0x80, 0⟩
        { Kernel.entryStack with eip := 0x08048033 } child ∧
      SwitchesTo k' child cpu .schedule ∧ cpu.eip = 0x08048000 ∧
      cpu ≠ resumedCpu { CpuState.zero with eax := 2 }
        { Kernel.entryStack with eip := 0x08048033 } := by
  obtain ⟨k, k', child, cpu, hreach, hfork, hswitch⟩ :=
    fork_run { CpuState.zero with eax := 2 } ⟨0x80, 0⟩
      { Kernel.entryStack with eip := 0x08048033 } rfl
  have hcpu := child_cpu hreach hfork .refl hswitch
  refine ⟨k, k', child, cpu, hreach, hfork, hswitch, ?_, ?_⟩
  · rw [hcpu]
    rfl
  · rw [hcpu]
    decide

end Lbos

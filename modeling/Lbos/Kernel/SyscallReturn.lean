import Lbos.Arch.TrapFrames
import Lbos.Kernel.Boot

/-! What a system call leaves in the user's registers: `syscall_interrupt_handler` stores the result
in its own copy of the registers, so that the user gets back its own `eax`. -/

namespace Lbos

open Lib

section

variable {σ : Type}

/-- The result `r` that the system call in these registers is to have, and the state after it: what
the registered handler returns, or `0xFFFFFFFF` when there is none. -/
inductive SyscallResult (handlers : SyscallTable σ) (reg : CpuState) (s : σ) : Word → σ → Prop
  | returned {handler : SyscallHandler σ} {r : Word} {s' : σ} :
      syscallHandler handlers reg.eax = some handler →
      handler reg.ebx reg.ecx reg.edx reg.esi reg.edi s = (.ret r, s') →
      SyscallResult handlers reg s r s'
  | invalid : syscallHandler handlers reg.eax = none →
      SyscallResult handlers reg s 0xFFFFFFFF s

/-- The registers at the trap but for the result. -/
def Cpu.withResult (cpu : Cpu) (r : Word) : Cpu := { cpu with reg := { cpu.reg with eax := r } }

/-- The handler leaves the result in its own parameter. -/
theorem syscallInterruptHandler_result {handlers : SyscallTable σ} {reg : CpuState} {s s' : σ}
    {r : Word} (h : SyscallResult handlers reg s r s') (info : IdtInfo) (exec : StackState) :
    syscallInterruptHandler handlers reg info exec s = (.ret { reg with eax := r }, s') := by
  cases h with
  | returned hhandler hret =>
    rw [syscallInterruptHandler, hhandler]
    simp only [hret]
    rfl
  | invalid hnone =>
    rw [syscallInterruptHandler, hnone]
    rfl

theorem SyscallResult.trapState {handlers : SyscallTable σ} {cpu : Cpu} {s s' : σ} {r : Word}
    (h : SyscallResult handlers cpu.reg s r s') (esp0 : Word) :
    SyscallResult handlers (trapState esp0 cpu) s r s' := by
  cases h with
  | returned hhandler hret => exact .returned hhandler hret
  | invalid hnone => exact .invalid hnone

/-- The user goes on with the registers it had at the trap, `eax` among them. -/
theorem syscall_keeps_registers {handlers : SyscallTable σ} {interrupts : InterruptTable σ}
    (hreg : registeredHandler interrupts syscallIntIdx = some (syscallInterruptHandler handlers))
    (m : Mem) (esp0 : Word) {cpu : Cpu} (hcs : cpu.cs &&& 3 ≠ 0) {s s' : σ} {r : Word}
    (hr : SyscallResult handlers cpu.reg s r s') :
    interruptUser interrupts syscallIntIdx m esp0 cpu s = (.ret cpu, s') := by
  rw [interruptUser_registered hreg (by decide) m esp0 hcs,
    syscallInterruptHandler_result (hr.trapState esp0)]
  rfl

/-- The result of a system call reaches the caller exactly when it is the number of the call. -/
theorem syscall_result_iff (handlers : SyscallTable σ) (interrupts : InterruptTable σ)
    (hreg : registeredHandler interrupts syscallIntIdx = some (syscallInterruptHandler handlers))
    (m : Mem) (esp0 : Word) (cpu : Cpu) (hcs : cpu.cs &&& 3 ≠ 0) (s s' : σ) (r : Word)
    (hr : SyscallResult handlers cpu.reg s r s') :
    interruptUser interrupts syscallIntIdx m esp0 cpu s = (.ret (cpu.withResult r), s') ↔
      r = cpu.reg.eax := by
  rw [syscall_keeps_registers hreg m esp0 hcs hr]
  constructor
  · intro h
    have hcpu : cpu = cpu.withResult r := Exit.ret.inj (congrArg Prod.fst h)
    exact (congrArg (fun c : Cpu => c.reg.eax) hcpu).symm
  · rintro rfl
    rfl

end

/-- What `syscall_init` makes of `interrupt_handlers`. -/
def Kernel.syscallInit (interrupts : InterruptTable Kernel) : InterruptTable Kernel :=
  (registerInterruptHandler interrupts syscallIntIdx (syscallInterruptHandler syscallTable)).2

theorem Kernel.registeredHandler_syscallInit {interrupts : InterruptTable Kernel}
    (h : registeredHandler interrupts syscallIntIdx = none) :
    registeredHandler (syscallInit interrupts) syscallIntIdx =
      some (syscallInterruptHandler syscallTable) :=
  registeredHandler_register_self (by decide) h _

/-- User code at a system call with this number and argument. -/
def Cpu.sampleTrap (eax ebx : Word) : Cpu :=
  ⟨⟨0, 0, 0, 0, 0, ebx, eax, 0xBFFFEFF0⟩, 0x08048020, userCsSelector, userEflags, userDsSelector⟩

/-- `printf` returns its own number. -/
theorem syscall_result_iff_sample :
    interruptUser (Kernel.syscallInit fun _ => none) syscallIntIdx (fun _ => 0) 0xC0106000
        (.sampleTrap 1 0x08049000) KernelImage.sampleBoot =
      (.ret ((Cpu.sampleTrap 1 0x08049000).withResult 1), KernelImage.sampleBoot) :=
  (syscall_result_iff _ _ (Kernel.registeredHandler_syscallInit rfl) _ _ _ (by decide) _ _ _
    (.returned rfl rfl)).mpr rfl

/-- `printf` of a null pointer returns `-1` and the user gets `1`. -/
theorem syscall_result_lost :
    SyscallResult Kernel.syscallTable (Cpu.sampleTrap 1 0).reg KernelImage.sampleBoot 0xFFFFFFFF
        KernelImage.sampleBoot ∧
      interruptUser (Kernel.syscallInit fun _ => none) syscallIntIdx (fun _ => 0) 0xC0106000
          (.sampleTrap 1 0) KernelImage.sampleBoot ≠
        (.ret ((Cpu.sampleTrap 1 0).withResult 0xFFFFFFFF), KernelImage.sampleBoot) := by
  have hr : SyscallResult Kernel.syscallTable (Cpu.sampleTrap 1 0).reg KernelImage.sampleBoot
      0xFFFFFFFF KernelImage.sampleBoot := .returned rfl rfl
  refine ⟨hr, ?_⟩
  rw [syscall_keeps_registers (Kernel.registeredHandler_syscallInit rfl) _ _ (by decide) hr]
  intro h
  have hcpu : Cpu.sampleTrap 1 0 = (Cpu.sampleTrap 1 0).withResult 0xFFFFFFFF :=
    Exit.ret.inj (congrArg Prod.fst h)
  exact absurd hcpu (by decide)

end Lbos

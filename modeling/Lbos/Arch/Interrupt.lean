import Lbos.Arch.Traps

/-! The way of an interrupt from user mode to its handler and back: the stubs of
`interrupt_asm.s` and `interrupt_handler` of `interrupt.c`.  The kernel stack from `esp0` down is a
memory of its own here, as no handler writes to the frames of its callers. -/

namespace Lbos

open Lib Mem

def idtNumEntries : Nat := 256

def syscallIntIdx : Word := 0x80

/-- `interrupt_handler_t`: a handler works on copies, and returns what it leaves in `state`. -/
abbrev InterruptHandler (σ : Type) :=
  CpuState → IdtInfo → StackState → σ → Exit CpuState × σ

/-- `interrupt_handlers`. -/
abbrev InterruptTable (σ : Type) := Fin idtNumEntries → Option (InterruptHandler σ)

section Handler

variable {σ : Type}

def registerInterruptHandler (handlers : InterruptTable σ) (interrupt : Word)
    (handler : InterruptHandler σ) : Word × InterruptTable σ :=
  if h : interrupt.toNat < idtNumEntries then
    if (handlers ⟨interrupt.toNat, h⟩).isSome then (1, handlers)
    else (0, Function.update handlers ⟨interrupt.toNat, h⟩ (some handler))
  else (1, handlers)

/-- `interrupt_handlers[idx]`; the stubs pass no index that is out of range. -/
def registeredHandler (handlers : InterruptTable σ) (idx : Word) : Option (InterruptHandler σ) :=
  if h : idx.toNat < idtNumEntries then handlers ⟨idx.toNat, h⟩ else none

/-- `interrupt_handler`, whose branch for system calls differs in the log only: the registered
handler gets copies of `state`, `info` and `exec`. -/
def interruptHandler (handlers : InterruptTable σ) : InterruptHandler σ := fun state info exec s =>
  match registeredHandler handlers info.idtIndex with
  | some handler =>
    let (exit, s) := handler state info exec s
    (exit.map fun _ => state, s)
  | none => (.ret state, s)

theorem registeredHandler_register_self {handlers : InterruptTable σ} {idx : Word}
    (hidx : idx.toNat < idtNumEntries) (h : registeredHandler handlers idx = none)
    (handler : InterruptHandler σ) :
    registeredHandler (registerInterruptHandler handlers idx handler).2 idx = some handler := by
  rw [registeredHandler, dif_pos hidx] at h ⊢
  simp only [registerInterruptHandler, dif_pos hidx, h, Option.isSome_none, Bool.false_eq_true,
    if_false, Function.update_self]

theorem registeredHandler_register_ne (handlers : InterruptTable σ) {idx other : Word}
    (hne : other ≠ idx) (handler : InterruptHandler σ) :
    registeredHandler (registerInterruptHandler handlers idx handler).2 other =
      registeredHandler handlers other := by
  unfold registerInterruptHandler
  split
  · split
    · rfl
    · rw [registeredHandler, registeredHandler]
      split
      · refine Function.update_of_ne (fun heq => hne ?_) ..
        exact BitVec.eq_of_toNat_eq (Fin.mk.inj heq)
      · rfl
  · rfl

end Handler

/-! ### The stubs -/

/-- The `cpu_state_t` at an address. -/
def CpuState.ofStack (m : Mem) (sp : Word) : CpuState where
  edi := m.load sp 0
  esi := m.load sp 1
  ebp := m.load sp 2
  edx := m.load sp 3
  ecx := m.load sp 4
  ebx := m.load sp 5
  eax := m.load sp 6
  esp := m.load sp 7

/-- The `idt_info_t` behind it. -/
def IdtInfo.ofStack (m : Mem) (sp : Word) : IdtInfo := ⟨m.load sp 8, m.load sp 9⟩

/-- The `stack_state_t` behind both. -/
def StackState.ofStack (m : Mem) (sp : Word) : StackState :=
  ⟨m.load sp 10, m.load sp 11, m.load sp 12, m.load sp 13, m.load sp 14⟩

/-- The frame of the user's code that an interrupt leaves on the kernel stack. -/
def Cpu.exec (cpu : Cpu) : StackState := ⟨cpu.eip, cpu.cs, cpu.eflags, cpu.reg.esp, cpu.ss⟩

section Stub

variable {σ : Type} (handlers : InterruptTable σ)

/-- The pushes of `common_interrupt_handler`: `push esp`, `add DWORD [esp], 8`, and the other
registers. -/
def pushRegisters (m : Mem) (reg : CpuState) : Word × Mem :=
  let (esp, m) := m.push reg.esp reg.esp
  let m := m.write32 esp (m.read32 esp + 8)
  m.pushAll esp [reg.eax, reg.ebx, reg.ecx, reg.edx, reg.ebp, reg.esi, reg.edi]

/-- `common_interrupt_handler`.  What it pushed are the parameters of `interrupt_handler`, so that
the pops after the call give what this leaves in `state`; the last one is `pop esp`. -/
def commonInterruptHandler (m : Mem) (reg : CpuState) (ss : Word) (s : σ) : Exit Cpu × σ :=
  let (esp, m) := pushRegisters m reg
  let (exit, s) := interruptHandler handlers (.ofStack m esp) (.ofStack m esp) (.ofStack m esp) s
  (exit.map fun state => iret m state ss, s)

/-- `NO_ERROR_HANDLER idx`. -/
def noErrorHandler (idx : Word) (m : Mem) (reg : CpuState) (ss : Word) (s : σ) : Exit Cpu × σ :=
  let (esp, m) := m.pushAll reg.esp [0, idx]
  commonInterruptHandler handlers m { reg with esp } ss s

/-- An interrupt in user mode, up to the end of its handling: the processor takes the stack pointer
and segment of the task state, pushes the frame of the user's code and enters the stub. -/
def interruptUser (idx : Word) (m : Mem) (esp0 : Word) (cpu : Cpu) (s : σ) : Exit Cpu × σ :=
  let (esp, m) := m.pushAll esp0 cpu.exec.frame
  noErrorHandler handlers idx m { cpu.reg with esp } kernelDsSelector s

end Stub

/-! ### The frame -/

/-- The stub's pushes as one list. -/
theorem pushRegisters_eq (m : Mem) (reg : CpuState) :
    pushRegisters m reg = m.pushAll reg.esp [reg.esp + 8, reg.eax, reg.ebx, reg.ecx, reg.edx,
      reg.ebp, reg.esi, reg.edi] := by
  simp only [pushRegisters, pushAll, push, read32_write32_same, write32_write32]

/-- The parameters that a handler gets: `esp` is that of the kernel, above what the stub pushed. -/
def trapState (esp0 : Word) (cpu : Cpu) : CpuState := { cpu.reg with esp := esp0 - 20 }

end Lbos

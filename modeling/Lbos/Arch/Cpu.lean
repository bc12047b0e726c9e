import Lbos.Lib.Stack

/-! The registers that the kernel saves and restores, in the structures of `mem/process.h`, and the
two instructions that move them between a stack and the processor: the entry to an interrupt gate
from user mode, and `iret` in kernel mode. -/

namespace Lbos

open Lib

/-- `cpu_state_t`. -/
structure CpuState where
  edi : Word
  esi : Word
  ebp : Word
  edx : Word
  ecx : Word
  ebx : Word
  eax : Word
  esp : Word
  deriving DecidableEq

/-- `stack_state_t`. -/
structure StackState where
  eip : Word
  cs : Word
  eflags : Word
  esp : Word
  ss : Word
  deriving DecidableEq

def CpuState.zero : CpuState := ⟨0, 0, 0, 0, 0, 0, 0, 0⟩

def StackState.zero : StackState := ⟨0, 0, 0, 0, 0⟩

/-- The processor's registers; its stack pointer is `reg.esp`. -/
structure Cpu where
  reg : CpuState
  eip : Word
  cs : Word
  eflags : Word
  ss : Word
  deriving DecidableEq

/-- The selectors of `mem/process.h` and its initial flags. -/
def kernelCsSelector : Word := 0x08

def kernelDsSelector : Word := 0x10

def userCsSelector : Word := 0x1B

def userDsSelector : Word := 0x23

def kernelEflags : Word := 0x202

def userEflags : Word := 0x202

/-- What the processor pushes on the kernel stack when user mode is interrupted, first to last. -/
def StackState.frame (s : StackState) : List Word := [s.ss, s.esp, s.eflags, s.cs, s.eip]

/-- `iret` in kernel mode, with the stack pointer at `reg.esp`: a return to user mode pops the
stack of the interrupted code as well. -/
def iret (m : Mem) (reg : CpuState) (ss : Word) : Cpu :=
  let eip := m.load reg.esp 0
  let cs := m.load reg.esp 1
  let eflags := m.load reg.esp 2
  if cs &&& 3 = 0 then { reg := { reg with esp := reg.esp + 12 }, eip, cs, eflags, ss }
  else { reg := { reg with esp := m.load reg.esp 3 }, eip, cs, eflags, ss := m.load reg.esp 4 }

/-- The stack holds the frame of `s` at `sp`. -/
def HoldsFrame (m : Mem) (sp : Word) (s : StackState) : Prop :=
  m.load sp 0 = s.eip ∧ m.load sp 1 = s.cs ∧ m.load sp 2 = s.eflags ∧ m.load sp 3 = s.esp ∧
    m.load sp 4 = s.ss

/-- A return to user mode through a frame. -/
theorem iret_user {m : Mem} {reg : CpuState} {ss : Word} {s : StackState}
    (h : HoldsFrame m reg.esp s) (hcs : s.cs &&& 3 ≠ 0) :
    iret m reg ss = { reg := { reg with esp := s.esp }, eip := s.eip, cs := s.cs,
                      eflags := s.eflags, ss := s.ss } := by
  obtain ⟨h0, h1, h2, h3, h4⟩ := h
  simp only [iret, h0, h1, h2, h3, h4, if_neg hcs]

end Lbos

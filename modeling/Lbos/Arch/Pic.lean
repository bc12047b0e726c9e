import Lbos.Arch.Interrupt

/-! The interrupt controllers of `pic.c`, the timer of `pit.c`, and the interrupt handlers that
booting registers.  What the kernel writes to the controllers and to the timer is kept, oldest
first; the ports of the log and of the screen are left out. -/

namespace Lbos

open Lib

/-- The bytes written to I/O ports. -/
abbrev Ports := List (BitVec 16 × Byte)

def outb (port : BitVec 16) (data : Byte) (ports : Ports) : Ports := ports ++ [(port, data)]

def pic1PortA : BitVec 16 := 0x20

def pic1PortB : BitVec 16 := 0x21

def pic2PortA : BitVec 16 := 0xA0

def pic2PortB : BitVec 16 := 0xA1

def picEoi : Byte := 0x20

/-- `PIC1_START` and `PIC2_START`. -/
def pic1Start : Word := 0x20

def pic2Start : Word := 0x28

def picNumIrqs : Nat := 16

def picAcknowledge (ports : Ports) : Ports := outb pic2PortA picEoi (outb pic1PortA picEoi ports)

def picMask (mask1 mask2 : Byte) (ports : Ports) : Ports :=
  outb pic2PortB mask2 (outb pic1PortB mask1 ports)

/-- `pic_init`; `PIC2_ICW1` is defined as `PIC1_ICW2`. -/
def picInit (ports : Ports) : Ports :=
  let pic1Icw2 : Byte := 0x20
  let ports := outb pic1PortA 0x11 ports
  let ports := outb pic2PortA pic1Icw2 ports
  let ports := outb pic1PortB pic1Icw2 ports
  let ports := outb pic2PortB 0x28 ports
  let ports := outb pic1PortB 0x04 ports
  let ports := outb pic2PortB 0x02 ports
  let ports := outb pic1PortB 0x05 ports
  let ports := outb pic2PortB 0x01 ports
  picMask 0xEC 0xFF ports

/-- The byte last written to a port. -/
def Ports.last (ports : Ports) (port : BitVec 16) : Option Byte :=
  (ports.reverse.find? fun e => e.1 = port).map Prod.snd

/-- An IRQ line is unmasked when its bit in the mask that its controller was given last is clear. -/
def Ports.Unmasked (ports : Ports) (line : Fin picNumIrqs) : Prop :=
  ∃ mask, ports.last (if line.val < 8 then pic1PortB else pic2PortB) = some mask ∧
    mask.getLsbD (line.val % 8) = false

/-- The index that a line's interrupts come in with. -/
def irqIndex (line : Fin picNumIrqs) : Word :=
  if line.val < 8 then pic1Start + BitVec.ofNat 32 line.val
  else pic2Start + BitVec.ofNat 32 (line.val - 8)

instance (ports : Ports) (line : Fin picNumIrqs) : Decidable (ports.Unmasked line) :=
  match h : ports.last (if line.val < 8 then pic1PortB else pic2PortB) with
  | none => isFalse fun ⟨_, hmask, _⟩ => nomatch h.symm.trans hmask
  | some mask =>
    if hbit : mask.getLsbD (line.val % 8) = false then isTrue ⟨mask, h, hbit⟩
    else isFalse fun ⟨_, hmask, hclear⟩ => hbit (Option.some.inj (h.symm.trans hmask) ▸ hclear)

/-- The timer, the keyboard and the first serial port are left unmasked. -/
theorem unmasked_picInit_iff (line : Fin picNumIrqs) :
    (picInit []).Unmasked line ↔ line.val = 0 ∨ line.val = 1 ∨ line.val = 4 := by
  revert line
  decide

/-- The state that interrupt handlers work on. -/
structure Machine where
  kernel : Kernel
  cr2 : Word
  ports : Ports

def pitFrequency : Nat := 1193182

def pitIntIdx : Word := pic1Start

def pitCommand : BitVec 16 := 0x43

def pitChannel0Data : BitVec 16 := 0x40

namespace Machine

variable (s : Machine)

/-- `pit_handler`, which acknowledges the interrupt when `schedule` has returned. -/
def pitHandler : InterruptHandler Machine := fun state _ _ s =>
  match s.kernel.schedule with
  | (.ret (), kernel) => (.ret state, { s with kernel, ports := picAcknowledge s.ports })
  | (exit, kernel) => (exit.map fun _ => state, { s with kernel })

def pitSetInterval (interval : Nat) : Machine :=
  let frequency := 1000 / interval
  let divider := BitVec.ofNat 16 (pitFrequency / frequency)
  let ports := outb pitChannel0Data (divider.setWidth 8) s.ports
  { s with ports := outb pitChannel0Data ((divider >>> 8).setWidth 8) ports }

/-- `general_protection_fault_handler`. -/
def generalProtectionFaultHandler : InterruptHandler Machine := fun _ _ _ s => (.halted, s)

/-- A handler that works on the kernel only. -/
def onKernel (handler : InterruptHandler Kernel) : InterruptHandler Machine :=
  fun state info exec s =>
    let (exit, kernel) := handler state info exec s.kernel
    (exit, { s with kernel })

/-- `page_fault_handler`, which reads the address from CR2. -/
def pageFaultHandler : InterruptHandler Machine := fun state info _ s =>
  let (exit, kernel) := s.kernel.pageFaultHandler s.cr2 info
  (exit.map fun _ => state, { s with kernel })

end Machine

section Boot

variable (handlers : InterruptTable Machine) (s : Machine)

def pitInit : InterruptTable Machine × Machine :=
  let s := { s with ports := outb pitCommand (1 <<< 5 ||| 1 <<< 4 ||| 1 <<< 2 ||| 1 <<< 1) s.ports }
  let handlers := (registerInterruptHandler handlers pitIntIdx Machine.pitHandler).2
  (handlers, s.pitSetInterval 10)

/-- `interrupt_init`, without the descriptors of `idt_init`. -/
def interruptInit : InterruptTable Machine × Machine :=
  let s := { s with ports := picInit s.ports }
  let (handlers, s) := pitInit handlers s
  ((registerInterruptHandler handlers 13 Machine.generalProtectionFaultHandler).2, s)

/-- What `kmain` makes of `interrupt_handlers` and of the ports: `interrupt_init`, and the handlers
that `syscall_init` and `init_page_frame_allocator` register. -/
def interruptBoot : InterruptTable Machine × Machine :=
  let (handlers, s) := interruptInit handlers s
  let syscall := Machine.onKernel (syscallInterruptHandler Kernel.syscallTable)
  let handlers := (registerInterruptHandler handlers syscallIntIdx syscall).2
  ((registerInterruptHandler handlers 14 Machine.pageFaultHandler).2, s)

end Boot

end Lbos

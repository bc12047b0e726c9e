import Mathlib.Data.List.FinRange
import Lbos.Arch.Cpu
import Lbos.Lib.Loop
import Lbos.Mem.Paging

/-! The process table, the creation of processes and the scheduler of `mem/process.c`.  The
processes are records; their kernel stacks, which `switch_to_process` reads through the stack
pointer, are bytes at their virtual addresses. -/

namespace Lbos

open Lib

def maxProcesses : Nat := 64

def processKernelStackSize : Nat := 4096

def userStackTop : Word := 0xBFFFF000

def userCodeStart : Word := 0x08048000

inductive ProcessState where
  | free
  | ready
  | running
  | blocked
  | terminated
  deriving DecidableEq

structure ProcessContext where
  reg : CpuState
  stack : StackState
  cr3 : Word
  deriving DecidableEq

/-- A pointer to an element of `process_table`. -/
abbrev Slot := Fin maxProcesses

/-- `process_t` without the kernel stack. -/
structure Process where
  pid : Word
  state : ProcessState
  context : ProcessContext
  nextInReadyQueue : Option Slot
  parentPid : Word
  deriving DecidableEq

/-- Memory, the variables of `process.c` and `tss.esp0`.  The addresses of `process_table` and
`kernel_idle` do not change. -/
structure Kernel where
  mem : PhysMem
  processTable : Slot → Process
  kstacks : Mem
  nextPid : Word
  currentProcess : Option Slot
  readyQueueHead : Option Slot
  tssEsp0 : Word
  processTableAddr : Word
  kernelIdle : Word

/-- How a function of the kernel ends: it returns; it returns after a store through a pointer of
its caller, which the state that comes with it does not show; `switch_to_process` gives the
processor to a process with these registers and page directory; or it stops in a `hlt` loop. -/
inductive Exit (α : Type) where
  | ret (a : α)
  | stored (addr value : Word) (a : α)
  | switched (cpu : Cpu) (cr3 : Word)
  | halted
  deriving DecidableEq

def Exit.map {α β : Type} (f : α → β) : Exit α → Exit β
  | ret a => ret (f a)
  | stored addr value a => stored addr value (f a)
  | switched cpu cr3 => switched cpu cr3
  | halted => halted

theorem Exit.map_map {α β γ : Type} (f : α → β) (g : β → γ) (e : Exit α) :
    (e.map f).map g = e.map fun a => g (f a) := by
  cases e <;> rfl

namespace Kernel

variable (k : Kernel)

/-- The address of `kstack` in a slot: a `process_t` takes `0x1050` bytes and its kernel stack
begins at byte `0x40`. -/
def kstackAddr (i : Slot) : Word := k.processTableAddr + BitVec.ofNat 32 (0x1050 * i.val + 0x40)

def kstackTop (i : Slot) : Word := k.kstackAddr i + BitVec.ofNat 32 processKernelStackSize

@[simps -fullyApplied] def setMem (mem : PhysMem) : Kernel := { k with mem }

/-- Replaces the process of a slot. -/
@[simps -fullyApplied] def setProcess (i : Slot) (p : Process) : Kernel :=
  { k with processTable := Function.update k.processTable i p }

def setState (i : Slot) (state : ProcessState) : Kernel :=
  k.setProcess i { k.processTable i with state }

def setContext (i : Slot) (context : ProcessContext) : Kernel :=
  k.setProcess i { k.processTable i with context }

def findFree : Option Slot :=
  (List.finRange maxProcesses).find? fun i => (k.processTable i).state = .free

/-- Slot `i` gets the next pid, a cleared context and a filled kernel stack. -/
@[simps -fullyApplied] def takeSlot (i : Slot) : Kernel :=
  { k with
    nextPid := k.nextPid + 1
    processTable := Function.update k.processTable i
      { k.processTable i with pid := k.nextPid, context := ⟨.zero, .zero, 0⟩ }
    kstacks := memset k.kstacks (k.kstackAddr i) 0xCD processKernelStackSize }

def allocatePcbAndPid : Option (Slot × Word) × Kernel :=
  match k.findFree with
  | none => (none, k)
  | some i => (some (i, k.nextPid), k.takeSlot i)

def getZombieProcessForParent (parentPid : Word) : Option Slot :=
  (List.finRange maxProcesses).find? fun i =>
    (k.processTable i).state = .terminated ∧ (k.processTable i).parentPid = parentPid

def initProcessManager : Kernel :=
  { k with
    processTable := fun i =>
      { k.processTable i with state := .free, pid := 0, nextInReadyQueue := none }
    currentProcess := none
    readyQueueHead := none
    nextPid := 1 }

end Kernel

/-- One round of the loop of `create_process`, which has advanced `current_vaddr` by `i` frames. -/
def loadPage (cr3 moduleData moduleSize : Word) (i : Nat) (pm : PhysMem) : Bool × PhysMem :=
  let offset := BitVec.ofNat 32 i * frameSize
  let currentVaddr := userCodeStart + offset
  let (framePhys, pm) := pm.allocFrame
  if framePhys = 0 then (false, pm)
  else
    let pm := pm.mapPage cr3 currentVaddr framePhys (pagePresent ||| pageUser ||| pageRw)
    let copySize := if offset + frameSize > moduleSize then moduleSize - offset else frameSize
    let frameVirt := pm.physToVirt framePhys
    let pm := pm.copy frameVirt (moduleData + offset) copySize.toNat
    if copySize < frameSize then
      (true, pm.clear (frameVirt + copySize) (frameSize - copySize).toNat)
    else (true, pm)

namespace Kernel

variable (k : Kernel)

/-- The `stack` of a new user process: its program's entry. -/
def entryStack : StackState :=
  ⟨userCodeStart, userCsSelector, userEflags, userStackTop, userDsSelector⟩

/-- The end of a successful creation: these words go on the new process's kernel stack
(`*--kstack_ptr = …`), `reg.esp` points to the last, and the process is ready, at the front of the
queue. -/
def finishCreation (i : Slot) (words : List Word) : Kernel :=
  let pushed := k.kstacks.pushAll (k.kstackTop i) words
  let p := k.processTable i
  { k with
    kstacks := pushed.2
    processTable := Function.update k.processTable i { p with
      context := { p.context with reg := { p.context.reg with esp := pushed.1 } }
      state := .ready
      nextInReadyQueue := k.readyQueueHead }
    readyQueueHead := some i }

def createProcess (moduleData moduleSize : Word) : Option Slot × Kernel :=
  match k.allocatePcbAndPid with
  | (none, k) => (none, k)
  | (some (newProc, _), k) =>
    let (pageDirVirtual, mem) := k.mem.createPageDirectory
    let k := k.setMem mem
    if pageDirVirtual = 0 then (none, k.setState newProc .free)
    else
      let cr3 := k.mem.virtToPhys pageDirVirtual
      let k := k.setContext newProc { (k.processTable newProc).context with cr3 }
      let pagesNeeded := (moduleSize + frameSize - 1) / frameSize
      match loopWhile (loadPage cr3 moduleData moduleSize) pagesNeeded.toNat 0 k.mem with
      | (false, mem) => (none, (k.setMem mem).setState newProc .free)
      | (true, mem) =>
        let k := k.setMem mem
        let k := k.setContext newProc { (k.processTable newProc).context with stack := entryStack }
        (some newProc, k.finishCreation newProc (k.processTable newProc).context.stack.frame)

def createKernelProcess (entryPoint : Word) : Option Slot × Kernel :=
  match k.allocatePcbAndPid with
  | (none, k) => (none, k)
  | (some (newProc, _), k) =>
    let (pageDirVirtual, mem) := k.mem.createPageDirectory
    let k := k.setMem mem
    if pageDirVirtual = 0 then (none, k.setState newProc .free)
    else
      let cr3 := k.mem.virtToPhys pageDirVirtual
      let k := k.setContext newProc { (k.processTable newProc).context with cr3 }
      let stack : StackState := ⟨entryPoint, kernelCsSelector, kernelEflags, 0, 0⟩
      let k := k.setContext newProc { (k.processTable newProc).context with stack }
      (some newProc,
        k.finishCreation newProc [k.kernelIdle, stack.eflags, stack.cs, stack.eip])

end Kernel

/-- The word of a `process_t` at a byte offset, for the offsets of its context. -/
def Process.word (p : Process) : Nat → Word
  | 0x08 => p.context.reg.edi
  | 0x0C => p.context.reg.esi
  | 0x10 => p.context.reg.ebp
  | 0x14 => p.context.reg.edx
  | 0x18 => p.context.reg.ecx
  | 0x1C => p.context.reg.ebx
  | 0x20 => p.context.reg.eax
  | 0x24 => p.context.reg.esp
  | 0x28 => p.context.stack.eip
  | 0x2C => p.context.stack.cs
  | 0x30 => p.context.stack.eflags
  | 0x34 => p.context.stack.esp
  | 0x38 => p.context.stack.ss
  | 0x3C => p.context.cr3
  | _ => 0

namespace Kernel

variable (k : Kernel)

/-- `switch_asm.s`: the registers that the `iret` leaves, and CR3. -/
def switchToProcess (next : Slot) : Exit Unit :=
  let p := k.processTable next
  let reg : CpuState := {
    edi := p.word 0x08, esi := p.word 0x0C, ebp := p.word 0x10, edx := p.word 0x14,
    ecx := p.word 0x18, ebx := p.word 0x1C, eax := p.word 0x20, esp := p.word 0x24 }
  .switched (iret k.kstacks reg kernelDsSelector) (p.word 0x3C)

def schedule : Exit Unit × Kernel :=
  match k.readyQueueHead with
  | none => (.ret (), k)
  | some head =>
    let k := { k with
      currentProcess := some head
      readyQueueHead := (k.processTable head).nextInReadyQueue }
    let k := k.setState head .running
    let k := { k with tssEsp0 := k.kstackTop head }
    (k.switchToProcess head, k)

end Kernel

end Lbos

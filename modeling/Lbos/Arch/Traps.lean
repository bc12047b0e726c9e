import Lbos.LogCall
import Lbos.Mem.Process

/-! The system calls of `arch/x86/syscall.c`, their dispatch, and the page-fault handler of
`mem/page_frame_allocator.c`.  A C function that takes a structure by value works on a copy, so a
handler here returns what it leaves in its own parameter. -/

namespace Lbos

open Lib

/-- `idt_info_t`. -/
structure IdtInfo where
  idtIndex : Word
  errorCode : Word
  deriving DecidableEq

def maxSyscalls : Nat := 32

/-- `syscall_handler_t`, over the states `σ` that a handler works on. -/
abbrev SyscallHandler (σ : Type) := Word → Word → Word → Word → Word → σ → Exit Word × σ

/-- `syscall_handlers`. -/
abbrev SyscallTable (σ : Type) := Fin maxSyscalls → Option (SyscallHandler σ)

section Dispatch

variable {σ : Type}

def registerSyscall (handlers : SyscallTable σ) (num : Word) (handler : SyscallHandler σ) :
    SyscallTable σ :=
  if h : num.toNat < maxSyscalls then Function.update handlers ⟨num.toNat, h⟩ (some handler)
  else handlers

/-- `syscall_handlers[num]`, `none` when `num` is out of range. -/
def syscallHandler (handlers : SyscallTable σ) (num : Word) : Option (SyscallHandler σ) :=
  if h : num.toNat < maxSyscalls then handlers ⟨num.toNat, h⟩ else none

/-- What `syscall_interrupt_handler` leaves in its parameter `state`. -/
def syscallInterruptHandler (handlers : SyscallTable σ) (state : CpuState) (_info : IdtInfo)
    (_exec : StackState) (s : σ) : Exit CpuState × σ :=
  match syscallHandler handlers state.eax with
  | none => (.ret { state with eax := -1 }, s)
  | some handler =>
    let (result, s) := handler state.ebx state.ecx state.edx state.esi state.edi s
    (result.map fun r => { state with eax := r }, s)

end Dispatch

/-- The body of the loops of `sys_fork`, for entry `pteIdx` of a page table of the parent. -/
def forkPage (childCr3 parentPageTable : Word) (pdeIdx pteIdx : Nat) (pm : PhysMem) :
    Bool × PhysMem :=
  if present (pm.load parentPageTable pteIdx) then
    let virtAddr := (BitVec.ofNat 32 pdeIdx <<< 22) ||| (BitVec.ofNat 32 pteIdx <<< 12)
    let physAddr := pm.load parentPageTable pteIdx &&& ~~~0xFFF
    let (childFrame, pm) := pm.allocFrame
    if childFrame = 0 then (false, pm)
    else
      let pm := pm.copy (pm.physToVirt childFrame) (pm.physToVirt physAddr) frameSize.toNat
      let flags := pm.load parentPageTable pteIdx &&& 0xFFF
      (true, pm.mapPage childCr3 virtAddr childFrame flags)
  else (true, pm)

/-- The outer loop's body, for entry `pdeIdx` of the parent's directory. -/
def forkTable (childCr3 parentPageDir : Word) (pdeIdx : Nat) (pm : PhysMem) : Bool × PhysMem :=
  if present (pm.load parentPageDir pdeIdx) then
    let parentPageTable := pm.physToVirt (pm.load parentPageDir pdeIdx &&& ~~~0xFFF)
    loopWhile (forkPage childCr3 parentPageTable pdeIdx) 1024 0 pm
  else (true, pm)

namespace Kernel

variable (k : Kernel)

def sysFork : Exit Word × Kernel :=
  match k.currentProcess with
  | none => (.ret (-1), k)
  | some current =>
    match k.allocatePcbAndPid with
    | (none, k) => (.ret (-1), k)
    | (some (child, _), k) =>
      let k := k.setProcess child { k.processTable child with
        parentPid := (k.processTable current).pid }
      let (childPageDir, mem) := k.mem.createPageDirectory
      let k := k.setMem mem
      if childPageDir = 0 then (.ret (-1), k.setState child .free)
      else
        let cr3 := k.mem.virtToPhys childPageDir
        let k := k.setContext child { (k.processTable current).context with cr3 }
        let parentPageDir := k.mem.physToVirt (k.processTable current).context.cr3
        match loopWhile (forkTable cr3 parentPageDir) (kernelVirtualStart / 0x400000).toNat 0
          k.mem with
        | (false, mem) => (.ret (-1), (k.setMem mem).setState child .free)
        | (true, mem) =>
          let k := k.setMem mem
          let context := (k.processTable child).context
          let k := k.setContext child { context with reg := { context.reg with eax := 0 } }
          let k := k.finishCreation child context.stack.frame
          (.ret (k.processTable child).pid, k)

def sysExit (status : Word) : Exit Word × Kernel :=
  match k.currentProcess with
  | none => (.ret (-1), k)
  | some current =>
    let context := (k.processTable current).context
    let k := k.setContext current { context with reg := { context.reg with eax := status } }
    let (exit, k) := (k.setState current .terminated).schedule
    (exit.map fun _ => 0, k)

def sysWait (statusPtr : Word) : Exit Word × Kernel :=
  match k.currentProcess with
  | none => (.ret (-1), k)
  | some current =>
    match k.getZombieProcessForParent (k.processTable current).pid with
    | none => (.ret (-1), k)
    | some child =>
      let exitStatus := (k.processTable child).context.reg.eax
      let k := k.setProcess child { k.processTable child with
        state := .free, pid := 0, parentPid := 0 }
      let result := (k.processTable child).pid
      if statusPtr = 0 then (.ret result, k) else (.stored statusPtr exitStatus result, k)

/-- The kernel, and the calls of `log_write` that it has made. -/
abbrev WithLog := Kernel × List LogCall

def sysPrintf (fmtPtr _ _ _ _ : Word) (st : WithLog) : Exit Word × WithLog :=
  if fmtPtr = 0 then
    let logged := LogLevel.error.log "Printf called with NULL format pointer" []
    (.ret (-1), (st.1, st.2 ++ [logged]))
  else
    let logged := LogLevel.info.log "%s" [fmtPtr]
    (.ret 1, (st.1, st.2 ++ [logged]))

/-- A handler that logs numbers only, which are left out. -/
def handleKernel (handler : Kernel → Exit Word × Kernel) (st : WithLog) : Exit Word × WithLog :=
  let (exit, k) := handler st.1
  (exit, (k, st.2))

/-- The table that `syscall_init` fills. -/
def loggedSyscalls : SyscallTable WithLog :=
  let handlers : SyscallTable WithLog := fun _ => none
  let handlers := registerSyscall handlers 1 sysPrintf
  let handlers := registerSyscall handlers 2 fun _ _ _ _ _ => handleKernel sysFork
  let handlers := registerSyscall handlers 3 fun status _ _ _ _ => handleKernel (·.sysExit status)
  registerSyscall handlers 4 fun statusPtr _ _ _ _ => handleKernel (·.sysWait statusPtr)

/-- A handler without what it hands to the log. -/
def withoutLog (handler : SyscallHandler WithLog) : SyscallHandler Kernel :=
  fun arg1 arg2 arg3 arg4 arg5 k =>
    let (exit, st) := handler arg1 arg2 arg3 arg4 arg5 (k, [])
    (exit, st.1)

/-- That table without the log. -/
def syscallTable : SyscallTable Kernel := fun num => (loggedSyscalls num).map withoutLog

/-- `page_fault_handler`, with the address in CR2. -/
def pageFaultHandler (faultingAddress : Word) (info : IdtInfo) : Exit Unit × Kernel :=
  let present := info.errorCode &&& 0x1 != 0
  let write := info.errorCode &&& 0x2 != 0
  match k.currentProcess with
  | none => (.halted, k)
  | some current =>
    if faultingAddress ≥ kernelVirtualStart then (.halted, k)
    else if !present then
      let pageAddr := faultingAddress &&& ~~~0xFFF
      let (framePhys, mem) := k.mem.allocFrame
      let k := k.setMem mem
      if framePhys = 0 then (.halted, k)
      else
        let flags := pagePresent ||| pageUser
        let flags := if write ∨ pageAddr < 0xC0000000 then flags ||| pageRw else flags
        let pageDir := (k.processTable current).context.cr3
        let mem := k.mem.mapPage pageDir pageAddr framePhys flags
        let pageVirt := mem.physToVirt framePhys
        (.ret (), k.setMem (mem.clear pageVirt frameSize.toNat))
    else (.halted, k)

end Kernel

end Lbos

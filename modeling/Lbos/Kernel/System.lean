import Lbos.Arch.Traps
import Lbos.Lib.Transition
import Lbos.Mem.FrameBitmap

/-! The kernel as a transition system: the state that booting leaves, and the calls that change
it. -/

namespace Lbos

open Lib

/-- The kernel's image as `link.ld` lays it out: its virtual addresses are `0xC0000000` above the
physical ones, and it contains the paging structures of `paging.c`. -/
structure KernelImage extends KernelLayout where
  kernelPageDirectory : Word
  kernelPageTable : Word
  processTableAddr : Word
  kernelIdle : Word
  higher_half : virtStart - physStart = kernelVirtualStart
  directory_aligned : Mem.PageAligned kernelPageDirectory
  table_aligned : Mem.PageAligned kernelPageTable
  directory_mem : kernelPageDirectory.toNat + 4096 ≤ physEnd.toNat
  table_mem : kernelPageTable.toNat + 4096 ≤ physEnd.toNat
  directory_ne_table : kernelPageDirectory ≠ kernelPageTable

/-- A cleared element of `process_table`. -/
def Process.zero : Process := ⟨0, .free, ⟨.zero, .zero, 0⟩, none, 0⟩

namespace KernelImage

variable (img : KernelImage)

/-- The physical memory after `init_paging`, `setup_higher_half` and
`init_page_frame_allocator`. -/
def bootMem (ram bitmap : Mem) : PhysMem :=
  let ram := initPaging img.kernelPageDirectory img.kernelPageTable ram
  let ram := setupHigherHalf img.kernelPageDirectory ram
  let (pfa, bitmap) :=
    initPageFrameAllocator img.physStart img.physEnd img.virtStart img.virtEnd bitmap
  { pfa, kernelPageDirectory := img.kernelPageDirectory, kernelPageTable := img.kernelPageTable,
    ram, bitmap }

/-- The state after `init_process_manager`, booted with these contents of memory. -/
def boot (ram bitmap : Mem) : Kernel :=
  Kernel.initProcessManager
    { mem := img.bootMem ram bitmap
      processTable := fun _ => .zero
      kstacks := fun _ => 0
      nextPid := 1
      currentProcess := none
      readyQueueHead := none
      tssEsp0 := 0
      processTableAddr := img.processTableAddr
      kernelIdle := img.kernelIdle }

end KernelImage

/-- The calls into the process manager, the page fault, and a store of a byte by user code. -/
inductive Call where
  | createProcess (moduleData moduleSize : Word)
  | createKernelProcess (entryPoint : Word)
  | sysFork
  | sysExit (status : Word)
  | sysWait (statusPtr : Word)
  | schedule
  | pageFault (faultingAddress : Word) (info : IdtInfo)
  | userStore (addr : Word) (value : Byte)

namespace Kernel

variable (k : Kernel)

/-- A store by the current process, to a user page that is present. -/
def userStore (addr : Word) (value : Byte) : Kernel :=
  match k.currentProcess with
  | none => k
  | some current =>
    let phys := k.mem.getPhysicalAddress (k.processTable current).context.cr3 addr
    if addr < kernelVirtualStart ∧ phys ≠ 0 then
      k.setMem { k.mem with ram := k.mem.ram.write phys value }
    else k

/-- The state after a call; `none` after a store through the caller's status pointer, which may go
anywhere. -/
def after : Call → Option Kernel
  | .createProcess moduleData moduleSize => some (k.createProcess moduleData moduleSize).2
  | .createKernelProcess entryPoint => some (k.createKernelProcess entryPoint).2
  | .sysFork => some k.sysFork.2
  | .sysExit status => some (k.sysExit status).2
  | .sysWait statusPtr =>
    match k.sysWait statusPtr with
    | (.stored .., _) => none
    | (_, k) => some k
  | .schedule => some k.schedule.2
  | .pageFault faultingAddress info => some (k.pageFaultHandler faultingAddress info).2
  | .userStore addr value => some (k.userStore addr value)

/-- A sequence of calls. -/
def afterAll (calls : List Call) : Option Kernel := calls.foldlM after k

end Kernel

/-- The kernel from boot on.  Where a call leaves the state unknown, any state may follow. -/
def KernelImage.system (img : KernelImage) : System Kernel Call where
  init k := ∃ ram bitmap, k = img.boot ram bitmap
  step k call k' := ∀ k₁, k.after call = some k₁ → k' = k₁

theorem KernelImage.step_after (img : KernelImage) {k k' : Kernel} {call : Call}
    (h : k.after call = some k') : img.system.step k call k' := by
  intro k₁ h₁
  exact Option.some.inj (h.symm.trans h₁)

theorem KernelImage.reach_after {img : KernelImage} {k k' : Kernel} (hk : img.system.Reach k)
    {call : Call} (h : k.after call = some k') : img.system.Reach k' :=
  .step hk trivial (img.step_after h)

theorem KernelImage.reach_afterAll {img : KernelImage} {k k' : Kernel} (hk : img.system.Reach k)
    {calls : List Call} (h : k.afterAll calls = some k') : img.system.Reach k' := by
  induction calls generalizing k with
  | nil => exact Option.some.inj h ▸ hk
  | cons call calls ih =>
    rw [Kernel.afterAll, List.foldlM_cons] at h
    obtain ⟨k₁, hafter, hrest⟩ := Option.bind_eq_some_iff.mp h
    exact ih (reach_after hk hafter) hrest

end Lbos

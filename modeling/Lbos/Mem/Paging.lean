import Lbos.Lib.Loop
import Lbos.Mem.PageFrameAllocator

/-! The two-level page tables of `mem/paging.c`, in physical memory.  The frame bitmap is a memory
of its own here, apart from the frames that it describes. -/

namespace Lbos

open Lib

def kernelVirtualStart : Word := 0xC0000000

/-- `KERNEL_PDT_IDX`. -/
def kernelPdtIdx : Nat := (kernelVirtualStart >>> 22).toNat

def pagePresent : Word := 0x1

def pageRw : Word := 0x2

def pageUser : Word := 0x4

def pageWritethrough : Word := 0x8

def pageDirectorySize : Nat := 1024

def pageTableSize : Nat := 1024

/-- `entry & PAGE_PRESENT`. -/
def present (entry : Word) : Bool := (entry &&& pagePresent) != 0

/-- The physical memory, the bitmap, the variables of the allocator, and the physical addresses of
the static arrays `kernel_page_directory` and `kernel_page_table`. -/
structure PhysMem where
  pfa : PageFrameAllocator
  kernelPageDirectory : Word
  kernelPageTable : Word
  ram : Mem
  bitmap : Mem

namespace PhysMem

variable (pm : PhysMem)

def physToVirt (a : Word) : Word := pm.pfa.physToVirt a

def virtToPhys (a : Word) : Word := pm.pfa.virtToPhys a

/-- Element `i` of the array of words behind a kernel pointer. -/
def load (ptr : Word) (i : Nat) : Word := pm.pfa.load pm.ram ptr i

def store (ptr : Word) (i : Nat) (v : Word) : PhysMem :=
  { pm with ram := pm.pfa.store pm.ram ptr i v }

/-- `memset(ptr, 0, count)` behind a kernel pointer. -/
def clear (ptr : Word) (count : Nat) : PhysMem :=
  { pm with ram := memset pm.ram (pm.virtToPhys ptr) 0 count }

/-- `memcpy(dest, src, count)` between kernel pointers. -/
def copy (dest src : Word) (count : Nat) : PhysMem :=
  { pm with ram := memcpy pm.ram (pm.virtToPhys dest) (pm.virtToPhys src) count }

def allocFrame : Word × PhysMem :=
  let (frame, bitmap) := pm.pfa.allocFrame pm.bitmap
  (frame, { pm with bitmap })

def isFrameAllocated (frameAddr : Word) : Bool := pm.pfa.isFrameAllocated pm.bitmap frameAddr

/-- The loop of `create_page_directory` that copies the kernel's entries. -/
def copyKernelEntries (newPageDirectory : Word) : PhysMem :=
  loop (fun i pm => pm.store newPageDirectory i (pm.ram.load pm.kernelPageDirectory i))
    (pageDirectorySize - kernelPdtIdx) kernelPdtIdx pm

def createPageDirectory : Word × PhysMem :=
  let (pageDirPhys, pm) := pm.allocFrame
  if pageDirPhys = 0 then (0, pm)
  else
    let newPageDirectory := pm.physToVirt pageDirPhys
    (newPageDirectory,
      (pm.clear newPageDirectory (pageDirectorySize * 4)).copyKernelEntries newPageDirectory)

/-- The end of `map_page`, where the directory entry is present: the page-table entry is
written. -/
def writeEntry (pdVirt : Word) (pdIndex ptIndex : Nat) (entry : Word) : PhysMem :=
  let ptPhys := pm.load pdVirt pdIndex &&& ~~~0xFFF
  let ptVirt := pm.physToVirt ptPhys
  pm.store ptVirt ptIndex entry

def mapPage (pageDirectory virtualAddr physicalAddr flags : Word) : PhysMem :=
  let pdIndex := (virtualAddr >>> 22).toNat
  let ptIndex := ((virtualAddr >>> 12) &&& 0x3FF).toNat
  let pdVirt := pm.physToVirt pageDirectory
  if present (pm.load pdVirt pdIndex) then
    pm.writeEntry pdVirt pdIndex ptIndex (physicalAddr ||| flags)
  else
    let (ptPhys, pm) := pm.allocFrame
    if ptPhys = 0 then pm
    else
      let ptVirt := pm.physToVirt ptPhys
      let pm := pm.clear ptVirt (pageTableSize * 4)
      let pm := pm.store pdVirt pdIndex (ptPhys ||| pagePresent ||| pageRw ||| pageUser)
      pm.writeEntry pdVirt pdIndex ptIndex (physicalAddr ||| flags)

def unmapPage (pageDirectory virtualAddr : Word) : PhysMem :=
  let pdIndex := (virtualAddr >>> 22).toNat
  let ptIndex := ((virtualAddr >>> 12) &&& 0x3FF).toNat
  let pdVirt := pm.physToVirt pageDirectory
  if present (pm.load pdVirt pdIndex) then pm.writeEntry pdVirt pdIndex ptIndex 0 else pm

def getPhysicalAddress (pageDirectory virtualAddr : Word) : Word :=
  let pdIndex := (virtualAddr >>> 22).toNat
  let ptIndex := ((virtualAddr >>> 12) &&& 0x3FF).toNat
  let offset := virtualAddr &&& 0xFFF
  let pdVirt := pm.physToVirt pageDirectory
  if present (pm.load pdVirt pdIndex) then
    let ptPhys := pm.load pdVirt pdIndex &&& ~~~0xFFF
    let ptVirt := pm.physToVirt ptPhys
    if present (pm.load ptVirt ptIndex) then
      let pagePhys := pm.load ptVirt ptIndex &&& ~~~0xFFF
      pagePhys ||| offset
    else 0
  else 0

end PhysMem

/-- `init_paging`, with the static arrays at their physical addresses. -/
def initPaging (kernelPageDirectory kernelPageTable : Word) (ram : Mem) : Mem :=
  let flags := pagePresent ||| pageRw ||| pageWritethrough
  let ram := memset ram kernelPageDirectory 0 (pageDirectorySize * 4)
  let ram := memset ram kernelPageTable 0 (pageTableSize * 4)
  let ram := ram.store kernelPageDirectory 0 (kernelPageTable ||| flags)
  let ram := ram.store kernelPageDirectory kernelPdtIdx (kernelPageTable ||| flags)
  loop (fun i ram => ram.store kernelPageTable i ((BitVec.ofNat 32 i * frameSize) ||| flags))
    pageTableSize 0 ram

def setupHigherHalf (kernelPageDirectory : Word) (ram : Mem) : Mem :=
  ram.store kernelPageDirectory 0 0

end Lbos

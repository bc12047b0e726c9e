import Lbos.Kernel.Ownership
import Lbos.Kernel.PagesMapped
import Lbos.Mem.PageContents

/-! The page that `page_fault_handler` adds to the current process: it is a new frame, cleared, and
nothing that any process had changes. -/

namespace Lbos

open Lib Mem

namespace Kernel

/-- No call of `alloc_frame` in `page_fault_handler` returns 0: not the one for the page, and not
the one for its table where `map_page` needs it. -/
def FaultAllocs (k : Kernel) (c : Slot) (addr : Word) : Prop :=
  k.mem.allocFrame.1 ≠ 0 ∧ MapSucceeds k.mem.allocFrame.2 (k.cr3 c) (addr &&& ~~~0xFFF)

variable {k : Kernel} {c : Slot} {addr : Word}

/-- The handler's effect on memory, when it adds a page. -/
theorem pageFaultHandler_eq (hcur : k.currentProcess = some c) (haddr : addr < kernelVirtualStart)
    {info : IdtInfo} (hcode : info.errorCode &&& 0x1 = 0) (hz : k.mem.allocFrame.1 ≠ 0) :
    let mapped := k.mem.allocFrame.2.mapPage (k.cr3 c) (addr &&& ~~~0xFFF) k.mem.allocFrame.1
      (pagePresent ||| pageUser ||| pageRw)
    k.pageFaultHandler addr info =
      (.ret (), k.setMem (mapped.clear (mapped.physToVirt k.mem.allocFrame.1) frameSize.toNat)) := by
  have hnot : ¬addr ≥ kernelVirtualStart := BitVec.not_le.mpr haddr
  have hbit : (!(info.errorCode &&& 0x1 != 0)) = true := by
    rw [hcode]
    rfl
  have hlow : addr &&& ~~~0xFFF < 0xC0000000 := by
    have hbase : (addr &&& ~~~0xFFF).toNat = addr.toNat / 4096 * 4096 := toNat_pageBase addr
    have hlt : addr.toNat < 0xC0000000 := haddr
    show (addr &&& ~~~0xFFF).toNat < 0xC0000000
    omega
  unfold pageFaultHandler
  simp only [hcur, if_neg hnot, hbit, if_true, hz, if_false, hlow, or_true, setMem_mem]
  rfl

/-- The handler adds a cleared page. -/
theorem pageFaultHandler_added (hk : k.Consistent) (hcur : k.currentProcess = some c)
    (haddr : addr < kernelVirtualStart) {info : IdtInfo} (hcode : info.errorCode &&& 0x1 = 0)
    (hallocs : k.FaultAllocs c addr) :
    ∃ mem f, k.pageFaultHandler addr info = (.ret (), k.setMem mem) ∧
      PageAdded k.mem mem k.dirs (k.cr3 c) (addr &&& ~~~0xFFF) f
        (pagePresent ||| pageUser ||| pageRw) ∧
      ∀ x, pageOf x = pageOf f → mem.ram x = 0 := by
  obtain ⟨hz, hok⟩ := hallocs
  have hva := pdIndex_userPage haddr
  obtain ⟨hadded, hzero⟩ := hk.isolated.demandPage_added (hk.current_dir hcur) hva
    (show (pagePresent ||| pageUser ||| pageRw).toNat < 4096 by decide) (by decide) hz hok
  exact ⟨_, _, pageFaultHandler_eq hcur haddr hcode hz, hadded, hzero⟩

/-- The bytes of the new page are zero. -/
theorem zero_of_added (hk : k.Consistent) (hcur : k.currentProcess = some c) {mem : PhysMem}
    {f : Word} (hadded : PageAdded k.mem mem k.dirs (k.cr3 c) (addr &&& ~~~0xFFF) f
      (pagePresent ||| pageUser ||| pageRw))
    (hzero : ∀ x, pageOf x = pageOf f → mem.ram x = 0) (haddr : addr < kernelVirtualStart)
    {v : Word} (hv : pageOf v = pageOf addr) : (k.setMem mem).userByte c v = some 0 := by
  have hva := pdIndex_userPage haddr
  have hpage : pageOf v = pageOf (addr &&& ~~~0xFFF) := by
    rw [pageOf_eq_iff_index, pdIndex_page, ptIndex_page]
    exact pageOf_eq_iff_index.mp hv
  have he := hadded.entry_same (hk.current_dir hcur) hva hpage
  have hoff := toNat_pageOffset v
  refine (byte_of_entry he).trans (congrArg some (hzero _ ?_))
  rw [pageBase_or hadded.aligned (by decide)]
  exact pageOf_add hadded.aligned (by omega)

end Kernel

/-- Of two pages one at least is absent. -/
theorem exists_absent {ram : Mem} {d : Word} (h : (userPages ram d).card ≤ 1) :
    ∃ addr < kernelVirtualStart, entryAt ram d (pdIndex addr) (ptIndex addr) = none := by
  by_contra hall
  have hmem : ∀ addr < kernelVirtualStart, (pdIndex addr, ptIndex addr) ∈ userPages ram d := by
    intro addr haddr
    refine mem_userPages.mpr ⟨⟨pdIndex_user haddr, ptIndex_lt addr⟩, ?_⟩
    rw [Option.isSome_iff_ne_none]
    exact fun hnone => hall ⟨addr, haddr, hnone⟩
  have htwo := Finset.one_lt_card.mpr
    ⟨_, hmem 0x1000 (by decide), _, hmem 0x2000 (by decide), by decide⟩
  omega

end Lbos

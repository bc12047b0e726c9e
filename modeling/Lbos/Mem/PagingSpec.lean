import Lbos.Mem.PageTables

/-! What `alloc_frame` takes, and `map_page`, `unmap_page` and `get_physical_address` as single
stores and reads of the tables and entries of `PageTables`. -/

namespace Lbos

open Lib Mem

namespace PhysMem

variable (pm : PhysMem)

/-! ### Frames -/

/-- Frame `k` is one that `alloc_frame` may return. -/
def FreeFrame (k : Nat) : Prop := pm.pfa.Free pm.bitmap k

theorem isFrameAllocated_iff (a : Word) : pm.isFrameAllocated a = true ↔ ¬pm.FreeFrame (pageOf a) := by
  have hidx : (a / frameSize).toNat = pageOf a := by simp [frameSize, pageOf]
  rw [isFrameAllocated, PageFrameAllocator.isFrameAllocated, FreeFrame, PageFrameAllocator.Free,
    PageFrameAllocator.testBit_eq, hidx]
  by_cases h : a / frameSize < pm.pfa.totalFrames
  · have hlt : pageOf a < pm.pfa.totalFrames.toNat := hidx ▸ h
    simp [h, hlt]
  · have hle : ¬pageOf a < pm.pfa.totalFrames.toNat := fun hlt => h (by rwa [BitVec.lt_def, hidx])
    simp [h, hle]

@[simp] theorem allocFrame_pfa : pm.allocFrame.2.pfa = pm.pfa := rfl

@[simp] theorem allocFrame_ram : pm.allocFrame.2.ram = pm.ram := rfl

@[simp] theorem allocFrame_kernelPageDirectory :
    pm.allocFrame.2.kernelPageDirectory = pm.kernelPageDirectory := rfl

@[simp] theorem allocFrame_kernelPageTable :
    pm.allocFrame.2.kernelPageTable = pm.kernelPageTable := rfl

theorem pageOf_frameAddr {k : Nat} (hk : k < 2 ^ 20) :
    pageOf (PageFrameAllocator.frameAddr k) = k := by
  rw [pageOf, PageFrameAllocator.frameAddr, BitVec.toNat_ofNat]
  omega

theorem frameAddr_aligned (k : Nat) : PageAligned (PageFrameAllocator.frameAddr k) := by
  rw [PageAligned, PageFrameAllocator.frameAddr, BitVec.toNat_ofNat]
  omega

/-- What `alloc_frame` does when it does not fail: `f` was free, and is the only frame that is no
longer. -/
structure Takes (pm : PhysMem) (f : Word) (pm' : PhysMem) : Prop where
  pfa : pm'.pfa = pm.pfa
  kernelPageDirectory : pm'.kernelPageDirectory = pm.kernelPageDirectory
  kernelPageTable : pm'.kernelPageTable = pm.kernelPageTable
  aligned : PageAligned f
  free : pm.FreeFrame (pageOf f)
  free_iff : ∀ k, pm'.FreeFrame k ↔ pm.FreeFrame k ∧ k ≠ pageOf f

theorem Takes.of_ram {pm pm' : PhysMem} {f : Word} (h : pm.Takes f pm') (ram : Mem) :
    pm.Takes f { pm' with ram } :=
  ⟨h.pfa, h.kernelPageDirectory, h.kernelPageTable, h.aligned, h.free, h.free_iff⟩

theorem allocFrame_takes (h : pm.allocFrame.1 ≠ 0) : pm.Takes pm.allocFrame.1 pm.allocFrame.2 := by
  rcases pm.pfa.allocFrame_cases pm.bitmap with ⟨k, hk, -, hr⟩ | ⟨-, hr⟩
  · have h1 : pm.allocFrame.1 = PageFrameAllocator.frameAddr k := by rw [allocFrame, hr]
    have h2 : pm.allocFrame.2.bitmap = pm.pfa.setBit pm.bitmap (BitVec.ofNat 32 k) := by
      rw [allocFrame, hr]
    rw [h1]
    refine ⟨rfl, rfl, rfl, frameAddr_aligned k, by rwa [pageOf_frameAddr hk.lt], fun n => ?_⟩
    rw [FreeFrame, h2, pageOf_frameAddr hk.lt]
    exact pm.pfa.free_setBit pm.bitmap hk.lt
  · exact absurd (congrArg Prod.fst hr) h

/-- While frame 0 is marked, `alloc_frame` fails only when no frame is free, and then changes
nothing. -/
theorem allocFrame_fails (h0 : ¬pm.FreeFrame 0) (h : pm.allocFrame.1 = 0) :
    (∀ k, ¬pm.FreeFrame k) ∧ pm.allocFrame.2 = pm := by
  rcases pm.pfa.allocFrame_cases pm.bitmap with ⟨k, hk, -, hr⟩ | ⟨hnone, hr⟩
  · have h1 : pm.allocFrame.1 = PageFrameAllocator.frameAddr k := by rw [allocFrame, hr]
    refine absurd (h1.symm.trans h) (PageFrameAllocator.frameAddr_ne_zero ?_ hk.lt)
    rintro rfl
    exact h0 hk
  · exact ⟨hnone, by rw [allocFrame, hr]⟩

/-! ### The paging functions through tables and entries -/

variable {pm} {d va pa flags t : Word}

theorem mapPage_of_table (h : tableAt pm.ram d (pdIndex va) = some t) :
    pm.mapPage d va pa flags =
      { pm with ram := pm.ram.store t (ptIndex va) (pa ||| flags) } := by
  unfold tableAt at h
  split at h
  · next hp =>
    obtain rfl := Option.some.inj h
    simp only [pdIndex] at hp
    simp only [mapPage, load, physToVirt, PageFrameAllocator.load, store, writeEntry,
      PageFrameAllocator.store, PageFrameAllocator.virtToPhys_physToVirt, hp, if_true]
    rfl
  · cases h

theorem mapPage_of_none (h : tableAt pm.ram d (pdIndex va) = none) (hf : pm.allocFrame.1 = 0) :
    pm.mapPage d va pa flags = pm.allocFrame.2 := by
  unfold tableAt at h
  split at h
  · cases h
  · next hp =>
    simp only [pdIndex] at hp
    simp only [mapPage, load, physToVirt, PageFrameAllocator.load,
      PageFrameAllocator.virtToPhys_physToVirt, hp, Bool.false_eq_true, if_false, hf, if_true]

theorem mapPage_of_alloc (h : tableAt pm.ram d (pdIndex va) = none) (hf : pm.allocFrame.1 ≠ 0) :
    pm.mapPage d va pa flags =
      { pm.allocFrame.2 with
        ram := (newTable pm.ram d (pdIndex va) pm.allocFrame.1).store pm.allocFrame.1 (ptIndex va)
          (pa ||| flags) } := by
  have hbase : (pm.allocFrame.1 ||| 7) &&& ~~~0xFFF = pm.allocFrame.1 :=
    pageBase_or (pm.allocFrame_takes hf).aligned (by decide)
  unfold tableAt at h
  split at h
  · cases h
  · next hp =>
    simp only [pdIndex] at hp
    simp only [mapPage, load, physToVirt, PageFrameAllocator.load, store, writeEntry, clear,
      PageFrameAllocator.store, virtToPhys, allocFrame_pfa, allocFrame_ram,
      PageFrameAllocator.virtToPhys_physToVirt, hp, Bool.false_eq_true, if_false, hf,
      tableEntry_eq, load_store_same, hbase]
    rfl

theorem unmapPage_of_table (h : tableAt pm.ram d (pdIndex va) = some t) :
    pm.unmapPage d va = { pm with ram := pm.ram.store t (ptIndex va) 0 } := by
  unfold tableAt at h
  split at h
  · next hp =>
    obtain rfl := Option.some.inj h
    simp only [pdIndex] at hp
    simp only [unmapPage, load, physToVirt, PageFrameAllocator.load, store, writeEntry,
      PageFrameAllocator.store, PageFrameAllocator.virtToPhys_physToVirt, hp, if_true]
    rfl
  · cases h

/-- `get_physical_address` reads one entry. -/
theorem getPhysicalAddress_eq (pm : PhysMem) (d v : Word) :
    pm.getPhysicalAddress d v =
      (entryAt pm.ram d (pdIndex v) (ptIndex v)).elim 0 fun e => pageBase e ||| (v &&& 0xFFF) := by
  simp only [getPhysicalAddress, load, physToVirt, PageFrameAllocator.load,
    PageFrameAllocator.virtToPhys_physToVirt, entryAt, tableAt]
  by_cases hp : present (pm.ram.load d (pdIndex v)) = true
  · rw [pdIndex] at hp
    rw [if_pos hp, pdIndex, if_pos hp, Option.bind_some]
    by_cases hq : present (pm.ram.load (pageBase (pm.ram.load d (v >>> 22).toNat)) (ptIndex v)) = true
    · rw [if_pos hq]
      exact if_pos hq
    · rw [if_neg hq]
      exact if_neg hq
  · rw [pdIndex] at hp
    rw [if_neg hp, pdIndex, if_neg hp]
    rfl

/-- An address with a result other than zero translates to it. -/
theorem translate_of_getPhysicalAddress {pm : PhysMem} {d v : Word}
    (h : pm.getPhysicalAddress d v ≠ 0) : translate pm.ram d v = some (pm.getPhysicalAddress d v) := by
  rw [getPhysicalAddress_eq] at h ⊢
  rw [translate]
  cases he : entryAt pm.ram d (pdIndex v) (ptIndex v) with
  | none =>
    rw [he] at h
    exact absurd rfl h
  | some e => rfl

end PhysMem

end Lbos

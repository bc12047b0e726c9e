import Lbos.Kernel.Boot

/-! Which frames the kernel reaches through its direct map: those that its one page table maps, in
every page directory that it can have loaded. -/

namespace Lbos

open Lib Mem

/-- Through directory `d`, every byte of frame `f` is found at its kernel address. -/
def DirectMapped (pm : PhysMem) (d f : Word) : Prop :=
  ∀ o < frameSize, translate pm.ram d (pm.physToVirt f + o) = some (f + o)

/-- `d` shares the kernel half of the kernel's directory. -/
def SharesKernelHalf (pm : PhysMem) (d : Word) : Prop :=
  ∀ i, 768 ≤ i → i < 1024 → pm.ram.load d i = pm.ram.load pm.kernelPageDirectory i

theorem SharesKernelHalf.refl (pm : PhysMem) : SharesKernelHalf pm pm.kernelPageDirectory :=
  fun _ _ _ => rfl

section

variable {pm : PhysMem} {dirs : Set Word} {d f o : Word}

theorem toNat_kernelAddress (h : Isolated pm dirs) (hf : PageAligned f) (hlt : f.toNat < 2 ^ 27)
    (ho : o.toNat < 4096) :
    (pm.physToVirt f + o).toNat = 0xC0000000 + f.toNat + o.toNat := by
  have hoff := h.higher_half
  rw [PhysMem.physToVirt, PageFrameAllocator.physToVirt, hoff, kernelVirtualStart]
  simp only [PageAligned] at hf
  bv_omega

/-- The kernel's page table reaches the frames below 4 MB, and no others. -/
theorem directMapped_iff (h : Isolated pm dirs)
    (hmap : KernelMap pm.ram pm.kernelPageDirectory pm.kernelPageTable)
    (htable : PageAligned pm.kernelPageTable) (hd : SharesKernelHalf pm d) (hf : PageAligned f)
    (hlt : f.toNat < 2 ^ 27) : DirectMapped pm d f ↔ f < 0x400000 := by
  have hwalk : ∀ i, 768 ≤ i → i < 1024 →
      tableAt pm.ram d i = if i = 768 then some pm.kernelPageTable else none := fun i hi hi' => by
    rw [← hmap.tableAt htable hi', tableAt, tableAt, hd i hi hi']
  constructor
  · intro hmapped
    have hv := toNat_kernelAddress h hf hlt (o := 0) (by decide)
    have hzero : (0 : Word).toNat = 0 := rfl
    have htrans := hmapped 0 (by decide)
    by_contra hhigh
    have hhigh : 0x400000 ≤ f.toNat := Nat.le_of_not_lt hhigh
    rw [translate, entryAt_none] at htrans
    · cases htrans
    · rw [hwalk _ (by rw [pdIndex_eq]; omega) (pdIndex_lt _), if_neg (by rw [pdIndex_eq]; omega)]
  · intro hlow o ho
    have hlow : f.toNat < 0x400000 := hlow
    have ho : o.toNat < 4096 := ho
    have hmod : f.toNat % 4096 = 0 := hf
    have hv := toNat_kernelAddress h hf hlt ho
    have hpd : pdIndex (pm.physToVirt f + o) = 768 := by
      rw [pdIndex_eq]
      omega
    have hpt : ptIndex (pm.physToVirt f + o) = f.toNat / 4096 := by
      rw [ptIndex_eq, hv]
      omega
    have hframe : BitVec.ofNat 32 (f.toNat / 4096) * frameSize = f := by
      apply BitVec.eq_of_toNat_eq
      rw [BitVec.toNat_mul, BitVec.toNat_ofNat, frameSize]
      simp
      omega
    have hentry : entryAt pm.ram d (pdIndex (pm.physToVirt f + o)) (ptIndex (pm.physToVirt f + o)) =
        some (f ||| kernelFlags) := by
      rw [entryAt, hwalk _ (by omega) (by omega), if_pos hpd, Option.bind_some, hpt,
        hmap.table _ (by omega), hframe, if_pos (present_or (by decide))]
    have hoffset : (pm.physToVirt f + o) &&& 0xFFF = o := by
      apply BitVec.eq_of_toNat_eq
      rw [toNat_pageOffset, hv]
      omega
    rw [translate, hentry, Option.map_some, pageBase_or hf kernelFlags_lt, hoffset,
      or_offset hf ho]

/-- The kernel never changes what its page table maps. -/
theorem KernelImage.directMapped_of_keeps {img : KernelImage} {ram bitmap : Mem}
    (hkeep : (img.bootMem ram bitmap).Keeps pm) (h : Isolated pm dirs) (hd : SharesKernelHalf pm d)
    (hf : PageAligned f) (hlt : f.toNat < 2 ^ 27) : DirectMapped pm d f ↔ f < 0x400000 := by
  have htable : PageAligned pm.kernelPageTable := by
    rw [hkeep.kernelPageTable]
    exact img.table_aligned
  exact directMapped_iff h (KernelImage.kernelMap_of_keeps hkeep) htable hd hf hlt

end

/-- `f` is returned by a call of `alloc_frame` in some run of calls from boot. -/
def KernelImage.AllocReturns (img : KernelImage) (bitmap : Mem) (f : Word) : Prop :=
  img.toKernelLayout.allocator.AllocReturns (img.toKernelLayout.initMem bitmap) f

/-- In every state of the kernel, whatever directory it has loaded, the kernel's own, that of a
process or one that `create_page_directory` makes, a frame that `alloc_frame` returns is reached
through the direct map exactly when it lies below 4 MB. -/
theorem direct_map_iff (img : KernelImage) {k : Kernel} (hk : img.system.Reach k) {bitmap : Mem}
    {f : Word} (hf : img.AllocReturns bitmap f) :
    (DirectMapped k.mem k.mem.kernelPageDirectory f ↔ f < 0x400000) ∧
    (∀ i, (k.processTable i).state ≠ .free →
      (DirectMapped k.mem (k.processTable i).context.cr3 f ↔ f < 0x400000)) ∧
    (k.mem.createPageDirectory.1 ≠ 0 →
      (DirectMapped k.mem.createPageDirectory.2
        (k.mem.createPageDirectory.2.virtToPhys k.mem.createPageDirectory.1) f ↔
          f < 0x400000)) := by
  have hrun := KernelImage.running_of_reach hk
  have hiso := hrun.wellFormed.isolated
  obtain ⟨ram, bitmap', hboot⟩ := hrun.booted
  obtain ⟨n, hn, rfl⟩ := (PageFrameAllocator.allocReturns_iff _ _
    (img.toKernelLayout.marked_zero bitmap) f).mp hf
  have haligned := PhysMem.frameAddr_aligned n
  have hlt : (PageFrameAllocator.frameAddr n).toNat < 2 ^ 27 := by
    have hn : n < 32768 := hn.1
    rw [PageFrameAllocator.frameAddr, BitVec.toNat_ofNat]
    omega
  refine ⟨KernelImage.directMapped_of_keeps hboot hiso (.refl _) haligned hlt, fun i hi => ?_,
    fun hz => ?_⟩
  · exact KernelImage.directMapped_of_keeps hboot hiso (hiso.kernelHalf _ ⟨i, hi, rfl⟩) haligned hlt
  · rcases hiso.of_createPageDirectory with ⟨-, hr⟩ | ⟨d, pm, hr, -, hphys, -, hkeep, -, hiso'⟩
    · rw [hr] at hz
      exact absurd rfl hz
    · rw [hr, hphys]
      exact KernelImage.directMapped_of_keeps (hboot.trans hkeep) hiso'
        (hiso'.kernelHalf d (Set.mem_insert d _)) haligned hlt

theorem KernelImage.sample_allocReturns {n : Nat} (hlow : 289 ≤ n) (hhigh : n < 8192) :
    KernelImage.sample.AllocReturns (fun _ => 0) (PageFrameAllocator.frameAddr n) := by
  exact (PageFrameAllocator.allocReturns_iff _ _ (KernelLayout.sample.marked_zero _) _).mpr
    ⟨n, KernelImage.sample_freeFrame hlow hhigh, rfl⟩

theorem direct_map_iff_sample :
    DirectMapped KernelImage.sampleBoot.mem
      KernelImage.sampleBoot.mem.kernelPageDirectory 0x121000 :=
  (direct_map_iff .sample (.init ⟨_, _, rfl⟩)
    (KernelImage.sample_allocReturns (n := 289) (by decide) (by decide))).1.mpr (by decide)

/-- The frame at 4 MB is returned after the frames below it, and is not reached. -/
theorem direct_map_gap :
    KernelImage.sample.AllocReturns (fun _ => 0) 0x400000 ∧
      ¬DirectMapped KernelImage.sampleBoot.mem
        KernelImage.sampleBoot.mem.kernelPageDirectory 0x400000 := by
  refine ⟨KernelImage.sample_allocReturns (n := 1024) (by decide) (by decide), ?_⟩
  have hiso := KernelImage.sample.isolated_bootMem (fun _ => 0) fun _ => 0
  have hmap := KernelImage.sample.kernelMap_bootMem (fun _ => 0) fun _ => 0
  rw [show KernelImage.sampleBoot.mem =
    KernelImage.sample.bootMem (fun _ => 0) fun _ => 0 from rfl,
    directMapped_iff hiso hmap (by decide) (.refl _) (by decide) (by decide)]
  decide

end Lbos

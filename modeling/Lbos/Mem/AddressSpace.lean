import Mathlib.Data.Set.Card
import Lbos.Arch.Traps
import Lbos.Mem.Isolation

/-! The loops that build an address space: the new directory, the pages that `create_process` loads
and the pages that `sys_fork` copies.  Each keeps the directories isolated, and stops early only
when no frame is left. -/

namespace Lbos

open Lib Mem

/-! ### The addresses of a module's pages -/

section ModulePage

variable {i : Nat}

theorem toNat_moduleOffset (hi : i < 32768) : (BitVec.ofNat 32 i * frameSize).toNat = i * 4096 := by
  have hframe : frameSize.toNat = 4096 := rfl
  rw [BitVec.toNat_mul, hframe, BitVec.toNat_ofNat]
  omega

theorem toNat_modulePage (hi : i < 32768) :
    (userCodeStart + BitVec.ofNat 32 i * frameSize).toNat = (32840 + i) * 4096 := by
  rw [userCodeStart, frameSize, BitVec.toNat_add, BitVec.toNat_mul, BitVec.toNat_ofNat]
  simp
  omega

theorem pdIndex_moduleUser (hi : i < 32768) :
    pdIndex (userCodeStart + BitVec.ofNat 32 i * frameSize) < 768 := by
  rw [pdIndex_eq, toNat_modulePage hi]
  omega

/-- Behind the end of the module the last page is filled up. -/
theorem toNat_moduleTail {offset size : Word} (hoffset : offset.toNat = i * 4096)
    (hsize : i * 4096 < size.toNat) (hover : size < offset + frameSize) (hi : i < 32768) :
    size.toNat < i * 4096 + 4096 ∧ (size - offset).toNat = size.toNat - i * 4096 ∧
      (frameSize - (size - offset)).toNat = 4096 - (size.toNat - i * 4096) := by
  have hframe : frameSize.toNat = 4096 := rfl
  have hlt : size.toNat < (offset + frameSize).toNat := hover
  rw [BitVec.toNat_add, hoffset, hframe] at hlt
  have hcopy : (size - offset).toNat = size.toNat - i * 4096 := by
    rw [BitVec.toNat_sub, hoffset]
    omega
  refine ⟨by omega, hcopy, ?_⟩
  rw [BitVec.toNat_sub, hcopy, hframe]
  omega

end ModulePage

/-! ### Free frames -/

namespace PhysMem

/-- No frame is left. -/
def Exhausted (pm : PhysMem) : Prop := ∀ n, ¬pm.FreeFrame n

/-- The same frames are free. -/
def SameFree (pm pm' : PhysMem) : Prop := ∀ n, pm'.FreeFrame n ↔ pm.FreeFrame n

/-- The number of free frames. -/
noncomputable def freeCount (pm : PhysMem) : Nat := {n | pm.FreeFrame n}.ncard

theorem freeCount_clear (pm : PhysMem) (addr : Word) (count : Nat) :
    (pm.clear addr count).freeCount = pm.freeCount := rfl

theorem free_finite (pm : PhysMem) : {n | pm.FreeFrame n}.Finite :=
  (Finset.finite_toSet (Finset.range (2 ^ 20))).subset fun _ hn =>
    Finset.mem_coe.mpr (Finset.mem_range.mpr (PageFrameAllocator.Free.lt _ _ hn))

theorem freeCount_congr {pm pm' : PhysMem} (h : pm.SameFree pm') : pm'.freeCount = pm.freeCount :=
  congrArg Set.ncard (Set.ext h)

theorem freeCount_eq_zero_iff {pm : PhysMem} : pm.freeCount = 0 ↔ pm.Exhausted := by
  rw [freeCount, Set.ncard_eq_zero pm.free_finite, Set.eq_empty_iff_forall_notMem]
  rfl

theorem Takes.freeCount {pm pm' : PhysMem} {f : Word} (hf : pm.Takes f pm') :
    pm'.freeCount + 1 = pm.freeCount := by
  have hset : {n | pm'.FreeFrame n} = {n | pm.FreeFrame n} \ {pageOf f} :=
    Set.ext fun n => hf.free_iff n
  rw [PhysMem.freeCount, PhysMem.freeCount, hset]
  exact Set.ncard_sdiff_singleton_add_one hf.free pm.free_finite

theorem Keeps.freeCount_le {pm pm' : PhysMem} (h : pm.Keeps pm') : pm'.freeCount ≤ pm.freeCount :=
  Set.ncard_le_ncard (fun n hn => h.free n hn) pm.free_finite

theorem Exhausted.sameFree_iff {pm pm' : PhysMem} (he : pm'.Exhausted) :
    pm.SameFree pm' ↔ pm.Exhausted :=
  ⟨fun hsame n hn => he n ((hsame n).mpr hn), fun hex n => iff_of_false (he n) (hex n)⟩

theorem Keeps.exhausted {pm pm' : PhysMem} (h : pm.Keeps pm') (he : pm.Exhausted) :
    pm'.Exhausted := fun n hn => he n (h.free n hn)

end PhysMem

namespace Isolated

variable {pm pm' : PhysMem} {dirs : Set Word} {d f : Word} {i : Nat}

theorem free_lt (h : Isolated pm dirs) {n : Nat} (hn : pm.FreeFrame n) : n < 32768 :=
  Nat.lt_of_lt_of_le hn.1 h.frames_le

theorem free_subset (h : Isolated pm dirs) :
    {n | pm.FreeFrame n} ⊆ (Finset.range 32768 : Set Nat) := fun _ hn =>
  Finset.mem_coe.mpr (Finset.mem_range.mpr (h.free_lt hn))

theorem freeCount_le (h : Isolated pm dirs) : pm.freeCount ≤ 32768 := by
  have hle := Set.ncard_le_ncard h.free_subset (Finset.finite_toSet _)
  rwa [Set.ncard_coe_finset, Finset.card_range] at hle

theorem physToVirt_ne_zero (h : Isolated pm dirs) (hal : PageAligned f)
    (hf : pm.FreeFrame (pageOf f)) : pm.physToVirt f ≠ 0 := by
  have hlt := h.free_lt hf
  have hoff := h.higher_half
  intro h0
  rw [PhysMem.physToVirt, PageFrameAllocator.physToVirt, hoff, kernelVirtualStart] at h0
  simp only [PageAligned, pageOf] at hal hlt
  bv_omega

/-! ### Filling a frame -/

theorem copy_outside (pm : PhysMem) (hf : PageAligned f) (src : Word) {n : Nat} (hn : n ≤ 4096)
    {x : Word} (hx : pageOf x ≠ pageOf f) :
    (pm.copy (pm.physToVirt f) src n).ram x = pm.ram x := by
  rw [Ne, pageOf_eq_iff hf] at hx
  have hdest : pm.virtToPhys (pm.physToVirt f) = f := pm.pfa.virtToPhys_physToVirt f
  simp only [PhysMem.copy, hdest]
  exact memcpy_outside _ _ _ _ (by omega) (by omega)

/-- What `memcpy` to the beginning of a frame leaves there, from a source outside it. -/
theorem copy_byte (pm : PhysMem) (hf : PageAligned f) {src o : Word} {n : Nat} (hn : n ≤ 4096)
    (ho : o.toNat < n) (hsrc : pageOf (pm.virtToPhys src + o) ≠ pageOf f) :
    (pm.copy (pm.physToVirt f) src n).ram (f + o) = pm.ram (pm.virtToPhys src + o) := by
  have hdest : pm.virtToPhys (pm.physToVirt f) = f := pm.pfa.virtToPhys_physToVirt f
  rw [Ne, pageOf_eq_iff hf] at hsrc
  show memcpy pm.ram _ _ n (f + o) = _
  rw [hdest]
  exact memcpy_apply _ _ _ (by omega) ho (by omega)

theorem virtToPhys_physToVirt_add (pm : PhysMem) (f offset : Word) :
    pm.virtToPhys (pm.physToVirt f + offset) = f + offset := by
  rw [PhysMem.virtToPhys, PageFrameAllocator.virtToPhys_add, PhysMem.physToVirt,
    PageFrameAllocator.virtToPhys_physToVirt]

theorem clear_byte (pm : PhysMem) (f offset : Word) {n : Nat} (hn : offset.toNat + n ≤ 4096)
    {o : Word} (ho : o.toNat < 4096) : (pm.clear (pm.physToVirt f + offset) n).ram (f + o) =
      if offset.toNat ≤ o.toNat ∧ o.toNat < offset.toNat + n then 0 else pm.ram (f + o) := by
  have hdest := virtToPhys_physToVirt_add pm f offset
  have hsub : f + o - (f + offset) = o - offset := by bv_omega
  show memset pm.ram _ 0 n (f + o) = _
  rw [hdest, memset_apply _ _ _ _ (by omega), hsub, BitVec.toNat_sub]
  congr 1
  exact propext (by omega)

theorem clear_outside (pm : PhysMem) (hf : PageAligned f) (offset : Word) {n : Nat}
    (hn : offset.toNat + n ≤ 4096) {x : Word} (hx : pageOf x ≠ pageOf f) :
    (pm.clear (pm.physToVirt f + offset) n).ram x = pm.ram x := by
  rw [Ne, pageOf_eq_iff hf] at hx
  have hdest := virtToPhys_physToVirt_add pm f offset
  simp only [PhysMem.clear, hdest]
  rw [memset_apply _ _ _ _ (by omega), if_neg ?_]
  simp only [BitVec.toNat_sub, BitVec.toNat_add] at *
  omega

theorem clear_frame_outside (pm : PhysMem) (hf : PageAligned f) {x : Word}
    (hx : pageOf x ≠ pageOf f) :
    (pm.clear (pm.physToVirt f) frameSize.toNat).ram x = pm.ram x := by
  rw [← BitVec.add_zero (pm.physToVirt f)]
  exact clear_outside pm hf 0 (Nat.le_refl _) hx

end Isolated

/-! ### The new directory -/

namespace PhysMem

variable {pm : PhysMem} {f : Word}

/-- The copy of the kernel's entries to the directory at `f`, begun in `pm`, has reached entry
`j`. -/
def KernelCopied (pm : PhysMem) (f : Word) (j : Nat) (s : PhysMem) : Prop :=
  ∃ ram, s = { pm with ram } ∧ (∀ x, pageOf x ≠ pageOf f → ram x = pm.ram x) ∧
    ∀ i < 1024, ram.load f i =
      if 768 ≤ i ∧ i < j then pm.ram.load pm.kernelPageDirectory i else pm.ram.load f i

/-- After the copy of the kernel's entries, the directory at `f` holds them in its kernel half, and
nothing else has changed. -/
theorem copyKernelEntries_spec (pm : PhysMem) (hf : PageAligned f) (hk : PageAligned pm.kernelPageDirectory)
    (hne : pm.kernelPageDirectory ≠ f) :
    ∃ ram, pm.copyKernelEntries (pm.physToVirt f) = { pm with ram } ∧
      (∀ x, pageOf x ≠ pageOf f → ram x = pm.ram x) ∧
      ∀ i < 1024, ram.load f i =
        if 768 ≤ i then pm.ram.load pm.kernelPageDirectory i else pm.ram.load f i := by
  have hidx : kernelPdtIdx = 768 := by decide
  have hinv : KernelCopied pm f (kernelPdtIdx + (pageDirectorySize - kernelPdtIdx))
      (pm.copyKernelEntries (pm.physToVirt f)) := by
    refine loop_invariant _ (KernelCopied pm f) ?_ ?_
    · refine ⟨pm.ram, rfl, fun _ _ => rfl, fun i _ => ?_⟩
      rw [if_neg (by omega)]
    · rintro j _ hlow hhigh ⟨ram, rfl, hout, hload⟩
      have hj : j < 1024 := by
        rw [hidx, pageDirectorySize] at hhigh
        omega
      have hsame : ram.load pm.kernelPageDirectory j = pm.ram.load pm.kernelPageDirectory j :=
        load_congr hk hj fun x hx => hout x (Isolated.page_ne hk hf hne hx)
      have hptr : pm.pfa.virtToPhys (pm.physToVirt f) = f := pm.pfa.virtToPhys_physToVirt f
      refine ⟨_, rfl, fun x hx => ?_, fun i hi => ?_⟩
      · simp only [PageFrameAllocator.store, hptr]
        rw [store_outside _ _ hf hj hx, hout x hx]
      · simp only [PageFrameAllocator.store, hptr, hsame]
        rw [load_store _ _ _ (by omega) (by omega), hload i hi]
        rw [hidx] at hlow
        by_cases hij : j = i
        · subst hij
          rw [if_pos rfl, if_pos ⟨hlow, by omega⟩]
        · rw [if_neg hij]
          congr 1
          exact propext (by omega)
  obtain ⟨ram, hs, hout, hload⟩ := hinv
  refine ⟨ram, hs, hout, fun i hi => ?_⟩
  rw [hload i hi, hidx, pageDirectorySize]
  congr 1
  exact propext (by omega)

end PhysMem

namespace Isolated

variable {pm : PhysMem} {dirs : Set Word}

/-- What `create_page_directory` does: it fails when no frame is left, and otherwise fills a frame
that was free. -/
theorem createPageDirectory_cases (h : Isolated pm dirs) :
    (pm.Exhausted ∧ pm.createPageDirectory = (0, pm)) ∨
    ∃ f pm₁ ram, pm.Takes f pm₁ ∧ pm₁.ram = pm.ram ∧
      pm.createPageDirectory = (pm.physToVirt f, { pm₁ with ram }) ∧
      (∀ x, pageOf x ≠ pageOf f → ram x = pm.ram x) ∧
      ∀ i < 1024, ram.load f i =
        if 768 ≤ i then pm.ram.load pm.kernelPageDirectory i else 0 := by
  by_cases hz : pm.allocFrame.1 = 0
  · obtain ⟨hnone, hsame⟩ := pm.allocFrame_fails h.not_free_zero hz
    exact .inl ⟨hnone, by simp only [PhysMem.createPageDirectory, hz, if_true, hsame]⟩
  · have hf := pm.allocFrame_takes hz
    have hfpage : pageOf pm.kernelPageDirectory ≠ pageOf pm.allocFrame.1 := by
      have hlow := h.kernelDir_reserved
      have hhigh := h.free_ge _ hf.free
      omega
    have hne : pm.kernelPageDirectory ≠ pm.allocFrame.1 := fun heq => hfpage (heq ▸ rfl)
    have hptr : pm.allocFrame.2.virtToPhys (pm.physToVirt pm.allocFrame.1) = pm.allocFrame.1 :=
      pm.pfa.virtToPhys_physToVirt _
    have hout : ∀ x, pageOf x ≠ pageOf pm.allocFrame.1 →
        memset pm.ram pm.allocFrame.1 0 4096 x = pm.ram x := fun x hx =>
      memset_page_outside _ _ hf.aligned (Nat.le_refl _) hx
    have hclear : pm.allocFrame.2.clear (pm.physToVirt pm.allocFrame.1) (pageDirectorySize * 4) =
        { pm.allocFrame.2 with ram := memset pm.ram pm.allocFrame.1 0 4096 } := by
      rw [PhysMem.clear, hptr]
      rfl
    obtain ⟨ram, hs, hram, hload⟩ := PhysMem.copyKernelEntries_spec
      { pm.allocFrame.2 with ram := memset pm.ram pm.allocFrame.1 0 4096 } hf.aligned h.kernelDir_aligned hne
    refine .inr ⟨pm.allocFrame.1, pm.allocFrame.2, ram, hf, rfl, ?_, fun x hx => ?_, fun i hi => ?_⟩
    · simp only [PhysMem.createPageDirectory, hz, if_false]
      have hcopy := congrArg (·.copyKernelEntries (pm.physToVirt pm.allocFrame.1)) hclear
      exact congrArg (Prod.mk _) (hcopy.trans hs)
    · exact (hram x hx).trans (hout x hx)
    · rw [hload i hi]
      split
      · exact load_congr h.kernelDir_aligned hi fun x hx => hout x (hx ▸ hfpage)
      · exact load_memset_zero _ hf.aligned hi

/-- Directory `d` is new, without tables, and the only frame that was taken or written to. -/
structure NewDirectory (pm pm' : PhysMem) (dirs : Set Word) (d : Word) : Prop where
  takes : pm.Takes d pm'
  keeps : pm.Keeps pm'
  not_dir : d ∉ dirs
  isolated : Isolated pm' (insert d dirs)
  empty : ∀ i < 768, tableAt pm'.ram d i = none
  ram : ∀ x, pageOf x ≠ pageOf d → pm'.ram x = pm.ram x

/-- `create_page_directory` fails only when no frame is left. -/
theorem createPageDirectory_new (h : Isolated pm dirs) :
    (pm.Exhausted ∧ pm.createPageDirectory = (0, pm)) ∨
    ∃ d pm', pm.createPageDirectory = (pm.physToVirt d, pm') ∧ pm.physToVirt d ≠ 0 ∧
      pm'.virtToPhys (pm.physToVirt d) = d ∧ NewDirectory pm pm' dirs d := by
  rcases h.createPageDirectory_cases with hfail | ⟨f, pm₁, ram, hf, hram₁, hr, hout, hload⟩
  · exact .inl hfail
  · obtain ⟨h₁, hheld⟩ := h.of_takes hf hram₁
    have hout₁ : ∀ x, pageOf x ≠ pageOf f → ram x = pm₁.ram x := fun x hx => by
      rw [hout x hx, hram₁]
    have hwrite := h₁.of_write hheld.dataFrame hout₁
    have hk : pm.Keeps { pm₁ with ram } :=
      (hf.keeps hram₁).trans (write_keeps hheld.allocated hout₁)
    have hempty : ∀ i < 768, tableAt ram f i = none := fun i hi => by
      have hzero : ram.load f i = 0#32 := by
        rw [hload i (by omega), if_neg (by omega)]
        rfl
      rw [tableAt, hzero]
      rfl
    have hiso : Isolated { pm₁ with ram } (insert f dirs) := by
      refine hwrite.insert_dir (h₁.held_of_write hheld hout₁) hempty fun i hi hi' => ?_
      rw [h.load_kernelDir hk hi', hload i hi', if_pos hi]
    refine .inr ⟨f, { pm₁ with ram }, hr, h.physToVirt_ne_zero hf.aligned hf.free, ?_,
      hf.of_ram ram, hk, hheld.dataFrame.not_dir, hiso, hempty, hout⟩
    rw [PhysMem.virtToPhys, hk.pfa]
    exact pm.pfa.virtToPhys_physToVirt f

/-- `create_page_directory` fails only when no frame is left, and otherwise adds a directory to the
isolated ones. -/
theorem of_createPageDirectory (h : Isolated pm dirs) :
    (pm.Exhausted ∧ pm.createPageDirectory = (0, pm)) ∨
    ∃ d pm', pm.createPageDirectory = (pm.physToVirt d, pm') ∧ pm.physToVirt d ≠ 0 ∧
      pm'.virtToPhys (pm.physToVirt d) = d ∧ pm.FreeFrame (pageOf d) ∧ pm.Keeps pm' ∧ d ∉ dirs ∧
      Isolated pm' (insert d dirs) := by
  refine h.createPageDirectory_new.imp_right ?_
  rintro ⟨d, pm', hr, hne, hphys, hnew⟩
  exact ⟨d, pm', hr, hne, hphys, hnew.takes.free, hnew.keeps, hnew.not_dir, hnew.isolated⟩

/-- `create_page_directory` takes one frame at most. -/
theorem createPageDirectory_free (h : Isolated pm dirs) {m n : Nat} (hm : pm.FreeFrame m)
    (hn : pm.FreeFrame n) (hne : m ≠ n) :
    pm.createPageDirectory.2.FreeFrame m ∨ pm.createPageDirectory.2.FreeFrame n := by
  rcases h.createPageDirectory_cases with ⟨hex, -⟩ | ⟨f, pm₁, ram, hf, -, hr, -⟩
  · exact absurd hm (hex m)
  · rw [hr]
    by_cases heq : m = pageOf f
    · exact .inr ((hf.free_iff n).mpr ⟨hn, heq ▸ hne.symm⟩)
    · exact .inl ((hf.free_iff m).mpr ⟨hm, heq⟩)

/-- A page entered on demand: a new frame is mapped, then cleared. -/
theorem of_demandPage (h : Isolated pm dirs) {d va : Word} (flags : Word) (hd : d ∈ dirs)
    (hva : pdIndex va < 768) (hflags : flags.toNat < 4096) (hz : pm.allocFrame.1 ≠ 0) :
    let mapped := pm.allocFrame.2.mapPage d va pm.allocFrame.1 flags
    let cleared := mapped.clear (mapped.physToVirt pm.allocFrame.1) frameSize.toNat
    Isolated cleared dirs ∧ pm.Keeps cleared := by
  have hf := pm.allocFrame_takes hz
  obtain ⟨h₁, hheld⟩ := h.of_takes hf rfl
  obtain ⟨h₂, hk₂, hdata⟩ := h₁.of_mapPage hd hva hflags hheld
  generalize pm.allocFrame.2.mapPage d va pm.allocFrame.1 flags = mapped at *
  have hout : ∀ x, pageOf x ≠ pageOf pm.allocFrame.1 →
      (mapped.clear (mapped.physToVirt pm.allocFrame.1) frameSize.toNat).ram x = mapped.ram x :=
    fun x hx => clear_frame_outside mapped hf.aligned hx
  exact ⟨h₂.of_write hdata hout,
    (hf.keeps rfl).trans (hk₂.trans (write_keeps hdata.allocated hout))⟩

/-! ### The pages of a new process -/

variable {d : Word} {i : Nat}

/-- A page of the module that got a frame is mapped, and then only that frame is written to: it gets
the bytes of the module at the page's offset, and zeros behind the module's end. -/
theorem loadPage_eq (data size : Word) (hi : i < 32768) (hsize : i * 4096 < size.toNat)
    (hf : pm.Takes pm.allocFrame.1 pm.allocFrame.2) (hz : pm.allocFrame.1 ≠ 0) {mapped : PhysMem}
    (hmapped : pm.allocFrame.2.mapPage d (userCodeStart + BitVec.ofNat 32 i * frameSize)
      pm.allocFrame.1 7 = mapped) :
    ∃ ram, loadPage d data size i pm = (true, { mapped with ram }) ∧
      (∀ x, pageOf x ≠ pageOf pm.allocFrame.1 → ram x = mapped.ram x) ∧
      ∀ o : Word, o.toNat < 4096 →
        (size.toNat ≤ i * 4096 + o.toNat → ram (pm.allocFrame.1 + o) = 0) ∧
        (i * 4096 + o.toNat < size.toNat →
          pageOf (mapped.virtToPhys (data + BitVec.ofNat 32 i * frameSize) + o) ≠
            pageOf pm.allocFrame.1 →
          ram (pm.allocFrame.1 + o) =
            mapped.ram (mapped.virtToPhys (data + BitVec.ofNat 32 i * frameSize) + o)) := by
  have hflags : pagePresent ||| pageUser ||| pageRw = 7 := by decide
  have hframe : frameSize.toNat = 4096 := rfl
  have hoffset := toNat_moduleOffset hi
  simp only [loadPage, hz, if_false, hflags, hmapped]
  generalize BitVec.ofNat 32 i * frameSize = offset at hoffset ⊢
  split
  · next hover =>
    obtain ⟨hover, hcopy, hrest⟩ := toNat_moduleTail hoffset hsize hover hi
    rw [if_pos (by rw [BitVec.lt_def, hcopy, hframe]; omega)]
    refine ⟨_, rfl, fun x hx => ?_, fun o ho => ?_⟩
    · refine (clear_outside _ hf.aligned _ ?_ hx).trans (copy_outside _ hf.aligned _ ?_ hx)
      · omega
      · omega
    · have hbyte := clear_byte (mapped.copy (mapped.physToVirt pm.allocFrame.1) (data + offset)
        (size - offset).toNat) pm.allocFrame.1 (size - offset)
        (n := (frameSize - (size - offset)).toNat) (by omega) ho
      refine ⟨fun hend => hbyte.trans (if_pos (by omega)), fun hin hsrc => ?_⟩
      exact (hbyte.trans (if_neg (by omega))).trans
        (copy_byte mapped hf.aligned (by omega) (by omega) hsrc)
  · next hover =>
    have hlt : ¬size.toNat < (offset + frameSize).toNat := hover
    rw [BitVec.toNat_add, hoffset, hframe] at hlt
    rw [if_neg (BitVec.lt_irrefl _)]
    have hle := Nat.le_of_eq hframe
    exact ⟨_, rfl, fun x hx => copy_outside _ hf.aligned _ hle hx, fun o ho =>
      ⟨fun hend => by omega, fun _ hsrc => copy_byte mapped hf.aligned hle ho hsrc⟩⟩

/-- One page of the module: the loop of `create_process` goes on while frames are left, and then
cannot have mapped more pages than there are frames, so that the page lies in the user half. -/
theorem of_loadPage (h : Isolated pm dirs) (hd : d ∈ dirs) (data size : Word)
    (hi : i + pm.freeCount ≤ 32768) (hsize : i * 4096 < size.toNat) :
    Isolated (loadPage d data size i pm).2 dirs ∧ pm.Keeps (loadPage d data size i pm).2 ∧
      if (loadPage d data size i pm).1 then i + 1 + (loadPage d data size i pm).2.freeCount ≤ 32768
      else (loadPage d data size i pm).2.Exhausted := by
  by_cases hz : pm.allocFrame.1 = 0
  · obtain ⟨hnone, hsame⟩ := pm.allocFrame_fails h.not_free_zero hz
    have hr : loadPage d data size i pm = (false, pm) := by
      simp only [loadPage, hz, if_true, hsame]
    rw [hr]
    exact ⟨h, .refl pm, hnone⟩
  · have hf := pm.allocFrame_takes hz
    have hcount := hf.freeCount
    obtain ⟨h₁, hheld⟩ := h.of_takes hf rfl
    have hva := pdIndex_moduleUser (i := i) (by omega)
    obtain ⟨h₂, hk₂, hdata⟩ := h₁.of_mapPage hd hva (show (7 : Word).toNat < 4096 by decide) hheld
    obtain ⟨ram, hr, hout, -⟩ := loadPage_eq (d := d) data size (by omega) hsize hf hz rfl
    have hk := (hf.keeps rfl).trans (hk₂.trans (write_keeps hdata.allocated hout))
    rw [hr]
    refine ⟨h₂.of_write hdata hout, hk, ?_⟩
    have hle := (hk₂.trans (write_keeps hdata.allocated hout)).freeCount_le
    simp only [if_true]
    omega

/-! ### The pages of a forked process -/

theorem toNat_forkPage {p q : Nat} (hp : p < 1024) (hq : q < 1024) :
    ((BitVec.ofNat 32 p <<< 22) ||| (BitVec.ofNat 32 q <<< 12)).toNat = p * 2 ^ 22 + q * 4096 := by
  have hhigh : (BitVec.ofNat 32 p <<< 22).toNat = p <<< 22 := by
    rw [BitVec.toNat_shiftLeft, BitVec.toNat_ofNat, Nat.shiftLeft_eq, Nat.shiftLeft_eq]
    omega
  have hlow : (BitVec.ofNat 32 q <<< 12).toNat = q * 4096 := by
    rw [BitVec.toNat_shiftLeft, BitVec.toNat_ofNat, Nat.shiftLeft_eq]
    omega
  rw [BitVec.toNat_or, hhigh, hlow, ← Nat.shiftLeft_add_eq_or_of_lt (by omega), Nat.shiftLeft_eq]

theorem pageFlags_lt (e : Word) : (e &&& 0xFFF).toNat < 4096 := by
  rw [BitVec.toNat_and]
  exact Nat.lt_of_le_of_lt Nat.and_le_right (by decide)

theorem pdIndex_forkPage {p q : Nat} (hp : p < 1024) (hq : q < 1024) :
    pdIndex ((BitVec.ofNat 32 p <<< 22) ||| (BitVec.ofNat 32 q <<< 12)) = p := by
  rw [pdIndex_eq, toNat_forkPage hp hq]
  omega

theorem ptIndex_forkPage {p q : Nat} (hp : p < 1024) (hq : q < 1024) :
    ptIndex ((BitVec.ofNat 32 p <<< 22) ||| (BitVec.ofNat 32 q <<< 12)) = q := by
  rw [ptIndex_eq, toNat_forkPage hp hq]
  omega

variable {table : Word} {p q : Nat}

/-- One entry of the parent: a copy of its page is mapped in the child's directory. -/
theorem of_forkPage (h : Isolated pm dirs) (hd : d ∈ dirs) (hp : p < 768) (hq : q < 1024) :
    Isolated (forkPage d table p q pm).2 dirs ∧ pm.Keeps (forkPage d table p q pm).2 ∧
      ((forkPage d table p q pm).1 = false → (forkPage d table p q pm).2.Exhausted) := by
  unfold forkPage
  split
  · by_cases hz : pm.allocFrame.1 = 0
    · obtain ⟨hnone, hsame⟩ := pm.allocFrame_fails h.not_free_zero hz
      simp only [hz, if_true, hsame]
      exact ⟨h, .refl pm, fun _ => hnone⟩
    · have hf := pm.allocFrame_takes hz
      obtain ⟨h₁, hheld⟩ := h.of_takes hf rfl
      have hout : ∀ x, pageOf x ≠ pageOf pm.allocFrame.1 →
          (pm.allocFrame.2.copy (pm.allocFrame.2.physToVirt pm.allocFrame.1)
            (pm.allocFrame.2.physToVirt (pm.load table q &&& ~~~0xFFF)) frameSize.toNat).ram x =
              pm.allocFrame.2.ram x := fun x hx =>
        copy_outside _ hf.aligned _ (Nat.le_refl _) hx
      simp only [hz, if_false]
      have hcopied := h₁.of_write hheld.dataFrame hout
      have hva : pdIndex ((BitVec.ofNat 32 p <<< 22) ||| (BitVec.ofNat 32 q <<< 12)) < 768 := by
        rwa [pdIndex_forkPage (by omega) hq]
      obtain ⟨h₂, hk₂, -⟩ := hcopied.of_mapPage hd hva (pageFlags_lt _) (h₁.held_of_write hheld hout)
      exact ⟨h₂, (hf.keeps rfl).trans ((write_keeps hheld.allocated hout).trans hk₂), nofun⟩
  · exact ⟨h, .refl pm, nofun⟩

/-! ### The loops -/

/-- A loop whose rounds keep the directories isolated does so as a whole. -/
theorem of_loopWhile {body : Nat → PhysMem → Bool × PhysMem} {n : Nat} (h : Isolated pm dirs)
    (hBody : ∀ j s, j < n → Isolated s dirs → Isolated (body j s).2 dirs ∧ s.Keeps (body j s).2 ∧
      ((body j s).1 = false → (body j s).2.Exhausted)) :
    Isolated (loopWhile body n 0 pm).2 dirs ∧ pm.Keeps (loopWhile body n 0 pm).2 ∧
      ((loopWhile body n 0 pm).1 = false → (loopWhile body n 0 pm).2.Exhausted) := by
  have hinv := loopWhile_invariant body (fun _ s => Isolated s dirs ∧ pm.Keeps s)
    (fun s => (Isolated s dirs ∧ pm.Keeps s) ∧ s.Exhausted) (n := n) (i := 0) (s := pm)
    ⟨h, .refl pm⟩ fun j s _ hj hs => ?_
  · split at hinv
    · next ht =>
      rw [ht]
      exact ⟨hinv.1, hinv.2, nofun⟩
    · exact ⟨hinv.1.1, hinv.1.2, fun _ => hinv.2⟩
  · obtain ⟨hiso, hkeep, hex⟩ := hBody j s (by omega) hs.1
    split
    · exact ⟨hiso, hs.2.trans hkeep⟩
    · next hf => exact ⟨⟨hiso, hs.2.trans hkeep⟩, hex (by simpa using hf)⟩

theorem of_forkTable (h : Isolated pm dirs) (hd : d ∈ dirs) (hp : p < 768) :
    Isolated (forkTable d table p pm).2 dirs ∧ pm.Keeps (forkTable d table p pm).2 ∧
      ((forkTable d table p pm).1 = false → (forkTable d table p pm).2.Exhausted) := by
  unfold forkTable
  split
  · exact h.of_loopWhile fun q s hq hs => hs.of_forkPage hd hp hq
  · exact ⟨h, .refl pm, nofun⟩

/-- The copy of the parent's address space. -/
theorem of_forkLoop (h : Isolated pm dirs) (hd : d ∈ dirs) (parentDir : Word) :
    Isolated (loopWhile (forkTable d parentDir) 768 0 pm).2 dirs ∧
      pm.Keeps (loopWhile (forkTable d parentDir) 768 0 pm).2 ∧
      ((loopWhile (forkTable d parentDir) 768 0 pm).1 = false →
        (loopWhile (forkTable d parentDir) 768 0 pm).2.Exhausted) :=
  h.of_loopWhile fun _ _ hp hs => hs.of_forkTable hd hp

theorem lt_of_lt_pagesNeeded {size : Word}
    (hi : i < ((size + frameSize - 1) / frameSize).toNat) : i * 4096 < size.toNat := by
  have hframe : frameSize.toNat = 4096 := rfl
  have hone : (1 : Word).toNat = 1 := rfl
  rw [BitVec.toNat_udiv, BitVec.toNat_sub, BitVec.toNat_add, hframe, hone] at hi
  omega

/-- The load of a module. -/
theorem of_loadLoop (h : Isolated pm dirs) (hd : d ∈ dirs) (data size : Word) {n : Nat}
    (hn : n = ((size + frameSize - 1) / frameSize).toNat) :
    Isolated (loopWhile (loadPage d data size) n 0 pm).2 dirs ∧
      pm.Keeps (loopWhile (loadPage d data size) n 0 pm).2 ∧
      ((loopWhile (loadPage d data size) n 0 pm).1 = false →
        (loopWhile (loadPage d data size) n 0 pm).2.Exhausted) := by
  have hcount := h.freeCount_le
  have hinv := loopWhile_invariant (loadPage d data size)
    (fun i s => (Isolated s dirs ∧ pm.Keeps s) ∧ i + s.freeCount ≤ 32768)
    (fun s => (Isolated s dirs ∧ pm.Keeps s) ∧ s.Exhausted) (n := n) (i := 0) (s := pm)
    ⟨⟨h, .refl pm⟩, by omega⟩ fun i s _ hi hs => ?_
  · split at hinv
    · next ht =>
      rw [ht]
      exact ⟨hinv.1.1, hinv.1.2, nofun⟩
    · exact ⟨hinv.1.1, hinv.1.2, fun _ => hinv.2⟩
  · obtain ⟨⟨hiso, hkeep⟩, hfree⟩ := hs
    obtain ⟨hiso', hkeep', hend⟩ :=
      hiso.of_loadPage hd data size hfree (lt_of_lt_pagesNeeded (by omega))
    split
    · next ht =>
      rw [if_pos ht] at hend
      exact ⟨⟨hiso', hkeep.trans hkeep'⟩, hend⟩
    · next hf =>
      rw [if_neg hf] at hend
      exact ⟨⟨hiso', hkeep.trans hkeep'⟩, hend⟩

end Isolated

end Lbos

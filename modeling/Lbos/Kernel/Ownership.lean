import Lbos.Kernel.SpawnSupply

/-! Which process uses which frame.  In every reachable state a frame has one use, it is marked in
the bitmap and it is not a reserved one; what a process stores in its user half is not seen by any
other. -/

namespace Lbos

open Lib Mem

/-- A use of a frame by the process of a slot: as its page directory, as a user-half page table, or
as the frame of an entry in one. -/
inductive FrameUse where
  | directory (i : Slot)
  | table (i : Slot) (pde : Fin 768)
  | page (i : Slot) (pde : Fin 768) (pte : Fin 1024)
  deriving DecidableEq

namespace FrameUse

def slot : FrameUse → Slot
  | directory i => i
  | table i _ => i
  | page i _ _ => i

/-- The site of a use, where the process of slot `i` has the directory `cr3 i`. -/
def site (cr3 : Slot → Word) : FrameUse → Site
  | directory i => .dir (cr3 i)
  | table i pde => .table (cr3 i) pde
  | page i pde pte => .page (cr3 i) pde pte

end FrameUse

namespace Kernel

variable (k : Kernel)

def cr3 (i : Slot) : Word := (k.processTable i).context.cr3

/-- The process is not a free slot, and uses frame `n` so. -/
structure Uses (u : FrameUse) (n : Nat) : Prop where
  live : (k.processTable u.slot).state ≠ .free
  frame : ((u.site k.cr3).frame k.mem.ram).map pageOf = some n

/-- The byte that a user address of the process reads, `none` where no page is present. -/
def userByte (i : Slot) (v : Word) : Option Byte :=
  (translate k.mem.ram (k.cr3 i) v).map k.mem.ram

/-- The address spaces are separate. -/
structure Separated : Prop where
  unique : ∀ u u' n, k.Uses u n → k.Uses u' n → u = u'
  marked : ∀ u n, k.Uses u n → k.mem.pfa.testBit k.mem.bitmap (BitVec.ofNat 32 n) = true
  not_reserved : ∀ u n, k.Uses u n → k.mem.pfa.kernelEndFrame.toNat ≤ n
  paging_reserved : pageOf k.mem.kernelPageDirectory < k.mem.pfa.kernelEndFrame.toNat ∧
    pageOf k.mem.kernelPageTable < k.mem.pfa.kernelEndFrame.toNat
  confined : ∀ i v pa, (k.processTable i).state ≠ .free → v < kernelVirtualStart →
    translate k.mem.ram (k.cr3 i) v = some pa → ∃ pde pte, k.Uses (.page i pde pte) (pageOf pa)
  stores : ∀ c i v addr value, k.currentProcess = some c → (k.processTable i).state ≠ .free →
    i ≠ c → v < kernelVirtualStart → (k.userStore addr value).userByte i v = k.userByte i v

section

variable {k}

theorem Uses.of (h : k.Uses u n) : (u.site k.cr3).Of k.dirs := by
  have hdir : k.cr3 u.slot ∈ k.dirs := ⟨u.slot, h.live, rfl⟩
  cases u with
  | directory i => exact .dir hdir
  | table i pde => exact .table hdir pde.isLt
  | page i pde pte => exact .page hdir pde.isLt pte.isLt

/-- Two uses by live processes with one site are the same. -/
theorem site_injective (hk : k.WellFormed) {u u' : FrameUse}
    (hu : (k.processTable u.slot).state ≠ .free) (hu' : (k.processTable u'.slot).state ≠ .free)
    (h : u.site k.cr3 = u'.site k.cr3) : u = u' := by
  have hslot : k.cr3 u.slot = k.cr3 u'.slot → u.slot = u'.slot :=
    hk.cr3_unique u.slot u'.slot hu hu'
  cases u with
  | directory i =>
    cases u' with
    | directory i' =>
      obtain rfl : i = i' := hslot (Site.dir.inj h)
      rfl
    | table => cases h
    | page => cases h
  | table i pde =>
    cases u' with
    | directory => cases h
    | table i' pde' =>
      obtain ⟨hcr3, hpde⟩ := Site.table.inj h
      obtain rfl : i = i' := hslot hcr3
      rw [Fin.ext hpde]
    | page => cases h
  | page i pde pte =>
    cases u' with
    | directory => cases h
    | table => cases h
    | page i' pde' pte' =>
      obtain ⟨hcr3, hpde, hpte⟩ := Site.page.inj h
      obtain rfl : i = i' := hslot hcr3
      rw [Fin.ext hpde, Fin.ext hpte]

/-- A used frame is in use in the memory, too. -/
theorem Uses.allocated (hk : k.WellFormed) {u : FrameUse} {n : Nat} (h : k.Uses u n) :
    ∃ f, (u.site k.cr3).frame k.mem.ram = some f ∧ pageOf f = n ∧ k.mem.Allocated f := by
  obtain ⟨f, hf, hn⟩ := Option.map_eq_some_iff.mp h.frame
  exact ⟨f, hf, hn, hk.isolated.allocated _ h.of f hf⟩

theorem Uses.unique (hk : k.WellFormed) {u u' : FrameUse} {n : Nat} (h : k.Uses u n)
    (h' : k.Uses u' n) : u = u' := by
  obtain ⟨f, hf, hn, hal⟩ := h.allocated hk
  obtain ⟨f', hf', hn', hal'⟩ := h'.allocated hk
  obtain rfl : f = f' := hal.aligned.pageOf_inj hal'.aligned (hn.trans hn'.symm)
  exact site_injective hk h.live h'.live (hk.isolated.unique _ _ h.of h'.of f hf hf')

theorem Uses.marked (hk : k.WellFormed) {u : FrameUse} {n : Nat} (h : k.Uses u n) :
    k.mem.pfa.testBit k.mem.bitmap (BitVec.ofNat 32 n) = true := by
  obtain ⟨f, -, rfl, hal⟩ := h.allocated hk
  have hidx : f / frameSize = BitVec.ofNat 32 (pageOf f) := by
    apply BitVec.eq_of_toNat_eq
    have hlt := f.isLt
    simp [frameSize, pageOf]
    omega
  have hlt : f / frameSize < k.mem.pfa.totalFrames := by
    have htotal := hal.lt
    rw [BitVec.lt_def, hidx, BitVec.toNat_ofNat]
    omega
  have hmarked := hal.marked
  rwa [PhysMem.isFrameAllocated, PageFrameAllocator.isFrameAllocated, if_pos hlt, hidx] at hmarked

theorem uses_of_translate {i : Slot} (hi : (k.processTable i).state ≠ .free)
    {v pa : Word} (hv : v < kernelVirtualStart) (h : translate k.mem.ram (k.cr3 i) v = some pa) :
    k.Uses (.page i ⟨pdIndex v, pdIndex_user hv⟩ ⟨ptIndex v, ptIndex_lt v⟩) (pageOf pa) := by
  obtain ⟨e, he, hpage⟩ := translate_page h
  refine ⟨hi, ?_⟩
  rw [FrameUse.site, Site.frame, he, hpage]
  rfl

/-- A store of the current process is not seen by another one. -/
theorem userByte_userStore (hk : k.WellFormed) {c i : Slot} (hc : k.currentProcess = some c)
    (hi : (k.processTable i).state ≠ .free) (hne : i ≠ c) {v : Word} (hv : v < kernelVirtualStart)
    (addr : Word) (value : Byte) : (k.userStore addr value).userByte i v = k.userByte i v := by
  rw [Kernel.userStore, hc]
  simp only
  split
  · next h =>
    obtain ⟨f, hdata, hpage⟩ := hk.consistent.userPage hc h.1 h.2
    have htrans := PhysMem.translate_of_getPhysicalAddress h.2
    generalize k.mem.getPhysicalAddress (k.processTable c).context.cr3 addr = phys at *
    have hout : ∀ x, pageOf x ≠ pageOf f → k.mem.ram.write phys value x = k.mem.ram x :=
      fun x hx => by
        refine write_ne _ _ fun heq => hx ?_
        rw [heq, hpage]
    obtain ⟨-, hframe⟩ := hk.isolated.frame_of_write hdata hout
    have hsite : (Site.page (k.cr3 i) (pdIndex v) (ptIndex v)).Of k.dirs :=
      .page ⟨i, hi, rfl⟩ (pdIndex_user hv) (ptIndex_lt v)
    have hsame : translate (k.mem.ram.write phys value) (k.cr3 i) v =
        translate k.mem.ram (k.cr3 i) v := by
      rw [Site.translate_eq_frame, Site.translate_eq_frame, hframe _ hsite]
    show (translate (k.mem.ram.write phys value) (k.cr3 i) v).map (k.mem.ram.write phys value) =
      (translate k.mem.ram (k.cr3 i) v).map k.mem.ram
    rw [hsame]
    refine Option.map_congr fun pa hpa => write_ne _ _ ?_
    rintro rfl
    -- the two addresses would share a frame
    have huse := uses_of_translate hi hv hpa
    have huse' := uses_of_translate (hk.current c hc).not_free h.1 htrans
    exact hne (congrArg FrameUse.slot (huse.unique hk huse'))
  · rfl

theorem WellFormed.separated (hk : k.WellFormed)
    (htable : pageOf k.mem.kernelPageTable < k.mem.reserved) : k.Separated where
  unique _ _ _ h h' := h.unique hk h'
  marked _ _ h := h.marked hk
  not_reserved _ _ h := by
    obtain ⟨f, -, rfl, hal⟩ := h.allocated hk
    exact hal.reserved_le
  paging_reserved := ⟨hk.isolated.kernelDir_reserved, htable⟩
  confined _ _ _ hi hv h := ⟨_, _, uses_of_translate hi hv h⟩
  stores _ _ _ addr value hc hi hne hv := userByte_userStore hk hc hi hne hv addr value

end

end Kernel

/-- In every reachable state the address spaces are separate. -/
theorem separated_of_reach {img : KernelImage} {k : Kernel} (h : img.system.Reach k) :
    k.Separated := by
  have hrun := KernelImage.running_of_reach h
  refine hrun.wellFormed.separated ?_
  obtain ⟨ram, bitmap, hboot⟩ := hrun.booted
  rw [hboot.kernelPageTable, hboot.reserved]
  exact img.page_reserved ram bitmap img.table_mem

/-- A parent runs and its child is ready. -/
theorem separated_of_reach_sample :
    ∃ k i j, KernelImage.sample.system.Reach k ∧ i ≠ j ∧ k.currentProcess = some i ∧
      (k.processTable j).state = .ready ∧ k.Separated := by
  obtain ⟨k₁, k₂, i, j, d, d', birth, h⟩ := KernelImage.sample_family
  exact ⟨_, i, j, h.reach, h.ne, h.current, h.ready, separated_of_reach h.reach⟩

end Lbos

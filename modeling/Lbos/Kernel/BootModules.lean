import Mathlib.Data.Set.Card
import Mathlib.Order.CompletePartialOrder
import Lbos.Kernel.PagesMapped
import Lbos.Mem.FirstFit
import Lbos.Mem.LoadWrites

/-! The modules that the boot loader leaves in memory, through `kmain`: whether the bitmap or a frame
that `alloc_frame` hands out lies over one of them.  No bit of the bitmap is set for a module, so
that depends on where the modules are. -/

namespace Lbos

open Lib Mem Stock

/-- `multiboot_module_t`, as far as `kmain` loads it. -/
structure MultibootModule where
  modStart : Word
  modEnd : Word

/-- The flags of `multiboot_info_t`, and the modules that `mods_count` and `mods_addr` describe. -/
structure MultibootInfo where
  flags : Word
  modules : List MultibootModule

def multibootInfoMods : Word := 0x8

namespace Kernel

variable (k : Kernel)

/-- A round of the loop of `kmain` over the modules: the first module becomes a process.  The others
are read, as a ramdisk. -/
def loadModule (module : MultibootModule) (i : Nat) : Kernel :=
  if i = 0 then
    (k.createProcess (k.mem.physToVirt module.modStart) (module.modEnd - module.modStart)).2
  else k

/-- What `kmain` does with the modules. -/
def loadModules (mbinfo : MultibootInfo) : Kernel :=
  if 0 < mbinfo.modules.length then
    if mbinfo.flags &&& multibootInfoMods ≠ 0 then
      mbinfo.modules.zipIdx.foldl (fun k x => k.loadModule x.1 x.2) k
    else k
  else k

end Kernel

/-- The physical addresses `[mod_start, mod_end)`. -/
def MultibootModule.bytes (module : MultibootModule) : Set Nat :=
  Set.Ico module.modStart.toNat module.modEnd.toNat

/-- The physical addresses of a frame. -/
def frameBytes (n : Nat) : Set Nat := Set.Ico (n * 4096) (n * 4096 + 4096)

namespace KernelImage

variable (img : KernelImage) (ram bitmap : Mem)

/-- The addresses that `init_page_frame_allocator` clears. -/
def bitmapBytes : Set Nat :=
  Set.Ico img.allocator.bitmapPhys.toNat
    (img.allocator.bitmapPhys.toNat + img.allocator.bitmapSize.toNat)

/-- From boot until the modules are loaded, neither the clearing of the bitmap nor a frame that is
handed out lies over a module, and its bytes stay. -/
def ModulesSurvive (mbinfo : MultibootInfo) : Prop :=
  let k := img.boot ram bitmap
  ∀ module ∈ mbinfo.modules, Disjoint module.bytes img.bitmapBytes ∧
    (∀ n, k.mem.HandedOut (k.loadModules mbinfo).mem n → Disjoint module.bytes (frameBytes n)) ∧
    ∀ a : Word, a.toNat ∈ module.bytes → (k.loadModules mbinfo).mem.ram a = k.mem.ram a

/-- Frame `n` lies behind the bitmap's page, and memory did not happen to hold its bit. -/
def Available (n : Nat) : Prop :=
  img.allocator.kernelEndFrame.toNat ≤ n ∧ n < img.allocator.totalFrames.toNat ∧
    ¬(8192 ≤ n ∧ img.allocator.marked bitmap n = true)

instance : DecidablePred (img.Available bitmap) := fun _ => inferInstanceAs (Decidable (_ ∧ _))

end KernelImage

/-- The frames for a process of `n` pages: its directory, the pages and their tables. -/
def processFrames (n : Nat) : Nat := if n = 0 then 1 else 1 + (n + ((n + 71) / 1024 + 1))

/-- The frames that the boot sequence asks for. -/
def MultibootInfo.frames (mbinfo : MultibootInfo) : Nat :=
  if mbinfo.flags &&& multibootInfoMods ≠ 0 then
    match mbinfo.modules with
    | [] => 0
    | module :: _ =>
      processFrames ((module.modEnd - module.modStart + frameSize - 1) / frameSize).toNat
  else 0

/-- No module lies over the bitmap's page, nor over one of the first available frames, as many as
the boot sequence asks for. -/
def KernelImage.ModulesClear (img : KernelImage) (bitmap : Mem) (mbinfo : MultibootInfo) : Prop :=
  ∀ module ∈ mbinfo.modules, Disjoint module.bytes img.bitmapBytes ∧
    ∀ n, img.Available bitmap n → Nat.count (img.Available bitmap) n < mbinfo.frames →
      Disjoint module.bytes (frameBytes n)

namespace Kernel

variable {k : Kernel}

theorem allocates_createProcess (k : Kernel) (data size : Word) :
    ∃ n, k.mem.Allocates n (k.createProcess data size).2.mem := by
  have hdir := k.mem.allocates_createPageDirectory
  unfold createProcess
  cases hfree : k.findFree with
  | none =>
    simp only [allocatePcbAndPid, hfree]
    exact ⟨0, .refl _⟩
  | some i =>
    simp only [allocatePcbAndPid, hfree, takeSlot_mem]
    generalize k.mem.createPageDirectory = r at hdir ⊢
    obtain ⟨v, pm⟩ := r
    simp only [setMem_mem, setContext, setProcess_mem]
    split
    · exact ⟨1, hdir⟩
    · obtain ⟨n, hload⟩ := pm.allocates_loadLoop (pm.virtToPhys v) data size
        ((size + frameSize - 1) / frameSize).toNat
      generalize loopWhile (loadPage (pm.virtToPhys v) data size) _ 0 pm = r at hload ⊢
      obtain ⟨_ | _, pm'⟩ := r
      · exact ⟨_, hdir.trans hload⟩
      · exact ⟨_, hdir.trans hload⟩

theorem freeCount_createProcess (h : Isolated k.mem k.dirs) {i : Slot} (hi : k.findFree = some i)
    (data size : Word) : (k.createProcess data size).2.mem.freeCount =
      k.mem.freeCount - processFrames ((size + frameSize - 1) / frameSize).toNat := by
  rcases Nat.eq_zero_or_pos k.mem.freeCount with hzero | hsome
  · obtain ⟨n, halloc⟩ := k.allocates_createProcess data size
    rw [halloc.freeCount, hzero, Nat.zero_sub, Nat.zero_sub]
  · obtain ⟨d, s, ⟨hleft, hgroups⟩, hstock, -⟩ := createProcess_fill h hi hsome data size rfl
    generalize ((size + frameSize - 1) / frameSize).toNat = n at hstock ⊢
    have hcount : (k.createProcess data size).2.mem.freeCount =
        s.left - cost Prod.fst ∅ (modulePages n) := by
      rw [← PhysMem.stock_left _ d, ← hstock, fill_left, hgroups]
    rw [hcount, processFrames]
    rcases Nat.eq_zero_or_pos n with rfl | hn
    · have hnone : cost Prod.fst ∅ (modulePages 0) = 0 := rfl
      rw [if_pos rfl, hnone]
      omega
    · rw [if_neg (Nat.ne_of_gt hn), cost_modulePages hn]
      omega

theorem createProcess_writes (h : Isolated k.mem k.dirs) (data size : Word) :
    k.mem.WritesHandedOut (k.createProcess data size).2.mem := by
  unfold createProcess
  cases hfree : k.findFree with
  | none =>
    simp only [allocatePcbAndPid, hfree]
    exact .refl _
  | some i =>
    simp only [allocatePcbAndPid, hfree, takeSlot_mem]
    rcases h.createPageDirectory_loaded with ⟨-, hr⟩ | ⟨d, pm, hr, hne, hphys, hiso, hdir⟩
    · simp only [hr, setMem_mem, if_true]
      exact .refl _
    · have hload := hdir.loadLoop hiso (Set.mem_insert d _) data size rfl
      simp only [hr, if_neg hne, setMem_mem, hphys, setContext, setProcess_mem]
      generalize loopWhile (loadPage d data size) _ 0 pm = r at hload ⊢
      obtain ⟨_ | _, pm'⟩ := r
      · exact hload.toWritesHandedOut
      · exact hload.toWritesHandedOut

/-- Only the first module makes a difference. -/
theorem foldl_loadModule (modules : List MultibootModule) {i : Nat} (hi : 0 < i) (k : Kernel) :
    (modules.zipIdx i).foldl (fun k x => k.loadModule x.1 x.2) k = k := by
  induction modules generalizing i with
  | nil => rfl
  | cons module modules ih =>
    rw [List.zipIdx_cons, List.foldl_cons, loadModule, if_neg (Nat.ne_of_gt hi)]
    exact ih (Nat.succ_pos i)

/-- Loading the modules takes frames for the first one, and writes to them only. -/
theorem loadModules_allocates (h : Isolated k.mem k.dirs) {i : Slot} (hi : k.findFree = some i)
    (mbinfo : MultibootInfo) : (∃ n, k.mem.Allocates n (k.loadModules mbinfo).mem) ∧
      (k.loadModules mbinfo).mem.freeCount = k.mem.freeCount - mbinfo.frames ∧
      k.mem.WritesHandedOut (k.loadModules mbinfo).mem := by
  obtain ⟨flags, modules⟩ := mbinfo
  rw [loadModules, MultibootInfo.frames]
  cases modules with
  | nil =>
    simp only [ite_self, List.length_nil, Nat.lt_irrefl, if_false]
    exact ⟨⟨0, .refl _⟩, rfl, .refl _⟩
  | cons module modules =>
    simp only [List.length_cons, Nat.zero_lt_succ, if_true]
    split
    · rw [List.zipIdx_cons, List.foldl_cons, foldl_loadModule modules (Nat.succ_pos 0), loadModule,
        if_pos rfl]
      exact ⟨k.allocates_createProcess .., freeCount_createProcess h hi ..,
        createProcess_writes h ..⟩
    · exact ⟨⟨0, .refl _⟩, rfl, .refl _⟩

end Kernel

namespace KernelImage

variable (img : KernelImage) (ram bitmap : Mem) (mbinfo : MultibootInfo)

theorem freeFrame_boot_iff (n : Nat) :
    (img.boot ram bitmap).mem.FreeFrame n ↔ img.Available bitmap n := by
  constructor
  · intro h
    obtain ⟨hend, hmark⟩ := (img.free_initMem_iff bitmap h.1).mp h
    exact ⟨hend, h.1, hmark⟩
  · rintro ⟨hend, hlt, hmark⟩
    exact (img.free_initMem_iff bitmap hlt).mpr ⟨hend, hmark⟩

theorem boot_loadModules :
    (∃ n, (img.boot ram bitmap).mem.Allocates n ((img.boot ram bitmap).loadModules mbinfo).mem) ∧
      ((img.boot ram bitmap).loadModules mbinfo).mem.freeCount =
        (img.boot ram bitmap).mem.freeCount - mbinfo.frames ∧
      (img.boot ram bitmap).mem.WritesHandedOut ((img.boot ram bitmap).loadModules mbinfo).mem := by
  obtain ⟨i, hi⟩ := Kernel.findFree_exists (k := img.boot ram bitmap) (i := ⟨0, by decide⟩) rfl
  exact Kernel.loadModules_allocates (img.boot_wellFormed ram bitmap).isolated hi mbinfo

/-- The frames that the boot sequence hands out are the first available ones. -/
theorem handedOut_iff (n : Nat) :
    (img.boot ram bitmap).mem.HandedOut ((img.boot ram bitmap).loadModules mbinfo).mem n ↔
      img.Available bitmap n ∧ Nat.count (img.Available bitmap) n < mbinfo.frames := by
  obtain ⟨⟨c, halloc⟩, hcount, -⟩ := img.boot_loadModules ram bitmap mbinfo
  have hrank : Nat.count ((img.boot ram bitmap).mem.pfa.Free (img.boot ram bitmap).mem.bitmap) n =
      Nat.count (img.Available bitmap) n := by
    rw [Nat.count_eq_card_filter_range, Nat.count_eq_card_filter_range]
    exact congrArg Finset.card
      (Finset.filter_congr fun j _ => img.freeFrame_boot_iff ram bitmap j)
  rw [PhysMem.HandedOut, halloc.taken_iff hcount, hrank, freeFrame_boot_iff]

/-- The bytes of a module stay when no frame that is handed out lies over it. -/
theorem module_bytes_stay {module : MultibootModule}
    (h : ∀ n, (img.boot ram bitmap).mem.HandedOut ((img.boot ram bitmap).loadModules mbinfo).mem n →
      Disjoint module.bytes (frameBytes n)) {a : Word} (ha : a.toNat ∈ module.bytes) :
    ((img.boot ram bitmap).loadModules mbinfo).mem.ram a = (img.boot ram bitmap).mem.ram a := by
  obtain ⟨-, -, hwrites⟩ := img.boot_loadModules ram bitmap mbinfo
  refine hwrites.ram a fun hout => Set.disjoint_left.mp (h _ hout) ha ?_
  rw [frameBytes, pageOf, Set.mem_Ico]
  omega

/-- The modules survive exactly when they are clear of the bitmap and of the first available
frames. -/
theorem modulesSurvive_iff :
    img.ModulesSurvive ram bitmap mbinfo ↔ img.ModulesClear bitmap mbinfo := by
  have hclear : ∀ module : MultibootModule,
      (∀ n, (img.boot ram bitmap).mem.HandedOut ((img.boot ram bitmap).loadModules mbinfo).mem n →
        Disjoint module.bytes (frameBytes n)) ↔
      ∀ n, img.Available bitmap n → Nat.count (img.Available bitmap) n < mbinfo.frames →
        Disjoint module.bytes (frameBytes n) := fun module =>
    forall_congr' fun n => by rw [handedOut_iff, and_imp]
  refine forall₂_congr fun module _ => and_congr_right fun _ => ?_
  rw [← hclear module]
  exact and_iff_left_of_imp fun h a ha => img.module_bytes_stay ram bitmap mbinfo h ha

/-- A module that the boot loader puts behind the bitmap's page of the sample image, in the first
frame that is handed out, with flags that say so. -/
def sampleModules : MultibootInfo := ⟨multibootInfoMods, [⟨0x121000, 0x122000⟩]⟩

/-- That module is outside the image and below 128 MB, and the process made from it gets its page
directory there. -/
theorem sample_module_overwritten :
    (∀ module ∈ sampleModules.modules, KernelImage.sample.physEnd ≤ module.modStart ∧
        module.modStart ≤ module.modEnd ∧ module.modEnd ≤ totalPhysicalMemory) ∧
      ¬KernelImage.sample.ModulesSurvive (fun _ => 0) (fun _ => 0) sampleModules := by
  have hmodule : (⟨0x121000, 0x122000⟩ : MultibootModule) ∈ sampleModules.modules :=
    List.mem_singleton_self _
  refine ⟨fun module hm => ?_, fun h => ?_⟩
  · obtain rfl := List.mem_singleton.mp hm
    decide
  · obtain ⟨-, hout, -⟩ := h _ hmodule
    have hend : KernelImage.sample.allocator.kernelEndFrame.toNat = 289 := by decide
    have hfirst : KernelImage.sample.Available (fun _ => 0) 289 :=
      ⟨hend.le, by decide, fun hc => absurd hc.1 (by decide)⟩
    have hnone : Nat.count (KernelImage.sample.Available fun _ => 0) 289 = 0 := by
      rw [Nat.count_eq_card_filter_range, Finset.card_eq_zero, Finset.filter_eq_empty_iff]
      intro n hn havail
      have hlow := havail.1
      rw [Finset.mem_range] at hn
      omega
    have hframes : sampleModules.frames = 3 := by decide
    have hdisjoint := hout 289 ((handedOut_iff ..).mpr ⟨hfirst, by rw [hnone, hframes]; decide⟩)
    have hmem : 0x121000 ∈ (⟨0x121000, 0x122000⟩ : MultibootModule).bytes :=
      Set.mem_Ico.mpr ⟨by decide, by decide⟩
    exact Set.disjoint_left.mp hdisjoint hmem (Set.mem_Ico.mpr ⟨by decide, by decide⟩)

end KernelImage

end Lbos

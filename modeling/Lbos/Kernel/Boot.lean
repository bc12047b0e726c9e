import Mathlib.Order.Interval.Finset.Nat
import Lbos.Kernel.Invariant
import Lbos.Mem.KernelMap

/-! The booted kernel satisfies the invariant, so every reachable state does, and its reserved
memory is as booting left it. -/

namespace Lbos

open Lib Mem

namespace KernelImage

variable (img : KernelImage) (ram bitmap : Mem)

theorem reserved_bootMem : (img.bootMem ram bitmap).reserved =
    (img.physEnd.toNat + 4095) / 4096 + 1 :=
  img.toKernelLayout.toNat_kernelEndFrame

theorem freeFrame_bootMem {n : Nat} (h : (img.bootMem ram bitmap).FreeFrame n) :
    (img.bootMem ram bitmap).reserved ≤ n := by
  have hlt : n < 32768 := h.1
  exact ((img.toKernelLayout.free_initMem_iff bitmap hlt).mp h).1

theorem kernelMap_bootMem : KernelMap (img.bootMem ram bitmap).ram img.kernelPageDirectory
    img.kernelPageTable :=
  kernelMap_boot img.directory_aligned img.table_aligned img.directory_ne_table ram

theorem page_reserved {a : Word} (h : a.toNat + 4096 ≤ img.physEnd.toNat) :
    pageOf a < (img.bootMem ram bitmap).reserved := by
  rw [reserved_bootMem, pageOf]
  omega

theorem isolated_bootMem : Isolated (img.bootMem ram bitmap) ∅ where
  higher_half := img.higher_half
  frames_le := Nat.le_refl 32768
  free_ge n hn := img.freeFrame_bootMem ram bitmap hn
  reserved_pos := by
    rw [reserved_bootMem]
    omega
  kernelDir_aligned := img.directory_aligned
  kernelDir_reserved := img.page_reserved ram bitmap img.directory_mem
  kernelTable_reserved i hi hi' t ht := by
    have hmap := (img.kernelMap_bootMem ram bitmap).tableAt img.table_aligned hi'
    rw [show (img.bootMem ram bitmap).kernelPageDirectory = img.kernelPageDirectory from rfl,
      hmap] at ht
    split at ht
    · obtain rfl := Option.some.inj ht
      exact img.page_reserved ram bitmap img.table_mem
    · cases ht
  kernelHalf d hd := absurd hd (Set.notMem_empty d)
  allocated x hx := by
    cases hx with
    | dir hd => exact absurd hd (Set.notMem_empty _)
    | table hd => exact absurd hd (Set.notMem_empty _)
    | page hd => exact absurd hd (Set.notMem_empty _)
  unique x _ hx := by
    cases hx with
    | dir hd => exact absurd hd (Set.notMem_empty _)
    | table hd => exact absurd hd (Set.notMem_empty _)
    | page hd => exact absurd hd (Set.notMem_empty _)

theorem boot_wellFormed : (img.boot ram bitmap).WellFormed := by
  have hfree : ∀ i, ((img.boot ram bitmap).processTable i).state = .free := fun _ => rfl
  have hdirs : (img.boot ram bitmap).dirs = ∅ :=
    Set.eq_empty_of_forall_notMem fun _ ⟨i, hi, _⟩ => hi (hfree i)
  refine ⟨?_, fun i _ hi => absurd (hfree i) hi, nofun, ⟨0, ?_⟩, ⟨[], rfl, fun i => ?_⟩⟩
  · rw [hdirs]
    exact img.isolated_bootMem ram bitmap
  · refine ⟨fun i => iff_of_false (not_not.mpr (hfree i)) (Nat.not_lt_zero _), Nat.zero_le _,
      fun i hi => absurd hi (Nat.not_lt_zero _), fun i hi => absurd hi (Nat.not_lt_zero _),
      .inr ⟨rfl, fun _ _ => rfl⟩, fun i _ hi => absurd hi (Nat.not_lt_zero _), fun _ _ _ => nofun⟩
  · rw [hfree]
    exact ⟨nofun, nofun⟩

/-- What holds in every state of the running kernel. -/
structure Running (k : Kernel) : Prop where
  wellFormed : k.WellFormed
  booted : ∃ ram bitmap, (img.bootMem ram bitmap).Keeps k.mem

variable {img}

theorem running_of_boot {k : Kernel} (h : img.system.init k) : img.Running k := by
  obtain ⟨ram, bitmap, rfl⟩ := h
  exact ⟨img.boot_wellFormed ram bitmap, ram, bitmap, .refl _⟩

/-- The state after a step is that of the call, as no call leaves it unknown. -/
theorem Running.step {k k' : Kernel} {call : Call} (h : img.Running k)
    (hstep : img.system.step k call k') : k.after call = some k' ∧ img.Running k' := by
  obtain ⟨k₁, hafter, hwf, hkeep⟩ := h.wellFormed.after call
  obtain rfl : k' = k₁ := hstep k₁ hafter
  obtain ⟨ram, bitmap, hboot⟩ := h.booted
  exact ⟨hafter, hwf, ram, bitmap, hboot.trans hkeep⟩

theorem running_of_reach {k : Kernel} (h : img.system.Reach k) : img.Running k :=
  h.invariant (fun _ => running_of_boot) fun _ _ _ _ hk _ hstep => (hk.step hstep).2

/-- The kernel's map is as booting left it. -/
theorem kernelMap_of_keeps {ram bitmap : Mem} {pm : PhysMem}
    (h : (img.bootMem ram bitmap).Keeps pm) :
    KernelMap pm.ram pm.kernelPageDirectory pm.kernelPageTable := by
  rw [h.kernelPageDirectory, h.kernelPageTable]
  refine (img.kernelMap_bootMem ram bitmap).congr img.directory_aligned img.table_aligned
    fun x hx => h.ram x ?_
  rcases hx with hx | hx
  · rw [hx]
    exact img.page_reserved ram bitmap img.directory_mem
  · rw [hx]
    exact img.page_reserved ram bitmap img.table_mem

end KernelImage

/-- An image of 128 KiB at the addresses of `link.ld`. -/
def KernelImage.sample : KernelImage where
  toKernelLayout := KernelLayout.sample
  kernelPageDirectory := 0x101000
  kernelPageTable := 0x102000
  processTableAddr := 0xC0104000
  kernelIdle := 0xC0100800
  higher_half := by decide
  directory_aligned := by decide
  table_aligned := by decide
  directory_mem := by decide
  table_mem := by decide
  directory_ne_table := by decide

/-- That image booted with cleared memory. -/
def KernelImage.sampleBoot : Kernel := KernelImage.sample.boot (fun _ => 0) fun _ => 0

theorem KernelImage.sampleBoot_init : KernelImage.sample.system.init KernelImage.sampleBoot :=
  ⟨_, _, rfl⟩

theorem KernelImage.sample_freeFrame {n : Nat} (hlow : 289 ≤ n) (hhigh : n < 8192) :
    KernelImage.sampleBoot.mem.FreeFrame n := by
  have hend : KernelLayout.sample.allocator.kernelEndFrame.toNat = 289 := by decide
  apply (KernelLayout.sample.free_initMem_iff _ (by omega)).mpr
  rw [hend]
  exact ⟨hlow, fun hc => absurd hc.1 (by omega)⟩

theorem KernelImage.sample_freeCount : 7000 ≤ KernelImage.sampleBoot.mem.freeCount := by
  have hsub : (Finset.Ico 289 8192 : Set Nat) ⊆ {n | KernelImage.sampleBoot.mem.FreeFrame n} := by
    intro n hn
    obtain ⟨hlow, hhigh⟩ := Finset.mem_Ico.mp (Finset.mem_coe.mp hn)
    exact KernelImage.sample_freeFrame hlow hhigh
  have hcard := Set.ncard_le_ncard hsub (PhysMem.free_finite _)
  rw [Set.ncard_coe_finset, Nat.card_Ico] at hcard
  exact Nat.le_trans (by decide) hcard

end Lbos

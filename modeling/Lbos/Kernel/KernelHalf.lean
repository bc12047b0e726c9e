import Lbos.Kernel.DirectMap
import Lbos.Kernel.SpawnSupply

/-! The kernel half of the page directories: that of the kernel's own directory, in every process,
and out of reach of user mode. -/

namespace Lbos

open Lib Mem

/-- The tables behind `d` let user mode access `v`: both entries for it are present and carry
`PAGE_USER`. -/
def UserAccess (ram : Mem) (d v : Word) : Prop :=
  ∃ e, entryAt ram d (pdIndex v) (ptIndex v) = some e ∧
    ram.load d (pdIndex v) &&& pageUser ≠ 0 ∧ e &&& pageUser ≠ 0

/-- Directory `d` translates the kernel's addresses as the kernel's own directory does, and lets
user mode access none of them. -/
structure ProtectedKernelHalf (pm : PhysMem) (d : Word) : Prop where
  entries : SharesKernelHalf pm d
  translation : ∀ v ≥ kernelVirtualStart,
    translate pm.ram d v = translate pm.ram pm.kernelPageDirectory v
  no_user : ∀ v ≥ kernelVirtualStart, ¬UserAccess pm.ram d v

section

variable {pm : PhysMem} {dirs : Set Word} {d v : Word}

theorem pdIndex_kernel (h : v ≥ kernelVirtualStart) : 768 ≤ pdIndex v := by
  rw [pdIndex_eq]
  have hv : 0xC0000000 ≤ v.toNat := h
  omega

theorem flag_or {a f m : Word} (ha : PageAligned a) (hm : m.toNat < 4096) (hf : f &&& m = 0) :
    (a ||| f) &&& m = 0 := by
  have ham : a &&& m = 0 := by
    apply BitVec.eq_of_toNat_eq
    have hshift := pageAligned_shift ha
    rw [BitVec.toNat_and, hshift]
    apply Nat.eq_of_testBit_eq
    intro i
    rw [Nat.testBit_and, Nat.testBit_shiftLeft]
    by_cases hi : 12 ≤ i
    · have hpow : 2 ^ 12 ≤ 2 ^ i := Nat.pow_le_pow_right (by omega) hi
      have hlt : m.toNat < 2 ^ i := by omega
      simp [Nat.testBit_lt_two_pow hlt]
    · simp [hi]
  rw [BitVec.and_or_distrib_right, ham, hf]
  rfl

/-- The kernel's one table is entered without `PAGE_USER`. -/
theorem protectedKernelHalf (h : Isolated pm dirs) (hd : d ∈ dirs)
    (hmap : KernelMap pm.ram pm.kernelPageDirectory pm.kernelPageTable)
    (htable : PageAligned pm.kernelPageTable) : ProtectedKernelHalf pm d := by
  have hhalf := h.kernelHalf d hd
  refine ⟨hhalf, fun v hv => ?_, fun v hv haccess => ?_⟩
  · have hsame := h.tableAt_kernel hd (pdIndex_kernel hv) (pdIndex_lt v)
    rw [translate, translate, entryAt, entryAt, hsame]
  · obtain ⟨e, -, huser, -⟩ := haccess
    rw [hhalf _ (pdIndex_kernel hv) (pdIndex_lt v), hmap.directory _ (pdIndex_lt v)] at huser
    split at huser
    · exact huser (flag_or htable (by decide) (by decide))
    · exact huser (by decide)

end

/-- In every reachable state the directories of all processes have the kernel's half, which user
mode cannot access. -/
theorem kernel_half_protected (img : KernelImage) {k : Kernel} (hk : img.system.Reach k) {i : Slot}
    (hi : (k.processTable i).state ≠ .free) :
    ProtectedKernelHalf k.mem (k.processTable i).context.cr3 := by
  have hrun := KernelImage.running_of_reach hk
  obtain ⟨ram, bitmap, hboot⟩ := hrun.booted
  have htable : PageAligned k.mem.kernelPageTable := by
    rw [hboot.kernelPageTable]
    exact img.table_aligned
  exact protectedKernelHalf hrun.wellFormed.isolated ⟨i, hi, rfl⟩
    (KernelImage.kernelMap_of_keeps hboot) htable

theorem kernel_half_protected_sample :
    ∃ k i, KernelImage.sample.system.Reach k ∧ (k.processTable i).state = .running ∧
      ProtectedKernelHalf k.mem (k.processTable i).context.cr3 := by
  obtain ⟨i, d, birth, hnew, -, -, -, hreach⟩ := KernelImage.sample_process
  have hrunning : (((KernelImage.sampleBoot.createProcess 0xC0110000 4096).2.dispatch
      i).processTable i).state = .running := by
    rw [Kernel.dispatch_self]
  refine ⟨_, i, hreach, hrunning, kernel_half_protected .sample hreach ?_⟩
  rw [hrunning]
  exact nofun

end Lbos

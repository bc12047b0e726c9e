import Lbos.Mem.PageTables

/-! The kernel's own paging structures after `init_paging` and `setup_higher_half`: one page table
that maps the first 4 MB, behind entry 768 of the kernel's directory. -/

namespace Lbos

open Lib Mem

/-- `PAGE_PRESENT | PAGE_RW | PAGE_WRITETHROUGH`. -/
def kernelFlags : Word := pagePresent ||| pageRw ||| pageWritethrough

/-- The directory at `d` holds the table at `t` behind entry 768 and nothing else, and the table
maps the first 1024 frames in order. -/
structure KernelMap (ram : Mem) (d t : Word) : Prop where
  directory : ∀ i < 1024, ram.load d i = if i = 768 then t ||| kernelFlags else 0
  table : ∀ i < 1024, ram.load t i = (BitVec.ofNat 32 i * frameSize) ||| kernelFlags

theorem KernelMap.congr {ram ram' : Mem} {d t : Word} (h : KernelMap ram d t) (hd : PageAligned d)
    (ht : PageAligned t) (hram : ∀ x, pageOf x = pageOf d ∨ pageOf x = pageOf t → ram' x = ram x) :
    KernelMap ram' d t := by
  refine ⟨fun i hi => ?_, fun i hi => ?_⟩
  · rw [load_congr hd hi fun x hx => hram x (.inl hx)]
    exact h.directory i hi
  · rw [load_congr ht hi fun x hx => hram x (.inr hx)]
    exact h.table i hi

section Boot

variable {d t : Word}

/-- The loop of `init_paging` fills the table in order. -/
theorem fillTable (hd : PageAligned d) (ht : PageAligned t) (hne : d ≠ t) (ram : Mem) :
    let filled := loop (fun i ram => ram.store t i ((BitVec.ofNat 32 i * frameSize) ||| kernelFlags))
      1024 0 ram
    (∀ i < 1024, filled.load d i = ram.load d i) ∧
      ∀ i < 1024, filled.load t i = (BitVec.ofNat 32 i * frameSize) ||| kernelFlags := by
  have hinv := loop_invariant
    (fun i (ram : Mem) => ram.store t i ((BitVec.ofNat 32 i * frameSize) ||| kernelFlags))
    (fun j (s : Mem) => (∀ i < 1024, s.load d i = ram.load d i) ∧
      ∀ i < j, s.load t i = (BitVec.ofNat 32 i * frameSize) ||| kernelFlags)
    (n := 1024) (i := 0) (s := ram) ⟨fun _ _ => rfl, fun i hi => absurd hi (by omega)⟩
    fun j s _ hj hs => ⟨fun i hi => ?_, fun i hi => ?_⟩
  · exact hinv
  · rw [load_store_page_ne _ _ ht hd (by omega) hi hne]
    exact hs.1 i hi
  · rw [load_store _ _ _ (by omega) (by omega)]
    split
    · next heq => rw [heq]
    · exact hs.2 i (by omega)

theorem kernelMap_boot (hd : PageAligned d) (ht : PageAligned t) (hne : d ≠ t) (ram : Mem) :
    KernelMap (setupHigherHalf d (initPaging d t ram)) d t := by
  have hidx : kernelPdtIdx = 768 := by decide
  rw [setupHigherHalf, initPaging, hidx]
  obtain ⟨hdir, htable⟩ := fillTable hd ht hne
    ((((memset (memset ram d 0 4096) t 0 4096).store d 0 (t ||| kernelFlags)).store d 768
      (t ||| kernelFlags)))
  have hclear : ∀ i < 1024, (memset (memset ram d 0 4096) t 0 4096).load d i = 0 := fun i hi => by
    rw [← load_memset_zero ram hd hi]
    refine load_congr hd hi fun x hx => memset_page_outside _ _ ht (Nat.le_refl _) fun hxt => ?_
    exact hne (hd.pageOf_inj ht (hx.symm.trans hxt))
  refine ⟨fun i hi => ?_, fun i hi => ?_⟩
  · rw [load_store _ _ _ (by omega) (by omega)]
    by_cases h0 : 0 = i
    · rw [if_pos h0, if_neg (by omega)]
    · rw [if_neg h0]
      refine (hdir i hi).trans ?_
      rw [load_store _ _ _ (by omega) (by omega)]
      by_cases h768 : 768 = i
      · rw [if_pos h768, if_pos h768.symm]
      · rw [if_neg h768, if_neg (Ne.symm h768), load_store _ _ _ (by omega) (by omega), if_neg h0,
          hclear i hi]
  · rw [load_store_page_ne _ _ hd ht (by omega) hi (Ne.symm hne)]
    exact htable i hi

end Boot

/-! ### What the map translates -/

variable {ram : Mem} {d t : Word}

theorem kernelFlags_lt : kernelFlags.toNat < 4096 := by decide

theorem KernelMap.tableAt (h : KernelMap ram d t) (ht : PageAligned t) {i : Nat} (hi : i < 1024) :
    tableAt ram d i = if i = 768 then some t else none := by
  rw [Lbos.tableAt, h.directory i hi]
  split
  · rw [if_pos (present_or (by decide)), pageBase_or ht kernelFlags_lt]
  · rfl

end Lbos

import Lbos.Mem.PageFrameAllocator

/-! The bitmap after `init_page_frame_allocator`, in the memory that it describes: which frames are
marked, and which of the frames that `alloc_frame` then hands out overlap the bitmap's words.  The
bitmap's elements are 32-bit words that hold eight frames each, so the words span four times the
bytes that `bitmap_size` counts, and the three frames behind the reserved region hold the rest. -/

namespace Lbos

open Lib

/-- The arguments of `init_page_frame_allocator`, with the image and the bitmap inside the
128 MB. -/
structure KernelLayout where
  physStart : Word
  physEnd : Word
  virtStart : Word
  virtEnd : Word
  start_le_end : physStart ≤ physEnd
  end_le : physEnd.toNat + 4096 ≤ 2 ^ 27

theorem toNat_alignUp {x : Word} (h : x.toNat + 4096 ≤ 2 ^ 32) :
    (alignUp x).toNat = (x.toNat + 4095) / 4096 * 4096 := by
  have hmask : alignUp x = Mem.pageBase (x + frameSize - 1) := rfl
  have hsum : (x + frameSize - 1).toNat = x.toNat + 4095 := by
    simp only [frameSize]
    bv_omega
  rw [hmask, Mem.toNat_pageBase, hsum]

namespace KernelLayout

variable (L : KernelLayout)

def allocator : PageFrameAllocator :=
  .ofLayout L.physStart L.physEnd L.virtStart L.virtEnd

/-- The memory after `init_page_frame_allocator`. -/
def initMem (m : Mem) : Mem :=
  (initPageFrameAllocator L.physStart L.physEnd L.virtStart L.virtEnd m).2

theorem totalFrames_eq : L.allocator.totalFrames.toNat = 32768 := rfl

theorem bitmapPhys_eq : L.allocator.bitmapPhys = alignUp L.physEnd := by
  show alignUp L.physEnd + _ - _ = _
  exact BitVec.add_sub_cancel ..

theorem toNat_bitmapPhys :
    L.allocator.bitmapPhys.toNat = (L.physEnd.toNat + 4095) / 4096 * 4096 := by
  rw [bitmapPhys_eq, toNat_alignUp (by have := L.end_le; omega)]

/-- The reserved region is the one that starts at address 0 and ends with the bitmap's first
page. -/
theorem toNat_kernelEndFrame :
    L.allocator.kernelEndFrame.toNat = (L.physEnd.toNat + 4095) / 4096 + 1 := by
  have hle := L.end_le
  have ha := toNat_alignUp (x := L.physEnd) (by omega)
  show ((alignUp L.physEnd + 4096) / 4096).toNat = _
  rw [BitVec.toNat_udiv, BitVec.toNat_add, ha]
  simp
  omega

end KernelLayout

namespace PageFrameAllocator

variable (g : PageFrameAllocator)

theorem marked_setBits (m : Mem) (n : Nat) {i : Word} {k : Nat} (h : i.toNat + n < 2 ^ 32)
    (hk : k < 2 ^ 32) :
    g.marked (g.setBits m n i) k =
      (decide (i.toNat ≤ k ∧ k < i.toNat + n) || g.marked m k) := by
  induction n generalizing m i with
  | zero =>
    have hempty : ¬(i.toNat ≤ k ∧ k < i.toNat + 0) := by omega
    rw [setBits, decide_eq_false hempty, Bool.false_or]
  | succ n ih =>
    have hi : (i + 1).toNat = i.toNat + 1 := by bv_omega
    rw [setBits, ih _ (by omega), marked_setBit _ _ _ hk, hi, ← Bool.or_assoc, ← Bool.decide_or]
    congr 2
    exact propext (by omega)

/-- Clearing the first page of the bitmap clears the bits of frames below 8192 only. -/
theorem marked_memset (m : Mem) (hb : Mem.PageAligned g.bitmapPhys) {k : Nat} (hk : k < 2 ^ 32) :
    g.marked (memset m g.bitmapPhys 0 4096) k = (decide (8192 ≤ k) && g.marked m k) := by
  simp only [marked]
  by_cases h : 8192 ≤ k
  · have hload : (memset m g.bitmapPhys 0 4096).load g.bitmapPhys (k / 8) =
        m.load g.bitmapPhys (k / 8) := by
      refine Mem.read32_congr fun x hx => ?_
      rw [memset_apply _ _ _ _ (by omega), if_neg ?_]
      simp only [BitVec.toNat_sub, BitVec.toNat_add, BitVec.toNat_ofNat] at *
      omega
    rw [hload]
    simp [h]
  · rw [load_memset_zero m hb (by omega)]
    simp [h]

end PageFrameAllocator

namespace KernelLayout

variable (L : KernelLayout)

/-- The bitmap after initialisation: everything up to the end of its first page is marked, the
other frames below 8192 are free, and frames from 8192 on keep the bit that memory held. -/
theorem marked_initMem (m : Mem) {k : Nat} (hk : k < 2 ^ 32) :
    L.allocator.marked (L.initMem m) k =
      (decide (k < L.allocator.kernelEndFrame.toNat) ||
        decide (8192 ≤ k) && L.allocator.marked m k) := by
  have hle := L.end_le
  have hend := L.toNat_kernelEndFrame
  have hstart : (L.physStart / frameSize).toNat = L.physStart.toNat / 4096 := by simp [frameSize]
  have horder : L.physStart.toNat ≤ L.physEnd.toNat := L.start_le_end
  have haligned : Mem.PageAligned L.allocator.bitmapPhys := by
    simp only [Mem.PageAligned, toNat_bitmapPhys]
    omega
  have hinit : L.initMem m = L.allocator.setBits
      (L.allocator.setBits (memset m L.allocator.bitmapPhys 0 4096)
        (L.physStart / frameSize).toNat 0)
      (L.allocator.kernelEndFrame.toNat - (L.physStart / frameSize).toNat)
      (L.physStart / frameSize) := rfl
  rw [hinit, hstart, hend, PageFrameAllocator.marked_setBits _ _ _ (by omega) hk,
    PageFrameAllocator.marked_setBits _ _ _ (by simp; omega) hk,
    PageFrameAllocator.marked_memset _ _ haligned hk, ← Bool.or_assoc, ← Bool.decide_or, hstart]
  congr 2
  exact propext (by simp; omega)

theorem marked_zero (m : Mem) : L.allocator.marked (L.initMem m) 0 = true := by
  rw [marked_initMem _ _ (by omega), toNat_kernelEndFrame]
  simp

end KernelLayout

/-! ### The bitmap's words and the frames handed out -/

/-- The physical address of the word that `set_bit`, `clear_bit` and `test_bit` access for a
frame. -/
def PageFrameAllocator.bitmapWord (g : PageFrameAllocator) (frameIdx : Word) : Word :=
  g.virtToPhys (g.frameBitmap + 4 * (frameIdx / bitsPerByte))

/-- No byte of a word that the bit operations access lies in a frame that `alloc_frame` hands out
in a run from `m`. -/
def PageFrameAllocator.BitmapApart (g : PageFrameAllocator) (m : Mem) : Prop :=
  ∀ i < g.totalFrames, ∀ f, g.AllocReturns m f → ∀ b < (4 : Word),
    frameSize ≤ g.bitmapWord i + b - f

namespace KernelLayout

variable (L : KernelLayout)

theorem toNat_bitmapWord {i : Word} (hi : i.toNat < 32768) :
    (L.allocator.bitmapWord i).toNat =
      (L.physEnd.toNat + 4095) / 4096 * 4096 + 4 * (i.toNat / 8) := by
  have hle := L.end_le
  have hphys := L.toNat_bitmapPhys
  have hmul : (4 * (i / bitsPerByte)).toNat = 4 * (i.toNat / 8) := by
    rw [BitVec.toNat_mul, PageFrameAllocator.toNat_byteIdx]
    simp
    omega
  rw [PageFrameAllocator.bitmapWord, PageFrameAllocator.virtToPhys_add, BitVec.toNat_add, hmul]
  rw [PageFrameAllocator.bitmapPhys] at hphys
  omega

/-- The words of the bitmap end within the three frames behind the reserved region. -/
theorem bitmapWord_apart {i b : Word} (hi : i.toNat < 32768) (hb : b.toNat < 4) {k : Nat}
    (hk : k < 32768) (hend : L.allocator.kernelEndFrame.toNat + 3 ≤ k) :
    4096 ≤ (L.allocator.bitmapWord i + b - PageFrameAllocator.frameAddr k).toNat := by
  have hle := L.end_le
  have haddr := L.toNat_bitmapWord hi
  rw [toNat_kernelEndFrame] at hend
  rw [PageFrameAllocator.frameAddr, BitVec.toNat_sub, BitVec.toNat_add, haddr, BitVec.toNat_ofNat]
  omega

/-- Frame `kernel_end_frame + d` is the place of the words of frames `8192 * (d + 1)` and on. -/
theorem bitmapWord_eq {d : Nat} (hd : d < 3) :
    L.allocator.bitmapWord (BitVec.ofNat 32 (8192 * (d + 1))) =
      PageFrameAllocator.frameAddr (L.allocator.kernelEndFrame.toNat + d) := by
  have hle := L.end_le
  apply BitVec.eq_of_toNat_eq
  rw [toNat_bitmapWord _ (by rw [BitVec.toNat_ofNat]; omega), toNat_kernelEndFrame,
    PageFrameAllocator.frameAddr, BitVec.toNat_ofNat, BitVec.toNat_ofNat]
  omega

theorem free_initMem_iff (m : Mem) {k : Nat} (hk : k < 32768) :
    L.allocator.Free (L.initMem m) k ↔ L.allocator.kernelEndFrame.toNat ≤ k ∧
      ¬(8192 ≤ k ∧ L.allocator.marked m k = true) := by
  rw [PageFrameAllocator.Free, L.marked_initMem m (by omega), totalFrames_eq]
  simp [hk]

/-- A free frame among the three behind the reserved region is handed out, and words of the bitmap
lie in it. -/
theorem not_bitmapApart (m : Mem) {d : Nat} (hd : d < 3)
    (hfree : L.allocator.Free (L.initMem m) (L.allocator.kernelEndFrame.toNat + d)) :
    ¬L.allocator.BitmapApart (L.initMem m) := by
  intro h
  have hself : ∀ a : Word, a + 0 - a = 0 := fun a => by bv_omega
  have hapart := h (BitVec.ofNat 32 (8192 * (d + 1)))
    (by rw [BitVec.lt_def, totalFrames_eq, BitVec.toNat_ofNat]; omega) _
    ((PageFrameAllocator.allocReturns_iff _ _ (L.marked_zero m) _).mpr ⟨_, hfree, rfl⟩) 0
    (by decide)
  rw [L.bitmapWord_eq hd, hself] at hapart
  exact absurd hapart (by decide)

/-- The bitmap keeps apart from every frame that is handed out exactly when each frame among the
three behind the reserved region that exists is above frame 8191 and was marked by what memory
held before initialisation. -/
theorem bitmapApart_iff (m : Mem) :
    L.allocator.BitmapApart (L.initMem m) ↔
      ∀ j, L.allocator.kernelEndFrame ≤ j → j < L.allocator.kernelEndFrame + 3 →
        j < L.allocator.totalFrames → 8192 ≤ j ∧ L.allocator.testBit m j = true := by
  have hle := L.end_le
  have hend := L.toNat_kernelEndFrame
  have hplus : (L.allocator.kernelEndFrame + 3).toNat = L.allocator.kernelEndFrame.toNat + 3 := by
    rw [BitVec.toNat_add]
    simp
    omega
  constructor
  · intro h j hlow hhigh htotal
    have hlow : L.allocator.kernelEndFrame.toNat ≤ j.toNat := hlow
    have hhigh : j.toNat < L.allocator.kernelEndFrame.toNat + 3 := hplus ▸ hhigh
    have htotal : j.toNat < 32768 := htotal
    by_contra hbad
    rw [PageFrameAllocator.testBit_eq] at hbad
    have hfree : L.allocator.Free (L.initMem m) j.toNat :=
      (L.free_initMem_iff m htotal).mpr ⟨hlow, hbad⟩
    obtain ⟨d, hd⟩ := Nat.exists_eq_add_of_le hlow
    exact L.not_bitmapApart m (d := d) (by omega) (hd ▸ hfree) h
  · intro h i hi f hf b hb
    obtain ⟨k, hk, rfl⟩ := (PageFrameAllocator.allocReturns_iff _ _ (L.marked_zero m) _).mp hf
    have hk32 : k < 32768 := hk.1
    obtain ⟨hlow, hbad⟩ := (L.free_initMem_iff m hk32).mp hk
    refine L.bitmapWord_apart hi hb hk32 ?_
    by_contra hclose
    have hk' : (BitVec.ofNat 32 k).toNat = k := by rw [BitVec.toNat_ofNat]; omega
    obtain ⟨h1, h2⟩ := h (BitVec.ofNat 32 k) (by rw [BitVec.le_def, hk']; exact hlow)
      (by rw [BitVec.lt_def, hk', hplus]; omega) (by rw [BitVec.lt_def, hk']; exact hk.1)
    rw [PageFrameAllocator.testBit_eq, hk'] at h2
    rw [BitVec.le_def, hk'] at h1
    exact hbad ⟨h1, h2⟩

/-- The addresses of `link.ld`, for an image of 128 KiB. -/
def sample : KernelLayout where
  physStart := 0x100000
  physEnd := 0x120000
  virtStart := 0xC0100000
  virtEnd := 0xC0120000
  start_le_end := by decide
  end_le := by decide

/-- With that image and cleared memory, the first frame handed out is `0x121000`, which holds the
bitmap word of frame 8192. -/
theorem sample_bitmap_overlap :
    sample.allocator.AllocReturns (sample.initMem fun _ => 0) 0x121000 ∧
      sample.allocator.bitmapWord 8192 = 0x121000 ∧
      ¬sample.allocator.BitmapApart (sample.initMem fun _ => 0) := by
  have hend : sample.allocator.kernelEndFrame.toNat = 289 := by decide
  have hfree : sample.allocator.Free (sample.initMem fun _ => 0) 289 :=
    (sample.free_initMem_iff _ (by decide)).mpr ⟨by omega, by omega⟩
  exact ⟨(PageFrameAllocator.allocReturns_iff _ _ (sample.marked_zero _) _).mpr ⟨289, hfree, rfl⟩,
    by decide, sample.not_bitmapApart _ (d := 0) (by decide) (hend ▸ hfree)⟩

/-! ### Exactness -/

/-- The bitmap marks the frames below the end of the bitmap region and no others. -/
def ExactBitmap (m : Mem) : Prop :=
  ∀ i < L.allocator.totalFrames,
    L.allocator.testBit m i = true ↔ i < L.allocator.kernelEndFrame

/-- The bitmap is exact after initialisation exactly when memory did not hold a bit of a frame from
8192 on that lies behind the reserved region. -/
theorem exactBitmap_iff (m : Mem) :
    L.ExactBitmap (L.initMem m) ↔ ∀ i < L.allocator.totalFrames, 8192 ≤ i →
      L.allocator.kernelEndFrame ≤ i → L.allocator.testBit m i = false := by
  refine forall₂_congr fun i _ => ?_
  rw [PageFrameAllocator.testBit_eq, PageFrameAllocator.testBit_eq, L.marked_initMem m i.isLt,
    Bool.or_eq_true, decide_eq_true_iff, Bool.and_eq_true, decide_eq_true_iff]
  have hlt : i < L.allocator.kernelEndFrame ↔ i.toNat < L.allocator.kernelEndFrame.toNat := Iff.rfl
  have hle : L.allocator.kernelEndFrame ≤ i ↔ L.allocator.kernelEndFrame.toNat ≤ i.toNat := Iff.rfl
  have hlow : (8192 : Word) ≤ i ↔ 8192 ≤ i.toNat := Iff.rfl
  rw [hlt, hle, hlow]
  constructor
  · intro h h8192 hend
    refine Bool.eq_false_iff.mpr fun hmarked => ?_
    exact absurd (h.mp (.inr ⟨h8192, hmarked⟩)) (Nat.not_lt.mpr hend)
  · refine fun h => ⟨fun hc => ?_, .inl⟩
    rcases hc with hc | ⟨h8192, hmarked⟩
    · exact hc
    · by_contra hend
      exact Bool.false_ne_true ((h h8192 (Nat.not_lt.mp hend)).symm.trans hmarked)

/-- With an image of 128 KiB and memory full of ones, frame 8192 is marked though nothing reserves it. -/
theorem sample_bitmap_garbage : ¬sample.ExactBitmap (sample.initMem fun _ => 0xFF) := by
  rw [exactBitmap_iff]
  intro h
  have hend : sample.allocator.kernelEndFrame ≤ 8192 := by decide
  have hmarked : sample.allocator.testBit (fun _ => 0xFF) 8192 = true := by decide
  exact Bool.false_ne_true ((h 8192 (by decide) (by decide) hend).symm.trans hmarked)

end KernelLayout

end Lbos

import Lbos.LibC

/-! The page frame allocator of `mem/page_frame_allocator.c`.  The bitmap is an array of 32-bit
words behind the kernel pointer `frame_bitmap`, and a kernel pointer that `phys_to_virt` gives
reaches the physical bytes it names.  The functions here read and write the bitmap in the memory
they are given: the physical memory itself for the results on the bitmap's place, and a memory of
its own for the results that take the bitmap apart from the frames. -/

namespace Lbos

open Lib

def frameSize : Word := 4096

def bitsPerByte : Word := 8

/-- The static variables of `page_frame_allocator.c`. -/
structure PageFrameAllocator where
  frameBitmap : Word
  bitmapSize : Word
  totalFrames : Word
  kernelPhysicalStart : Word
  kernelPhysicalEnd : Word
  kernelVirtualStart : Word
  kernelVirtualEnd : Word
  totalFrames_le : totalFrames.toNat ≤ 2 ^ 20

namespace PageFrameAllocator

variable (g : PageFrameAllocator)

def physToVirt (physAddr : Word) : Word :=
  physAddr + (g.kernelVirtualStart - g.kernelPhysicalStart)

def virtToPhys (virtAddr : Word) : Word :=
  virtAddr - (g.kernelVirtualStart - g.kernelPhysicalStart)

/-- Element `i` of the array of words behind a kernel pointer. -/
def load (m : Mem) (ptr : Word) (i : Nat) : Word := m.load (g.virtToPhys ptr) i

def store (m : Mem) (ptr : Word) (i : Nat) (v : Word) : Mem := m.store (g.virtToPhys ptr) i v

def setBit (m : Mem) (frameIdx : Word) : Mem :=
  let byteIdx := frameIdx / bitsPerByte
  let bitIdx := frameIdx % bitsPerByte
  g.store m g.frameBitmap byteIdx.toNat
    (g.load m g.frameBitmap byteIdx.toNat ||| ((1 : Word) <<< bitIdx))

def clearBit (m : Mem) (frameIdx : Word) : Mem :=
  let byteIdx := frameIdx / bitsPerByte
  let bitIdx := frameIdx % bitsPerByte
  g.store m g.frameBitmap byteIdx.toNat
    (g.load m g.frameBitmap byteIdx.toNat &&& ~~~((1 : Word) <<< bitIdx))

def testBit (m : Mem) (frameIdx : Word) : Bool :=
  let byteIdx := frameIdx / bitsPerByte
  let bitIdx := frameIdx % bitsPerByte
  (g.load m g.frameBitmap byteIdx.toNat &&& ((1 : Word) <<< bitIdx)) != 0

/-- The loop of `alloc_frame`, at index `i` with `n` indices to go. -/
def allocLoop (m : Mem) : Nat → Word → Word × Mem
  | 0, _ => (0, m)
  | n + 1, i => if g.testBit m i then allocLoop m n (i + 1) else (i * frameSize, g.setBit m i)

def allocFrame (m : Mem) : Word × Mem := g.allocLoop m g.totalFrames.toNat 0

def freeFrame (m : Mem) (frameAddr : Word) : Mem :=
  let frameIdx := frameAddr / frameSize
  if frameIdx < g.totalFrames then g.clearBit m frameIdx else m

def isFrameAllocated (m : Mem) (frameAddr : Word) : Bool :=
  let frameIdx := frameAddr / frameSize
  if frameIdx < g.totalFrames then g.testBit m frameIdx else true

/-- A loop that sets `n` bits from index `i` on. -/
def setBits (m : Mem) : Nat → Word → Mem
  | 0, _ => m
  | n + 1, i => setBits (g.setBit m i) n (i + 1)

end PageFrameAllocator

def totalPhysicalMemory : Word := 1024 * 1024 * 128

/-- `(x + FRAME_SIZE - 1) & ~(FRAME_SIZE - 1)`. -/
def alignUp (x : Word) : Word := (x + frameSize - 1) &&& ~~~(frameSize - 1)

/-- The variables that `init_page_frame_allocator` sets. -/
def PageFrameAllocator.ofLayout (physStart physEnd virtStart virtEnd : Word) :
    PageFrameAllocator where
  frameBitmap := alignUp physEnd + (virtStart - physStart)
  bitmapSize := alignUp ((totalPhysicalMemory / frameSize + bitsPerByte - 1) / bitsPerByte)
  totalFrames := totalPhysicalMemory / frameSize
  kernelPhysicalStart := physStart
  kernelPhysicalEnd := physEnd
  kernelVirtualStart := virtStart
  kernelVirtualEnd := virtEnd
  totalFrames_le := by decide

/-- `kernel_end_frame`: the end of the bitmap region, as a frame index. -/
def PageFrameAllocator.kernelEndFrame (g : PageFrameAllocator) : Word :=
  (alignUp g.kernelPhysicalEnd + g.bitmapSize) / frameSize

def initPageFrameAllocator (physStart physEnd virtStart virtEnd : Word) (m : Mem) :
    PageFrameAllocator × Mem :=
  let g := PageFrameAllocator.ofLayout physStart physEnd virtStart virtEnd
  let m := memset m (g.virtToPhys g.frameBitmap) 0 g.bitmapSize.toNat
  let kernelStartFrame := physStart / frameSize
  let m := g.setBits m kernelStartFrame.toNat 0
  let m := g.setBits m (g.kernelEndFrame.toNat - kernelStartFrame.toNat) kernelStartFrame
  (g, m)

namespace PageFrameAllocator

variable (g : PageFrameAllocator) (m : Mem)

@[simp] theorem virtToPhys_physToVirt (a : Word) : g.virtToPhys (g.physToVirt a) = a := by
  rw [virtToPhys, physToVirt, BitVec.add_sub_cancel]

theorem virtToPhys_add (p x : Word) : g.virtToPhys (p + x) = g.virtToPhys p + x := by
  simp only [virtToPhys]
  bv_omega

/-! ### The bits of the bitmap -/

/-- The physical address of the bitmap. -/
def bitmapPhys : Word := g.virtToPhys g.frameBitmap

/-- Bit `n` of the bitmap: bit `n % 8` of word `n / 8`. -/
def marked (n : Nat) : Bool := (m.load g.bitmapPhys (n / 8)).getLsbD (n % 8)

theorem toNat_byteIdx (i : Word) : (i / bitsPerByte).toNat = i.toNat / 8 := by
  simp [bitsPerByte]

theorem bitMask_eq (i : Word) :
    (1 : Word) <<< (i % bitsPerByte) = BitVec.twoPow 32 (i.toNat % 8) := by
  rw [BitVec.shiftLeft_eq', BitVec.twoPow_eq]
  simp [bitsPerByte]

theorem testBit_eq (i : Word) : g.testBit m i = g.marked m i.toNat := by
  simp only [testBit, load, marked, bitmapPhys, toNat_byteIdx, bitMask_eq, BitVec.and_twoPow]
  have hpos : BitVec.twoPow 32 (i.toNat % 8) ≠ 0 := by
    intro h
    have h2 := congrArg (·.getLsbD (i.toNat % 8)) h
    simp [BitVec.getLsbD_twoPow] at h2
    omega
  split <;> simp_all

/-- Distinct words of the bitmap hold distinct groups of eight frames, so a bit operation on one
frame changes no other frame's bit. -/
theorem marked_setBit (i : Word) {n : Nat} (hn : n < 2 ^ 32) :
    g.marked (g.setBit m i) n = (decide (n = i.toNat) || g.marked m n) := by
  simp only [marked, setBit, store, load, toNat_byteIdx, bitMask_eq, bitmapPhys]
  rw [Mem.load_store m _ _ (by omega) (by omega)]
  by_cases hw : i.toNat / 8 = n / 8
  · rw [if_pos hw, BitVec.getLsbD_or, BitVec.getLsbD_twoPow, hw]
    by_cases hb : n = i.toNat
    · subst hb
      simp; omega
    · have hmod : i.toNat % 8 ≠ n % 8 := by omega
      simp [hb, hmod]
  · have hne : n ≠ i.toNat := by rintro rfl; exact hw rfl
    simp [hw, hne]

theorem marked_clearBit (i : Word) {n : Nat} (hn : n < 2 ^ 32) :
    g.marked (g.clearBit m i) n = (decide (n ≠ i.toNat) && g.marked m n) := by
  simp only [marked, clearBit, store, load, toNat_byteIdx, bitMask_eq, bitmapPhys]
  rw [Mem.load_store m _ _ (by omega) (by omega)]
  by_cases hw : i.toNat / 8 = n / 8
  · rw [if_pos hw, BitVec.getLsbD_and, BitVec.getLsbD_not, BitVec.getLsbD_twoPow, hw]
    by_cases hb : n = i.toNat
    · subst hb
      simp
    · have hmod : i.toNat % 8 ≠ n % 8 := by omega
      have hlt : n % 8 < 32 := by omega
      simp [hb, hmod, hlt]
  · have hne : n ≠ i.toNat := by rintro rfl; exact hw rfl
    simp [hw, hne]

/-! ### First fit -/

/-- Frame `k` exists and is not marked. -/
def Free (k : Nat) : Prop := k < g.totalFrames.toNat ∧ g.marked m k = false

theorem Free.lt {k : Nat} (h : g.Free m k) : k < 2 ^ 20 :=
  Nat.lt_of_lt_of_le h.1 g.totalFrames_le

theorem not_free_of_marked {k : Nat} (h : g.marked m k = true) : ¬g.Free m k :=
  fun hf => absurd (h.symm.trans hf.2) (by simp)

/-- The address of frame `k`. -/
def frameAddr (k : Nat) : Word := BitVec.ofNat 32 (k * 4096)

theorem free_setBit {k n : Nat} (hk : k < 2 ^ 20) :
    g.Free (g.setBit m (BitVec.ofNat 32 k)) n ↔ g.Free m n ∧ n ≠ k := by
  have htotal := g.totalFrames_le
  simp only [Free]
  constructor
  · rintro ⟨hn, hm⟩
    rw [marked_setBit _ _ _ (by omega), BitVec.toNat_ofNat, Nat.mod_eq_of_lt (by omega)] at hm
    simp at hm
    exact ⟨⟨hn, hm.2⟩, hm.1⟩
  · rintro ⟨⟨hn, hm⟩, hne⟩
    rw [marked_setBit _ _ _ (by omega), BitVec.toNat_ofNat, Nat.mod_eq_of_lt (by omega)]
    simp [hm, hne, hn]

theorem allocLoop_cases (n : Nat) (i : Word) (h : i.toNat + n ≤ 2 ^ 20) :
    (∃ k, i.toNat ≤ k ∧ k < i.toNat + n ∧ g.marked m k = false ∧
      (∀ j, i.toNat ≤ j → j < k → g.marked m j = true) ∧
      g.allocLoop m n i = (frameAddr k, g.setBit m (BitVec.ofNat 32 k))) ∨
    ((∀ j, i.toNat ≤ j → j < i.toNat + n → g.marked m j = true) ∧ g.allocLoop m n i = (0, m)) := by
  induction n generalizing i with
  | zero => exact .inr ⟨fun j h1 h2 => by omega, rfl⟩
  | succ n ih =>
    have hi : (i + 1).toNat = i.toNat + 1 := by bv_omega
    simp only [allocLoop, testBit_eq]
    cases hm : g.marked m i.toNat with
    | false =>
      refine .inl ⟨i.toNat, Nat.le_refl _, by omega, hm, fun j h1 h2 => by omega, ?_⟩
      simp only [frameAddr, BitVec.ofNat_toNat, BitVec.setWidth_eq, Bool.false_eq_true, if_false,
        Prod.mk.injEq, and_true]
      apply BitVec.eq_of_toNat_eq
      simp [frameSize]
    | true =>
      simp only [if_true]
      rcases ih (i + 1) (by omega) with ⟨k, h1, h2, h3, h4, h5⟩ | ⟨hall, hr⟩
      · refine .inl ⟨k, by omega, by omega, h3, fun j hj hjk => ?_, h5⟩
        rcases Nat.eq_or_lt_of_le hj with rfl | hlt
        · exact hm
        · exact h4 j (by omega) hjk
      · refine .inr ⟨fun j hj hjn => ?_, hr⟩
        rcases Nat.eq_or_lt_of_le hj with rfl | hlt
        · exact hm
        · exact hall j (by omega) (by omega)

/-- `alloc_frame` takes the least free frame, or fails and changes nothing when none is free. -/
theorem allocFrame_cases :
    (∃ k, g.Free m k ∧ (∀ j < k, ¬g.Free m j) ∧
      g.allocFrame m = (frameAddr k, g.setBit m (BitVec.ofNat 32 k))) ∨
    ((∀ k, ¬g.Free m k) ∧ g.allocFrame m = (0, m)) := by
  have h0 : (0 : Word).toNat = 0 := rfl
  rcases g.allocLoop_cases m g.totalFrames.toNat 0 (by simpa using g.totalFrames_le) with
    ⟨k, -, hk, hm, hleast, hr⟩ | ⟨hall, hr⟩
  · exact .inl ⟨k, ⟨by omega, hm⟩, fun j hj => g.not_free_of_marked m (hleast j (by omega) hj), hr⟩
  · refine .inr ⟨fun k hf => g.not_free_of_marked m ?_ hf, hr⟩
    exact hall k (by omega) (by have := hf.1; omega)

/-- The memory after `n` calls of `alloc_frame`. -/
def allocRun (m : Mem) : Nat → Mem
  | 0 => m
  | n + 1 => allocRun (g.allocFrame m).2 n

/-- `f` is what some call of `alloc_frame` in a run from `m` returns, other than its failure
value. -/
def AllocReturns (f : Word) : Prop := ∃ n, (g.allocFrame (g.allocRun m n)).1 = f ∧ f ≠ 0

theorem free_of_free_allocRun {n k : Nat} (h : g.Free (g.allocRun m n) k) : g.Free m k := by
  induction n generalizing m with
  | zero => exact h
  | succ n ih =>
    have h1 := ih _ h
    rcases g.allocFrame_cases m with ⟨j, hj, -, hr⟩ | ⟨-, hr⟩
    · rw [hr] at h1
      exact ((g.free_setBit m hj.lt).mp h1).1
    · rwa [hr] at h1

/-- A free frame is returned once the free frames below it are taken; the induction is on the
distance from a bound `b` below which no frame is free. -/
theorem exists_allocRun {k b : Nat} (hk : g.Free m k) (hb : ∀ j < b, ¬g.Free m j) (hbk : b ≤ k) :
    ∃ n, (g.allocFrame (g.allocRun m n)).1 = frameAddr k := by
  obtain ⟨d, rfl⟩ := Nat.exists_eq_add_of_le hbk
  induction d generalizing m b with
  | zero =>
    refine ⟨0, ?_⟩
    rcases g.allocFrame_cases m with ⟨j, hj, hleast, hr⟩ | ⟨hnone, -⟩
    · obtain rfl : j = b := by
        rcases Nat.lt_trichotomy j b with h | h | h
        · exact absurd hj (hb j h)
        · exact h
        · exact absurd hk (hleast b h)
      rw [allocRun, hr]
      rfl
    · exact absurd hk (hnone b)
  | succ d ih =>
    have hnext : b + 1 + d = b + (d + 1) := by omega
    by_cases hfree : g.Free m b
    · have hr : g.allocFrame m = (frameAddr b, g.setBit m (BitVec.ofNat 32 b)) := by
        rcases g.allocFrame_cases m with ⟨j, hj, hleast, hr⟩ | ⟨hnone, -⟩
        · rcases Nat.lt_trichotomy j b with h | rfl | h
          · exact absurd hj (hb j h)
          · exact hr
          · exact absurd hfree (hleast b h)
        · exact absurd hfree (hnone b)
      have hlt : b < 2 ^ 20 := hfree.lt
      have hb' : ∀ j < b + 1, ¬g.Free (g.setBit m (BitVec.ofNat 32 b)) j := fun j hj hf => by
        obtain ⟨hf, hne⟩ := (g.free_setBit m hlt).mp hf
        exact hb j (by omega) hf
      obtain ⟨n, hn⟩ := ih _ hb'
        ((g.free_setBit m hlt).mpr ⟨by rwa [hnext], by omega⟩) (by omega)
      exact ⟨n + 1, by rw [allocRun, hr, hn, hnext]⟩
    · have hb' : ∀ j < b + 1, ¬g.Free m j := fun j hj => by
        rcases Nat.lt_succ_iff_lt_or_eq.mp hj with h | rfl
        · exact hb j h
        · exact hfree
      obtain ⟨n, hn⟩ := ih m hb' (by rwa [hnext]) (by omega)
      exact ⟨n, by rw [hn, hnext]⟩

theorem frameAddr_ne_zero {k : Nat} (hk : k ≠ 0) (h : k < 2 ^ 20) : frameAddr k ≠ 0 := by
  intro h0
  have := congrArg BitVec.toNat h0
  simp [frameAddr] at this
  omega

/-- Over a run of `alloc_frame` calls exactly the free frames are handed out. -/
theorem allocReturns_iff (h0 : g.marked m 0 = true) (f : Word) :
    g.AllocReturns m f ↔ ∃ k, g.Free m k ∧ f = frameAddr k := by
  constructor
  · rintro ⟨n, hn, hf⟩
    rcases g.allocFrame_cases (g.allocRun m n) with ⟨k, hk, -, hr⟩ | ⟨-, hr⟩
    · exact ⟨k, g.free_of_free_allocRun m hk, by rw [← hn, hr]⟩
    · rw [hr] at hn
      exact absurd hn.symm hf
  · rintro ⟨k, hk, rfl⟩
    obtain ⟨n, hn⟩ := g.exists_allocRun m hk (b := 0) (fun j hj => absurd hj (by omega))
      (Nat.zero_le k)
    refine ⟨n, hn, frameAddr_ne_zero ?_ hk.lt⟩
    rintro rfl
    exact g.not_free_of_marked m h0 hk

end PageFrameAllocator

end Lbos

import Mathlib.Algebra.GroupWithZero.Nat
import Mathlib.Logic.Function.Basic
import Mathlib.Tactic.Common

/-! Byte-addressed memory with 32-bit addresses: little-endian words, arrays of words, and the
frame rules of a store, both for two words of one array and for arrays in different 4 KiB pages.
Addresses wrap modulo `2^32`, so a range `[d, d + n)` is the set of `x` with
`(x - d).toNat < n`. -/

namespace Lbos.Lib

abbrev Byte := BitVec 8

abbrev Word := BitVec 32

/-- The bytes of a 32-bit address space. -/
abbrev Mem := Word → Byte

namespace Mem

def write (m : Mem) (a : Word) (b : Byte) : Mem := fun x => if x = a then b else m x

def read32 (m : Mem) (a : Word) : Word := m (a + 3) ++ m (a + 2) ++ m (a + 1) ++ m a

def write32 (m : Mem) (a v : Word) : Mem :=
  (((m.write a (v.extractLsb' 0 8)).write (a + 1) (v.extractLsb' 8 8)).write (a + 2)
    (v.extractLsb' 16 8)).write (a + 3) (v.extractLsb' 24 8)

theorem write_same (m : Mem) (a : Word) (b : Byte) : m.write a b a = b := by simp [write]

theorem write_ne (m : Mem) {a x : Word} (b : Byte) (h : x ≠ a) : m.write a b x = m x := by
  simp [write, h]

theorem write32_outside (m : Mem) {a x : Word} (v : Word) (h : 4 ≤ (x - a).toNat) :
    m.write32 a v x = m x := by
  have h0 : x ≠ a := by bv_omega
  have h1 : x ≠ a + 1 := by bv_omega
  have h2 : x ≠ a + 2 := by bv_omega
  have h3 : x ≠ a + 3 := by bv_omega
  simp only [write32, write_ne _ _ h0, write_ne _ _ h1, write_ne _ _ h2, write_ne _ _ h3]

theorem read32_congr {m m' : Mem} {a : Word} (h : ∀ x, (x - a).toNat < 4 → m x = m' x) :
    m.read32 a = m'.read32 a := by
  simp only [read32]
  rw [h a (by bv_omega), h (a + 1) (by bv_omega), h (a + 2) (by bv_omega),
    h (a + 3) (by bv_omega)]

/-- The bytes of a word, put together again. -/
theorem word_of_bytes (v : Word) :
    v.extractLsb' 24 8 ++ v.extractLsb' 16 8 ++ v.extractLsb' 8 8 ++ v.extractLsb' 0 8 = v := by
  rw [BitVec.extractLsb'_append_extractLsb'_eq_extractLsb' (by rfl),
    BitVec.extractLsb'_append_extractLsb'_eq_extractLsb' (by rfl),
    BitVec.extractLsb'_append_extractLsb'_eq_extractLsb' (by rfl)]
  exact BitVec.extractLsb'_eq_self

theorem extract_read32_top (m : Mem) (a : Word) : (m.read32 a).extractLsb' 24 8 = m (a + 3) := by
  rw [read32, BitVec.extractLsb'_append_eq_of_le (by decide),
    BitVec.extractLsb'_append_eq_of_le (by decide), BitVec.extractLsb'_append_eq_of_le (by decide)]
  exact BitVec.extractLsb'_eq_self

theorem write32_bytes (m : Mem) (a v : Word) :
    m.write32 a v a = v.extractLsb' 0 8 ∧ m.write32 a v (a + 1) = v.extractLsb' 8 8 ∧
      m.write32 a v (a + 2) = v.extractLsb' 16 8 ∧ m.write32 a v (a + 3) = v.extractLsb' 24 8 := by
  have h1 : a ≠ a + 1 := by bv_omega
  have h2 : a ≠ a + 2 := by bv_omega
  have h3 : a ≠ a + 3 := by bv_omega
  have h4 : a + 1 ≠ a + 2 := by bv_omega
  have h5 : a + 1 ≠ a + 3 := by bv_omega
  have h6 : a + 2 ≠ a + 3 := by bv_omega
  simp only [write32, write_ne _ _ h1, write_ne _ _ h2, write_ne _ _ h3, write_ne _ _ h4,
    write_ne _ _ h5, write_ne _ _ h6, write_same, and_self]

theorem read32_write32_same (m : Mem) (a v : Word) : (m.write32 a v).read32 a = v := by
  obtain ⟨h0, h1, h2, h3⟩ := write32_bytes m a v
  rw [read32, h0, h1, h2, h3]
  exact word_of_bytes v

/-- Words at least four bytes apart, in both directions around the address space, do not meet. -/
theorem read32_write32_ne (m : Mem) {a b : Word} (v : Word) (h : 4 ≤ (a - b).toNat)
    (h' : 4 ≤ (b - a).toNat) : (m.write32 a v).read32 b = m.read32 b :=
  read32_congr fun x hx => write32_outside m v (by bv_omega)

/-- Of two stores to one address the second one counts. -/
theorem write32_write32 (m : Mem) (a v w : Word) : (m.write32 a v).write32 a w = m.write32 a w := by
  apply funext
  intro x
  by_cases hx : 4 ≤ (x - a).toNat
  · rw [write32_outside _ _ hx, write32_outside _ _ hx, write32_outside _ _ hx]
  · obtain ⟨h0, h1, h2, h3⟩ := write32_bytes (m.write32 a v) a w
    obtain ⟨k0, k1, k2, k3⟩ := write32_bytes m a w
    have hcases : x = a ∨ x = a + 1 ∨ x = a + 2 ∨ x = a + 3 := by bv_omega
    rcases hcases with rfl | rfl | rfl | rfl
    · rw [h0, k0]
    · rw [h1, k1]
    · rw [h2, k2]
    · rw [h3, k3]

/-! ### Arrays of words -/

/-- Element `i` of the array of words at `base`. -/
def load (m : Mem) (base : Word) (i : Nat) : Word := m.read32 (base + BitVec.ofNat 32 (4 * i))

def store (m : Mem) (base : Word) (i : Nat) (v : Word) : Mem :=
  m.write32 (base + BitVec.ofNat 32 (4 * i)) v

@[simp] theorem load_store_same (m : Mem) (base : Word) (i : Nat) (v : Word) :
    (m.store base i v).load base i = v := read32_write32_same _ _ _

/-- Two elements of one array of at most `2^30` words. -/
theorem load_store_ne (m : Mem) (base : Word) {i j : Nat} (v : Word) (hi : i < 2 ^ 30)
    (hj : j < 2 ^ 30) (h : i ≠ j) : (m.store base i v).load base j = m.load base j := by
  refine read32_write32_ne m v ?_ ?_ <;>
    · simp only [BitVec.toNat_sub, BitVec.toNat_add, BitVec.toNat_ofNat]
      omega

theorem load_store (m : Mem) (base : Word) {i j : Nat} (v : Word) (hi : i < 2 ^ 30)
    (hj : j < 2 ^ 30) : (m.store base i v).load base j = if i = j then v else m.load base j := by
  split
  · next h => rw [h, load_store_same]
  · next h => exact load_store_ne m base v hi hj h

/-! ### Pages -/

/-- The number of the 4 KiB page of an address. -/
def pageOf (a : Word) : Nat := a.toNat / 4096

def PageAligned (a : Word) : Prop := a.toNat % 4096 = 0

instance (a : Word) : Decidable (PageAligned a) := inferInstanceAs (Decidable (_ = _))

theorem PageAligned.pageOf_inj {a b : Word} (ha : PageAligned a) (hb : PageAligned b)
    (h : pageOf a = pageOf b) : a = b := by
  simp only [PageAligned, pageOf] at *
  exact BitVec.eq_of_toNat_eq (by omega)

theorem pageOf_add {base x : Word} (hb : PageAligned base) (hx : x.toNat < 4096) :
    pageOf (base + x) = pageOf base := by
  simp only [PageAligned, pageOf, BitVec.toNat_add] at *
  omega

/-- An address lies in the page at `base` when its offset from `base` is below 4096. -/
theorem pageOf_eq_iff {base x : Word} (hb : PageAligned base) :
    pageOf x = pageOf base ↔ (x - base).toNat < 4096 := by
  simp only [PageAligned, pageOf, BitVec.toNat_sub] at *
  omega

/-- An address with its page offset cleared. -/
def pageBase (a : Word) : Word := a &&& ~~~0xFFF

theorem toNat_pageBase (a : Word) : (pageBase a).toNat = a.toNat / 4096 * 4096 := by
  have hmask : ∀ i < 32, (~~~0xFFF : Word).getLsbD i = decide (12 ≤ i) := by decide
  have hshift : pageBase a = a >>> 12 <<< 12 := by
    apply BitVec.eq_of_getLsbD_eq
    intro i hi
    rw [pageBase, BitVec.getLsbD_and, hmask i hi, BitVec.getLsbD_shiftLeft,
      BitVec.getLsbD_ushiftRight]
    by_cases h : i < 12
    · simp [h, hi]
    · simp [h, hi, show 12 ≤ i by omega, show 12 + (i - 12) = i by omega]
  rw [hshift, BitVec.toNat_shiftLeft, BitVec.toNat_ushiftRight, Nat.shiftLeft_eq,
    Nat.shiftRight_eq_div_pow]
  omega

theorem pageAligned_pageBase (a : Word) : PageAligned (pageBase a) := by
  simp only [PageAligned, toNat_pageBase]
  omega

theorem store_outside (m : Mem) {base x : Word} {i : Nat} (v : Word) (hb : PageAligned base)
    (hi : i < 1024) (hx : pageOf x ≠ pageOf base) : m.store base i v x = m x := by
  refine write32_outside m v ?_
  rw [Ne, pageOf_eq_iff hb] at hx
  simp only [BitVec.toNat_sub, BitVec.toNat_add, BitVec.toNat_ofNat] at *
  omega

theorem load_congr {m m' : Mem} {base : Word} {i : Nat} (hb : PageAligned base) (hi : i < 1024)
    (h : ∀ x, pageOf x = pageOf base → m x = m' x) : m.load base i = m'.load base i := by
  refine read32_congr fun x hx => h x ?_
  rw [pageOf_eq_iff hb]
  simp only [BitVec.toNat_sub, BitVec.toNat_add, BitVec.toNat_ofNat] at *
  omega

/-- Arrays in different pages. -/
theorem load_store_page_ne (m : Mem) {base base' : Word} {i j : Nat} (v : Word)
    (hb : PageAligned base) (hb' : PageAligned base') (hi : i < 1024) (hj : j < 1024)
    (h : base' ≠ base) : (m.store base i v).load base' j = m.load base' j := by
  refine load_congr hb' hj fun x hx => store_outside m v hb hi ?_
  rw [hx]
  exact fun hp => h (hb'.pageOf_inj hb hp)

end Mem

end Lbos.Lib

import Lbos.Lib.Memory

/-! The functions of `lib/string.c` that fill and copy memory, with what they leave alone. -/

namespace Lbos

open Lib

def memset (m : Mem) (dest : Word) (val : Byte) : Nat → Mem
  | 0 => m
  | count + 1 => memset (m.write dest val) (dest + 1) val count

def memcpy (m : Mem) (dest src : Word) : Nat → Mem
  | 0 => m
  | count + 1 => memcpy (m.write dest (m src)) (dest + 1) (src + 1) count

theorem memset_apply (m : Mem) (dest x : Word) (val : Byte) {count : Nat} (h : count ≤ 2 ^ 32) :
    memset m dest val count x = if (x - dest).toNat < count then val else m x := by
  induction count generalizing m dest with
  | zero => simp [memset]
  | succ count ih =>
    rw [memset, ih _ _ (by omega)]
    by_cases hx : x = dest
    · subst hx
      rw [if_neg (by bv_omega), if_pos (by bv_omega), Mem.write_same]
    · rw [Mem.write_ne m val hx]
      congr 1
      exact propext (by bv_omega)

theorem memcpy_outside (m : Mem) (dest src x : Word) {count : Nat} (h : count ≤ 2 ^ 32)
    (hx : count ≤ (x - dest).toNat) : memcpy m dest src count x = m x := by
  induction count generalizing m dest src with
  | zero => rfl
  | succ count ih =>
    rw [memcpy, ih _ _ _ (by omega) (by bv_omega), Mem.write_ne m _ (by bv_omega)]

theorem toNat_sub_one {z : Word} (h : z ≠ 0) : (z - 1).toNat + 1 = z.toNat := by bv_omega

theorem add_one_add_sub_one (a b : Word) : a + 1 + (b - 1) = a + b := by bv_omega

theorem sub_add_one (a b : Word) : a - (b + 1) = a - b - 1 := by bv_omega

/-- A byte of the copy is the source's byte, when that one lies outside the destination. -/
theorem memcpy_apply (m : Mem) (dest src : Word) {o : Word} {count : Nat} (h : count ≤ 2 ^ 32)
    (ho : o.toNat < count) (hsrc : count ≤ (src + o - dest).toNat) :
    memcpy m dest src count (dest + o) = m (src + o) := by
  induction count generalizing m dest src o with
  | zero => exact absurd ho (Nat.not_lt_zero _)
  | succ count ih =>
    have hapart : src + o - dest ≠ 0 := by
      intro heq
      rw [heq] at hsrc
      exact absurd hsrc (Nat.not_succ_le_zero _)
    have hne : src + o ≠ dest := by
      rintro heq
      rw [heq, BitVec.sub_self] at hapart
      exact hapart rfl
    rw [memcpy]
    by_cases hzero : o = 0
    · subst hzero
      have hsame : ∀ a : Word, a + 0 = a := BitVec.add_zero
      have hmax : (0#32 - 1).toNat = 2 ^ 32 - 1 := rfl
      have hfirst : count ≤ (dest - (dest + 1)).toNat := by
        rw [sub_add_one, BitVec.sub_self, hmax]
        omega
      rw [hsame, hsame, memcpy_outside _ _ _ _ (by omega) hfirst, Mem.write_same]
    · have hpred := toNat_sub_one hzero
      have hfar := toNat_sub_one hapart
      rw [← add_one_add_sub_one dest o, ih _ _ _ (by omega) (by omega) ?_, add_one_add_sub_one,
        Mem.write_ne m _ hne]
      rw [add_one_add_sub_one, sub_add_one]
      omega

/-- Clearing a page leaves the other pages as they were. -/
theorem memset_page_outside (m : Mem) {dest x : Word} (val : Byte) {count : Nat}
    (hd : Mem.PageAligned dest) (hc : count ≤ 4096) (hx : Mem.pageOf x ≠ Mem.pageOf dest) :
    memset m dest val count x = m x := by
  rw [Ne, Mem.pageOf_eq_iff hd] at hx
  rw [memset_apply m dest x val (by omega), if_neg (by omega)]

theorem load_memset_zero (m : Mem) {dest : Word} (hd : Mem.PageAligned dest) {i : Nat}
    (hi : i < 1024) : (memset m dest 0 4096).load dest i = 0 := by
  have h : ∀ x, Mem.pageOf x = Mem.pageOf dest →
      memset m dest 0 4096 x = (fun _ => 0 : Mem) x := by
    intro x hx
    rw [Mem.pageOf_eq_iff hd] at hx
    rw [memset_apply m dest x 0 (by omega), if_pos hx]
  rw [Mem.load_congr hd hi h]
  simp [Mem.load, Mem.read32]

attribute [irreducible] memset memcpy

end Lbos

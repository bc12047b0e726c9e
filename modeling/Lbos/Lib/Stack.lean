import Lbos.Lib.Memory

/-! A stack of 32-bit words that grows down in memory: pushes, and reading the words back. -/

namespace Lbos.Lib.Mem

/-- A word pushed onto the stack at `sp`: the new stack pointer, and the memory. -/
def push (m : Mem) (sp v : Word) : Word × Mem := (sp - 4, m.write32 (sp - 4) v)

/-- Words pushed one after the other. -/
def pushAll (m : Mem) (sp : Word) : List Word → Word × Mem
  | [] => (sp, m)
  | v :: vs => pushAll (m.push sp v).2 (m.push sp v).1 vs

theorem pushAll_sp (m : Mem) (sp : Word) (vs : List Word) :
    (m.pushAll sp vs).1 = sp - BitVec.ofNat 32 (4 * vs.length) := by
  induction vs generalizing m sp with
  | nil => simp [pushAll]
  | cons v vs ih =>
    simp only [pushAll, push, ih, List.length_cons]
    rw [show 4 * (vs.length + 1) = 4 + 4 * vs.length by omega, BitVec.ofNat_add]
    bv_omega

/-- Only bytes under the stack pointer change. -/
theorem pushAll_outside (m : Mem) (sp x : Word) (vs : List Word) (hlen : vs.length < 2 ^ 30)
    (hx : 4 * vs.length ≤ (x - (sp - BitVec.ofNat 32 (4 * vs.length))).toNat) :
    (m.pushAll sp vs).2 x = m x := by
  have h4 : (4 : Word).toNat = 4 := rfl
  induction vs generalizing m sp with
  | nil => rfl
  | cons v vs ih =>
    simp only [List.length_cons] at hlen hx
    simp only [BitVec.toNat_sub, BitVec.toNat_ofNat] at hx
    rw [pushAll, ih _ _ (by omega)]
    · refine write32_outside m v ?_
      simp only [BitVec.toNat_sub]
      omega
    · simp only [push, BitVec.toNat_sub, BitVec.toNat_ofNat]
      omega

/-- The `i`-th word pushed is found `i + 1` words under the first stack pointer. -/
theorem read32_pushAll (m : Mem) (sp : Word) (vs : List Word) {i : Nat}
    (hlen : vs.length < 2 ^ 30) (hi : i < vs.length) :
    (m.pushAll sp vs).2.read32 (sp - BitVec.ofNat 32 (4 * (i + 1))) = vs[i] := by
  have h4 : (4 : Word).toNat = 4 := rfl
  induction vs generalizing m sp i with
  | nil => simp at hi
  | cons v vs ih =>
    simp only [List.length_cons] at hlen hi
    cases i with
    | zero =>
      have hkeep : (m.pushAll sp (v :: vs)).2.read32 (sp - 4) =
          (m.push sp v).2.read32 (sp - 4) := by
        refine read32_congr fun x hx => ?_
        rw [pushAll]
        refine pushAll_outside _ _ x vs (by omega) ?_
        simp only [push, BitVec.toNat_sub, BitVec.toNat_ofNat] at *
        omega
      rw [List.getElem_cons_zero]
      exact hkeep.trans (read32_write32_same _ _ _)
    | succ i =>
      have haddr : sp - BitVec.ofNat 32 (4 * (i + 1 + 1)) =
          (m.push sp v).1 - BitVec.ofNat 32 (4 * (i + 1)) := by
        rw [show 4 * (i + 1 + 1) = 4 + 4 * (i + 1) by omega, BitVec.ofNat_add, push]
        bv_omega
      rw [List.getElem_cons_succ, pushAll, haddr]
      exact ih _ _ (by omega) (by omega)

theorem pushAll_append (m : Mem) (sp : Word) (vs ws : List Word) :
    m.pushAll sp (vs ++ ws) = (m.pushAll sp vs).2.pushAll (m.pushAll sp vs).1 ws := by
  induction vs generalizing m sp with
  | nil => rfl
  | cons v vs ih => exact ih _ _

/-- The stack as an array: the last word pushed comes first. -/
theorem load_pushAll (m : Mem) (sp : Word) (vs : List Word) {i : Nat} (hlen : vs.length < 2 ^ 30)
    (hi : i < vs.length) :
    (m.pushAll sp vs).2.load (sp - BitVec.ofNat 32 (4 * vs.length)) i =
      vs.get ⟨vs.length - 1 - i, Nat.sub_one_sub_lt_of_lt hi⟩ := by
  have haddr : sp - BitVec.ofNat 32 (4 * vs.length) + BitVec.ofNat 32 (4 * i) =
      sp - BitVec.ofNat 32 (4 * (vs.length - 1 - i + 1)) := by
    rw [show 4 * vs.length = 4 * (vs.length - 1 - i + 1) + 4 * i by omega, BitVec.ofNat_add]
    bv_omega
  rw [load, haddr]
  exact read32_pushAll m sp vs hlen (by omega)

end Lbos.Lib.Mem

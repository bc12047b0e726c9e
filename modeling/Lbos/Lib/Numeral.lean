import Mathlib.Algebra.Order.Group.Nat
import Mathlib.Algebra.Order.Sub.Basic
import Mathlib.Data.List.Basic

/-! Numerals in a base: the digits that repeated division leaves, and the digits at a fixed number
of places. -/

namespace Lbos.Lib

theorem leftpad_succ_append {α : Type*} (n : Nat) (a x : α) (l : List α) :
    (l ++ [x]).leftpad (n + 1) a = l.leftpad n a ++ [x] := by
  simp [List.leftpad]

/-- The digits at the lowest `k + 1` places are the numeral with zeros in front of it. -/
theorem digits_at_places {b : Nat} (hb : 1 < b) {k n : Nat} (h : n < b ^ (k + 1)) :
    ((List.range (k + 1)).reverse.map fun i => Nat.digitChar (n / b ^ i % b)) =
      (Nat.toDigits b n).leftpad (k + 1) '0' := by
  induction k generalizing n with
  | zero =>
    have hn : n < b := by simpa using h
    rw [Nat.toDigits_of_lt_base hn]
    simp [Nat.mod_eq_of_lt hn, List.leftpad]
  | succ k ih =>
    have hquotient : n / b < b ^ (k + 1) := by
      rw [Nat.div_lt_iff_lt_mul (by omega), ← pow_succ]
      exact h
    have hplaces : ((List.range (k + 1 + 1)).reverse.map fun i => Nat.digitChar (n / b ^ i % b)) =
        (Nat.toDigits b (n / b)).leftpad (k + 1) '0' ++ [Nat.digitChar (n % b)] := by
      rw [← ih hquotient, List.range_succ_eq_map, List.reverse_cons, List.map_append,
        ← List.map_reverse, List.map_map]
      simp [Function.comp_def, pow_succ', Nat.div_div_eq_div_mul]
    rw [hplaces]
    by_cases hn : n < b
    · have hzero : (Nat.toDigits b (n / b)).leftpad (k + 1) '0' = [].leftpad (k + 1) '0' := by
        rw [Nat.div_eq_of_lt hn, Nat.toDigits_zero]
        simp [List.leftpad, ← List.replicate_succ']
      rw [hzero, Nat.toDigits_of_lt_base hn, Nat.mod_eq_of_lt hn, ← leftpad_succ_append,
        List.nil_append]
    · rw [Nat.toDigits_of_base_le hb (not_lt.mp hn), leftpad_succ_append]

/-- A numeral is one digit, or the numeral of the quotient with the last digit behind it. -/
theorem numeral_induction {b : Nat} (hb : 1 < b) {P : Nat → List Char → Prop}
    (digit : ∀ d < b, P d [Nat.digitChar d])
    (append : ∀ n d, 0 < n → d < b → P n (Nat.toDigits b n) →
      P (b * n + d) (Nat.toDigits b n ++ [Nat.digitChar d])) (n : Nat) : P n (Nat.toDigits b n) := by
  induction n using Nat.strongRecOn with
  | ind n ih =>
    by_cases hn : n < b
    · rw [Nat.toDigits_of_lt_base hn]
      exact digit n hn
    · have hpos : 0 < n / b := Nat.div_pos (not_lt.mp hn) (by omega)
      have hstep := append (n / b) (n % b) hpos (Nat.mod_lt n (by omega))
        (ih (n / b) (Nat.div_lt_self (by omega) hb))
      rw [Nat.toDigits_of_base_le hb (not_lt.mp hn)]
      rwa [Nat.div_add_mod] at hstep

/-- The numeral of a positive number does not begin with a zero. -/
theorem head_toDigits_ne_zero {b n : Nat} (hb : 1 < b) (hn : 0 < n) :
    (Nat.toDigits b n).head? ≠ some '0' := by
  revert hn
  refine numeral_induction hb (P := fun n l => 0 < n → l.head? ≠ some '0') ?_ ?_ n
  · intro d _ hd
    simpa using hd.ne'
  · intro n d hn _ ih _
    rw [List.head?_append_of_ne_nil _ Nat.toDigits_ne_nil]
    exact ih hn

end Lbos.Lib

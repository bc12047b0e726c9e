import Mathlib.Algebra.Order.Group.Int
import Mathlib.Algebra.Order.Group.Unbundled.Basic
import Mathlib.Algebra.Order.Ring.Int
import Mathlib.Data.List.Lex
import Mathlib.Data.Nat.Cast.Order.Basic
import Lbos.CString

/-! The order of `strcmp` and `strncmp`: strings compare as the lists of their characters' unsigned
values, and what stands behind a terminator is not looked at. -/

namespace Lbos

open Lib

/-- The unsigned values of characters. -/
def values (s : List Byte) : List Nat := s.map BitVec.toNat

theorem values_injective : Function.Injective values :=
  List.map_injective_iff.mpr fun _ _ => BitVec.eq_of_toNat_eq

/-- Where a comparison stops, the bytes decide the order. -/
theorem stop_neg_iff {c d : Byte} (h : ¬(c ≠ 0 ∧ c = d)) (s t : List Byte) :
    (c.toNat : Int) - (d.toNat : Int) < 0 ↔ values (text (c :: s)) < values (text (d :: t)) := by
  rw [sub_neg, Nat.cast_lt]
  by_cases hc : c = 0
  · subst hc
    by_cases hd : d = 0
    · subst hd
      exact iff_of_false (lt_irrefl _) (List.not_lt_nil _)
    · have hpos : 0 < d.toNat := Nat.pos_of_ne_zero fun h => hd (BitVec.eq_of_toNat_eq h)
      rw [text_zero, text_cons hd]
      exact iff_of_true hpos (List.nil_lt_cons _ _)
  · by_cases hd : d = 0
    · subst hd
      exact iff_of_false (Nat.not_lt_zero _) (List.not_lt_nil _)
    · have hne : c.toNat ≠ d.toNat := fun heq => h ⟨hc, BitVec.eq_of_toNat_eq heq⟩
      rw [text_cons hc, text_cons hd, values, values, List.map_cons, List.map_cons,
        List.cons_lt_cons_iff]
      exact (or_iff_left fun heq => hne heq.1).symm

/-- Equal first characters leave the order to the rest. -/
theorem values_cons_lt_iff {c : Byte} (h : c ≠ 0) (s t : List Byte) :
    values (text (c :: s)) < values (text (c :: t)) ↔ values (text s) < values (text t) := by
  rw [text_cons h, text_cons h]
  exact List.cons_lt_cons_iff.trans
    ⟨fun hlt => (hlt.resolve_left (lt_irrefl _)).2, fun hlt => .inr ⟨rfl, hlt⟩⟩

/-- The terminated text of a string, cut or not, begins as the string does. -/
theorem head_take_text (c : Byte) (s : List Byte) (n : Nat) :
    ∃ rest, (text (c :: s)).take (n + 1) ++ [0] = c :: rest := by
  by_cases hc : c = 0
  · exact ⟨[], by rw [hc, text_zero, List.take_nil, List.nil_append]⟩
  · exact ⟨(text s).take n ++ [0], by rw [text_cons hc, List.take_succ_cons, List.cons_append]⟩

theorem head_text (c : Byte) (s : List Byte) : ∃ rest, text (c :: s) ++ [0] = c :: rest := by
  have hcut := head_take_text c s (text (c :: s)).length
  rwa [List.take_of_length_le (Nat.le_succ _)] at hcut

section Terminated

variable {s t : List Byte}

theorem strcmp_neg_iff (hs : 0 ∈ s) (ht : 0 ∈ t) :
    ∃ r, strcmp s t = some r ∧ (r < 0 ↔ values (text s) < values (text t)) := by
  induction s generalizing t with
  | nil => cases hs
  | cons c s ih =>
    cases t with
    | nil => cases ht
    | cons d t =>
      rw [strcmp]
      split
      · next heq =>
        obtain ⟨hc, rfl⟩ := heq
        obtain ⟨r, hr, hneg⟩ := ih ((List.mem_cons.mp hs).resolve_left (Ne.symm hc))
          ((List.mem_cons.mp ht).resolve_left (Ne.symm hc))
        exact ⟨r, hr, hneg.trans (values_cons_lt_iff hc s t).symm⟩
      · next hne => exact ⟨_, rfl, stop_neg_iff hne s t⟩

/-- A comparison ends at the terminators at the latest. -/
theorem strcmp_text (hs : 0 ∈ s) (ht : 0 ∈ t) :
    strcmp (text s ++ [0]) (text t ++ [0]) = strcmp s t := by
  induction s generalizing t with
  | nil => cases hs
  | cons c s ih =>
    cases t with
    | nil => cases ht
    | cons d t =>
      rw [strcmp]
      split
      · next heq =>
        obtain ⟨hc, rfl⟩ := heq
        rw [text_cons hc, text_cons hc, List.cons_append, List.cons_append, strcmp,
          if_pos ⟨hc, rfl⟩]
        exact ih ((List.mem_cons.mp hs).resolve_left (Ne.symm hc))
          ((List.mem_cons.mp ht).resolve_left (Ne.symm hc))
      · next hne =>
        obtain ⟨s', hs'⟩ := head_text c s
        obtain ⟨t', ht'⟩ := head_text d t
        rw [hs', ht', strcmp, if_neg hne]

/-- `strncmp` compares as `strcmp` does on what is left of the strings when they are cut. -/
theorem strncmp_eq_strcmp (hs : 0 ∈ s) (ht : 0 ∈ t) (n : Nat) :
    strncmp s t n = strcmp ((text s).take n ++ [0]) ((text t).take n ++ [0]) := by
  induction n generalizing s t with
  | zero => rw [List.take_zero, List.take_zero, strncmp]; rfl
  | succ n ih =>
    cases s with
    | nil => cases hs
    | cons c s =>
      cases t with
      | nil => cases ht
      | cons d t =>
        rw [strncmp]
        split
        · next heq =>
          obtain ⟨hc, rfl⟩ := heq
          rw [text_cons hc, text_cons hc, List.take_succ_cons, List.take_succ_cons,
            List.cons_append, List.cons_append, strcmp, if_pos ⟨hc, rfl⟩]
          exact ih ((List.mem_cons.mp hs).resolve_left (Ne.symm hc))
            ((List.mem_cons.mp ht).resolve_left (Ne.symm hc))
        · next hne =>
          obtain ⟨s', hs'⟩ := head_take_text c s n
          obtain ⟨t', ht'⟩ := head_take_text d t n
          rw [hs', ht', strcmp, if_neg hne]

/-- It ends after so many characters at the latest. -/
theorem strncmp_take (s t : List Byte) (n : Nat) :
    strncmp (s.take n) (t.take n) n = strncmp s t n := by
  induction n generalizing s t with
  | zero => rw [strncmp, strncmp]
  | succ n ih =>
    cases s with
    | nil => rfl
    | cons c s =>
      cases t with
      | nil => rfl
      | cons d t =>
        rw [List.take_succ_cons, List.take_succ_cons, strncmp, strncmp, ih]

end Terminated

namespace CString

variable (a b c : CString) (n : Nat)

theorem strcmp_isSome : (Lbos.strcmp a.bytes b.bytes).isSome := by
  obtain ⟨r, hr, -⟩ := strcmp_neg_iff a.terminated b.terminated
  rw [hr]
  rfl

/-- The result of `strcmp`. -/
def strcmp : Int := (Lbos.strcmp a.bytes b.bytes).get (strcmp_isSome a b)

theorem strcmp_eq : Lbos.strcmp a.bytes b.bytes = some (a.strcmp b) := (Option.some_get _).symm

/-- The string of the first `n` characters. -/
def cut : CString := .ofText (a.text.take n)

theorem strncmp_eq : Lbos.strncmp a.bytes b.bytes n = some ((a.cut n).strcmp (b.cut n)) := by
  rw [strncmp_eq_strcmp a.terminated b.terminated]
  exact strcmp_eq (a.cut n) (b.cut n)

theorem strcmp_eq_zero : a.strcmp b = 0 ↔ a.text = b.text := by
  have h := strcmp_eq_zero_iff a.terminated b.terminated
  rwa [strcmp_eq, Option.some.injEq] at h

theorem strcmp_neg : a.strcmp b < 0 ↔ values a.text < values b.text := by
  obtain ⟨r, hr, hneg⟩ := strcmp_neg_iff a.terminated b.terminated
  rw [strcmp_eq, Option.some.injEq] at hr
  rwa [hr]

theorem strcmp_pos : 0 < a.strcmp b ↔ values b.text < values a.text := by
  obtain hlt | heq | hgt := lt_trichotomy (values a.text) (values b.text)
  · have hneg := (strcmp_neg a b).mpr hlt
    exact iff_of_false (by omega) hlt.not_gt
  · have hzero := (strcmp_eq_zero a b).mpr (values_injective heq)
    exact iff_of_false (by omega) heq.not_gt
  · have hne : a.strcmp b ≠ 0 := fun hzero =>
      hgt.ne (congrArg values ((strcmp_eq_zero a b).mp hzero).symm)
    have hnotneg : ¬a.strcmp b < 0 := fun hneg => hgt.not_gt ((strcmp_neg a b).mp hneg)
    exact iff_of_true (by omega) hgt

end CString

/-- `strcmp` is the lexicographic order of the unsigned values, antisymmetric and transitive, and
`strncmp` that of the strings cut to `n` characters.  Neither looks at a byte behind a terminator,
nor `strncmp` at more than `n`: without those bytes the results are the same. -/
theorem strings_ordered (a b c : CString) (n : Nat) :
    strcmp a.bytes b.bytes = some (a.strcmp b) ∧
      strcmp (a.text ++ [0]) (b.text ++ [0]) = some (a.strcmp b) ∧
      (a.strcmp b = 0 ↔ a.text = b.text) ∧
      (a.strcmp b < 0 ↔ values a.text < values b.text) ∧
      (0 < a.strcmp b ↔ b.strcmp a < 0) ∧
      (a.strcmp b < 0 → b.strcmp c < 0 → a.strcmp c < 0) ∧
      ∃ r, strncmp a.bytes b.bytes n = some r ∧
        strncmp ((a.text ++ [0]).take n) ((b.text ++ [0]).take n) n = some r ∧
        r.sign = ((a.cut n).strcmp (b.cut n)).sign := by
  refine ⟨a.strcmp_eq b, ?_, a.strcmp_eq_zero b, a.strcmp_neg b, ?_, ?_, _, a.strncmp_eq b n, ?_,
    rfl⟩
  · exact (strcmp_text a.terminated b.terminated).trans (a.strcmp_eq b)
  · rw [CString.strcmp_pos, CString.strcmp_neg]
  · rw [CString.strcmp_neg, CString.strcmp_neg, CString.strcmp_neg]
    exact lt_trans
  · rw [strncmp_take, strncmp_eq_strcmp (zero_mem_terminated _) (zero_mem_terminated _),
      CString.text_terminated, CString.text_terminated]
    exact (a.cut n).strcmp_eq (b.cut n)

end Lbos

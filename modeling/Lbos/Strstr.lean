import Lbos.CString
import Lbos.Lib.Search

/-! The search of `strstr`, for the first place in a string where another one occurs. -/

namespace Lbos

open Lib

/-- The inner loop of `strstr`: where it leaves `n`. -/
def strstrMatch : List Byte → List Byte → Option (List Byte)
  | c :: h, d :: n => if c ≠ 0 ∧ d ≠ 0 ∧ c = d then strstrMatch h n else some (d :: n)
  | _, _ => none

/-- The outer loop: how far `haystack` is when it is returned, and nothing for `NULL`. -/
def strstrLoop (needle : List Byte) : List Byte → Option (Option Nat)
  | [] => none
  | c :: haystack =>
    if c ≠ 0 then
      if needle.head? = some c then
        match strstrMatch (c :: haystack) needle with
        | none => none
        | some n =>
          if n.head? = some 0 then some (some 0)
          else (strstrLoop needle haystack).map (Option.map (· + 1))
      else (strstrLoop needle haystack).map (Option.map (· + 1))
    else some none

def strstr (haystack needle : List Byte) : Option (Option Nat) :=
  match needle with
  | [] => none
  | d :: needle => if d = 0 then some (some 0) else strstrLoop (d :: needle) haystack

/-- The inner loop comes to the needle's terminator exactly if the needle stands there. -/
theorem strstrMatch_eq {h n : List Byte} (hh : 0 ∈ h) (hn : 0 ∈ n) :
    ∃ rest, strstrMatch h n = some rest ∧ (rest.head? = some 0 ↔ text n <+: text h) := by
  induction h generalizing n with
  | nil => cases hh
  | cons c h ih =>
    cases n with
    | nil => cases hn
    | cons d n =>
      rw [strstrMatch]
      by_cases hd : d = 0
      · subst hd
        rw [if_neg fun hmatch => hmatch.2.1 rfl]
        exact ⟨_, rfl, iff_of_true rfl List.nil_prefix⟩
      · by_cases hc : c = 0
        · subst hc
          rw [if_neg fun hmatch => hmatch.1 rfl, text_cons hd, text_zero]
          exact ⟨_, rfl, iff_of_false (by simpa using hd) (by simp)⟩
        · rw [text_cons hc, text_cons hd]
          by_cases heq : c = d
          · subst heq
            rw [if_pos ⟨hc, hd, rfl⟩]
            obtain ⟨rest, hrest, hiff⟩ := ih ((List.mem_cons.mp hh).resolve_left (Ne.symm hc))
              ((List.mem_cons.mp hn).resolve_left (Ne.symm hc))
            exact ⟨rest, hrest, hiff.trans (List.prefix_cons_inj c).symm⟩
          · rw [if_neg fun hmatch => heq hmatch.2.2]
            refine ⟨_, rfl, iff_of_false (by simpa using hd) fun hprefix => ?_⟩
            exact heq (List.cons_prefix_cons.mp hprefix).1.symm

/-- The first character alone already tells where a needle cannot stand. -/
theorem not_prefix_of_head {c d : Byte} (hne : c ≠ d) (s t : List Byte) :
    ¬d :: s <+: c :: t := fun hprefix => hne (List.cons_prefix_cons.mp hprefix).1.symm

/-- The outer loop rejects each place where the needle does not stand and goes on to the next. -/
theorem strstrLoop_eq {d : Byte} (hd : d ≠ 0) {n h : List Byte} (hn : 0 ∈ d :: n) (hh : 0 ∈ h) :
    strstrLoop (d :: n) h = some (firstDrop (text (d :: n) <+: ·) (text h)) := by
  induction h with
  | nil => cases hh
  | cons c h ih =>
    rw [strstrLoop]
    by_cases hc : c = 0
    · subst hc
      have hempty : ¬text (d :: n) <+: [] := by
        rw [text_cons hd]
        simp
      rw [if_neg (not_not.mpr rfl), text_zero, firstDrop, if_neg hempty]
    · have hnext := ih ((List.mem_cons.mp hh).resolve_left (Ne.symm hc))
      rw [if_pos hc, List.head?_cons]
      by_cases heq : d = c
      · obtain ⟨rest, hrest, hstands⟩ := strstrMatch_eq hh hn
        rw [if_pos (congrArg some heq), hrest]
        dsimp only
        by_cases hzero : rest.head? = some 0
        · rw [if_pos hzero, firstDrop_of_holds (hstands.mp hzero)]
        · have hnot := mt hstands.mpr hzero
          rw [text_cons hc] at hnot ⊢
          rw [if_neg hzero, hnext, firstDrop_cons_of_not hnot]
          rfl
      · have hnot : ¬text (d :: n) <+: c :: text h := by
          rw [text_cons hd]
          exact not_prefix_of_head (Ne.symm heq) _ _
        rw [if_neg (mt Option.some.inj heq), text_cons hc, hnext, firstDrop_cons_of_not hnot]
        rfl

/-- The result is decided by the characters of both strings. -/
theorem strstr_eq {h n : List Byte} (hh : 0 ∈ h) (hn : 0 ∈ n) :
    strstr h n = some (firstDrop (text n <+: ·) (text h)) := by
  cases n with
  | nil => cases hn
  | cons d n =>
    rw [strstr]
    by_cases hd : d = 0
    · subst hd
      have hholds : text (0 :: n) <+: text h := List.nil_prefix
      rw [if_pos rfl, firstDrop_of_holds hholds]
    · rw [if_neg hd, strstrLoop_eq hd hn hh]

/-- `strstr` ends with the least index from which the needle begins the haystack, and with `NULL`
exactly if the needle occurs nowhere.  It looks at no byte behind a terminator: without those bytes
the result is the same. -/
theorem strstr_first_occurrence (haystack needle : CString) :
    ∃ r, strstr haystack.bytes needle.bytes = some r ∧
      strstr (haystack.text ++ [0]) (needle.text ++ [0]) = some r ∧
      (∀ i, r = some i ↔ needle.text <+: haystack.text.drop i ∧
        ∀ j < i, ¬needle.text <+: haystack.text.drop j) ∧
      (r = none ↔ ¬needle.text <:+: haystack.text) := by
  refine ⟨_, strstr_eq haystack.terminated needle.terminated, ?_, fun i => firstDrop_eq_some_iff,
    ?_⟩
  · rw [strstr_eq (zero_mem_terminated _) (zero_mem_terminated _), CString.text_terminated,
      CString.text_terminated]
    rfl
  · rw [firstDrop_eq_none_iff, List.infix_iff_prefix_suffix, not_exists]
    exact forall_congr' fun t => by rw [not_and, imp_not_comm]; rfl

end Lbos

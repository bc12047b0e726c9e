import Mathlib.Data.List.TakeWhile
import Lbos.Lib.Memory

/-! The functions of `lib/string.c` on strings.  A pointer to characters is the list of the bytes
behind it, up to the end of its object: a function that reads further gives `none`, and one that
writes stops there. -/

namespace Lbos

open Lib

def charByte (c : Char) : Byte := BitVec.ofNat 8 c.toNat

def strlen : List Byte → Option Nat
  | [] => none
  | c :: str => if c ≠ 0 then (strlen str).map (· + 1) else some 0

def strcmp : List Byte → List Byte → Option Int
  | c :: str1, d :: str2 =>
    if c ≠ 0 ∧ c = d then strcmp str1 str2 else some ((c.toNat : Int) - (d.toNat : Int))
  | _, _ => none

def strncmp : List Byte → List Byte → Nat → Option Int
  | _, _, 0 => some 0
  | c :: str1, d :: str2, count + 1 =>
    if c ≠ 0 ∧ c = d then strncmp str1 str2 count else some ((c.toNat : Int) - (d.toNat : Int))
  | _, _, _ + 1 => none

/-- The bytes of the destination afterwards. -/
def strcpy : List Byte → List Byte → List Byte
  | _ :: dest, c :: src => if c ≠ 0 then c :: strcpy dest src else c :: dest
  | dest, _ => dest

/-- The bytes of the destination afterwards: once the terminator is reached, it is read again for
each byte that is left to fill. -/
def strncpy : List Byte → List Byte → Nat → List Byte
  | _ :: dest, c :: src, count + 1 =>
    if c ≠ 0 then c :: strncpy dest src count else 0 :: strncpy dest (c :: src) count
  | dest, _, _ => dest

/-- The characters of a string. -/
def text (s : List Byte) : List Byte := s.takeWhile (· ≠ 0)

/-- A string that a pointer leads to: its bytes include the terminator. -/
structure CString where
  bytes : List Byte
  terminated : 0 ∈ bytes

def CString.text (s : CString) : List Byte := Lbos.text s.bytes

/-- The string with these characters. -/
def CString.ofText (s : List Byte) : CString := ⟨s ++ [0], by simp⟩

@[simp] theorem text_zero (s : List Byte) : text (0 :: s) = [] := rfl

theorem text_cons {c : Byte} (h : c ≠ 0) (s : List Byte) : text (c :: s) = c :: text s := by
  rw [text, List.takeWhile_cons_of_pos (by simpa using h)]
  rfl

theorem text_append {s : List Byte} (h : 0 ∉ s) (rest : List Byte) :
    text (s ++ 0 :: rest) = s := by
  induction s with
  | nil => rfl
  | cons c s ih =>
    obtain ⟨hc, hs⟩ := not_or.mp (mt List.mem_cons.mpr h)
    rw [List.cons_append, text_cons (Ne.symm hc), ih hs]

theorem text_ofText {s : List Byte} (h : 0 ∉ s) : (CString.ofText s).text = s := text_append h []

theorem zero_notMem_text (s : List Byte) : 0 ∉ text s := fun h => by
  simpa using List.mem_takeWhile_imp h

theorem zero_mem_terminated (s : List Byte) : 0 ∈ s ++ [0] :=
  List.mem_append_right _ (List.mem_singleton_self 0)

theorem CString.text_terminated (s : CString) : Lbos.text (s.text ++ [0]) = s.text :=
  text_append (zero_notMem_text _) []

/-- A terminated string is its characters, the terminator and what follows. -/
theorem eq_text_append {s : List Byte} (h : 0 ∈ s) : ∃ rest, s = text s ++ 0 :: rest := by
  induction s with
  | nil => cases h
  | cons c s ih =>
    by_cases hc : c = 0
    · exact ⟨s, by rw [hc]; rfl⟩
    · obtain ⟨rest, hrest⟩ := ih ((List.mem_cons.mp h).resolve_left (Ne.symm hc))
      exact ⟨rest, by rw [text_cons hc, List.cons_append, ← hrest]⟩

theorem length_text_lt {s : List Byte} (h : 0 ∈ s) : (text s).length < s.length := by
  obtain ⟨rest, hs⟩ := eq_text_append h
  have hlength := congrArg List.length hs
  rw [List.length_append, List.length_cons] at hlength
  omega

theorem strlen_eq {s : List Byte} (h : 0 ∈ s) : strlen s = some (text s).length := by
  induction s with
  | nil => cases h
  | cons c s ih =>
    rw [strlen]
    split
    · next hc =>
      rw [ih ((List.mem_cons.mp h).resolve_left (Ne.symm hc)), text_cons hc]
      rfl
    · next hc =>
      rw [not_not.mp hc]
      rfl

/-- Where a comparison stops, it finds no difference only at two terminators. -/
theorem stop_eq_zero_iff {c d : Byte} (h : ¬(c ≠ 0 ∧ c = d)) :
    some ((c.toNat : Int) - (d.toNat : Int)) = some 0 ↔ c = 0 ∧ d = 0 := by
  rw [Option.some.injEq, Int.sub_eq_zero, Int.natCast_inj, BitVec.toNat_inj]
  constructor
  · rintro rfl
    have hc : c = 0 := not_not.mp fun hc => h ⟨hc, rfl⟩
    exact ⟨hc, hc⟩
  · rintro ⟨rfl, rfl⟩
    rfl

theorem take_text_eq_iff {c d : Byte} (h : ¬(c ≠ 0 ∧ c = d)) (s t : List Byte) (n : Nat) :
    (text (c :: s)).take (n + 1) = (text (d :: t)).take (n + 1) ↔ c = 0 ∧ d = 0 := by
  constructor
  · intro heq
    by_cases hc : c = 0
    · by_cases hd : d = 0
      · exact ⟨hc, hd⟩
      · rw [hc, text_zero, text_cons hd] at heq
        cases heq
    · by_cases hd : d = 0
      · rw [hd, text_zero, text_cons hc] at heq
        cases heq
      · rw [text_cons hc, text_cons hd] at heq
        exact absurd ⟨hc, (List.cons.inj heq).1⟩ h
  · rintro ⟨rfl, rfl⟩
    rfl

/-- Strings that agree on their first characters. -/
theorem strncmp_eq_zero_iff {s t : List Byte} (hs : 0 ∈ s) (ht : 0 ∈ t) (n : Nat) :
    strncmp s t n = some 0 ↔ (text s).take n = (text t).take n := by
  induction n generalizing s t with
  | zero => simp [strncmp]
  | succ n ih =>
    cases s with
    | nil => cases hs
    | cons c s =>
      cases t with
      | nil => cases ht
      | cons d t =>
        rw [strncmp]
        split
        · next heq =>
          obtain ⟨hc, rfl⟩ := heq
          rw [ih ((List.mem_cons.mp hs).resolve_left (Ne.symm hc))
            ((List.mem_cons.mp ht).resolve_left (Ne.symm hc)), text_cons hc, text_cons hc,
            List.take_succ_cons, List.take_succ_cons, List.cons_inj_right]
        · next hne => rw [stop_eq_zero_iff hne, take_text_eq_iff hne]

/-- Equal strings are those with the same characters. -/
theorem strcmp_eq_zero_iff {s t : List Byte} (hs : 0 ∈ s) (ht : 0 ∈ t) :
    strcmp s t = some 0 ↔ text s = text t := by
  induction s generalizing t with
  | nil => cases hs
  | cons c s ih =>
    cases t with
    | nil => cases ht
    | cons d t =>
      rw [strcmp]
      split
      · next heq =>
        obtain ⟨hc, rfl⟩ := heq
        rw [ih ((List.mem_cons.mp hs).resolve_left (Ne.symm hc))
          ((List.mem_cons.mp ht).resolve_left (Ne.symm hc)), text_cons hc, text_cons hc,
          List.cons_inj_right]
      · next hne =>
        rw [stop_eq_zero_iff hne]
        constructor
        · rintro ⟨rfl, rfl⟩
          rfl
        · exact fun heq => (take_text_eq_iff hne s t 0).mp (congrArg (List.take 1) heq)

/-! ### Copies -/

@[simp] theorem length_strcpy (dest src : List Byte) :
    (strcpy dest src).length = dest.length := by
  induction dest generalizing src with
  | nil => rfl
  | cons d dest ih =>
    cases src with
    | nil => rfl
    | cons c src =>
      rw [strcpy]
      split
      · rw [List.length_cons, List.length_cons, ih]
      · rfl

/-- A copy that fits begins with the characters and the terminator. -/
theorem strcpy_eq (dest : List Byte) {src : List Byte} (h : 0 ∈ src) (hfit : (text src).length < dest.length) :
    ∃ rest, strcpy dest src = text src ++ 0 :: rest := by
  induction dest generalizing src with
  | nil => exact absurd hfit (Nat.not_lt_zero _)
  | cons d dest ih =>
    cases src with
    | nil => cases h
    | cons c src =>
      rw [strcpy]
      split
      · next hc =>
        rw [text_cons hc, List.length_cons, List.length_cons] at hfit
        obtain ⟨rest, hrest⟩ := ih ((List.mem_cons.mp h).resolve_left (Ne.symm hc)) (by omega)
        exact ⟨rest, by rw [hrest, text_cons hc, List.cons_append]⟩
      · next hc =>
        rw [not_not.mp hc]
        exact ⟨dest, rfl⟩

@[simp] theorem length_strncpy (dest src : List Byte) (n : Nat) :
    (strncpy dest src n).length = dest.length := by
  induction dest generalizing src n with
  | nil => rfl
  | cons d dest ih =>
    cases src with
    | nil => cases n <;> rfl
    | cons c src =>
      cases n with
      | zero => rfl
      | succ n =>
        rw [strncpy]
        split
        · rw [List.length_cons, List.length_cons, ih]
        · rw [List.length_cons, List.length_cons, ih]

/-- A copy of at most `n` characters, which zeros follow up to byte `n`. -/
theorem strncpy_eq {dest src : List Byte} (h : 0 ∈ src) {n : Nat} (hn : n ≤ dest.length) :
    strncpy dest src n = (text src).take n ++
      List.replicate (n - (text src).length) 0 ++ dest.drop n := by
  induction dest generalizing src n with
  | nil =>
    obtain rfl := Nat.le_zero.mp hn
    simp [strncpy]
  | cons d dest ih =>
    cases src with
    | nil => cases h
    | cons c src =>
      cases n with
      | zero => simp [strncpy]
      | succ n =>
        rw [strncpy]
        split
        · next hc =>
          rw [ih ((List.mem_cons.mp h).resolve_left (Ne.symm hc)) (Nat.le_of_succ_le_succ hn),
            text_cons hc, List.take_succ_cons, List.length_cons, Nat.add_sub_add_right,
            List.drop_succ_cons, List.cons_append, List.cons_append]
        · next hc =>
          obtain rfl := not_not.mp hc
          rw [ih h (Nat.le_of_succ_le_succ hn), text_zero, List.take_nil, List.take_nil,
            List.length_nil, Nat.sub_zero, Nat.sub_zero, List.drop_succ_cons,
            List.replicate_succ, List.nil_append, List.nil_append, List.cons_append]

/-- The idiom `strncpy(dest, src, n); dest[n] = '\0'` cuts the string to `n` characters. -/
theorem text_strncpy_set (dest : List Byte) {src : List Byte} (h : 0 ∈ src) {n : Nat} (hn : n < dest.length) :
    ∃ rest, (strncpy dest src n).set n 0 = (text src).take n ++ 0 :: rest := by
  rw [strncpy_eq h hn.le]
  by_cases hlen : (text src).length < n
  · obtain ⟨m, hm⟩ := Nat.exists_eq_add_of_lt hlen
    have htake : (text src).take n = text src := List.take_of_length_le hlen.le
    rw [htake, show n - (text src).length = m + 1 by omega, List.replicate_succ,
      List.append_assoc, List.set_append_right _ _ hlen.le,
      show n - (text src).length = m + 1 by omega, List.cons_append, List.set_cons_succ]
    exact ⟨_, rfl⟩
  · have htake : ((text src).take n).length = n := by
      rw [List.length_take, Nat.min_eq_left (Nat.not_lt.mp hlen)]
    rw [Nat.sub_eq_zero_of_le (Nat.not_lt.mp hlen), List.replicate_zero, List.append_nil,
      List.set_append_right _ _ htake.le, htake, Nat.sub_self, List.drop_eq_getElem_cons hn,
      List.set_cons_zero]
    exact ⟨_, rfl⟩

/-- The string that a terminated `strncpy` leaves. -/
theorem text_strncpy (dest : List Byte) {src : List Byte} (h : 0 ∈ src) {n : Nat}
    (hn : n < dest.length) : text ((strncpy dest src n).set n 0) = (text src).take n := by
  obtain ⟨rest, hrest⟩ := text_strncpy_set dest h hn
  have hnot : 0 ∉ (text src).take n := fun hz => zero_notMem_text _ (List.mem_of_mem_take hz)
  rw [hrest]
  exact text_append hnot rest

end Lbos

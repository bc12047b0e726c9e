import Lbos.Drivers.Serial

/-! The texts that the two number printers give: `number_to_string` writes canonical numerals, and
`num_to_decimal` the same ones but for the least number. -/

namespace Lbos

open Lib

/-- The value of a digit, in lower case. -/
def digitValue (c : Byte) : Option Nat :=
  if 48 ≤ c.toNat ∧ c.toNat ≤ 57 then some (c.toNat - 48)
  else if 97 ≤ c.toNat ∧ c.toNat ≤ 102 then some (c.toNat - 87)
  else none

/-- One more digit behind a number. -/
def pushDigit (base n : Nat) (c : Byte) : Option Nat :=
  match digitValue c with
  | some d => if d < base then some (base * n + d) else none
  | none => none

/-- The number that a text of digits stands for. -/
def readNat (base : Nat) (text : List Byte) : Option Nat :=
  if text = [] then none else text.foldlM (pushDigit base) 0

/-- The number that a text of decimal digits, with a minus sign or not, stands for. -/
def readInt (text : List Byte) : Option Int :=
  if text.head? = some (charByte '-') then (readNat 10 text.tail).map fun (n : Nat) => -(n : Int)
  else (readNat 10 text).map fun (n : Nat) => (n : Int)

/-- Digits of a base, with no zero in front of another digit. -/
structure CanonicalNat (base : Nat) (text : List Byte) : Prop where
  nonempty : text ≠ []
  digit : ∀ c ∈ text, ∃ d < base, digitValue c = some d
  leading_zero : text.head? = some (charByte '0') → text = [charByte '0']

/-- A minus sign exactly for the negative numbers, and a canonical numeral. -/
structure CanonicalInt (n : Int) (text : List Byte) : Prop where
  sign : text.head? = some (charByte '-') ↔ n < 0
  digits : CanonicalNat 10 (if n < 0 then text.tail else text)

section Numeral

variable {base : Nat}

theorem digitValue_charByte {d : Nat} (hd : d < 16) :
    digitValue (charByte (Nat.digitChar d)) = some d := by
  have hall : ∀ d : Fin 16, digitValue (charByte (Nat.digitChar d)) = some d.val := by decide
  exact hall ⟨d, hd⟩

theorem pushDigit_charByte (n : Nat) {d : Nat} (hd : d < base) (hbase : base ≤ 16) :
    pushDigit base n (charByte (Nat.digitChar d)) = some (base * n + d) := by
  rw [pushDigit, digitValue_charByte (hd.trans_le hbase)]
  exact if_pos hd

/-- The numeral of a number, read digit by digit, is the number. -/
theorem readNat_numeral (hone : 1 < base) (hbase : base ≤ 16) (n : Nat) :
    readNat base ((Nat.toDigits base n).map charByte) = some n := by
  have hfold : ((Nat.toDigits base n).map charByte).foldlM (pushDigit base) 0 = some n := by
    refine numeral_induction hone
      (P := fun n l => (l.map charByte).foldlM (pushDigit base) 0 = some n) ?_ ?_ n
    · intro d hd
      have hpush := pushDigit_charByte 0 hd hbase
      rw [Nat.mul_zero, Nat.zero_add] at hpush
      rw [List.map_singleton, List.foldlM_cons, hpush]
      rfl
    · intro n d _ hd ih
      rw [List.map_append, List.foldlM_append, ih, List.map_singleton]
      have hpush := pushDigit_charByte n hd hbase
      rw [Option.bind_eq_bind, Option.bind_some, List.foldlM_cons, hpush]
      rfl
  rw [readNat, if_neg (by simp)]
  exact hfold

theorem canonicalNat_numeral (hone : 1 < base) (hbase : base ≤ 16) (n : Nat) :
    CanonicalNat base ((Nat.toDigits base n).map charByte) := by
  have hdigits : ∀ c ∈ Nat.toDigits base n, ∃ d < base, c = Nat.digitChar d := by
    refine numeral_induction hone (P := fun _ l => ∀ c ∈ l, ∃ d < base, c = Nat.digitChar d) ?_ ?_ n
    · intro d hd c hc
      exact ⟨d, hd, List.mem_singleton.mp hc⟩
    · intro n d _ hd ih c hc
      obtain hc | hc := List.mem_append.mp hc
      · exact ih c hc
      · exact ⟨d, hd, List.mem_singleton.mp hc⟩
  constructor
  · simp
  · intro c hc
    obtain ⟨c, hmem, rfl⟩ := List.mem_map.mp hc
    obtain ⟨d, hd, rfl⟩ := hdigits c hmem
    exact ⟨d, hd, digitValue_charByte (hd.trans_le hbase)⟩
  · intro hhead
    rcases Nat.eq_zero_or_pos n with rfl | hn
    · rw [Nat.toDigits_zero]
      rfl
    · obtain ⟨c, rest, hlist⟩ := List.exists_cons_of_ne_nil (Nat.toDigits_ne_nil (n := n) (b := base))
      obtain ⟨d, hd, rfl⟩ := hdigits c (by rw [hlist]; exact List.mem_cons_self)
      rw [hlist, List.map_cons, List.head?_cons, Option.some_inj] at hhead
      have hvalue := digitValue_charByte (hd.trans_le hbase)
      have hzero : digitValue (charByte '0') = some 0 := by decide
      rw [hhead, hzero, Option.some_inj] at hvalue
      subst hvalue
      have hne := head_toDigits_ne_zero hone hn
      rw [hlist] at hne
      exact absurd rfl hne

end Numeral

theorem CanonicalNat.head_ne_minus {base : Nat} {text : List Byte} (h : CanonicalNat base text) :
    text.head? ≠ some (charByte '-') := by
  intro hhead
  obtain ⟨d, -, hd⟩ := h.digit _ (List.mem_of_head? hhead)
  have hminus : digitValue (charByte '-') = none := by decide
  rw [hminus] at hd
  cases hd

theorem canonicalNat_decimal (n : Nat) : CanonicalNat 10 (decimal n) :=
  canonicalNat_numeral (by decide) (by decide) n

theorem canonicalInt_signedDecimal (n : Int) : CanonicalInt n (signedDecimal n) := by
  have hdecimal := canonicalNat_decimal n.natAbs
  rw [signedDecimal]
  split
  · next hneg => exact ⟨iff_of_true rfl hneg, by rwa [if_pos hneg]⟩
  · next hneg => exact ⟨iff_of_false hdecimal.head_ne_minus hneg, by rwa [if_neg hneg]⟩

theorem readInt_signedDecimal (n : Int) : readInt (signedDecimal n) = some n := by
  have hread : readNat 10 (decimal n.natAbs) = some n.natAbs :=
    readNat_numeral (by decide) (by decide) n.natAbs
  rw [readInt, signedDecimal]
  split
  · next hneg =>
    rw [List.head?_cons, if_pos rfl, List.tail_cons, hread, Option.map_some]
    congr 1
    omega
  · next hneg =>
    rw [if_neg (canonicalNat_decimal n.natAbs).head_ne_minus, hread, Option.map_some]
    congr 1
    omega

theorem signedDecimal_ne_nil (n : Int) : signedDecimal n ≠ [] := by
  intro h
  have hread := readInt_signedDecimal n
  rw [h] at hread
  cases hread

theorem hexadecimal_ne_nil (n : Nat) : hexadecimal n ≠ [] :=
  (canonicalNat_numeral (by decide) (by decide) n).nonempty

/-- The characters that are stored go behind those before, or one of them lies outside. -/
theorem storeAll_ok_iff {size : Word} {buffer chars out : List Byte} (h : chars ≠ []) :
    storeAll size buffer chars = .ok out ↔
      out = buffer ++ chars ∧ out.length ≤ size.toNat := by
  have hpos := List.length_pos_iff.mpr h
  by_cases hbuffer : buffer.length ≤ size.toNat
  · rw [storeAll_eq chars hbuffer]
    split
    · next hroom =>
      constructor
      · intro heq
        obtain rfl := Except.ok.inj heq
        exact ⟨rfl, by rwa [List.length_append]⟩
      · rintro ⟨rfl, -⟩
        rfl
    · next hroom =>
      constructor
      · intro heq
        cases heq
      · rintro ⟨rfl, hle⟩
        rw [List.length_append] at hle
        exact absurd hle hroom
  · constructor
    · intro heq
      obtain ⟨c, chars, rfl⟩ := List.exists_cons_of_ne_nil h
      have hfirst : store size buffer c = .error .buffer := if_neg (by omega)
      have hstop : storeAll size buffer (c :: chars) = .error .buffer :=
        congrArg (Except.bind · fun buffer => storeAll size buffer chars) hfirst
      rw [hstop] at heq
      cases heq
    · rintro ⟨rfl, hle⟩
      rw [List.length_append] at hle
      omega

theorem storeAll_fault {size : Word} {buffer chars : List Byte} {fault : Fault}
    (h : storeAll size buffer chars = .error fault) : fault = .buffer := by
  induction chars generalizing buffer with
  | nil => cases h
  | cons c chars ih =>
    have hcons : (store size buffer c).bind (fun buffer => storeAll size buffer chars) =
        .error fault := h
    rw [store] at hcons
    split at hcons
    · exact ih hcons
    · exact (Except.error.inj hcons).symm

/-- The call stores this numeral behind what the buffer holds, if there is room for it, and no
character outside `num_buf`. -/
structure AppendsNumeral (size : Word) (buffer : List Byte) (num base : Word)
    (numeral : List Byte) : Prop where
  result : ∀ out, numberToString size buffer num base = .ok out ↔
    out = buffer ++ numeral ∧ out.length ≤ size.toNat
  scratch : numberToString size buffer num base ≠ .error .scratch

theorem appendsNumeral {size : Word} {buffer : List Byte} {num base : Word} {numeral : List Byte}
    (heq : numberToString size buffer num base = storeAll size buffer numeral)
    (hne : numeral ≠ []) : AppendsNumeral size buffer num base numeral := by
  constructor
  · intro out
    rw [heq]
    exact storeAll_ok_iff hne
  · intro hfault
    rw [heq] at hfault
    cases storeAll_fault hfault

/-- In base 10 `number_to_string` appends the canonical numeral of the signed value, in base 16
that of the unsigned one, and each of them reads back as its value. -/
theorem number_to_string_canonical (size : Word) (buffer : List Byte) (num : Word) :
    AppendsNumeral size buffer num 10 (signedDecimal num.toInt) ∧
      CanonicalInt num.toInt (signedDecimal num.toInt) ∧
      readInt (signedDecimal num.toInt) = some num.toInt ∧
      AppendsNumeral size buffer num 16 (hexadecimal num.toNat) ∧
      CanonicalNat 16 (hexadecimal num.toNat) ∧
      readNat 16 (hexadecimal num.toNat) = some num.toNat := by
  refine ⟨appendsNumeral (numberToString_ten size buffer num) (signedDecimal_ne_nil _),
    canonicalInt_signedDecimal _, readInt_signedDecimal _,
    appendsNumeral (numberToString_sixteen size buffer num) (hexadecimal_ne_nil _), ?_, ?_⟩
  · exact canonicalNat_numeral (by decide) (by decide) _
  · exact readNat_numeral (by decide) (by decide) _

section Printers

variable {num : Word}

theorem toInt_of_small (h : num.toNat < 2 ^ 31) : num.toInt = num.toNat :=
  BitVec.toInt_eq_toNat_of_lt (by omega)

theorem msb_of_small (h : num.toNat < 2 ^ 31) : num.msb = false :=
  BitVec.msb_eq_false_iff_two_mul_lt.mpr (by omega)

theorem toNat_sdiv_ten (h : num.toNat < 2 ^ 31) : (num.sdiv 10).toNat = num.toNat / 10 := by
  rw [BitVec.sdiv_eq, msb_of_small h]
  exact BitVec.toNat_udiv

theorem toNat_srem_ten (h : num.toNat < 2 ^ 31) : (num.srem 10).toNat = num.toNat % 10 := by
  rw [BitVec.srem_eq, msb_of_small h]
  exact BitVec.toNat_umod

theorem decimalDigit_eq (h : num.toNat < 2 ^ 31) :
    charByte '0' + (num.srem 10).setWidth 8 = charByte (Nat.digitChar (num.toNat % 10)) := by
  have hall : ∀ d < 10, charByte '0' + (BitVec.ofNat 32 d).setWidth 8 =
      charByte (Nat.digitChar d) := by decide
  have hdigit : num.srem 10 = BitVec.ofNat 32 (num.toNat % 10) := by
    rw [← toNat_srem_ten h, BitVec.ofNat_toNat, BitVec.setWidth_eq]
  rw [hdigit]
  exact hall _ (Nat.mod_lt _ (by decide))

/-- The digit loop stores the numeral of a positive number backwards. -/
theorem decimalDigits_eq {num : Word} {room : Nat} (hsmall : num.toNat < 2 ^ 31) (hpos : 0 < num.toNat)
    (h : num.toNat < 10 ^ (room + 1)) (buf : List Byte) :
    decimalDigits (room + 1) num buf = .ok (buf ++ (decimal num.toNat).reverse) := by
  have hloop : 0 < num.toInt := by
    rw [toInt_of_small hsmall]
    omega
  rw [decimalDigits, if_pos hloop, decimalDigit_eq hsmall]
  have hquotient := toNat_sdiv_ten hsmall
  by_cases hlt : num.toNat < 10
  · have hzero : num.sdiv 10 = 0 := by
      apply BitVec.eq_of_toNat_eq
      rw [hquotient, Nat.div_eq_of_lt hlt]
      rfl
    have hstop : ∀ buf, decimalDigits room 0 buf = .ok buf := by
      intro buf
      cases room <;> rfl
    rw [hzero, hstop, decimal, Nat.toDigits_of_lt_base hlt, Nat.mod_eq_of_lt hlt]
    rfl
  · cases room with
    | zero => exact absurd h (by omega)
    | succ room =>
      rw [decimalDigits_eq (by omega) (by omega) (by omega), hquotient, List.append_assoc,
        decimal, decimal, Nat.toDigits_of_base_le (by decide) (not_lt.mp hlt)]
      simp

theorem store_of_lt {size : Word} {buffer : List Byte} (c : Byte)
    (h : buffer.length < size.toNat) : store size buffer c = .ok (buffer ++ [c]) := if_pos h

theorem magnitudeDigits_eq (hsmall : num.toNat < 2 ^ 31) :
    magnitudeDigits num = .ok (decimal num.toNat).reverse := by
  rw [magnitudeDigits]
  split
  · next hzero =>
    subst hzero
    rfl
  · next hne =>
    have hpos : 0 < num.toNat := Nat.pos_of_ne_zero fun h => hne (BitVec.eq_of_toNat_eq h)
    exact decimalDigits_eq hsmall hpos (by omega) []

/-- The stored characters are turned around, and the terminator goes behind them. -/
theorem finishDecimal_eq {text : List Byte} (h : text.length < 12) :
    store 12 (swapEnds 0 (text.reverse.length - 1) text.reverse) 0 = .ok (text ++ [0]) := by
  rw [swapEnds_eq_reverse, List.reverse_reverse]
  exact store_of_lt 0 h

theorem numToDecimal_of_nonneg (h : ¬num.toInt < 0) :
    numToDecimal num = .ok (signedDecimal num.toInt ++ [0]) := by
  have hsmall : num.toNat < 2 ^ 31 := not_not.mp fun hlarge => h (toInt_neg_iff.mpr hlarge)
  have htext : signedDecimal num.toInt = decimal num.toNat := by
    rw [signedDecimal, if_neg h, natAbs_of_nonneg h]
  have hlength := length_decimal_le num
  rw [numToDecimal]
  simp only [if_neg h, magnitudeDigits_eq hsmall, htext]
  exact finishDecimal_eq (by omega)

theorem numToDecimal_of_neg (h : num.toInt < 0) (hleast : num ≠ 0x80000000) :
    numToDecimal num = .ok (signedDecimal num.toInt ++ [0]) := by
  have hsmall : (-num).toNat < 2 ^ 31 := by
    rw [toInt_neg_iff] at h
    have hne : num.toNat ≠ 2 ^ 31 := fun heq => hleast (BitVec.eq_of_toNat_eq heq)
    rw [BitVec.toNat_neg]
    omega
  have htext : signedDecimal num.toInt = charByte '-' :: decimal (-num).toNat := by
    rw [signedDecimal, if_pos h, natAbs_of_neg h]
  have hlength := length_decimal_le (-num)
  have hsign : store 12 (decimal (-num).toNat).reverse (charByte '-') =
      .ok (charByte '-' :: decimal (-num).toNat).reverse := by
    rw [store_of_lt _ (by rw [List.length_reverse]; exact lt_of_le_of_lt hlength (by decide)),
      List.reverse_cons]
  rw [numToDecimal]
  simp only [if_pos h, magnitudeDigits_eq hsmall, htext]
  show (store 12 (decimal (-num).toNat).reverse (charByte '-')).bind
    (fun buf => store 12 (swapEnds 0 (buf.length - 1) buf) 0) = _
  rw [hsign]
  exact finishDecimal_eq (by rw [List.length_cons]; omega)

theorem length_signedDecimal_le (num : Word) : (signedDecimal num.toInt).length ≤ 11 := by
  rw [signedDecimal]
  split
  · next hneg =>
    rw [natAbs_of_neg hneg, List.length_cons]
    exact Nat.succ_le_succ (length_decimal_le _)
  · next hneg =>
    rw [natAbs_of_nonneg hneg]
    exact (length_decimal_le _).trans (by decide)

end Printers

/-- `num_to_decimal` stores the text that `number_to_string` gives in base 10, and a terminator, in
its 12 bytes, and the text reads back as the number. -/
def PrintersAgree (num : Word) : Prop :=
  ∃ text, numToDecimal num = .ok (text ++ [0]) ∧ (text ++ [0]).length ≤ 12 ∧
    numberToString 12 [] num 10 = .ok text ∧ readInt text = some num.toInt

theorem numToDecimal_least : numToDecimal 0x80000000 = .ok ([charByte '-'] ++ [0]) := by decide

theorem not_printersAgree_least : ¬PrintersAgree 0x80000000 := by
  rintro ⟨text, hstored, -, hgiven, -⟩
  rw [numToDecimal_least] at hstored
  obtain rfl := List.append_cancel_right (Except.ok.inj hstored)
  exact absurd hgiven (by decide)

/-- The printers agree on every number but the least, whose negation is negative. -/
theorem printers_agree_iff (num : Word) : PrintersAgree num ↔ num ≠ 0x80000000 := by
  constructor
  · rintro hagree rfl
    exact not_printersAgree_least hagree
  · intro hleast
    have hstored : numToDecimal num = .ok (signedDecimal num.toInt ++ [0]) := by
      by_cases hneg : num.toInt < 0
      · exact numToDecimal_of_neg hneg hleast
      · exact numToDecimal_of_nonneg hneg
    have hlength := length_signedDecimal_le num
    refine ⟨_, hstored, ?_, ?_, readInt_signedDecimal _⟩
    · rw [List.length_append, List.length_singleton]
      omega
    · rw [numberToString_ten, storeAll_ok_iff (signedDecimal_ne_nil _)]
      exact ⟨rfl, hlength.trans (by decide)⟩

/-- Of the least number `num_to_decimal` stores a minus sign only. -/
theorem least_number_differs :
    numToDecimal 0x80000000 = .ok [charByte '-', 0] ∧ ¬PrintersAgree 0x80000000 :=
  ⟨numToDecimal_least, not_printersAgree_least⟩

end Lbos

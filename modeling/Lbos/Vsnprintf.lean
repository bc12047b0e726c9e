import Lbos.CString
import Lbos.Lib.Numeral
import Lbos.Lib.Scan

/-! `vsnprintf` of `lib/string.c` and the two functions that print numbers for it.  The buffer is
the list of the characters stored so far, so that `pos` is its length.  The arguments are the words
that `va_arg` takes one after the other; the strings they point to lie apart from the buffer. -/

namespace Lbos

open Lib

/-- Where a call leaves the objects that it works on. -/
inductive Fault where
  /-- A character behind the last one of the format is read. -/
  | format
  /-- An argument is taken where none is left. -/
  | argument
  /-- A character is stored behind the end of `num_buf`. -/
  | scratch
  /-- A character is stored behind the end of the buffer. -/
  | buffer
  /-- A byte is read at an address where no page is present. -/
  | page (addr : Word)
  deriving DecidableEq, Repr

/-- `buffer[pos++] = c`. -/
def store (size : Word) (buffer : List Byte) (c : Byte) : Except Fault (List Byte) :=
  if buffer.length < size.toNat then .ok (buffer ++ [c]) else .error .buffer

def storeAll (size : Word) (buffer chars : List Byte) : Except Fault (List Byte) :=
  chars.foldlM (store size) buffer

/-- `(digit < 10) ? '0' + digit : 'a' + (digit - 10)`. -/
def digitByte (digit : Word) : Byte :=
  if digit < 10 then charByte '0' + digit.setWidth 8 else charByte 'a' + (digit - 10).setWidth 8

/-- `num_buf[num_pos++] = c`, with the last character at the front. -/
def pushNumBuf (numBuf : List Byte) (c : Byte) : Except Fault (List Byte) :=
  if numBuf.length < 32 then .ok (c :: numBuf) else .error .scratch

/-- The digit loop of `number_to_string`, with the room left in `num_buf`. -/
def numberDigits (base : Word) : Nat → Word → List Byte → Except Fault (List Byte)
  | 0, _, _ => .error .scratch
  | room + 1, unum, numBuf =>
    if unum / base > 0 then numberDigits base room (unum / base) (digitByte (unum % base) :: numBuf)
    else .ok (digitByte (unum % base) :: numBuf)

/-- The negation wraps. -/
def numberToString (size : Word) (buffer : List Byte) (num base : Word) :
    Except Fault (List Byte) := do
  let isNeg := num.slt 0 && base == 10
  let unum := if isNeg then -num else num
  let numBuf ← numberDigits base 32 unum []
  let numBuf ← if isNeg then pushNumBuf numBuf (charByte '-') else pure numBuf
  storeAll size buffer numBuf

def pointerToString (size : Word) (buffer : List Byte) (addr : Word) : Except Fault (List Byte) :=
  storeAll size buffer (charByte '0' :: charByte 'x' ::
    (List.range 8).reverse.map fun i => digitByte ((addr >>> (i * 4)) &&& 0xF))

/-- `"(null)"`. -/
def nullText : List Byte := ['(', 'n', 'u', 'l', 'l', ')'].map charByte

/-- The characters from `str` on, up to the terminator and at most `room`. -/
def charsAt (m : Mem) : Nat → Word → List Byte
  | 0, _ => []
  | room + 1, str => if m str ≠ 0 then m str :: charsAt m room (str + 1) else []

/-- What `%s` stores of its string where there is `room`. -/
def stringChars (m : Mem) (room : Nat) (str : Word) : List Byte :=
  if str = 0 then nullText.take room else charsAt m room str

/-- A conversion that takes an argument. -/
def withArg (print : Word → Except Fault (List Byte)) :
    List Word → Except Fault (List Word × List Byte)
  | [] => .error .argument
  | arg :: args => (print arg).map fun buffer => (args, buffer)

/-- The characters before the terminator: `size - 1`, in the type of `size`. -/
def limit (size : Word) : Nat := (size - 1).toNat

/-- `switch (*fmt)`, with the arguments left over and the buffer. -/
def directive (m : Mem) (size : Word) (fmt : Byte) (args : List Word) (buffer : List Byte) :
    Except Fault (List Word × List Byte) :=
  if fmt = charByte 'd' ∨ fmt = charByte 'i' then
    withArg (fun num => numberToString size buffer num 10) args
  else if fmt = charByte 'u' then
    withArg (fun num => numberToString size buffer num 10) args
  else if fmt = charByte 'x' ∨ fmt = charByte 'X' then
    withArg (fun num => numberToString size buffer num 16) args
  else if fmt = charByte 'p' then withArg (pointerToString size buffer) args
  else if fmt = charByte 's' then
    withArg (fun str => storeAll size buffer (stringChars m (limit size - buffer.length) str)) args
  else if fmt = charByte 'c' then withArg (fun c => store size buffer (c.setWidth 8)) args
  else if fmt = charByte '%' then
    (store size buffer (charByte '%')).map fun buffer => (args, buffer)
  else (storeAll size buffer [charByte '%', fmt]).map fun buffer => (args, buffer)

/-- One turn of the loop of `vsnprintf`: what is left of the format, the arguments that are left and
the characters stored, unless the loop ends. -/
def vsnprintfTurn (m : Mem) (size : Word) :
    List Byte → List Word × List Byte → Except Fault (Option (List Byte × (List Word × List Byte)))
  | [], _ => .error .format
  | c :: fmt, (args, buffer) =>
    if c ≠ 0 ∧ buffer.length < limit size then
      if c = charByte '%' then
        match fmt with
        | [] => .error .format
        | d :: rest =>
          if d ≠ charByte '%' then
            (directive m size d args buffer).map fun next => some (rest, next)
          else (store size buffer c).map fun buffer => some (d :: rest, (args, buffer))
      else (store size buffer c).map fun buffer => some (fmt, (args, buffer))
    else .ok none

theorem vsnprintfTurn_forward {m : Mem} {size : Word} {fmt rest : List Byte}
    {st st' : List Word × List Byte}
    (h : vsnprintfTurn m size fmt st = .ok (some (rest, st'))) :
    ∃ skipped, skipped ≠ [] ∧ fmt = skipped ++ rest := by
  obtain ⟨args, buffer⟩ := st
  rw [vsnprintfTurn.eq_def] at h
  cases fmt with
  | nil => cases h
  | cons c fmt =>
    dsimp only at h
    split at h
    · split at h
      · cases fmt with
        | nil => cases h
        | cons d fmt =>
          dsimp only at h
          split at h
          · obtain ⟨next, -, hnext⟩ := map_eq_ok h
            cases hnext
            exact ⟨[c, d], by simp, rfl⟩
          · obtain ⟨next, -, hnext⟩ := map_eq_ok h
            cases hnext
            exact ⟨[c], by simp, rfl⟩
      · obtain ⟨next, -, hnext⟩ := map_eq_ok h
        cases hnext
        exact ⟨[c], by simp, rfl⟩
    · cases h

def vsnprintfScanner (m : Mem) (size : Word) : Scanner Byte (List Word × List Byte) Fault :=
  ⟨vsnprintfTurn m size, vsnprintfTurn_forward⟩

/-- The loop of `vsnprintf`, from a place in the format on. -/
def vsnprintfLoop (m : Mem) (size : Word) (fmt : List Byte) (args : List Word) (buffer : List Byte) :
    Except Fault (List Byte) :=
  ((vsnprintfScanner m size).run fmt (args, buffer)).map Prod.snd

/-- The characters stored, and the result. -/
def vsnprintf (m : Mem) (size : Word) (format : List Byte) (args : List Word) :
    Except Fault (List Byte × Int) := do
  let buffer ← vsnprintfLoop m size format args []
  let stored ← store size buffer 0
  return (stored, (BitVec.ofNat 32 buffer.length).toInt)

section Loop

variable {m : Mem} {size : Word} {fmt rest buffer : List Byte} {args : List Word}

theorem vsnprintfLoop_end (h : vsnprintfTurn m size fmt (args, buffer) = .ok none) :
    vsnprintfLoop m size fmt args buffer = .ok buffer := by
  rw [vsnprintfLoop, Scanner.run_of_end (S := vsnprintfScanner m size) h]
  rfl

theorem vsnprintfLoop_fault {fault : Fault}
    (h : vsnprintfTurn m size fmt (args, buffer) = .error fault) :
    vsnprintfLoop m size fmt args buffer = .error fault := by
  rw [vsnprintfLoop, Scanner.run_of_fault (S := vsnprintfScanner m size) h]
  rfl

theorem vsnprintfLoop_map {β : Type} {x : Except Fault β} {f : β → List Word × List Byte}
    (h : vsnprintfTurn m size fmt (args, buffer) = x.map fun b => some (rest, f b)) :
    vsnprintfLoop m size fmt args buffer =
      x.bind fun b => vsnprintfLoop m size rest (f b).1 (f b).2 := by
  rw [vsnprintfLoop, Scanner.run_map (S := vsnprintfScanner m size) h]
  cases x <;> rfl

end Loop

/-- The decimal numeral of a number. -/
def decimal (n : Nat) : List Byte := (Nat.toDigits 10 n).map charByte

def signedDecimal (n : Int) : List Byte :=
  if n < 0 then charByte '-' :: decimal n.natAbs else decimal n.natAbs

/-- The hexadecimal numeral of a number, in lower case. -/
def hexadecimal (n : Nat) : List Byte := (Nat.toDigits 16 n).map charByte

/-- `0x` and eight hexadecimal digits. -/
def pointerText (addr : Word) : List Byte :=
  charByte '0' :: charByte 'x' :: (hexadecimal addr.toNat).leftpad 8 (charByte '0')

/-- A character of the string is stored at the next index, as long as that lies in the buffer. -/
theorem storeAll_eq {size : Word} {buffer : List Byte} (chars : List Byte)
    (h : buffer.length ≤ size.toNat) :
    storeAll size buffer chars =
      if buffer.length + chars.length ≤ size.toNat then .ok (buffer ++ chars)
      else .error .buffer := by
  induction chars generalizing buffer with
  | nil =>
    rw [if_pos (by simpa using h), List.append_nil]
    rfl
  | cons c chars ih =>
    have hcons : storeAll size buffer (c :: chars) =
        (store size buffer c).bind fun buffer => storeAll size buffer chars := rfl
    rw [hcons, store]
    by_cases hroom : buffer.length < size.toNat
    · have hnext : (buffer ++ [c]).length ≤ size.toNat := by simpa using Nat.succ_le_of_lt hroom
      rw [if_pos hroom, Except.bind, ih hnext, List.length_append,
        List.length_singleton, List.append_assoc, List.singleton_append, List.length_cons]
      simp only [Nat.add_assoc, Nat.add_comm 1]
    · rw [if_neg hroom, if_neg (by simp only [List.length_cons]; omega)]
      rfl

theorem store_eq_storeAll (size : Word) (buffer : List Byte) (c : Byte) :
    store size buffer c = storeAll size buffer [c] := by
  rw [storeAll, List.foldlM_cons]
  cases store size buffer c <;> rfl

theorem digitByte_eq {digit : Word} (h : digit.toNat < 16) :
    digitByte digit = charByte (Nat.digitChar digit.toNat) := by
  have hall : ∀ d : Fin 16, digitByte (BitVec.ofNat 32 d) = charByte (Nat.digitChar d) := by
    decide
  have hdigit := hall ⟨digit.toNat, h⟩
  rwa [BitVec.ofNat_toNat, BitVec.setWidth_eq] at hdigit

/-- The digit loop leaves the numeral in `num_buf`, when there is room for it. -/
theorem numberDigits_eq {base unum : Word} (hone : 1 < base.toNat) (hbase : base.toNat ≤ 16)
    {room : Nat} (h : unum.toNat < base.toNat ^ (room + 1)) (numBuf : List Byte) :
    numberDigits base (room + 1) unum numBuf =
      .ok ((Nat.toDigits base.toNat unum.toNat).map charByte ++ numBuf) := by
  have hquotient : (unum / base).toNat = unum.toNat / base.toNat := BitVec.toNat_udiv
  have hdigit : digitByte (unum % base) = charByte (Nat.digitChar (unum.toNat % base.toNat)) := by
    have hlt : (unum % base).toNat < 16 := by
      rw [BitVec.toNat_umod]
      exact lt_of_lt_of_le (Nat.mod_lt _ (by omega)) hbase
    rw [digitByte_eq hlt, BitVec.toNat_umod]
  have hpos : unum / base > 0 ↔ base.toNat ≤ unum.toNat := by
    rw [gt_iff_lt, BitVec.lt_def, hquotient]
    exact Nat.div_pos_iff.trans ⟨And.right, fun hle => ⟨by omega, hle⟩⟩
  rw [numberDigits, hdigit]
  by_cases hle : base.toNat ≤ unum.toNat
  · rw [if_pos (hpos.mpr hle), Nat.toDigits_of_base_le hone hle]
    cases room with
    | zero => exact absurd h (by rw [Nat.pow_one]; omega)
    | succ room =>
      have hrest : (unum / base).toNat < base.toNat ^ (room + 1) := by
        rw [hquotient, Nat.div_lt_iff_lt_mul (by omega), ← pow_succ]
        exact h
      rw [numberDigits_eq hone hbase hrest, hquotient, List.map_append, List.append_assoc]
      rfl
  · rw [if_neg (mt hpos.mp hle), Nat.toDigits_of_lt_base (not_le.mp hle),
      Nat.mod_eq_of_lt (not_le.mp hle)]
    rfl

theorem toInt_neg_iff {num : Word} : num.toInt < 0 ↔ ¬num.toNat < 2 ^ 31 := by
  rw [BitVec.toInt_eq_toNat_cond]
  split <;> omega

theorem natAbs_of_nonneg {num : Word} (h : ¬num.toInt < 0) : num.toInt.natAbs = num.toNat := by
  rw [BitVec.toInt_eq_toNat_cond] at h ⊢
  split at h <;> split <;> omega

theorem natAbs_of_neg {num : Word} (h : num.toInt < 0) : num.toInt.natAbs = (-num).toNat := by
  rw [BitVec.toInt_eq_toNat_cond] at h ⊢
  rw [BitVec.toNat_neg]
  split at h <;> split <;> omega

theorem numberDigits_ten (unum : Word) :
    numberDigits 10 32 unum [] = .ok (decimal unum.toNat) := by
  rw [numberDigits_eq (by decide) (by decide) (lt_trans unum.isLt (by decide)), List.append_nil]
  rfl

theorem numberDigits_sixteen (unum : Word) :
    numberDigits 16 32 unum [] = .ok (hexadecimal unum.toNat) := by
  rw [numberDigits_eq (by decide) (by decide) (lt_trans unum.isLt (by decide)), List.append_nil]
  rfl

/-- A word has ten decimal digits at most, so that the sign finds room too. -/
theorem length_decimal_le (unum : Word) : (decimal unum.toNat).length ≤ 10 := by
  rw [decimal, List.length_map, Nat.length_toDigits_le_iff (by decide) (by decide)]
  exact lt_trans unum.isLt (by decide)

theorem numberToString_ten (size : Word) (buffer : List Byte) (num : Word) :
    numberToString size buffer num 10 = storeAll size buffer (signedDecimal num.toInt) := by
  have hneg : (num.slt 0 && (10 : Word) == 10) = decide (num.toInt < 0) := by
    rw [BitVec.slt]
    exact Bool.and_true _
  rw [numberToString, hneg, signedDecimal]
  by_cases h : num.toInt < 0
  · have hpush : pushNumBuf (decimal (-num).toNat) (charByte '-') =
        .ok (charByte '-' :: decimal (-num).toNat) := by
      rw [pushNumBuf, if_pos (lt_of_le_of_lt (length_decimal_le _) (by decide))]
    rw [if_pos h, natAbs_of_neg h, decide_eq_true h]
    simp only [if_true, numberDigits_ten]
    exact congrArg (Except.bind · (storeAll size buffer)) hpush
  · rw [if_neg h, natAbs_of_nonneg h, decide_eq_false h]
    simp only [Bool.false_eq_true, if_false, numberDigits_ten]
    rfl

theorem numberToString_sixteen (size : Word) (buffer : List Byte) (num : Word) :
    numberToString size buffer num 16 = storeAll size buffer (hexadecimal num.toNat) := by
  have hneg : (num.slt 0 && (16 : Word) == 10) = false := Bool.and_false _
  rw [numberToString, hneg]
  simp only [Bool.false_eq_true, if_false, numberDigits_sixteen]
  rfl

theorem pointerToString_eq (size : Word) (buffer : List Byte) (addr : Word) :
    pointerToString size buffer addr = storeAll size buffer (pointerText addr) := by
  have hdigit : ∀ i, digitByte ((addr >>> (i * 4)) &&& 0xF) =
      charByte (Nat.digitChar (addr.toNat / 16 ^ i % 16)) := by
    intro i
    have hvalue : ((addr >>> (i * 4)) &&& 0xF).toNat = addr.toNat / 16 ^ i % 16 := by
      have hmask : addr.toNat >>> (i * 4) &&& 15 = addr.toNat >>> (i * 4) % 16 :=
        Nat.and_two_pow_sub_one_eq_mod _ 4
      rw [BitVec.toNat_and, BitVec.toNat_ushiftRight]
      refine hmask.trans ?_
      rw [Nat.shiftRight_eq_div_pow, Nat.mul_comm, Nat.pow_mul]
    rw [digitByte_eq (hvalue.trans_lt (Nat.mod_lt _ (by decide))), hvalue]
  have hpad : ((List.range 8).reverse.map fun i => digitByte ((addr >>> (i * 4)) &&& 0xF)) =
      (hexadecimal addr.toNat).leftpad 8 (charByte '0') := by
    have hplaces := digits_at_places (by decide : 1 < 16) (k := 7) (n := addr.toNat)
      (lt_of_lt_of_eq addr.isLt (by decide))
    have hmap := congrArg (List.map charByte) hplaces
    rw [List.map_map] at hmap
    simp only [hdigit]
    refine hmap.trans ?_
    simp [hexadecimal, List.leftpad]
  rw [pointerToString, hpad, pointerText]

end Lbos

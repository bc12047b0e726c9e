import Lbos.FormatReading

/-! What `vsnprintf` stores for a format that is put together from ordinary characters, conversions
with their arguments, and doubled percent signs, against what these stand for. -/

namespace Lbos

open Lib

/-- The text that an argument of a conversion stands for. -/
def Conversion.text (m : Mem) : Conversion → Word → List Byte
  | d, num | i, num => signedDecimal num.toInt
  | u, num => decimal num.toNat
  | x, num | X, num => hexadecimal num.toNat
  | p, addr => pointerText addr
  | s, str => stringChars m (2 ^ 32) str
  | c, arg => [arg.setWidth 8]

/-- A part of a format, with its argument. -/
inductive Item where
  | char (c : { c : Byte // c ≠ 0 ∧ c ≠ charByte '%' })
  | conversion (conv : Conversion) (arg : Word)
  | percent

namespace Item

def spelled : Item → List Byte
  | char c => [c.val]
  | conversion conv _ => [charByte '%', conv.letter]
  | percent => [charByte '%', charByte '%']

def args : Item → List Word
  | conversion _ arg => [arg]
  | _ => []

def text (m : Mem) : Item → List Byte
  | char c => [c.val]
  | conversion conv arg => conv.text m arg
  | percent => [charByte '%']

/-- The parts that the code formats as what they stand for: no doubled percent sign, and no `%u`
of an argument with the top bit set. -/
def Faithful : Item → Prop
  | conversion .u num => num.toNat < 2 ^ 31
  | percent => False
  | _ => True

instance : DecidablePred Faithful
  | conversion .u num => inferInstanceAs (Decidable (num.toNat < 2 ^ 31))
  | conversion .d _ | conversion .i _ | conversion .x _ | conversion .X _ | conversion .p _
  | conversion .s _ | conversion .c _ | char _ => inferInstanceAs (Decidable True)
  | percent => inferInstanceAs (Decidable False)

end Item

/-- The bytes of a format. -/
def formatOf (items : List Item) : List Byte := items.flatMap Item.spelled ++ [0]

def argsOf (items : List Item) : List Word := items.flatMap Item.args

def textOf (m : Mem) (items : List Item) : List Byte := items.flatMap (Item.text m)

section Reading

variable (m : Mem) {c d : Byte} (fmt : List Byte) (args : List Word)

theorem reading_char (hc : c ≠ 0) (hpercent : c ≠ charByte '%') :
    reading m (c :: fmt) args = .whole [c] :: reading m fmt args := by
  rw [reading.eq_def]
  exact (if_neg hc).trans (if_neg hpercent)

theorem reading_percent :
    reading m (charByte '%' :: charByte '%' :: fmt) args =
      .whole [charByte '%'] :: reading m (charByte '%' :: fmt) args := by
  rw [reading.eq_def]
  exact (if_neg (by decide)).trans ((if_pos rfl).trans (if_pos rfl))

theorem reading_conversion (conv : Conversion) (arg : Word) :
    reading m (charByte '%' :: conv.letter :: fmt) (arg :: args) =
      conv.chunk m arg :: reading m fmt args := by
  rw [reading.eq_def]
  refine (if_neg (by decide)).trans ((if_pos rfl).trans ((if_neg conv.letter_ne_percent).trans ?_))
  rw [Conversion.ofLetter_letter]

theorem reading_starved (conv : Conversion) :
    reading m (charByte '%' :: conv.letter :: fmt) [] = [.undefined .argument] := by
  rw [reading.eq_def]
  refine (if_neg (by decide)).trans ((if_pos rfl).trans ((if_neg conv.letter_ne_percent).trans ?_))
  rw [Conversion.ofLetter_letter]

theorem reading_other (hd : Conversion.ofLetter d = none) (hpercent : d ≠ charByte '%') :
    reading m (charByte '%' :: d :: fmt) args =
      .whole [charByte '%', d] :: reading m fmt args := by
  rw [reading.eq_def]
  refine (if_neg (by decide)).trans ((if_pos rfl).trans ((if_neg hpercent).trans ?_))
  rw [hd]

end Reading

namespace Chunk

/-- The chunk asks for a text. -/
def Defined : Chunk → Prop
  | whole _ | string _ => True
  | _ => False

/-- Chunks whose texts stay below `limit` fit when all of them ask for a text. -/
theorem fits_iff_defined {limit pos : Nat} {chunks : List Chunk}
    (h : pos + (texts chunks).length < limit) :
    Fits limit pos chunks ↔ ∀ chunk ∈ chunks, chunk.Defined := by
  induction chunks generalizing pos with
  | nil => simp [Fits]
  | cons chunk chunks ih =>
    rw [texts_cons, List.length_append] at h
    have hends : chunk.Ends limit pos ↔ chunk.Defined := by
      cases chunk with
      | whole text => exact iff_of_true (fun _ => by simp only [Chunk.text] at h; omega) trivial
      | string text => exact Iff.rfl
      | undefined fault => exact iff_of_false (by simp only [Ends]; omega) id
      | overread => exact Iff.rfl
    have hrest : (pos < limit → Fits limit (pos + chunk.text.length) chunks) ↔
        ∀ chunk ∈ chunks, chunk.Defined := by
      rw [← ih (by omega : pos + chunk.text.length + (texts chunks).length < limit)]
      exact ⟨fun hfits => hfits (by omega), fun hfits _ => hfits⟩
    rw [Fits, hends, hrest, List.forall_mem_cons]

end Chunk

/-- A list cut at `limit` is short only when nothing was cut off. -/
theorem eq_take_iff {α : Type*} {out text : List α} {limit : Nat} (h : out.length < limit) :
    out = text.take limit ↔ out = text := by
  constructor
  · intro heq
    have hlength := congrArg List.length heq
    rw [List.length_take] at hlength
    rw [heq, List.take_of_length_le (by omega)]
  · rintro rfl
    rw [List.take_of_length_le h.le]

/-- A call whose text is short formats it exactly when the format reads as that text. -/
theorem vsnprintf_short_iff (m : Mem) {size : Word} {format : List Byte} {args : List Word}
    {text : List Byte} (h : text.length + 1 < size.toNat) :
    vsnprintf m size format args = .ok (text ++ [0], (text.length : Int)) ↔
      ((∀ chunk ∈ reading m format args, chunk.Defined) ∧
        Chunk.texts (reading m format args) = text) ∧ text.length < 2 ^ 31 := by
  have hsize : 1 ≤ size.toNat := by omega
  have hlimit := limit_add_one hsize
  rw [vsnprintf_iff m hsize, eq_take_iff (by omega), ← and_assoc]
  refine and_congr_left' ?_
  constructor
  · rintro ⟨hfits, rfl⟩
    exact ⟨(Chunk.fits_iff_defined (by omega)).mp hfits, rfl⟩
  · rintro ⟨hdefined, rfl⟩
    exact ⟨(Chunk.fits_iff_defined (by omega)).mpr hdefined, rfl⟩

/-- How many of the characters are percent or minus signs. -/
def marks (text : List Byte) : Nat :=
  text.countP fun c => c = charByte '%' ∨ c = charByte '-'

theorem marks_append (s t : List Byte) : marks (s ++ t) = marks s + marks t :=
  List.countP_append

theorem marks_decimal (n : Nat) : marks (decimal n) = 0 := by
  refine List.countP_eq_zero.mpr fun c hc => ?_
  obtain ⟨digit, hmem, rfl⟩ := List.mem_map.mp hc
  have hdigit := Nat.isDigit_of_mem_toDigits (by decide) (by decide) hmem
  have hrange : 48 ≤ digit.toNat ∧ digit.toNat ≤ 57 := by
    simpa [Char.isDigit, UInt32.le_iff_toNat_le] using hdigit
  have hbyte : (charByte digit).toNat = digit.toNat := by
    rw [charByte, BitVec.toNat_ofNat]
    omega
  have hpercent : (charByte '%').toNat = 37 := rfl
  have hminus : (charByte '-').toNat = 45 := rfl
  rw [decide_eq_true_eq, not_or]
  constructor <;> intro heq <;> rw [heq] at hbyte <;> omega

theorem marks_percent_cons (c : Byte) : marks [charByte '%', c] = 1 + marks [c] :=
  marks_append [charByte '%'] [c]

theorem chunk_text (m : Mem) {conv : Conversion} {arg : Word}
    (h : (Item.conversion conv arg).Faithful) : (conv.chunk m arg).text = conv.text m arg := by
  cases conv with
  | u =>
    have hnonneg : ¬arg.toInt < 0 := fun hneg => toInt_neg_iff.mp hneg h
    rw [Conversion.chunk, Chunk.text, Conversion.text, signedDecimal, if_neg hnonneg,
      natAbs_of_nonneg hnonneg]
  | _ => rfl

/-- Of an unsigned number with the top bit set the code makes a negative one. -/
theorem marks_lt_of_not_faithful (m : Mem) {conv : Conversion} {arg : Word}
    (h : ¬(Item.conversion conv arg).Faithful) :
    marks (conv.text m arg) < marks (conv.chunk m arg).text := by
  cases conv with
  | u =>
    have hsigned : signedDecimal arg.toInt = [charByte '-'] ++ decimal arg.toInt.natAbs :=
      if_pos (toInt_neg_iff.mpr h)
    rw [Conversion.chunk, Chunk.text, hsigned, marks_append, Conversion.text, marks_decimal]
    exact Nat.add_pos_left (by decide) _
  | _ => exact absurd trivial h

theorem marks_le (m : Mem) (conv : Conversion) (arg : Word) :
    marks (conv.text m arg) ≤ marks (conv.chunk m arg).text := by
  by_cases h : (Item.conversion conv arg).Faithful
  · rw [chunk_text m h]
  · exact (marks_lt_of_not_faithful m h).le

section Items

variable (m : Mem)

/-- Every place that a format reads as asks for a text. -/
def ReadsDefined (fmt : List Byte) (args : List Word) : Prop :=
  ∀ chunk ∈ reading m fmt args, chunk.Defined

def readText (fmt : List Byte) (args : List Word) : List Byte :=
  Chunk.texts (reading m fmt args)

theorem formatOf_cons (item : Item) (items : List Item) :
    formatOf (item :: items) = item.spelled ++ formatOf items := by
  rw [formatOf, List.flatMap_cons, List.append_assoc, formatOf]

theorem argsOf_cons (item : Item) (items : List Item) :
    argsOf (item :: items) = item.args ++ argsOf items := List.flatMap_cons

variable {m} {fmt : List Byte} {args : List Word}

theorem readsDefined_cons {chunk : Chunk} {fmt' : List Byte} {args' : List Word}
    (h : reading m fmt args = chunk :: reading m fmt' args') :
    ReadsDefined m fmt args ↔ chunk.Defined ∧ ReadsDefined m fmt' args' := by
  rw [ReadsDefined, h, List.forall_mem_cons]
  exact Iff.rfl

theorem readText_cons {chunk : Chunk} {fmt' : List Byte} {args' : List Word}
    (h : reading m fmt args = chunk :: reading m fmt' args') :
    readText m fmt args = chunk.text ++ readText m fmt' args' := by
  rw [readText, h, Chunk.texts_cons]
  rfl

theorem not_defined_starved (conv : Conversion) :
    ¬ReadsDefined m (charByte '%' :: conv.letter :: fmt) [] := by
  rw [ReadsDefined, reading_starved]
  exact fun h => h _ (List.mem_singleton_self _)

theorem chunk_defined (m : Mem) (conv : Conversion) (arg : Word) :
    (conv.chunk m arg).Defined := by
  cases conv <;> exact trivial

/-- Another character behind a percent sign takes an argument, or is stored behind it. -/
theorem behind_percent {c : Byte} (hc : c ≠ charByte '%')
    (h : ReadsDefined m (charByte '%' :: c :: fmt) args) :
    (∃ arg rest, args = arg :: rest ∧ ReadsDefined m fmt rest) ∨
      (ReadsDefined m fmt args ∧
        readText m (charByte '%' :: c :: fmt) args = [charByte '%', c] ++ readText m fmt args) := by
  cases hconv : Conversion.ofLetter c with
  | none =>
    have hreading := reading_other m fmt args hconv hc
    exact .inr ⟨((readsDefined_cons hreading).mp h).2, readText_cons hreading⟩
  | some conv =>
    obtain rfl := Conversion.letter_of_ofLetter hconv
    cases args with
    | nil => exact absurd h (not_defined_starved conv)
    | cons arg rest =>
      have hreading := reading_conversion m fmt rest conv arg
      exact .inl ⟨arg, rest, rfl, ((readsDefined_cons hreading).mp h).2⟩

/-- With fewer arguments than conversions a format is not defined, also behind a percent sign. -/
theorem not_defined_of_lt {items : List Item} (h : args.length < (argsOf items).length) :
    ¬ReadsDefined m (formatOf items) args ∧
      ¬ReadsDefined m (charByte '%' :: formatOf items) args := by
  induction items generalizing args with
  | nil => cases h
  | cons item items ih =>
    rw [argsOf_cons, List.length_append] at h
    rw [formatOf_cons]
    cases item with
    | char c =>
      have hlt : args.length < (argsOf items).length := by simpa [Item.args] using h
      obtain ⟨hrest, -⟩ := ih hlt
      have hchar := reading_char m (formatOf items) args c.2.1 c.2.2
      refine ⟨fun hdefined => hrest ((readsDefined_cons hchar).mp hdefined).2, fun hdefined => ?_⟩
      obtain ⟨arg, rest, rfl, hshort⟩ | ⟨hdefined, -⟩ := behind_percent c.2.2 hdefined
      · rw [List.length_cons] at h
        exact (ih (by simp only [Item.args, List.length_nil] at h; omega)).1 hshort
      · exact hrest hdefined
    | conversion conv arg =>
      have hshort : ¬ReadsDefined m (charByte '%' :: conv.letter :: formatOf items) args := by
        cases args with
        | nil => exact not_defined_starved conv
        | cons first rest =>
          have hlt : rest.length < (argsOf items).length := by
            simpa [Item.args, Nat.add_comm] using h
          obtain ⟨hrest, -⟩ := ih hlt
          have hreading := reading_conversion m (formatOf items) rest conv first
          exact fun hdefined => hrest ((readsDefined_cons hreading).mp hdefined).2
      exact ⟨hshort, fun hdefined =>
        hshort ((readsDefined_cons (reading_percent m _ _)).mp hdefined).2⟩
    | percent =>
      have hlt : args.length < (argsOf items).length := by simpa [Item.args] using h
      obtain ⟨-, hrest⟩ := ih hlt
      have hboth : ¬ReadsDefined m (charByte '%' :: charByte '%' :: formatOf items) args :=
        fun hdefined => hrest ((readsDefined_cons (reading_percent m _ _)).mp hdefined).2
      exact ⟨hboth, fun hdefined =>
        hboth ((readsDefined_cons (reading_percent m _ _)).mp hdefined).2⟩

theorem readsDefined_nil : ReadsDefined m (formatOf []) (argsOf []) := by
  intro chunk hchunk
  cases hchunk

theorem not_defined_percent_nil : ¬ReadsDefined m (charByte '%' :: formatOf []) args := by
  intro h
  have hend : ReadsDefined m (charByte '%' :: 0 :: []) args := h
  obtain ⟨arg, rest, rfl, hrest⟩ | ⟨hrest, -⟩ := behind_percent (by decide) hend <;>
  exact hrest .overread (List.mem_singleton_self _)

theorem marks_readText_cons {chunk : Chunk} {fmt' : List Byte} {args' : List Word}
    (h : reading m fmt args = chunk :: reading m fmt' args') :
    marks (readText m fmt args) = marks chunk.text + marks (readText m fmt' args') := by
  rw [readText_cons h, marks_append]

/-- Of two percent signs the first is stored, and what follows is read as from the second on. -/
theorem marks_behind_percent {n : Nat}
    (hle : ReadsDefined m (charByte '%' :: fmt) args →
      n ≤ marks (readText m (charByte '%' :: fmt) args))
    (h : ReadsDefined m (charByte '%' :: charByte '%' :: fmt) args) :
    n < marks (readText m (charByte '%' :: charByte '%' :: fmt) args) := by
  have hreading := reading_percent m fmt args
  have hrest := hle ((readsDefined_cons hreading).mp h).2
  rw [marks_readText_cons hreading]
  exact (Nat.lt_succ_of_le hrest).trans_eq (Nat.add_comm _ 1)

variable (m) in
/-- What is read of a format has at least the marks of its text, and more than these where a part
is not formatted as what it stands for, and behind a percent sign. -/
structure Marked (items : List Item) : Prop where
  le : ReadsDefined m (formatOf items) (argsOf items) →
    marks (textOf m items) ≤ marks (readText m (formatOf items) (argsOf items))
  lt : ReadsDefined m (formatOf items) (argsOf items) → (∃ item ∈ items, ¬item.Faithful) →
    marks (textOf m items) < marks (readText m (formatOf items) (argsOf items))
  behind : ReadsDefined m (charByte '%' :: formatOf items) (argsOf items) →
    marks (textOf m items) < marks (readText m (charByte '%' :: formatOf items) (argsOf items))

variable {items : List Item}

theorem marked_char (h : Marked m items) (c : { c : Byte // c ≠ 0 ∧ c ≠ charByte '%' }) :
    Marked m (.char c :: items) := by
  have hreading : reading m (formatOf (.char c :: items)) (argsOf (.char c :: items)) =
      .whole [c.val] :: reading m (formatOf items) (argsOf items) :=
    reading_char m (formatOf items) (argsOf items) c.2.1 c.2.2
  have hmarks : marks (textOf m (.char c :: items)) = marks [c.val] + marks (textOf m items) :=
    marks_append _ _
  refine ⟨fun hdefined => ?_, fun hdefined hitem => ?_, fun hdefined => ?_⟩
  · rw [hmarks, marks_readText_cons hreading]
    exact Nat.add_le_add_left (h.le ((readsDefined_cons hreading).mp hdefined).2) _
  · rw [hmarks, marks_readText_cons hreading]
    refine Nat.add_lt_add_left (h.lt ((readsDefined_cons hreading).mp hdefined).2 ?_) _
    obtain ⟨item, hmem, hfaithful⟩ := hitem
    obtain rfl | hmem := List.mem_cons.mp hmem
    · exact absurd trivial hfaithful
    · exact ⟨item, hmem, hfaithful⟩
  · obtain ⟨arg, rest, hargs, hshort⟩ | ⟨hdefined, hread⟩ := behind_percent c.2.2 hdefined
    · have hlt : rest.length < (argsOf items).length :=
        (Nat.lt_succ_self _).trans_eq (congrArg List.length hargs).symm
      exact absurd hshort (not_defined_of_lt hlt).1
    · have hle := h.le hdefined
      have hall : marks (readText m (charByte '%' :: formatOf (.char c :: items))
          (argsOf (.char c :: items))) =
            1 + marks [c.val] + marks (readText m (formatOf items) (argsOf items)) := by
        rw [← marks_percent_cons, ← marks_append]
        exact congrArg marks hread
      omega

theorem marked_conversion (h : Marked m items) (conv : Conversion) (arg : Word) :
    Marked m (.conversion conv arg :: items) := by
  have hreading : reading m (formatOf (.conversion conv arg :: items))
      (argsOf (.conversion conv arg :: items)) =
        conv.chunk m arg :: reading m (formatOf items) (argsOf items) :=
    reading_conversion m (formatOf items) (argsOf items) conv arg
  have hmarks : marks (textOf m (.conversion conv arg :: items)) =
      marks (conv.text m arg) + marks (textOf m items) := marks_append _ _
  have hle : ReadsDefined m (formatOf (.conversion conv arg :: items))
      (argsOf (.conversion conv arg :: items)) → marks (textOf m (.conversion conv arg :: items)) ≤
        marks (readText m (formatOf (.conversion conv arg :: items))
          (argsOf (.conversion conv arg :: items))) := by
    intro hdefined
    rw [hmarks, marks_readText_cons hreading]
    exact Nat.add_le_add (marks_le m conv arg) (h.le ((readsDefined_cons hreading).mp hdefined).2)
  refine ⟨hle, fun hdefined hitem => ?_, marks_behind_percent hle⟩
  have hrest := ((readsDefined_cons hreading).mp hdefined).2
  rw [hmarks, marks_readText_cons hreading]
  obtain ⟨item, hmem, hfaithful⟩ := hitem
  obtain rfl | hmem := List.mem_cons.mp hmem
  · exact Nat.add_lt_add_of_lt_of_le (marks_lt_of_not_faithful m hfaithful) (h.le hrest)
  · exact Nat.add_lt_add_of_le_of_lt (marks_le m conv arg) (h.lt hrest ⟨item, hmem, hfaithful⟩)

theorem marked_percent (h : Marked m items) : Marked m (.percent :: items) := by
  have hreading : reading m (formatOf (.percent :: items)) (argsOf (.percent :: items)) =
      .whole [charByte '%'] :: reading m (charByte '%' :: formatOf items) (argsOf items) :=
    reading_percent m (formatOf items) (argsOf items)
  have hlt : ReadsDefined m (formatOf (.percent :: items)) (argsOf (.percent :: items)) →
      marks (textOf m (.percent :: items)) <
        marks (readText m (formatOf (.percent :: items)) (argsOf (.percent :: items))) := by
    intro hdefined
    have hmarks : marks (textOf m (.percent :: items)) =
        marks [charByte '%'] + marks (textOf m items) := marks_append _ _
    rw [hmarks, marks_readText_cons hreading]
    exact Nat.add_lt_add_left (h.behind ((readsDefined_cons hreading).mp hdefined).2) _
  exact ⟨fun hdefined => (hlt hdefined).le, fun hdefined _ => hlt hdefined,
    marks_behind_percent fun hdefined => (hlt hdefined).le⟩

theorem marked (m : Mem) (items : List Item) : Marked m items := by
  induction items with
  | nil =>
    refine ⟨fun _ => Nat.zero_le _, ?_, fun h => absurd h not_defined_percent_nil⟩
    rintro - ⟨item, hitem, -⟩
    cases hitem
  | cons item items ih =>
    cases item with
    | char c => exact marked_char ih c
    | conversion conv arg => exact marked_conversion ih conv arg
    | percent => exact marked_percent ih

/-- Without such parts, a format reads as its text. -/
theorem reads_text_of_faithful (h : ∀ item ∈ items, item.Faithful) :
    ReadsDefined m (formatOf items) (argsOf items) ∧
      readText m (formatOf items) (argsOf items) = textOf m items := by
  induction items with
  | nil => exact ⟨readsDefined_nil, rfl⟩
  | cons item items ih =>
    obtain ⟨hitem, hitems⟩ := List.forall_mem_cons.mp h
    obtain ⟨hdefined, hread⟩ := ih hitems
    cases item with
    | char c =>
      have hreading := reading_char m (formatOf items) (argsOf items) c.2.1 c.2.2
      refine ⟨(readsDefined_cons hreading).mpr ⟨trivial, hdefined⟩, ?_⟩
      exact (readText_cons hreading).trans (congrArg _ hread)
    | conversion conv arg =>
      have hreading := reading_conversion m (formatOf items) (argsOf items) conv arg
      refine ⟨(readsDefined_cons hreading).mpr ⟨chunk_defined m conv arg, hdefined⟩, ?_⟩
      refine (readText_cons hreading).trans ?_
      rw [chunk_text m hitem, hread]
      rfl
    | percent => cases hitem

theorem reads_text_iff :
    (ReadsDefined m (formatOf items) (argsOf items) ∧
      readText m (formatOf items) (argsOf items) = textOf m items) ↔
        ∀ item ∈ items, item.Faithful := by
  refine ⟨?_, reads_text_of_faithful⟩
  rintro ⟨hdefined, hread⟩
  by_contra hnot
  have hitem : ∃ item ∈ items, ¬item.Faithful := by simpa using hnot
  have hlt := (marked m items).lt hdefined hitem
  rw [hread] at hlt
  exact lt_irrefl _ hlt

end Items

/-- The call stores the text of the format and its terminator and returns the length of the text,
exactly when the format has no doubled percent sign, no `%u` of an argument with the top bit set,
and a text of fewer than `2^31` characters. -/
theorem formats_iff (m : Mem) (size : Word) (items : List Item)
    (hshort : (textOf m items).length + 1 < size.toNat) :
    vsnprintf m size (formatOf items) (argsOf items) =
        .ok (textOf m items ++ [0], ((textOf m items).length : Int)) ↔
      (∀ item ∈ items, item.Faithful) ∧ (textOf m items).length < 2 ^ 31 := by
  rw [vsnprintf_short_iff m hshort, ← reads_text_iff]
  exact Iff.rfl

/-- `"n=%d %s"`, of `-5` and a null pointer. -/
def sampleItems : List Item :=
  [.char ⟨charByte 'n', by decide⟩, .char ⟨charByte '=', by decide⟩, .conversion .d (-5),
    .char ⟨charByte ' ', by decide⟩, .conversion .s 0]

theorem formats_sample :
    vsnprintf (fun _ => 0) 32 (formatOf sampleItems) (argsOf sampleItems) =
      .ok (textOf (fun _ => 0) sampleItems ++ [0], 11) :=
  (formats_iff _ _ _ (by decide)).mpr (by decide)

/-- `"%%!"`. -/
def doubledPercent : List Item := [.percent, .char ⟨charByte '!', by decide⟩]

/-- `"%u"`, of `4294967295`. -/
def greatestUnsigned : List Item := [.conversion .u 0xFFFFFFFF]

/-- The doubled percent sign is stored twice, and the greatest unsigned number as `-1`. -/
theorem percent_and_unsigned_fail :
    (vsnprintf (fun _ => 0) 16 (formatOf doubledPercent) (argsOf doubledPercent) =
        .ok ([charByte '%', charByte '%', charByte '!', 0], 3) ∧
      [charByte '%', charByte '%', charByte '!', 0] ≠
        textOf (fun _ => 0) doubledPercent ++ [0]) ∧
    vsnprintf (fun _ => 0) 16 (formatOf greatestUnsigned) (argsOf greatestUnsigned) =
        .ok ([charByte '-', charByte '1', 0], 2) ∧
      [charByte '-', charByte '1', 0] ≠ textOf (fun _ => 0) greatestUnsigned ++ [0] := by
  decide

end Lbos

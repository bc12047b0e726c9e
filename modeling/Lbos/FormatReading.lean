import Lbos.Vsnprintf

/-! How `vsnprintf` reads a format: as a list of chunks, each with the text it asks for.  The loop
stores these texts one after the other, until it has reached `size - 1` characters. -/

namespace Lbos

open Lib

/-- What one place of the format asks for. -/
inductive Chunk where
  /-- A text that is stored whole. -/
  | whole (text : List Byte)
  /-- A string, stored as far as there is room. -/
  | string (text : List Byte)
  /-- The loop faults where it starts on this place. -/
  | undefined (fault : Fault)
  /-- The format has no terminator before this place. -/
  | overread
  deriving DecidableEq, Repr

namespace Chunk

def text : Chunk → List Byte
  | whole text => text
  | string text => text
  | _ => []

/-- What is stored where there is `room`. -/
def stored (room : Nat) : Chunk → List Byte
  | string text => text.take room
  | chunk => chunk.text

@[simp] theorem stored_whole (room : Nat) (text : List Byte) :
    (whole text).stored room = text := rfl

@[simp] theorem stored_string (room : Nat) (text : List Byte) :
    (string text).stored room = text.take room := rfl

/-- The chunk may stand at index `pos`: if it is started there, then it ends by `limit`. -/
def Ends (limit pos : Nat) : Chunk → Prop
  | whole text => pos < limit → pos + text.length ≤ limit
  | string _ => True
  | undefined _ => limit ≤ pos
  | overread => False

/-- Each chunk that is started from index `pos` on ends by `limit`. -/
def Fits (limit : Nat) : Nat → List Chunk → Prop
  | _, [] => True
  | pos, chunk :: chunks =>
    chunk.Ends limit pos ∧ (pos < limit → Fits limit (pos + chunk.text.length) chunks)

instance (limit pos : Nat) : (chunk : Chunk) → Decidable (chunk.Ends limit pos)
  | whole text => inferInstanceAs (Decidable (pos < limit → pos + text.length ≤ limit))
  | string _ => inferInstanceAs (Decidable True)
  | undefined _ => inferInstanceAs (Decidable (limit ≤ pos))
  | overread => inferInstanceAs (Decidable False)

instance decidableFits (limit : Nat) :
    (pos : Nat) → (chunks : List Chunk) → Decidable (Fits limit pos chunks)
  | _, [] => inferInstanceAs (Decidable True)
  | pos, chunk :: chunks =>
    have := decidableFits limit (pos + chunk.text.length) chunks
    inferInstanceAs (Decidable (chunk.Ends limit pos ∧
      (pos < limit → Fits limit (pos + chunk.text.length) chunks)))

/-- The text that chunks ask for. -/
def texts (chunks : List Chunk) : List Byte := chunks.flatMap text

theorem texts_cons (chunk : Chunk) (chunks : List Chunk) :
    texts (chunk :: chunks) = chunk.text ++ texts chunks := List.flatMap_cons

/-- From `limit` on nothing is started. -/
theorem fits_of_full {limit pos pos' : Nat} (h : limit ≤ pos) (h' : limit ≤ pos')
    (chunks : List Chunk) : Fits limit pos chunks ↔ Fits limit pos' chunks := by
  cases chunks with
  | nil => exact Iff.rfl
  | cons chunk chunks =>
    have hends : chunk.Ends limit pos ↔ chunk.Ends limit pos' := by
      cases chunk <;> simp [Ends, h, h', not_lt.mpr h, not_lt.mpr h']
    rw [Fits, Fits, hends]
    simp [not_lt.mpr h, not_lt.mpr h']

end Chunk

/-- The conversions that take an argument. -/
inductive Conversion where
  | d | i | u | x | X | p | s | c
  deriving DecidableEq, Repr

namespace Conversion

def letter : Conversion → Byte
  | d => charByte 'd'
  | i => charByte 'i'
  | u => charByte 'u'
  | x => charByte 'x'
  | X => charByte 'X'
  | p => charByte 'p'
  | s => charByte 's'
  | c => charByte 'c'

def ofLetter (c : Byte) : Option Conversion :=
  [d, i, u, x, X, p, s, .c].find? fun conv => conv.letter = c

/-- What the code prints of an argument. -/
def chunk (m : Mem) : Conversion → Word → Chunk
  | d, num | i, num | u, num => .whole (signedDecimal num.toInt)
  | x, num | X, num => .whole (hexadecimal num.toNat)
  | p, addr => .whole (pointerText addr)
  | s, str => .string (stringChars m (2 ^ 32) str)
  | c, arg => .whole [arg.setWidth 8]

theorem ofLetter_letter (conv : Conversion) : ofLetter conv.letter = some conv := by
  cases conv <;> decide

theorem letter_of_ofLetter {c : Byte} {conv : Conversion} (h : ofLetter c = some conv) :
    conv.letter = c := by
  simpa using List.find?_some h

theorem letter_ne_percent (conv : Conversion) : conv.letter ≠ charByte '%' := by
  cases conv <;> decide

theorem letter_ne_of_ofLetter {c : Byte} (h : ofLetter c = none) (conv : Conversion) :
    c ≠ conv.letter := by
  rintro rfl
  rw [ofLetter_letter] at h
  cases h

end Conversion

/-- The chunks of a format, with the arguments left at a place of it. -/
def reading (m : Mem) : List Byte → List Word → List Chunk
  | [], _ => [.overread]
  | c :: fmt, args =>
    if c = 0 then []
    else if c = charByte '%' then
      match fmt with
      | [] => [.undefined .format]
      | d :: rest =>
        if d = charByte '%' then .whole [c] :: reading m (d :: rest) args
        else
          match Conversion.ofLetter d, args with
          | some conv, arg :: args => conv.chunk m arg :: reading m rest args
          | some _, [] => [.undefined .argument]
          | none, args => .whole [charByte '%', d] :: reading m rest args
    else .whole [c] :: reading m fmt args

theorem charsAt_take (m : Mem) {room n : Nat} (h : room ≤ n) (str : Word) :
    (charsAt m n str).take room = charsAt m room str := by
  induction room generalizing n str with
  | zero => rfl
  | succ room ih =>
    obtain ⟨n, rfl⟩ : ∃ k, n = k + 1 := ⟨n - 1, by omega⟩
    rw [charsAt, charsAt]
    split
    · rw [List.take_succ_cons, ih (Nat.le_of_succ_le_succ h)]
    · rfl

theorem stringChars_take (m : Mem) {room n : Nat} (h : room ≤ n) (str : Word) :
    (stringChars m n str).take room = stringChars m room str := by
  rw [stringChars, stringChars]
  split
  · rw [List.take_take, min_eq_left h]
  · exact charsAt_take m h str

theorem limit_le (size : Word) : limit size ≤ 2 ^ 32 := Nat.le_of_lt (size - 1).isLt

theorem limit_add_one {size : Word} (h : 1 ≤ size.toNat) : limit size + 1 = size.toNat := by
  rw [limit]
  bv_omega

/-- A conversion stores what its chunk asks for. -/
theorem directive_letter (m : Mem) (size : Word) (conv : Conversion) (args : List Word)
    (buffer : List Byte) :
    directive m size conv.letter args buffer =
      withArg (fun arg => storeAll size buffer
        ((conv.chunk m arg).stored (limit size - buffer.length))) args := by
  have hroom : limit size - buffer.length ≤ 2 ^ 32 := (Nat.sub_le _ _).trans (limit_le size)
  have hten := funext (numberToString_ten size buffer)
  have hsixteen := funext (numberToString_sixteen size buffer)
  cases conv with
  | d | i =>
    rw [directive, if_pos (by decide), hten]
    rfl
  | u =>
    rw [directive, if_neg (by decide), if_pos (by decide), hten]
    rfl
  | x | X =>
    rw [directive, if_neg (by decide), if_neg (by decide), if_pos (by decide), hsixteen]
    rfl
  | p =>
    rw [directive, if_neg (by decide), if_neg (by decide), if_neg (by decide),
      if_pos (by decide), funext (pointerToString_eq size buffer)]
    rfl
  | s =>
    rw [directive, if_neg (by decide), if_neg (by decide), if_neg (by decide),
      if_neg (by decide), if_pos (by decide)]
    simp only [Conversion.chunk, Chunk.stored, stringChars_take m hroom]
  | c =>
    rw [directive, if_neg (by decide), if_neg (by decide), if_neg (by decide),
      if_neg (by decide), if_neg (by decide), if_pos (by decide)]
    simp only [store_eq_storeAll]
    rfl

/-- After a percent sign, another character is stored behind it. -/
theorem directive_other (m : Mem) (size : Word) {c : Byte} (hc : Conversion.ofLetter c = none)
    (hpercent : c ≠ charByte '%') (args : List Word) (buffer : List Byte) :
    directive m size c args buffer =
      (storeAll size buffer [charByte '%', c]).map fun buffer => (args, buffer) := by
  have hne := Conversion.letter_ne_of_ofLetter hc
  rw [directive]
  exact (if_neg (not_or.mpr ⟨hne .d, hne .i⟩)).trans <| (if_neg (hne .u)).trans <|
    (if_neg (not_or.mpr ⟨hne .x, hne .X⟩)).trans <| (if_neg (hne .p)).trans <|
    (if_neg (hne .s)).trans <| (if_neg (hne .c)).trans (if_neg hpercent)

section Loop

variable (m : Mem) (size : Word) {c d : Byte} (fmt : List Byte) (args : List Word)
  (buffer : List Byte)

/-- One turn of the loop: it stores a chunk and goes on, unless there is no room left. -/
def turn (chunk : Chunk) (next : List Byte → Except Fault (List Byte)) :
    Except Fault (List Byte) :=
  if buffer.length < limit size then
    (storeAll size buffer (chunk.stored (limit size - buffer.length))).bind next
  else .ok buffer

theorem loop_zero : vsnprintfLoop m size (0 :: fmt) args buffer = .ok buffer := by
  refine vsnprintfLoop_end ?_
  rw [vsnprintfTurn.eq_def]
  exact if_neg fun h => h.1 rfl

/-- With no room left, the loop ends at any character. -/
theorem loop_full (c : Byte) (h : limit size ≤ buffer.length) :
    vsnprintfLoop m size (c :: fmt) args buffer = .ok buffer := by
  refine vsnprintfLoop_end ?_
  rw [vsnprintfTurn.eq_def]
  exact if_neg fun hroom => not_lt.mpr h hroom.2

theorem loop_char (hc : c ≠ 0) (hpercent : c ≠ charByte '%') :
    vsnprintfLoop m size (c :: fmt) args buffer =
      turn size buffer (.whole [c]) (vsnprintfLoop m size fmt args) := by
  rw [turn]
  split
  · next hroom =>
    have hturn : vsnprintfTurn m size (c :: fmt) (args, buffer) =
        (store size buffer c).map fun buffer => some (fmt, (args, buffer)) := by
      rw [vsnprintfTurn.eq_def]
      exact (if_pos ⟨hc, hroom⟩).trans (if_neg hpercent)
    rw [vsnprintfLoop_map hturn, store_eq_storeAll]
    rfl
  · next hroom => exact loop_full m size _ _ _ _ (not_lt.mp hroom)

theorem loop_directive (h : buffer.length < limit size) (hpercent : d ≠ charByte '%') :
    vsnprintfLoop m size (charByte '%' :: d :: fmt) args buffer =
      (directive m size d args buffer).bind fun next =>
        vsnprintfLoop m size fmt next.1 next.2 := by
  refine vsnprintfLoop_map (f := id) ?_
  rw [vsnprintfTurn.eq_def]
  exact (if_pos ⟨by decide, h⟩).trans ((if_pos rfl).trans (if_pos hpercent))

theorem loop_last (h : buffer.length < limit size) :
    vsnprintfLoop m size [charByte '%'] args buffer = .error .format := by
  refine vsnprintfLoop_fault ?_
  rw [vsnprintfTurn.eq_def]
  exact (if_pos ⟨by decide, h⟩).trans (if_pos rfl)

theorem loop_conversion (conv : Conversion) (arg : Word) :
    vsnprintfLoop m size (charByte '%' :: conv.letter :: fmt) (arg :: args) buffer =
      turn size buffer (conv.chunk m arg) (vsnprintfLoop m size fmt args) := by
  rw [turn]
  split
  · next hroom =>
    rw [loop_directive m size _ _ _ hroom conv.letter_ne_percent, directive_letter, withArg]
    cases storeAll size buffer ((conv.chunk m arg).stored (limit size - buffer.length)) <;> rfl
  · next hroom => exact loop_full m size _ _ _ _ (not_lt.mp hroom)

theorem loop_starved (conv : Conversion) (h : buffer.length < limit size) :
    vsnprintfLoop m size (charByte '%' :: conv.letter :: fmt) [] buffer = .error .argument := by
  rw [loop_directive m size _ _ _ h conv.letter_ne_percent, directive_letter]
  rfl

theorem loop_other (hc : Conversion.ofLetter d = none) (hpercent : d ≠ charByte '%') :
    vsnprintfLoop m size (charByte '%' :: d :: fmt) args buffer =
      turn size buffer (.whole [charByte '%', d]) (vsnprintfLoop m size fmt args) := by
  rw [turn]
  split
  · next hroom =>
    rw [loop_directive m size _ _ _ hroom hpercent, directive_other m size hc hpercent,
      Chunk.stored_whole]
    cases storeAll size buffer [charByte '%', d] <;> rfl
  · next hroom => exact loop_full m size _ _ _ _ (not_lt.mp hroom)

/-- Of two percent signs the loop stores the first and goes on at the second. -/
theorem loop_percent :
    vsnprintfLoop m size (charByte '%' :: charByte '%' :: fmt) args buffer =
      turn size buffer (.whole [charByte '%'])
        (vsnprintfLoop m size (charByte '%' :: fmt) args) := by
  rw [turn]
  split
  · next hroom =>
    have hturn : vsnprintfTurn m size (charByte '%' :: charByte '%' :: fmt) (args, buffer) =
        (store size buffer (charByte '%')).map fun buffer =>
          some (charByte '%' :: fmt, (args, buffer)) := by
      rw [vsnprintfTurn.eq_def]
      exact (if_pos ⟨by decide, hroom⟩).trans ((if_pos rfl).trans (if_neg (by simp)))
    rw [vsnprintfLoop_map hturn, store_eq_storeAll]
    rfl
  · next hroom => exact loop_full m size _ _ _ _ (not_lt.mp hroom)

end Loop

theorem storeAll_eq_append {size : Word} {buffer chars out : List Byte}
    (h : storeAll size buffer chars = .ok out) : out = buffer ++ chars := by
  induction chars generalizing buffer with
  | nil =>
    cases h
    exact (List.append_nil _).symm
  | cons c chars ih =>
    have hcons : (store size buffer c).bind (fun buffer => storeAll size buffer chars) = .ok out :=
      h
    rw [store] at hcons
    split at hcons
    · rw [ih hcons, List.append_assoc, List.singleton_append]
    · cases hcons

theorem turn_extends {size : Word} {buffer out : List Byte} {chunk : Chunk}
    {next : List Byte → Except Fault (List Byte)}
    (hnext : ∀ stored, next stored = .ok out → stored.length ≤ out.length)
    (h : turn size buffer chunk next = .ok out) : buffer.length ≤ out.length := by
  rw [turn] at h
  split at h
  · generalize hstored : storeAll size buffer (chunk.stored (limit size - buffer.length)) = r at h
    cases r with
    | error => cases h
    | ok stored =>
      have hle := hnext stored h
      rw [storeAll_eq_append hstored, List.length_append] at hle
      omega
  · cases h
    exact Nat.le_refl _

/-- The texts of chunks, stored one after the other. -/
def storeChunks (size : Word) : List Chunk → List Byte → Except Fault (List Byte)
  | [], buffer => .ok buffer
  | .overread :: _, _ => .error .format
  | .undefined fault :: _, buffer =>
    if buffer.length < limit size then .error fault else .ok buffer
  | chunk :: chunks, buffer => turn size buffer chunk (storeChunks size chunks)

/-- The loop stores the chunks of what it reads. -/
theorem loop_eq (m : Mem) (size : Word) (fmt : List Byte) (args : List Word) (buffer : List Byte) :
    vsnprintfLoop m size fmt args buffer = storeChunks size (reading m fmt args) buffer := by
  fun_induction reading m fmt args generalizing buffer with
  | case1 => rfl
  | case2 => rw [loop_zero, storeChunks]
  | case3 =>
    rw [storeChunks]
    split
    · next hroom => exact loop_last m size _ _ hroom
    · next hroom => exact loop_full m size _ _ _ _ (not_lt.mp hroom)
  | case4 args rest _ ih =>
    rw [loop_percent, funext ih]
    rfl
  | case5 d rest _ conv arg args hconv _ ih =>
    rw [← Conversion.letter_of_ofLetter hconv, loop_conversion, funext ih]
    cases conv <;> rfl
  | case6 d rest _ conv hconv =>
    rw [← Conversion.letter_of_ofLetter hconv, storeChunks]
    split
    · next hroom => exact loop_starved m size _ _ conv hroom
    · next hroom => exact loop_full m size _ _ _ _ (not_lt.mp hroom)
  | case7 d rest hpercent args hconv _ ih =>
    rw [loop_other m size _ _ _ hconv hpercent, funext ih]
    rfl
  | case8 args c fmt hzero hpercent ih =>
    rw [loop_char m size _ _ _ hzero hpercent, funext ih]
    rfl

@[simp] theorem storeChunks_whole (size : Word) (text : List Byte) (chunks : List Chunk)
    (buffer : List Byte) : storeChunks size (.whole text :: chunks) buffer =
      turn size buffer (.whole text) (storeChunks size chunks) := rfl

@[simp] theorem storeChunks_string (size : Word) (text : List Byte) (chunks : List Chunk)
    (buffer : List Byte) : storeChunks size (.string text :: chunks) buffer =
      turn size buffer (.string text) (storeChunks size chunks) := rfl

theorem storeChunks_extends {size : Word} {chunks : List Chunk} {buffer out : List Byte}
    (h : storeChunks size chunks buffer = .ok out) : buffer.length ≤ out.length := by
  induction chunks generalizing buffer with
  | nil =>
    cases h
    exact Nat.le_refl _
  | cons chunk chunks ih =>
    cases chunk with
    | whole | string => exact turn_extends (fun _ => ih) h
    | undefined fault =>
      rw [storeChunks] at h
      split at h
      · cases h
      · cases h
        exact Nat.le_refl _
    | overread => cases h

section Run

variable {size : Word} {buffer out text : List Byte} {chunk : Chunk} {chunks : List Chunk}

/-- From `buffer` on the chunks are stored within the limit exactly when they fit, and then as far
as there is room. -/
def StoredWithin (size : Word) (chunks : List Chunk) (buffer out : List Byte) : Prop :=
  (storeChunks size chunks buffer = .ok out ∧ out.length ≤ limit size) ↔
    Chunk.Fits (limit size) buffer.length chunks ∧
      out = (buffer ++ Chunk.texts chunks).take (limit size)

theorem take_full (h : buffer.length = limit size) (rest : List Byte) :
    (buffer ++ rest).take (limit size) = buffer := by
  rw [← h, List.take_left]

/-- With no room left nothing more is stored, and chunks fit when the first may stand there. -/
theorem storedWithin_of_full (hstop : storeChunks size (chunk :: chunks) buffer = .ok buffer)
    (hends : chunk.Ends (limit size) buffer.length) (h : buffer.length = limit size) :
    StoredWithin size (chunk :: chunks) buffer out := by
  have hfits : Chunk.Fits (limit size) buffer.length (chunk :: chunks) :=
    ⟨hends, fun hlt => absurd hlt h.not_lt⟩
  rw [StoredWithin, hstop, take_full h]
  constructor
  · rintro ⟨heq, -⟩
    cases heq
    exact ⟨hfits, rfl⟩
  · rintro ⟨-, rfl⟩
    exact ⟨rfl, h.le⟩

theorem storedWithin_of_error {fault : Fault}
    (herror : storeChunks size (chunk :: chunks) buffer = .error fault)
    (hends : ¬chunk.Ends (limit size) buffer.length) :
    StoredWithin size (chunk :: chunks) buffer out := by
  rw [StoredWithin, herror]
  constructor
  · rintro ⟨heq, -⟩
    cases heq
  · rintro ⟨hfits, -⟩
    exact absurd hfits.1 hends

/-- A text that ends by `limit` is stored, and the next chunk is started behind it. -/
theorem turn_room_iff (hsize : 1 ≤ size.toNat) {next : List Byte → Except Fault (List Byte)}
    (hroom : buffer.length < limit size)
    (hstored : chunk.stored (limit size - buffer.length) = text)
    (hnext : ∀ stored, next stored = .ok out → stored.length ≤ out.length) :
    (turn size buffer chunk next = .ok out ∧ out.length ≤ limit size) ↔
      buffer.length + text.length ≤ limit size ∧
        next (buffer ++ text) = .ok out ∧ out.length ≤ limit size := by
  have hlimit := limit_add_one hsize
  rw [turn, if_pos hroom, hstored, storeAll_eq _ (by omega)]
  by_cases hend : buffer.length + text.length ≤ size.toNat
  · rw [if_pos hend]
    constructor
    · rintro ⟨heq, hle⟩
      have hextends := hnext _ heq
      rw [List.length_append] at hextends
      exact ⟨by omega, heq, hle⟩
    · rintro ⟨-, heq, hle⟩
      exact ⟨heq, hle⟩
  · rw [if_neg hend]
    constructor
    · rintro ⟨heq, -⟩
      cases heq
    · rintro ⟨hle, -⟩
      omega

theorem storedWithin_whole (hsize : 1 ≤ size.toNat) (hbuffer : buffer.length ≤ limit size)
    (hrest : ∀ stored : List Byte, stored.length ≤ limit size →
      StoredWithin size chunks stored out) :
    StoredWithin size (.whole text :: chunks) buffer out := by
  rcases Nat.lt_or_eq_of_le hbuffer with hroom | hfull
  · have hends : (Chunk.whole text).Ends (limit size) buffer.length ↔
        buffer.length + text.length ≤ limit size := ⟨fun h => h hroom, fun h _ => h⟩
    rw [StoredWithin, storeChunks_whole,
      turn_room_iff hsize hroom rfl fun _ => storeChunks_extends, Chunk.Fits, hends,
      Chunk.texts_cons, ← List.append_assoc, and_assoc]
    refine and_congr_right fun hle => ?_
    have hnext := hrest (buffer ++ text) (by rwa [List.length_append])
    rw [StoredWithin, List.length_append] at hnext
    exact hnext.trans (and_congr_left' ⟨fun h _ => h, fun h => h hroom⟩)
  · exact storedWithin_of_full (if_neg hfull.not_lt) (fun hlt => absurd hlt hfull.not_lt) hfull

/-- A string that is cut where the room ends leaves the same characters before `limit`. -/
theorem take_cut (text rest : List Byte) (limit : Nat) :
    (buffer ++ text.take (limit - buffer.length) ++ rest).take limit =
      (buffer ++ text ++ rest).take limit := by
  have hrest : limit - buffer.length - min (limit - buffer.length) text.length =
      limit - buffer.length - text.length := by omega
  simp only [List.append_assoc, List.take_append, List.take_take, min_self, List.length_take, hrest]

theorem storedWithin_string (hsize : 1 ≤ size.toNat) (hbuffer : buffer.length ≤ limit size)
    (hrest : ∀ stored : List Byte, stored.length ≤ limit size →
      StoredWithin size chunks stored out) :
    StoredWithin size (.string text :: chunks) buffer out := by
  rcases Nat.lt_or_eq_of_le hbuffer with hroom | hfull
  · have hcut : (text.take (limit size - buffer.length)).length =
        min (limit size - buffer.length) text.length := List.length_take
    have hstored : buffer.length + (text.take (limit size - buffer.length)).length ≤
        limit size := by omega
    have hfits : Chunk.Fits (limit size)
        (buffer ++ text.take (limit size - buffer.length)).length chunks ↔
          Chunk.Fits (limit size) (buffer.length + text.length) chunks := by
      rw [List.length_append, hcut]
      rcases le_total text.length (limit size - buffer.length) with hle | hle
      · rw [min_eq_right hle]
      · exact Chunk.fits_of_full (by omega) (by omega) chunks
    have hnext := hrest (buffer ++ text.take (limit size - buffer.length))
      (by rwa [List.length_append])
    rw [StoredWithin, hfits, take_cut] at hnext
    rw [StoredWithin, storeChunks_string,
      turn_room_iff hsize hroom rfl fun _ => storeChunks_extends, Chunk.stored_string,
      and_iff_right hstored, hnext, Chunk.Fits, Chunk.texts_cons, ← List.append_assoc]
    exact and_congr_left' ⟨fun h => ⟨trivial, fun _ => h⟩, fun h => h.2 hroom⟩
  · exact storedWithin_of_full (if_neg hfull.not_lt) trivial hfull

theorem storedWithin_undefined (fault : Fault) (hbuffer : buffer.length ≤ limit size) :
    StoredWithin size (.undefined fault :: chunks) buffer out := by
  rcases Nat.lt_or_eq_of_le hbuffer with hroom | hfull
  · exact storedWithin_of_error (if_pos hroom) (not_le.mpr hroom)
  · exact storedWithin_of_full (if_neg hfull.not_lt) hfull.ge hfull

theorem storedWithin (hsize : 1 ≤ size.toNat) (hbuffer : buffer.length ≤ limit size) :
    StoredWithin size chunks buffer out := by
  induction chunks generalizing buffer with
  | nil =>
    have htake : (buffer ++ Chunk.texts []).take (limit size) = buffer := by
      rw [Chunk.texts, List.flatMap_nil, List.append_nil, List.take_of_length_le hbuffer]
    rw [StoredWithin, htake]
    constructor
    · rintro ⟨heq, -⟩
      cases heq
      exact ⟨trivial, rfl⟩
    · rintro ⟨-, rfl⟩
      exact ⟨rfl, hbuffer⟩
  | cons chunk chunks ih =>
    have hrest : ∀ stored : List Byte, stored.length ≤ limit size →
        StoredWithin size chunks stored out := fun _ => ih
    cases chunk with
    | whole text => exact storedWithin_whole hsize hbuffer hrest
    | string text => exact storedWithin_string hsize hbuffer hrest
    | undefined fault => exact storedWithin_undefined fault hbuffer
    | overread => exact storedWithin_of_error rfl id

end Run

/-- A length below `2^32` is returned as it is when it is an `int`. -/
theorem toInt_ofNat_length {n : Nat} (h : n < 2 ^ 32) :
    (BitVec.ofNat 32 n).toInt = (n : Int) ↔ n < 2 ^ 31 := by
  rw [BitVec.toInt_eq_toNat_cond, BitVec.toNat_ofNat, Nat.mod_eq_of_lt h]
  split <;> omega

/-- The call is defined, and tells how many characters it stored before the terminator, exactly
when the chunks fit and these are fewer than `2^31`. -/
theorem vsnprintf_iff (m : Mem) {size : Word} (hsize : 1 ≤ size.toNat) (format : List Byte)
    (args : List Word) (text : List Byte) :
    vsnprintf m size format args = .ok (text ++ [0], (text.length : Int)) ↔
      Chunk.Fits (limit size) 0 (reading m format args) ∧
        text = (Chunk.texts (reading m format args)).take (limit size) ∧ text.length < 2 ^ 31 := by
  have hlimit := limit_add_one hsize
  have hsmall := size.isLt
  have hrun : ∀ out, (vsnprintfLoop m size format args [] = .ok out ∧ out.length ≤ limit size) ↔
      Chunk.Fits (limit size) 0 (reading m format args) ∧
        out = (Chunk.texts (reading m format args)).take (limit size) := by
    intro out
    rw [loop_eq]
    exact storedWithin hsize (Nat.zero_le _)
  rw [← and_assoc, ← hrun, vsnprintf]
  generalize vsnprintfLoop m size format args [] = r
  constructor
  · intro h
    cases r with
    | error => cases h
    | ok buffer =>
      have hstore : (store size buffer 0).bind (fun stored =>
          .ok (stored, (BitVec.ofNat 32 buffer.length).toInt)) =
            .ok (text ++ [0], (text.length : Int)) := h
      rw [store] at hstore
      split at hstore
      · next hroom =>
        obtain ⟨htext, hlength⟩ := Prod.mk.inj (Except.ok.inj hstore)
        obtain rfl := List.append_cancel_right htext
        exact ⟨⟨rfl, by omega⟩, (toInt_ofNat_length (by omega)).mp hlength⟩
      · cases hstore
  · rintro ⟨⟨rfl, hle⟩, hlength⟩
    have hstore : store size text 0 = .ok (text ++ [0]) := if_pos (by omega)
    have hint := (toInt_ofNat_length (n := text.length) (by omega)).mpr hlength
    rw [← hint]
    exact congrArg (Except.bind · fun stored => .ok (stored, _)) hstore

end Lbos

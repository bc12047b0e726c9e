import Lbos.FormatReading

/-! What `vsnprintf` writes, against the size of its buffer.  Only the head of the loop and `%s`
look at the room that is left: the other conversions store their whole text from an index below
`size - 1` on. -/

namespace Lbos

open Lib

/-- The call writes into the buffer only, ends what it stored by a terminator there, and returns how
many characters it stored before that. -/
def StaysInside (m : Mem) (size : Word) (format : List Byte) (args : List Word) : Prop :=
  ∃ text : List Byte, text.length < size.toNat ∧
    vsnprintf m size format args = .ok (text ++ [0], (text.length : Int))

theorem stays_inside_iff (m : Mem) {size : Word} (hsize : 1 ≤ size.toNat) (format : List Byte)
    (args : List Word) :
    StaysInside m size format args ↔
      Chunk.Fits (limit size) 0 (reading m format args) ∧
        min (limit size) (Chunk.texts (reading m format args)).length < 2 ^ 31 := by
  have hlimit := limit_add_one hsize
  constructor
  · rintro ⟨text, -, hcall⟩
    obtain ⟨hfits, rfl, hlength⟩ := (vsnprintf_iff m hsize format args text).mp hcall
    exact ⟨hfits, by rwa [List.length_take] at hlength⟩
  · rintro ⟨hfits, hlength⟩
    rw [← List.length_take] at hlength
    refine ⟨_, ?_, (vsnprintf_iff m hsize format args _).mpr ⟨hfits, rfl, hlength⟩⟩
    rw [List.length_take]
    omega

/-- `"n=%d"`. -/
def sampleFormat : List Byte := [charByte 'n', charByte '=', charByte '%', charByte 'd', 0]

/-- Seven bytes hold `n=-123` and the terminator. -/
theorem stays_inside_sample : StaysInside (fun _ => 0) 7 sampleFormat [-123] :=
  (stays_inside_iff _ (by decide) _ _).mpr (by decide)

/-- `"%p"` stores ten characters, whatever the size is. -/
theorem pointer_leaves_buffer :
    ¬StaysInside (fun _ => 0) 4 [charByte '%', charByte 'p', 0] [0x12345678] := by
  have hfault : vsnprintf (fun _ => 0) 4 [charByte '%', charByte 'p', 0] [0x12345678] =
      .error .buffer := by decide
  rintro ⟨text, -, hcall⟩
  rw [hfault] at hcall
  cases hcall

end Lbos

import Lbos.FormatText
import Lbos.Numerals
import Lbos.Drivers.SerialWrite
import Lbos.Log

/-! Where the scans of a format end: `vsnprintf` and `log_write` stop at its terminator, unless a
percent sign is the last character before it. -/

namespace Lbos

open Lib

/-! ### `vsnprintf` -/

/-- How a format reads up to its terminator: whole chunks, and then the end, a percent sign that
takes the terminator for its letter, or a conversion without its argument. -/
inductive ReadsTo (t : List Byte) (chunks : List Chunk) : Prop where
  | stops (h : t.getLast? ≠ some (charByte '%')) (hall : ∀ chunk ∈ chunks, chunk.Defined)
  | cut (before : List Chunk) (h : t.getLast? = some (charByte '%'))
    (hall : ∀ chunk ∈ before, chunk.Defined)
    (hchunks : chunks = before ++ [.whole [charByte '%', 0], .overread])
  | starved (before : List Chunk) (hall : ∀ chunk ∈ before, chunk.Defined)
    (hchunks : chunks = before ++ [.undefined .argument])

/-- What stands before a text decides its last character only if the text is empty. -/
theorem getLast?_append_iff {skipped t : List Byte} {c : Byte}
    (h : t ≠ [] ∨ skipped.getLast? ≠ some c) :
    (skipped ++ t).getLast? = some c ↔ t.getLast? = some c := by
  rw [List.getLast?_append]
  cases hlast : t.getLast? with
  | some d => exact Iff.rfl
  | none =>
    have hnil : t = [] := List.getLast?_eq_none_iff.mp hlast
    have hskipped := h.resolve_left (fun hne => hne hnil)
    exact iff_of_false hskipped (by simp)

theorem ReadsTo.cons {t : List Byte} {chunks : List Chunk} (h : ReadsTo t chunks)
    {skipped : List Byte}
    (hskipped : t ≠ [] ∨ skipped.getLast? ≠ some (charByte '%')) {chunk : Chunk}
    (hchunk : chunk.Defined) : ReadsTo (skipped ++ t) (chunk :: chunks) := by
  have hlast := getLast?_append_iff hskipped
  have hcons : ∀ {before : List Chunk}, (∀ chunk ∈ before, chunk.Defined) →
      ∀ c ∈ chunk :: before, c.Defined := fun hall => List.forall_mem_cons.mpr ⟨hchunk, hall⟩
  cases h with
  | stops h hall => exact .stops (mt hlast.mp h) (hcons hall)
  | cut before h hall hchunks =>
    exact .cut (chunk :: before) (hlast.mpr h) (hcons hall) (by rw [hchunks]; rfl)
  | starved before hall hchunks =>
    exact .starved (chunk :: before) (hcons hall) (by rw [hchunks]; rfl)

section Stored

variable {size : Word} {buffer : List Byte} {chunk : Chunk} {chunks : List Chunk}

end Stored

end Lbos

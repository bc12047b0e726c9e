import Mathlib.Data.List.Basic

/-! Logs of items that are handed out and given back, newest event first. -/

namespace Lbos.Lib

inductive Handout (α : Type*)
  | out (a : α)
  | back (a : α)
  deriving DecidableEq

namespace Handout

variable {α : Type*}

/-- Between two times that it is handed out an item is given back. -/
def Exclusive (log : List (Handout α)) : Prop :=
  ∀ a later between earlier, log = later ++ out a :: (between ++ out a :: earlier) →
    back a ∈ between

/-- The item was handed out and not given back since. -/
def Out (a : α) : List (Handout α) → Prop
  | [] => False
  | out b :: log => a = b ∨ Out a log
  | back b :: log => a ≠ b ∧ Out a log

variable {a : α} {log : List (Handout α)}

theorem out_iff : Out a log ↔ ∃ between earlier, log = between ++ out a :: earlier ∧
    back a ∉ between := by
  induction log with
  | nil => exact iff_of_false id fun ⟨between, earlier, h, _⟩ => by simp at h
  | cons event log ih =>
    cases event with
    | out b =>
      rw [Out, ih]
      constructor
      · rintro (rfl | ⟨between, earlier, rfl, hback⟩)
        · exact ⟨[], log, rfl, List.not_mem_nil⟩
        · exact ⟨out b :: between, earlier, rfl, by simpa using hback⟩
      · rintro ⟨between, earlier, h, hback⟩
        cases between with
        | nil => exact .inl (out.inj (List.cons.inj h).1).symm
        | cons event between =>
          exact .inr ⟨between, earlier, (List.cons.inj h).2, fun hmem =>
            hback (List.mem_cons_of_mem _ hmem)⟩
    | back b =>
      rw [Out, ih]
      constructor
      · rintro ⟨hne, between, earlier, rfl, hback⟩
        exact ⟨back b :: between, earlier, rfl, by simpa using ⟨hne, hback⟩⟩
      · rintro ⟨between, earlier, h, hback⟩
        cases between with
        | nil => cases (List.cons.inj h).1
        | cons event between =>
          obtain ⟨rfl, hlog⟩ := List.cons.inj h
          obtain ⟨hne, hrest⟩ := not_or.mp (mt List.mem_cons.mpr hback)
          exact ⟨fun heq => hne (congrArg back heq), between, earlier, hlog, hrest⟩

theorem exclusive_nil : Exclusive ([] : List (Handout α)) := fun a later between earlier h => by
  simp at h

/-- A log is exclusive exactly if what it hands out last was not out. -/
theorem exclusive_out : Exclusive (out a :: log) ↔ ¬Out a log ∧ Exclusive log := by
  constructor
  · intro h
    refine ⟨fun hout => ?_, fun b later between earlier hlog => ?_⟩
    · obtain ⟨between, earlier, rfl, hback⟩ := out_iff.mp hout
      exact hback (h a [] between earlier rfl)
    · exact h b (out a :: later) between earlier (congrArg (out a :: ·) hlog)
  · rintro ⟨hnot, h⟩ b later between earlier hlog
    cases later with
    | nil =>
      obtain ⟨hhead, hrest⟩ := List.cons.inj hlog
      obtain rfl := out.inj hhead
      by_contra hback
      exact hnot (out_iff.mpr ⟨between, earlier, hrest, hback⟩)
    | cons event later => exact h b later between earlier (List.cons.inj hlog).2

theorem Exclusive.back (h : Exclusive log) (a : α) : Exclusive (back a :: log) := by
  intro b later between earlier hlog
  cases later with
  | nil => cases (List.cons.inj hlog).1
  | cons event later => exact h b later between earlier (List.cons.inj hlog).2

/-- Several items are given back. -/
theorem Exclusive.backs (h : Exclusive log) (items : List α) :
    Exclusive (items.map Handout.back ++ log) := by
  induction items with
  | nil => exact h
  | cons b items ih => exact ih.back b

theorem out_backs_iff {items : List α} :
    Out a (items.map Handout.back ++ log) ↔ a ∉ items ∧ Out a log := by
  induction items with
  | nil => simp
  | cons b items ih =>
    rw [List.map_cons, List.cons_append, Out, ih, List.mem_cons, not_or, and_assoc]

end Handout

end Lbos.Lib

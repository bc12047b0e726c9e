import Mathlib.Data.List.Nodup

/-! Stacks that change by pushes and pops, one at a time: what was pushed later is above, and comes
off first. -/

namespace Lbos.Lib

variable {α : Type*}

/-- One step of a stack, whose top is the head of the list. -/
inductive PushPop : List α → List α → Prop
  | same (l : List α) : PushPop l l
  | push (x : α) (l : List α) : PushPop l (x :: l)
  | pop (x : α) (l : List α) : PushPop (x :: l) l

/-- `q` is above `p`. -/
def Above (q p : α) (l : List α) : Prop := [q, p].Sublist l

namespace PushPop

variable {p q : α} {l l' : List α}

theorem of_tail (l : List α) : PushPop l l.tail := by
  cases l with
  | nil => exact .same []
  | cons x xs => exact .pop x xs

/-- A new element is the top. -/
theorem entered (h : PushPop l l') (hq : q ∉ l) (hq' : q ∈ l') : l' = q :: l := by
  cases h with
  | same => exact absurd hq' hq
  | push x =>
    rcases List.mem_cons.mp hq' with rfl | hmem
    · rfl
    · exact absurd hmem hq
  | pop x => exact absurd (List.mem_cons_of_mem x hq') hq

/-- As long as the upper element stays, so does the lower one, and under it. -/
theorem above (h : PushPop l l') (hnodup : l.Nodup) (habove : Above q p l) (hq : q ∈ l') :
    Above q p l' := by
  cases h with
  | same => exact habove
  | push x => exact habove.cons x
  | pop x =>
    rcases List.sublist_cons_iff.mp habove with hrest | ⟨r, hr, -⟩
    · exact hrest
    · obtain ⟨rfl, -⟩ := List.cons.inj hr
      exact absurd hq (List.nodup_cons.mp hnodup).1

end PushPop

end Lbos.Lib

import Mathlib.Data.List.MinMax

/-! A scan that keeps the best candidate that it has met, with its value. -/

namespace Lbos.Lib

variable {α : Type*} (P : α → Prop) [DecidablePred P] (f : α → Nat)

/-- One round of the scan: a later candidate has to be better. -/
def keepBest (best : Option α × Nat) (x : α) : Option α × Nat :=
  if P x ∧ best.2 < f x then (some x, f x) else best

/-- The scan finds the first of the best candidates. -/
theorem foldl_keepBest {l : List α} (hpos : ∀ x ∈ l, P x → 0 < f x) :
    l.foldl (keepBest P f) (none, 0) =
      ((l.filter P).argmax f, ((l.filter P).argmax f).elim 0 f) := by
  induction l using List.reverseRecOn with
  | nil => rfl
  | append_singleton l x ih =>
    have hbefore := ih fun y hy => hpos y (List.mem_append_left _ hy)
    rw [List.foldl_append, hbefore, List.foldl_cons, List.foldl_nil, keepBest, List.filter_append]
    by_cases hx : P x
    · have hkeep : [x].filter P = [x] := List.filter_cons_of_pos (by simpa using hx)
      rw [hkeep, List.argmax_concat]
      cases hbest : (l.filter P).argmax f with
      | none => rw [if_pos ⟨hx, hpos x (List.mem_append_right _ List.mem_cons_self) hx⟩]; rfl
      | some y =>
        by_cases hlt : f y < f x
        · rw [if_pos ⟨hx, hlt⟩]
          simp only [if_pos hlt]
          rfl
        · rw [if_neg fun hc => hlt hc.2]
          simp only [if_neg hlt]
    · have hskip : [x].filter P = [] := List.filter_cons_of_neg (by simpa using hx)
      rw [hskip, List.append_nil, if_neg fun hc => hx hc.1]

end Lbos.Lib

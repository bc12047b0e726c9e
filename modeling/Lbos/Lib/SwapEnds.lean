import Mathlib.Algebra.Order.Ring.Nat
import Mathlib.Algebra.Order.Sub.Basic
import Mathlib.Data.List.Induction

/-! Reversal in place: the elements at both ends of a range change places, then those between. -/

namespace Lbos.Lib

variable {α : Type*}

/-- The list with the elements at two places exchanged. -/
def swapAt (l : List α) (i j : Nat) : List α :=
  match l[i]?, l[j]? with
  | some x, some y => (l.set i y).set j x
  | _, _ => l

/-- While `start` is below `stop`, their elements are exchanged and they move towards each other. -/
def swapEnds : Nat → Nat → List α → List α
  | _, 0, l => l
  | start, stop + 1, l =>
    if start < stop + 1 then swapEnds (start + 1) stop (swapAt l start (stop + 1)) else l

theorem swapEnds_of_le {start stop : Nat} (h : stop ≤ start) (l : List α) :
    swapEnds start stop l = l := by
  cases stop with
  | zero => rfl
  | succ stop => exact if_neg (by omega)

theorem swapAt_append (a m b : List α) (x y : α) :
    swapAt (a ++ x :: (m ++ [y]) ++ b) a.length (a.length + m.length + 1) =
      (a ++ [y]) ++ m ++ (x :: b) := by
  have hfirst : (a ++ x :: (m ++ [y]) ++ b)[a.length]? = some x := by simp
  have hlast : (a ++ x :: (m ++ [y]) ++ b)[a.length + m.length + 1]? = some y := by
    have hlist : a ++ x :: (m ++ [y]) ++ b = (a ++ x :: m) ++ y :: b := by simp
    rw [hlist, List.getElem?_append_right (by simp; omega)]
    simp [Nat.add_assoc]
  rw [swapAt, hfirst, hlast]
  have hset : (a ++ x :: (m ++ [y]) ++ b).set a.length y = (a ++ y :: m) ++ y :: b := by
    simp
  have hplace : a.length + m.length + 1 = (a ++ y :: m).length + 0 := by simp; omega
  show ((a ++ x :: (m ++ [y]) ++ b).set a.length y).set (a.length + m.length + 1) x = _
  rw [hset, hplace, List.set_append_right _ _ (by simp)]
  simp

/-- The range from `start` to `stop` is reversed, and the rest is left as it is. -/
theorem swapEnds_append (m : List α) {a b : List α} {start stop : Nat} (hstart : a.length = start)
    (hstop : start + m.length = stop + 1) :
    swapEnds start stop (a ++ m ++ b) = a ++ m.reverse ++ b := by
  induction m using List.bidirectionalRec generalizing a b start stop with
  | nil => exact swapEnds_of_le (by simp at hstop; omega) _
  | singleton x => exact swapEnds_of_le (by simp at hstop; omega) _
  | cons_append x m y ih =>
    subst hstart
    obtain rfl : stop = a.length + m.length + 1 := by simp at hstop; omega
    rw [swapEnds, if_pos (by omega), swapAt_append, ih (by simp) (by omega)]
    simp

theorem swapEnds_eq_reverse (l : List α) : swapEnds 0 (l.length - 1) l = l.reverse := by
  cases l with
  | nil => rfl
  | cons x l => simpa using swapEnds_append (x :: l) (a := []) (b := []) rfl (by simp)

end Lbos.Lib

import Mathlib.Algebra.GroupWithZero.Nat

/-! A stream over fixed contents, with a position that reads advance and seeks set. -/

namespace Lbos.Lib

structure Stream (α : Type*) where
  contents : List α
  position : Nat
  position_le : position ≤ contents.length

namespace Stream

variable {α : Type*}

inductive Op where
  | read (count : Nat)
  | seek (offset : Nat)

/-- What an operation tells: the elements read, or whether the position was set. -/
inductive Result (α : Type*) where
  | read (elements : List α)
  | sought
  | refused

/-- The elements of results. -/
def Result.elements : Result α → List α
  | read elements => elements
  | _ => []

variable (st : Stream α)

/-- At the beginning. -/
def start (contents : List α) : Stream α := ⟨contents, 0, Nat.zero_le _⟩

/-- How many of `count` elements there are from the position on. -/
def avail (count : Nat) : Nat := min count (st.contents.length - st.position)

theorem position_add_avail (count : Nat) : st.position + st.avail count ≤ st.contents.length := by
  have hle := st.position_le
  unfold avail
  omega

/-- What is left. -/
def rest : List α := st.contents.drop st.position

def step : Op → Result α × Stream α
  | .read count =>
    (.read (st.rest.take (st.avail count)),
      { st with position := st.position + st.avail count, position_le := st.position_add_avail count })
  | .seek offset =>
    if h : offset ≤ st.contents.length then
      (.sought, { st with position := offset, position_le := h })
    else (.refused, st)

def run : Stream α → List Op → List (Result α) × Stream α
  | st, [] => ([], st)
  | st, op :: ops =>
    ((st.step op).1 :: ((st.step op).2.run ops).1, ((st.step op).2.run ops).2)

theorem step_contents (op : Op) : (st.step op).2.contents = st.contents := by
  cases op with
  | read count => rfl
  | seek offset =>
    simp only [step]
    split <;> rfl

theorem run_contents (st : Stream α) (ops : List Op) : (st.run ops).2.contents = st.contents := by
  induction ops generalizing st with
  | nil => rfl
  | cons op ops ih => exact (ih _).trans (st.step_contents op)

theorem take_avail (count : Nat) : st.rest.take (st.avail count) = st.rest.take count := by
  rw [List.take_eq_take_iff, rest, List.length_drop]
  unfold avail
  omega

theorem rest_read (count : Nat) : (st.step (.read count)).2.rest = st.rest.drop count := by
  show st.contents.drop (st.position + st.avail count) = _
  rw [← List.drop_drop, ← rest, List.drop_eq_drop_iff, rest, List.length_drop]
  unfold avail
  omega

/-- Reads that follow each other give the contents from the position on, however they are cut. -/
theorem flatten_reads (st : Stream α) (counts : List Nat) :
    ((st.run (counts.map .read)).1.map Result.elements).flatten = st.rest.take counts.sum := by
  induction counts generalizing st with
  | nil => rw [List.sum_nil, List.take_zero]; rfl
  | cons count counts ih =>
    rw [List.map_cons, run, List.map_cons, List.flatten_cons, ih, rest_read, List.sum_cons,
      List.take_add]
    exact congrArg (· ++ _) (st.take_avail count)

end Stream

end Lbos.Lib

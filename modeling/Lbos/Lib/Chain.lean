import Mathlib.Logic.Relation
import Mathlib.Logic.Function.Basic
import Mathlib.Tactic.Common

/-! Intrusive linked lists: each node names its successor, and `none` ends the list. -/

namespace Lbos.Lib

variable {α : Type*}

/-- Following `next` from `head` visits the nodes of the list in order and ends. -/
def Linked (next : α → Option α) : Option α → List α → Prop
  | head, [] => head = none
  | head, x :: xs => head = some x ∧ Linked next (next x) xs

/-- `x` is met when `next` is followed from `head`. -/
def Reaches (next : α → Option α) (head : Option α) (x : α) : Prop :=
  ∃ y, head = some y ∧ Relation.ReflTransGen (fun a b => next a = some b) y x

namespace Linked

variable {next next' : α → Option α} {head : Option α} {l l' : List α}

theorem congr (h : Linked next head l) (hn : ∀ x ∈ l, next' x = next x) :
    Linked next' head l := by
  induction l generalizing head with
  | nil => exact h
  | cons x xs ih =>
    refine ⟨h.1, ?_⟩
    rw [hn x (List.mem_cons_self ..)]
    exact ih h.2 fun y hy => hn y (List.mem_cons_of_mem _ hy)

theorem unique (h : Linked next head l) (h' : Linked next head l') : l = l' := by
  induction l generalizing head l' with
  | nil =>
    cases l' with
    | nil => rfl
    | cons y ys => exact absurd (h.symm.trans h'.1) (by simp)
  | cons x xs ih =>
    cases l' with
    | nil => exact absurd (h.1.symm.trans h') (by simp)
    | cons y ys =>
      obtain rfl : x = y := Option.some.inj (h.1.symm.trans h'.1)
      rw [ih h.2 h'.2]

theorem suffix (l₁ : List α) {x : α} {l₂ : List α} (h : Linked next head (l₁ ++ x :: l₂)) :
    Linked next (some x) (x :: l₂) := by
  induction l₁ generalizing head with
  | nil => exact ⟨rfl, h.2⟩
  | cons y ys ih => exact ih h.2

/-- A list that ends does not visit a node twice. -/
theorem nodup (h : Linked next head l) : l.Nodup := by
  induction l generalizing head with
  | nil => exact List.nodup_nil
  | cons x xs ih =>
    refine List.nodup_cons.mpr ⟨fun hx => ?_, ih h.2⟩
    obtain ⟨l₁, l₂, rfl⟩ := List.append_of_mem hx
    have hlong : Linked next (some x) (x :: (l₁ ++ x :: l₂)) := ⟨rfl, h.2⟩
    have hlen := congrArg List.length (hlong.unique (suffix l₁ h.2))
    simp only [List.length_cons, List.length_append] at hlen
    omega

theorem reaches_iff (h : Linked next head l) {x : α} : Reaches next head x ↔ x ∈ l := by
  constructor
  · rintro ⟨y, rfl, hyx⟩
    induction hyx using Relation.ReflTransGen.head_induction_on generalizing l with
    | refl =>
      cases l with
      | nil => exact absurd h (by simp [Linked])
      | cons z zs => exact Option.some.inj h.1 ▸ List.mem_cons_self ..
    | head hstep _ ih =>
      cases l with
      | nil => exact absurd h (by simp [Linked])
      | cons z zs =>
        obtain rfl := Option.some.inj h.1
        exact List.mem_cons_of_mem _ (ih (hstep ▸ h.2))
  · intro hx
    induction l generalizing head with
    | nil => simp at hx
    | cons z zs ih =>
      rcases List.mem_cons.mp hx with rfl | hz
      · exact ⟨x, h.1, .refl⟩
      · obtain ⟨y, hy, hyx⟩ := ih h.2 hz
        exact ⟨z, h.1, .head hy hyx⟩

end Linked

end Lbos.Lib

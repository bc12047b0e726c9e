import Mathlib.Data.Nat.Basic

/-! The first place in a list from which the rest has a property. -/

namespace Lbos.Lib

section

variable {α : Type*} (p : List α → Prop) [DecidablePred p]

/-- The first index from which the rest has the property. -/
def firstDrop : List α → Option Nat
  | [] => if p [] then some 0 else none
  | a :: s => if p (a :: s) then some 0 else (firstDrop s).map (· + 1)

variable {p}

theorem firstDrop_of_holds {s : List α} (h : p s) : firstDrop p s = some 0 := by
  cases s with
  | nil => exact if_pos h
  | cons a s => exact if_pos h

theorem firstDrop_cons_of_not {a : α} {s : List α} (h : ¬p (a :: s)) :
    firstDrop p (a :: s) = (firstDrop p s).map (· + 1) := if_neg h

/-- The property holds at the index that is found, and at none before it. -/
theorem firstDrop_spec {s : List α} {i : Nat} (h : firstDrop p s = some i) :
    p (s.drop i) ∧ ∀ j < i, ¬p (s.drop j) := by
  induction s generalizing i with
  | nil =>
    rw [firstDrop] at h
    split at h
    · next hp =>
      cases h
      exact ⟨hp, fun j hj => absurd hj (Nat.not_lt_zero j)⟩
    · cases h
  | cons a s ih =>
    rw [firstDrop] at h
    split at h
    · next hp =>
      cases h
      exact ⟨hp, fun j hj => absurd hj (Nat.not_lt_zero j)⟩
    · next hp =>
      obtain ⟨k, hk, rfl⟩ := Option.map_eq_some_iff.mp h
      obtain ⟨hholds, hbefore⟩ := ih hk
      refine ⟨hholds, fun j hj => ?_⟩
      cases j with
      | zero => exact hp
      | succ j => exact hbefore j (Nat.lt_of_succ_lt_succ hj)

/-- Nothing is found exactly if the property holds of no part up to the end. -/
theorem firstDrop_eq_none_iff {s : List α} : firstDrop p s = none ↔ ∀ t, t <:+ s → ¬p t := by
  induction s with
  | nil =>
    rw [firstDrop]
    simp
  | cons a s ih =>
    rw [firstDrop]
    split
    · next hp => exact iff_of_false (by simp) fun h => h _ (List.suffix_refl _) hp
    · next hp =>
      rw [Option.map_eq_none_iff, ih]
      constructor
      · intro h t ht
        obtain rfl | ht := List.suffix_cons_iff.mp ht
        · exact hp
        · exact h t ht
      · exact fun h t ht => h t (ht.trans (List.suffix_cons a s))

/-- What is found is the least index there is. -/
theorem firstDrop_eq_some_iff {s : List α} {i : Nat} :
    firstDrop p s = some i ↔ p (s.drop i) ∧ ∀ j < i, ¬p (s.drop j) := by
  constructor
  · exact firstDrop_spec
  · rintro ⟨hi, hbefore⟩
    cases hk : firstDrop p s with
    | none => exact absurd hi (firstDrop_eq_none_iff.mp hk _ (List.drop_suffix i s))
    | some k =>
      obtain ⟨hholds, hfirst⟩ := firstDrop_spec hk
      obtain hlt | rfl | hgt := lt_trichotomy i k
      · exact absurd hi (hfirst i hlt)
      · rfl
      · exact absurd hholds (hbefore k hgt)

end

end Lbos.Lib

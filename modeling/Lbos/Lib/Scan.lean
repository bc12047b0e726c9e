import Mathlib.Data.Nat.Basic

/-! Loops that read a list through a cursor, which every turn but the last moves forward. -/

namespace Lbos.Lib

theorem map_eq_ok {ε α β : Type*} {f : α → β} {x : Except ε α} {b : β} (h : x.map f = .ok b) :
    ∃ a, x = .ok a ∧ f a = b := by
  cases x with
  | error => cases h
  | ok a => exact ⟨a, rfl, Except.ok.inj h⟩

theorem map_eq_error_iff {ε α β : Type*} {f : α → β} {x : Except ε α} {fault : ε} :
    x.map f = .error fault ↔ x = .error fault := by
  cases x with
  | error e => rw [Except.map, Except.error.injEq, Except.error.injEq]
  | ok a => exact iff_of_false (fun h => by cases h) fun h => by cases h

/-- A turn faults, ends the loop, or goes on at a later place with a new state. -/
structure Scanner (α σ ε : Type*) where
  turn : List α → σ → Except ε (Option (List α × σ))
  forward : ∀ {s st rest st'}, turn s st = .ok (some (rest, st')) →
    ∃ skipped, skipped ≠ [] ∧ s = skipped ++ rest

namespace Scanner

variable {α σ ε : Type*} (S : Scanner α σ ε)

theorem length_lt {s rest : List α} {st st' : σ} (h : S.turn s st = .ok (some (rest, st'))) :
    rest.length < s.length := by
  obtain ⟨skipped, hne, rfl⟩ := S.forward h
  have hpos := List.length_pos_iff.mpr hne
  rw [List.length_append]
  omega

/-- What the loop gives within so many turns, if it ends within them. -/
def turns : Nat → List α → σ → Option (Except ε σ)
  | 0, _, _ => none
  | n + 1, s, st =>
    match S.turn s st with
    | .error fault => some (.error fault)
    | .ok none => some (.ok st)
    | .ok (some (rest, st)) => turns n rest st

theorem turns_isSome {n : Nat} {s : List α} (h : s.length < n) (st : σ) :
    (S.turns n s st).isSome := by
  induction n generalizing s st with
  | zero => cases h
  | succ n ih =>
    rw [turns]
    split
    · rfl
    · rfl
    · next hturn => exact ih (lt_of_lt_of_le (S.length_lt hturn) (Nat.le_of_lt_succ h)) _

/-- More turns change nothing. -/
theorem turns_eq {n k : Nat} {s : List α} (hn : s.length < n) (hk : s.length < k) (st : σ) :
    S.turns n s st = S.turns k s st := by
  induction n generalizing k s st with
  | zero => cases hn
  | succ n ih =>
    cases k with
    | zero => cases hk
    | succ k =>
      rw [turns, turns]
      split
      · rfl
      · rfl
      · next hturn =>
        have hlt := S.length_lt hturn
        exact ih (by omega) (by omega) _

/-- The loop, which ends after one turn for each element and one more at most. -/
def run (s : List α) (st : σ) : Except ε σ :=
  (S.turns (s.length + 1) s st).get (S.turns_isSome (Nat.lt_succ_self _) st)

theorem turns_of_lt {n : Nat} {s : List α} (h : s.length < n) (st : σ) :
    S.turns n s st = some (S.run s st) := by
  rw [run, Option.some_get]
  exact S.turns_eq h (Nat.lt_succ_self _) st

/-- One turn, and then the rest. -/
theorem run_eq (s : List α) (st : σ) :
    S.run s st =
      match S.turn s st with
      | .error fault => .error fault
      | .ok none => .ok st
      | .ok (some (rest, st)) => S.run rest st := by
  have hrun := S.turns_of_lt (Nat.lt_succ_self s.length) st
  rw [turns] at hrun
  refine (Option.some.inj (hrun.symm.trans ?_))
  split
  · rfl
  · rfl
  · next hturn => exact S.turns_of_lt (S.length_lt hturn) _

variable {S}

theorem run_of_end {s : List α} {st : σ} (h : S.turn s st = .ok none) : S.run s st = .ok st := by
  rw [run_eq, h]

theorem run_of_fault {s : List α} {st : σ} {fault : ε} (h : S.turn s st = .error fault) :
    S.run s st = .error fault := by
  rw [run_eq, h]

/-- A loop that faults does so in a turn, in a state with what its turns keep. -/
theorem run_faults {I : σ → Prop} {fault : ε}
    (hKeep : ∀ {s st rest st'}, S.turn s st = .ok (some (rest, st')) → I st → I st')
    {s : List α} {st : σ} (hI : I st) (h : S.run s st = .error fault) :
    ∃ s' st', I st' ∧ S.turn s' st' = .error fault := by
  suffices hall : ∀ n s st, I st → S.turns n s st = some (.error fault) →
      ∃ s' st', I st' ∧ S.turn s' st' = .error fault from
    hall _ s st hI ((S.turns_of_lt (Nat.lt_succ_self _) st).trans (congrArg some h))
  intro n
  induction n with
  | zero => exact fun _ _ _ hnone => by cases hnone
  | succ n ih =>
    intro s st hI hturns
    rw [turns] at hturns
    split at hturns
    · next hturn =>
      cases hturns
      exact ⟨s, st, hI, hturn⟩
    · cases hturns
    · next hturn => exact ih _ _ (hKeep hturn hI) hturns

theorem run_of_turn {s rest : List α} {st st' : σ} (h : S.turn s st = .ok (some (rest, st'))) :
    S.run s st = S.run rest st' := by
  rw [run_eq, h]

/-- A turn that goes on with what some action gives. -/
theorem run_map {β : Type*} {x : Except ε β} {s rest : List α} {st : σ} {next : β → σ}
    (h : S.turn s st = x.map fun b => some (rest, next b)) :
    S.run s st = x.bind fun b => S.run rest (next b) := by
  cases x with
  | error fault => exact run_of_fault h
  | ok b => exact run_of_turn h

end Scanner

end Lbos.Lib

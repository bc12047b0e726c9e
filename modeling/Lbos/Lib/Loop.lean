import Mathlib.Tactic.Common

/-! Counting loops, loops that a failing body leaves early, and searches, with their rules. -/

namespace Lbos.Lib

universe u

variable {σ : Type u}

/-- `body i, body (i + 1), …`, `n` times. -/
def loop (body : Nat → σ → σ) : Nat → Nat → σ → σ
  | 0, _, s => s
  | n + 1, i, s => loop body n (i + 1) (body i s)

theorem loop_invariant (body : Nat → σ → σ) (I : Nat → σ → Prop) {n i : Nat} {s : σ} (h : I i s)
    (hStep : ∀ j s, i ≤ j → j < i + n → I j s → I (j + 1) (body j s)) :
    I (i + n) (loop body n i s) := by
  induction n generalizing i s with
  | zero => exact h
  | succ n ih =>
    rw [show i + (n + 1) = i + 1 + n by omega]
    exact ih (hStep i s (by omega) (by omega) h) fun j s h1 h2 => hStep j s (by omega) (by omega)

/-- `body i, body (i + 1), …`, `n` times or until the body returns `false`. -/
def loopWhile (body : Nat → σ → Bool × σ) : Nat → Nat → σ → Bool × σ
  | 0, _, s => (true, s)
  | n + 1, i, s =>
    match body i s with
    | (true, s) => loopWhile body n (i + 1) s
    | (false, s) => (false, s)

/-- `I` is what holds before each round, and `E` what holds when the body leaves the loop. -/
theorem loopWhile_invariant (body : Nat → σ → Bool × σ) (I : Nat → σ → Prop) (E : σ → Prop)
    {n i : Nat} {s : σ} (h : I i s)
    (hStep : ∀ j s, i ≤ j → j < i + n → I j s →
      if (body j s).1 then I (j + 1) (body j s).2 else E (body j s).2) :
    if (loopWhile body n i s).1 then I (i + n) (loopWhile body n i s).2
    else E (loopWhile body n i s).2 := by
  induction n generalizing i s with
  | zero => exact h
  | succ n ih =>
    have hbody := hStep i s (by omega) (by omega) h
    rw [show i + (n + 1) = i + 1 + n by omega, loopWhile]
    rcases hb : body i s with ⟨_ | _, s'⟩
    · rw [hb] at hbody
      simpa using hbody
    · rw [hb] at hbody
      exact ih (by simpa using hbody) fun j s h1 h2 => hStep j s (by omega) (by omega)

/-- `P` holds of the state before each round that is run. -/
def EachRound (body : Nat → σ → Bool × σ) (P : Nat → σ → Prop) : Nat → Nat → σ → Prop
  | 0, _, _ => True
  | n + 1, i, s => P i s ∧ ((body i s).1 = true → EachRound body P n (i + 1) (body i s).2)

/-- The invariant of a loop that is not left early, whose rounds each meet a condition. -/
theorem loopWhile_eachRound (body : Nat → σ → Bool × σ) (P I : Nat → σ → Prop) {n i : Nat} {s : σ}
    (h : I i s) (hEach : EachRound body P n i s) (hDone : (loopWhile body n i s).1 = true)
    (hStep : ∀ j s, i ≤ j → j < i + n → I j s → P j s → (body j s).1 = true →
      I (j + 1) (body j s).2) : I (i + n) (loopWhile body n i s).2 := by
  induction n generalizing i s with
  | zero => exact h
  | succ n ih =>
    obtain ⟨hround, hrest⟩ := hEach
    have hbody := hStep i s (by omega) (by omega) h hround
    rw [loopWhile] at hDone ⊢
    rw [show i + (n + 1) = i + 1 + n by omega]
    rcases hb : body i s with ⟨_ | _, s'⟩
    · rw [hb] at hDone
      exact absurd hDone Bool.false_ne_true
    · rw [hb] at hDone hbody hrest
      exact ih (hbody rfl) (hrest rfl) hDone fun j s h1 h2 => hStep j s (by omega) (by omega)

/-- What every round keeps, the loop keeps, however it is left. -/
theorem loopWhile_keeps (body : Nat → σ → Bool × σ) (I : σ → Prop) {n i : Nat} {s : σ} (h : I s)
    (hStep : ∀ j s, i ≤ j → j < i + n → I s → I (body j s).2) : I (loopWhile body n i s).2 := by
  have hinv := loopWhile_invariant body (fun _ s => I s) I h fun j s h1 h2 hs => by
    rw [ite_self]
    exact hStep j s h1 h2 hs
  rwa [ite_self] at hinv

/-- Where a round that misses the condition leads to `E`, and `E` stays, the condition held in each
round of a loop that does not end in `E`. -/
theorem eachRound_of_end_at (body : Nat → σ → Bool × σ) (P I : Nat → σ → Prop) (E : σ → Prop)
    {n i : Nat} {s : σ} (h : I i s)
    (hStep : ∀ j s, i ≤ j → j < i + n → I j s →
      ((body j s).1 = true → I (j + 1) (body j s).2) ∧ (E s ∨ ¬P j s → E (body j s).2))
    (hEnd : ¬E (loopWhile body n i s).2) : EachRound body P n i s := by
  induction n generalizing i s with
  | zero => trivial
  | succ n ih =>
    obtain ⟨hkeep, hlead⟩ := hStep i s (by omega) (by omega) h
    have hrest := fun j s (h1 : i + 1 ≤ j) (h2 : j < i + 1 + n) => hStep j s (by omega) (by omega)
    rw [loopWhile] at hEnd
    constructor
    · by_contra hnot
      have hbad := hlead (.inr hnot)
      rcases hb : body i s with ⟨_ | _, s'⟩
      · rw [hb] at hbad hEnd
        exact hEnd hbad
      · rw [hb] at hbad hkeep hEnd
        have hstay := loopWhile_invariant body (fun j s => I j s ∧ E s) E ⟨hkeep rfl, hbad⟩
          (n := n) fun j s h1 h2 hs => by
            obtain ⟨hnext, hend⟩ := hrest j s h1 h2 hs.1
            split
            · next htrue => exact ⟨hnext htrue, hend (.inl hs.2)⟩
            · exact hend (.inl hs.2)
        refine hEnd ?_
        split at hstay
        · exact hstay.2
        · exact hstay
    · intro hb
      rcases hb' : body i s with ⟨b, s'⟩
      rw [hb'] at hb hkeep hEnd
      obtain rfl : b = true := hb
      exact ih (hkeep rfl) hrest hEnd

/-- The same with an invariant that does not depend on the round. -/
theorem eachRound_of_end (body : Nat → σ → Bool × σ) (P : Nat → σ → Prop) (I E : σ → Prop)
    {n i : Nat} {s : σ} (h : I s)
    (hStep : ∀ j s, i ≤ j → j < i + n → I s →
      I (body j s).2 ∧ (E s ∨ ¬P j s → E (body j s).2))
    (hEnd : ¬E (loopWhile body n i s).2) : EachRound body P n i s :=
  eachRound_of_end_at body P (fun _ => I) E h
    (fun j s h1 h2 hs => ⟨fun _ => (hStep j s h1 h2 hs).1, (hStep j s h1 h2 hs).2⟩) hEnd

/-- The first of `i, i + 1, …, i + n - 1` that passes a test. -/
def search (p : Nat → Bool) : Nat → Nat → Option Nat
  | 0, _ => none
  | n + 1, i => if p i then some i else search p n (i + 1)

theorem search_eq_none_iff {p : Nat → Bool} {n i : Nat} :
    search p n i = none ↔ ∀ j, i ≤ j → j < i + n → p j = false := by
  induction n generalizing i with
  | zero => exact iff_of_true rfl fun j h1 h2 => by omega
  | succ n ih =>
    rw [search]
    constructor
    · intro h j h1 h2
      split at h
      · cases h
      · next hp =>
        rcases Nat.eq_or_lt_of_le h1 with rfl | hlt
        · exact Bool.eq_false_iff.mpr hp
        · exact ih.mp h j hlt (by omega)
    · intro h
      rw [if_neg (Bool.eq_false_iff.mp (h i (Nat.le_refl i) (by omega)))]
      exact ih.mpr fun j h1 h2 => h j (by omega) (by omega)

theorem search_some {p : Nat → Bool} {n i j : Nat} (h : search p n i = some j) :
    j < i + n ∧ p j = true := by
  induction n generalizing i with
  | zero => cases h
  | succ n ih =>
    rw [search] at h
    split at h
    · next hp =>
      obtain rfl := Option.some.inj h
      exact ⟨by omega, hp⟩
    · obtain ⟨hlt, hp⟩ := ih h
      exact ⟨by omega, hp⟩

theorem search_eq_some {p : Nat → Bool} {n i j : Nat} (hij : i ≤ j) (hj : j < i + n)
    (hp : p j = true) (hbefore : ∀ k, i ≤ k → k < j → p k = false) : search p n i = some j := by
  induction n generalizing i with
  | zero => omega
  | succ n ih =>
    rw [search]
    rcases Nat.eq_or_lt_of_le hij with rfl | hlt
    · rw [if_pos hp]
    · rw [if_neg (Bool.eq_false_iff.mp (hbefore i (Nat.le_refl i) hlt))]
      exact ih hlt (by omega) fun k h1 h2 => hbefore k (by omega) h2

/-- A search that tests the elements of a list gives the index of the first that passes. -/
theorem search_eq_findIdx? {α : Type*} {p : Nat → Bool} {q : α → Bool} {i : Nat} {l : List α}
    (h : ∀ j a, l[j]? = some a → p (i + j) = q a) :
    search p l.length i = (l.findIdx? q).map (i + ·) := by
  induction l generalizing i with
  | nil => rfl
  | cons a l ih =>
    have hhead : p i = q a := h 0 a rfl
    have hrest := ih (i := i + 1) fun j b hb => by
      rw [Nat.add_right_comm]
      exact h (j + 1) b (by simpa using hb)
    simp only [List.length_cons, search, hhead, hrest, List.findIdx?_cons]
    split
    · rfl
    · simp [Function.comp_def, Nat.add_comm, Nat.add_left_comm]

end Lbos.Lib

import Mathlib.Tactic.Common

/-! Labelled transition systems: the states that runs reach, the invariant rule, and the rule for
a property that holds along a run exactly when each step of the run meets a condition. -/

namespace Lbos.Lib

universe u v

structure System (σ : Type u) (ι : Type v) where
  init : σ → Prop
  step : σ → ι → σ → Prop

namespace System

variable {σ : Type u} {ι : Type v} (S : System σ ι)

/-- The states that a run from an initial state reaches when each of its steps meets `cond`, which
sees the state before the step and the step's label. -/
inductive ReachWhen (cond : σ → ι → Prop) : σ → Prop
  | init {s : σ} : S.init s → ReachWhen cond s
  | step {s s' : σ} {a : ι} : ReachWhen cond s → cond s a → S.step s a s' → ReachWhen cond s'

/-- The reachable states. -/
abbrev Reach : σ → Prop := S.ReachWhen fun _ _ => True

variable {S}

/-- What holds at first and is kept by each step holds in every state reached. -/
theorem ReachWhen.invariant {cond : σ → ι → Prop} {I : σ → Prop} (hInit : ∀ s, S.init s → I s)
    (hStep : ∀ s a s', S.ReachWhen cond s → I s → cond s a → S.step s a s' → I s') {s : σ}
    (h : S.ReachWhen cond s) : I s := by
  induction h with
  | init h => exact hInit _ h
  | step hs hc ht ih => exact hStep _ _ _ hs ih hc ht

theorem ReachWhen.reach {cond : σ → ι → Prop} {s : σ} (h : S.ReachWhen cond s) : S.Reach s := by
  induction h with
  | init h => exact .init h
  | step _ _ ht ih => exact .step ih trivial ht

/-- States that two systems reach are related when the initial states are, and each step of the first
is matched by a step of the second. -/
theorem ReachWhen.simulates {τ : Type u} {κ : Type v} {T : System τ κ} {cond : σ → ι → Prop}
    {R : σ → τ → Prop} (hInit : ∀ s, S.init s → ∃ t, T.init t ∧ R s t)
    (hStep : ∀ s a s' t, T.Reach t → cond s a → S.step s a s' → R s t →
      ∃ b t', T.step t b t' ∧ R s' t') {s : σ} (h : S.ReachWhen cond s) :
    ∃ t, T.Reach t ∧ R s t := by
  induction h with
  | init h =>
    obtain ⟨t, ht, hR⟩ := hInit _ h
    exact ⟨t, .init ht, hR⟩
  | step _ hc hs ih =>
    obtain ⟨t, ht, hR⟩ := ih
    obtain ⟨b, t', hb, hR'⟩ := hStep _ _ _ _ ht hc hs hR
    exact ⟨t', .step ht trivial hb, hR'⟩

variable (S)

/-- The system that starts in a given state. -/
def startingAt (s : σ) : System σ ι := ⟨(· = s), S.step⟩

variable {S} in
theorem ReachWhen.continue {s s' : σ} (hs : S.Reach s) (h : (S.startingAt s).Reach s') :
    S.Reach s' := by
  induction h with
  | init h => exact h ▸ hs
  | step _ _ ht ih => exact .step ih trivial ht

/-- A run from a state: the labels of its steps, each with the state after it. -/
inductive Run : σ → List (ι × σ) → Prop
  | nil (s : σ) : Run s []
  | cons {s s' : σ} {a : ι} {run : List (ι × σ)} : S.step s a s' → Run s' run →
      Run s ((a, s') :: run)

variable {S}

/-- The state at the end of a run. -/
def runEnd : σ → List (ι × σ) → σ
  | s, [] => s
  | _, (_, s') :: run => runEnd s' run

theorem runEnd_nil (s : σ) : runEnd s ([] : List (ι × σ)) = s := rfl

theorem runEnd_cons (s s' : σ) (i : ι) (run : List (ι × σ)) :
    runEnd s ((i, s') :: run) = runEnd s' run := rfl

/-- A run goes on from its end. -/
theorem Run.append {s : σ} {run run' : List (ι × σ)} (h : S.Run s run)
    (h' : S.Run (runEnd s run) run') : S.Run s (run ++ run') := by
  induction h with
  | nil => exact h'
  | cons ht _ ih => exact .cons ht (ih h')

/-- `P` holds in every state of a run. -/
def Along (P : σ → Prop) (s : σ) (run : List (ι × σ)) : Prop := P s ∧ ∀ e ∈ run, P e.2

/-- Every step of a run meets `cond`. -/
def Meets (cond : σ → ι → Prop) : σ → List (ι × σ) → Prop
  | _, [] => True
  | s, (a, s') :: run => cond s a ∧ Meets cond s' run

/-- When `P` survives a step exactly if the step meets `cond`, it holds along a run exactly if
every step of the run does. -/
theorem Run.along_iff_meets {cond : σ → ι → Prop} {P : σ → Prop}
    (hStep : ∀ s a s', S.Reach s → P s → S.step s a s' → (P s' ↔ cond s a)) {s : σ}
    {run : List (ι × σ)} (hs : S.Reach s) (hP : P s) (h : S.Run s run) :
    Along P s run ↔ Meets cond s run := by
  induction h with
  | nil => simp [Along, Meets, hP]
  | @cons s s' a run ht _ ih =>
    have hiff := hStep s a s' hs hP ht
    constructor
    · rintro ⟨-, hall⟩
      have hP' : P s' := hall _ (List.mem_cons_self ..)
      refine ⟨hiff.mp hP', (ih (.step hs trivial ht) hP').mp ⟨hP', fun e he => ?_⟩⟩
      exact hall e (List.mem_cons_of_mem _ he)
    · rintro ⟨hc, hrest⟩
      have hP' : P s' := hiff.mpr hc
      obtain ⟨-, hall⟩ := (ih (.step hs trivial ht) hP').mpr hrest
      refine ⟨hP, fun e he => ?_⟩
      rcases List.mem_cons.mp he with rfl | he
      · exact hP'
      · exact hall e he

/-- When the steps that meet `cond` keep `P`, it holds along a run whose steps all do. -/
theorem Run.along_of_meets {cond : σ → ι → Prop} {P : σ → Prop}
    (hStep : ∀ s a s', S.Reach s → P s → cond s a → S.step s a s' → P s') {s : σ}
    {run : List (ι × σ)} (hs : S.Reach s) (hP : P s) (h : S.Run s run) (hmeets : Meets cond s run) :
    Along P s run := by
  induction h with
  | nil => exact ⟨hP, fun e he => absurd he List.not_mem_nil⟩
  | @cons s s' a run ht _ ih =>
    obtain ⟨hc, hrest⟩ := hmeets
    have hP' := hStep s a s' hs hP hc ht
    obtain ⟨-, hall⟩ := ih (.step hs trivial ht) hP' hrest
    refine ⟨hP, fun e he => ?_⟩
    rcases List.mem_cons.mp he with rfl | he
    · exact hP'
    · exact hall e he

/-- When `Q` holds of a step exactly if the step meets `cond`, in every state where `I` holds, and the
steps that meet `cond` keep `I`, all steps of a run have `Q` exactly if all meet `cond`. -/
theorem Run.meets_iff_meets {cond Q : σ → ι → Prop} {I : σ → Prop}
    (hIff : ∀ s a s', S.Reach s → I s → S.step s a s' → (Q s a ↔ cond s a))
    (hKeep : ∀ s a s', S.Reach s → I s → S.step s a s' → cond s a → I s') {s : σ}
    {run : List (ι × σ)} (hs : S.Reach s) (hI : I s) (h : S.Run s run) :
    Meets Q s run ↔ Meets cond s run := by
  induction h with
  | nil => exact Iff.rfl
  | cons ht _ ih =>
    have hiff := hIff _ _ _ hs hI ht
    have hrest := fun hc => ih (.step hs trivial ht) (hKeep _ _ _ hs hI ht hc)
    constructor
    · rintro ⟨hq, hrun⟩
      exact ⟨hiff.mp hq, (hrest (hiff.mp hq)).mp hrun⟩
    · rintro ⟨hc, hrun⟩
      exact ⟨hiff.mpr hc, (hrest hc).mpr hrun⟩

end System

end Lbos.Lib

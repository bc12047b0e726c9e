import Mathlib.Tactic.Common

/-! Machines that answer calls, and the refinement of one by another: what holds of each call holds
of every sequence of calls. -/

namespace Lbos.Lib

/-- A machine with states `σ` that answers calls `ι` with replies `ρ`. -/
abbrev Machine (σ : Type*) (ι : Type*) (ρ : Type*) := ι → σ → ρ × σ

namespace Machine

variable {σ : Type*} {ι : Type*} {ρ : Type*} {τ : Type*} {κ : Type*} {θ : Type*}

/-- The replies to a sequence of calls, and the state after them. -/
def run (M : Machine σ ι ρ) : List ι → σ → List ρ × σ
  | [], s => ([], s)
  | c :: cs, s =>
    let (r, s) := M c s
    let (rs, s) := run M cs s
    (r :: rs, s)

/-- Each call is answered as the call that stands for it is answered in the abstract state. -/
structure Refines (M : Machine σ ι ρ) (A : Machine τ κ θ) (abs : σ → τ) (call : ι → κ)
    (reply : θ → ρ) : Prop where
  reply : ∀ c s, (M c s).1 = reply (A (call c) (abs s)).1
  state : ∀ c s, abs (M c s).2 = (A (call c) (abs s)).2

variable {M : Machine σ ι ρ} {A : Machine τ κ θ} {abs : σ → τ} {call : ι → κ} {reply : θ → ρ}

/-- A refinement of the calls is one of the sequences of calls. -/
theorem Refines.run (h : Refines M A abs call reply) (cs : List ι) (s : σ) :
    (M.run cs s).1 = (A.run (cs.map call) (abs s)).1.map reply ∧
      abs (M.run cs s).2 = (A.run (cs.map call) (abs s)).2 := by
  induction cs generalizing s with
  | nil => exact ⟨rfl, rfl⟩
  | cons c cs ih =>
    obtain ⟨hreplies, hstate⟩ := ih (M c s).2
    simp only [Machine.run, List.map_cons]
    rw [h.state] at hreplies hstate
    exact ⟨List.cons_eq_cons.mpr ⟨h.reply c s, hreplies⟩, hstate⟩

end Machine

end Lbos.Lib

import Mathlib.Logic.Function.Basic
import Mathlib.Data.List.Basic

/-! Services whose callers hold values of their own: a call reads and writes the value behind one
handle and a state that all handles share.  Two rules about runs of calls in any order: one service
acts as another, and the calls on one handle go as if they were the only ones. -/

namespace Lbos.Lib

/-- A call names its handle; its effect is on the value of that handle and on what is shared. -/
structure Service (C κ D S R : Type*) where
  handle : C → κ
  step : C → D → S → R × D × S

namespace Service

variable {C κ D S R : Type*} [DecidableEq κ] (M : Service C κ D S R)

/-- The reply of a call, and the values of all handles and the shared state after it. -/
def perform (call : C) (st : (κ → D) × S) : R × (κ → D) × S :=
  let (r, d, s) := M.step call (st.1 (M.handle call)) st.2
  (r, Function.update st.1 (M.handle call) d, s)

def performAll : List C → (κ → D) × S → List R × (κ → D) × S
  | [], st => ([], st)
  | call :: calls, st =>
    let (r, st) := M.perform call st
    let (rs, st) := performAll calls st
    (r :: rs, st)

@[simp] theorem performAll_nil (st : (κ → D) × S) : M.performAll [] st = ([], st) := rfl

@[simp] theorem performAll_cons (call : C) (calls : List C) (st : (κ → D) × S) :
    M.performAll (call :: calls) st =
      ((M.perform call st).1 :: (M.performAll calls (M.perform call st).2).1,
        (M.performAll calls (M.perform call st).2).2) := rfl

/-! ### One service as another -/

section Simulation

variable {C' D' S' R' : Type*} {M' : Service C' κ D' S' R'} {op : C → C'} {expected : R' → R}
variable {Value : S → D → D' → Prop} {Shared : S → S' → Prop} {Promised : R' → Prop}

/-- Each call of `M` answers as the call of `M'` that it stands for, wherever `M'` promises a reply,
and keeps the values and the states alike. -/
structure Simulates (M : Service C κ D S R) (M' : Service C' κ D' S' R') (op : C → C')
    (expected : R' → R) (Value : S → D → D' → Prop) (Shared : S → S' → Prop)
    (Promised : R' → Prop) (Call : C → Prop) : Prop where
  handle : ∀ call, M'.handle (op call) = M.handle call
  step : ∀ call d s d' s', Call call → Value s d d' → Shared s s' →
    Promised (M'.step (op call) d' s').1 →
      (M.step call d s).1 = expected (M'.step (op call) d' s').1 ∧
        Value (M.step call d s).2.2 (M.step call d s).2.1 (M'.step (op call) d' s').2.1 ∧
        Shared (M.step call d s).2.2 (M'.step (op call) d' s').2.2
  others : ∀ call d s d₁ d₁', Value s d₁ d₁' → Value (M.step call d s).2.2 d₁ d₁'

variable {M} {Call : C → Prop} (h : Simulates M M' op expected Value Shared Promised Call)
include h

theorem Simulates.perform {call : C} (hcall : Call call) {st : (κ → D) × S} {st' : (κ → D') × S'}
    (hvalues : ∀ k, Value st.2 (st.1 k) (st'.1 k)) (hshared : Shared st.2 st'.2)
    (hpromised : Promised (M'.perform (op call) st').1) :
    (M.perform call st).1 = expected (M'.perform (op call) st').1 ∧
      (∀ k, Value (M.perform call st).2.2 ((M.perform call st).2.1 k)
        ((M'.perform (op call) st').2.1 k)) ∧
      Shared (M.perform call st).2.2 (M'.perform (op call) st').2.2 := by
  have hhandle := h.handle call
  simp only [Service.perform, hhandle] at hpromised ⊢
  obtain ⟨hreply, hvalue, hstate⟩ := h.step call _ _ _ _ hcall (hvalues (M.handle call)) hshared
    hpromised
  refine ⟨hreply, fun k => ?_, hstate⟩
  by_cases hk : k = M.handle call
  · subst hk
    simpa using hvalue
  · simpa [Function.update_of_ne hk] using h.others call _ _ _ _ (hvalues k)

/-- In a run of any calls the replies are the promised ones, as long as each is promised. -/
theorem Simulates.performAll {calls : List C} (hcalls : ∀ call ∈ calls, Call call)
    (st : (κ → D) × S) (st' : (κ → D') × S') (hvalues : ∀ k, Value st.2 (st.1 k) (st'.1 k))
    (hshared : Shared st.2 st'.2)
    (hpromised : ∀ r ∈ (M'.performAll (calls.map op) st').1, Promised r) :
    (M.performAll calls st).1 = (M'.performAll (calls.map op) st').1.map expected ∧
      (∀ k, Value (M.performAll calls st).2.2 ((M.performAll calls st).2.1 k)
        ((M'.performAll (calls.map op) st').2.1 k)) ∧
      Shared (M.performAll calls st).2.2 (M'.performAll (calls.map op) st').2.2 := by
  induction calls generalizing st st' with
  | nil => exact ⟨rfl, hvalues, hshared⟩
  | cons call calls ih =>
    simp only [List.map_cons, performAll_cons, List.mem_cons, forall_eq_or_imp] at hcalls hpromised ⊢
    obtain ⟨hreply, hvalues', hshared'⟩ := h.perform hcalls.1 hvalues hshared hpromised.1
    obtain ⟨hreplies, hrest⟩ := ih hcalls.2 _ _ hvalues' hshared' hpromised.2
    exact ⟨by rw [hreply, hreplies], hrest⟩

end Simulation

/-! ### One handle by itself -/

section Alone

variable {Same : S → S → Prop} {Own : C → Prop} [DecidablePred Own]

/-- Calls change only what `Same` leaves open of the shared state; the own calls on a handle do not
depend on that, and the other calls on it keep its value. -/
structure Separate (M : Service C κ D S R) (Same : S → S → Prop) (Own : C → Prop) : Prop where
  trans : ∀ {s s' s''}, Same s s' → Same s' s'' → Same s s''
  keeps : ∀ call d s, Same (M.step call d s).2.2 s
  own : ∀ call d s s', Own call → Same s s' →
    (M.step call d s).1 = (M.step call d s').1 ∧ (M.step call d s).2.1 = (M.step call d s').2.1 ∧
      Same (M.step call d s).2.2 (M.step call d s').2.2
  other : ∀ call d s, ¬Own call → (M.step call d s).2.1 = d

/-- The replies to the own calls on a handle. -/
def repliesOn (k : κ) (Own : C → Prop) [DecidablePred Own] (calls : List C) (replies : List R) :
    List R :=
  ((calls.zip replies).filter fun p => M.handle p.1 = k ∧ Own p.1).map Prod.snd

variable {M}

/-- Whatever else is called, the own calls on a handle are answered as if they were the only ones. -/
theorem Separate.alone (h : M.Separate Same Own) (k : κ) (calls : List C)
    (st st₁ : (κ → D) × S) (hvalue : st.1 k = st₁.1 k) (hsame : Same st.2 st₁.2) :
    M.repliesOn k Own calls (M.performAll calls st).1 =
        (M.performAll (calls.filter fun call => M.handle call = k ∧ Own call) st₁).1 ∧
      (M.performAll calls st).2.1 k =
        (M.performAll (calls.filter fun call => M.handle call = k ∧ Own call) st₁).2.1 k := by
  induction calls generalizing st st₁ with
  | nil => exact ⟨rfl, hvalue⟩
  | cons call calls ih =>
    by_cases hown : M.handle call = k ∧ Own call
    · obtain ⟨rfl, hcall⟩ := hown
      obtain ⟨hreply, hvalue', hsame'⟩ := h.own call (st.1 (M.handle call)) _ _ hcall hsame
      rw [hvalue] at hreply hvalue' hsame'
      have hrest := ih (M.perform call st).2 (M.perform call st₁).2
        (by simpa [perform, hvalue] using hvalue') (by simpa [perform, hvalue] using hsame')
      simp only [repliesOn, performAll_cons, List.zip_cons_cons, List.filter_cons, hcall, and_self,
        decide_true, if_true, List.map_cons, perform] at hrest ⊢
      rw [hvalue, hreply]
      exact ⟨by rw [← hrest.1, hvalue], hvalue ▸ hrest.2⟩
    · have hkept : (M.perform call st).2.1 k = st₁.1 k := by
        by_cases hk : M.handle call = k
        · have hother := h.other call (st.1 (M.handle call)) st.2 fun hcall => hown ⟨hk, hcall⟩
          rw [← hk] at hvalue ⊢
          simpa [perform, hother] using hvalue
        · simpa [perform, Function.update_of_ne (Ne.symm hk)] using hvalue
      have hrest := ih (M.perform call st).2 st₁ hkept (h.trans (h.keeps ..) hsame)
      simpa [repliesOn, hown] using hrest

end Alone

end Service

end Lbos.Lib

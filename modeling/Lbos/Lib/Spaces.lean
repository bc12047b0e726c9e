import Mathlib.Logic.Function.Basic

/-! Memories of several owners.  An owner fills pages of its own memory and stores to it; a memory
is given to a new owner, or copied to it from another one.  What an owner has depends on its own
events alone. -/

namespace Lbos.Lib

universe u v w x

/-- What each owner has at each address; `none` where it has nothing. -/
abbrev Spaces (ι : Type u) (α : Type v) (β : Type w) := ι → α → Option β

/-- What an owner does to its own memory. -/
inductive OwnEvent (α : Type v) (β : Type w) (π : Type x)
  | fill (p : π) (b : β)
  | store (a : α) (b : β)

inductive SpaceEvent (ι : Type u) (α : Type v) (β : Type w) (π : Type x)
  | own (i : ι) (e : OwnEvent α β π)
  | give (i : ι) (m : α → Option β)
  | copy (i j : ι)

variable {ι : Type u} {α : Type v} {β : Type w} {π : Type x} [DecidableEq α] [DecidableEq π]
  (page : α → π)

/-- A filled page is there, whether or not it was; a store needs the address to be there. -/
def OwnEvent.apply (m : α → Option β) : OwnEvent α β π → α → Option β
  | fill p b, a => if page a = p then some b else m a
  | store x b, a => if a = x then (m a).map fun _ => b else m a

namespace SpaceEvent

/-- The event makes `i` an owner. -/
def Makes (i : ι) : SpaceEvent ι α β π → Prop
  | own _ _ => False
  | give j _ => j = i
  | copy _ j => j = i

variable [DecidableEq ι]

def apply (s : Spaces ι α β) : SpaceEvent ι α β π → Spaces ι α β
  | own i e => Function.update s i (e.apply page (s i))
  | give i m => Function.update s i m
  | copy i j => Function.update s j (s i)

/-- The event as one of owner `i` on its own memory. -/
def ownOf (i : ι) : SpaceEvent ι α β π → Option (OwnEvent α β π)
  | own j e => if j = i then some e else none
  | _ => none

variable {page}

/-- An event that does not make `i` an owner changes what `i` has only if it is its own. -/
theorem apply_eq_own {i : ι} {e : SpaceEvent ι α β π} (h : ¬e.Makes i) (s : Spaces ι α β) :
    e.apply page s i = ((e.ownOf i).toList).foldl (OwnEvent.apply page) (s i) := by
  cases e with
  | own j e =>
    by_cases hj : j = i
    · subst hj
      simp [apply, ownOf]
    · simp [apply, ownOf, hj, Function.update_of_ne (Ne.symm hj)]
  | give j m => exact Function.update_of_ne (Ne.symm h) _ _
  | copy j l => exact Function.update_of_ne (Ne.symm h) _ _

/-- Noninterference: what an owner has after any events is what its own events make of what it had
before, whatever the others did in between. -/
theorem foldl_apply_eq_own {i : ι} {events : List (SpaceEvent ι α β π)}
    (h : ∀ e ∈ events, ¬e.Makes i) (s : Spaces ι α β) :
    events.foldl (apply page) s i =
      (events.filterMap (ownOf i)).foldl (OwnEvent.apply page) (s i) := by
  induction events generalizing s with
  | nil => rfl
  | cons e events ih =>
    have hrest := ih (fun e he => h e (List.mem_cons_of_mem _ he)) (e.apply page s)
    rw [apply_eq_own (h e List.mem_cons_self)] at hrest
    rw [List.foldl_cons, hrest, ← List.foldl_append]
    cases hown : e.ownOf i with
    | none => rw [List.filterMap_cons_none hown]; rfl
    | some own => rw [List.filterMap_cons_some hown]; rfl

end SpaceEvent

end Lbos.Lib

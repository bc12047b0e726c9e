import Mathlib.Data.Set.Insert
import Mathlib.Order.WellFounded
import Lbos.Lib.Machine
import Lbos.Lib.Transition

/-! A pool of items that hands out the least one that is not taken, and the loans of it: the items
handed out and not given back. -/

namespace Lbos.Lib.Pool

variable {α : Type*}

/-- What is asked of a pool.  An item that the pool does not have is `none`. -/
inductive Request (α : Type*)
  | take
  | give (a : Option α)
  | ask (a : Option α)

inductive Answer (α : Type*)
  | item (a : Option α)
  | done
  | held (b : Bool)

variable [LinearOrder α] [WellFoundedLT α]

open Classical in
/-- The least item that is not taken. -/
noncomputable def firstFree (taken : Set α) : Option α :=
  if h : ∃ a, a ∉ taken then some (wellFounded_lt.min {a | a ∉ taken} h) else none

theorem firstFree_eq_some {taken : Set α} {a : α} (ha : a ∉ taken) (hleast : ∀ b < a, b ∈ taken) :
    firstFree taken = some a := by
  have hne : ∃ a, a ∉ taken := ⟨a, ha⟩
  have hmin : wellFounded_lt.min {a | a ∉ taken} hne ∉ taken := wellFounded_lt.min_mem _ hne
  have hnot : ¬a < wellFounded_lt.min {a | a ∉ taken} hne := wellFounded_lt.not_lt_min _ ha
  rw [firstFree, dif_pos hne]
  rcases lt_trichotomy (wellFounded_lt.min {a | a ∉ taken} hne) a with hlt | heq | hgt
  · exact absurd (hleast _ hlt) hmin
  · rw [heq]
  · exact absurd hgt hnot

theorem firstFree_univ : firstFree (Set.univ : Set α) = none :=
  dif_neg fun ⟨a, ha⟩ => ha (Set.mem_univ a)

theorem notMem_of_firstFree {taken : Set α} {a : α} (h : firstFree taken = some a) : a ∉ taken := by
  rw [firstFree] at h
  split at h
  · next hne =>
    obtain rfl := Option.some.inj h
    exact wellFounded_lt.min_mem _ hne
  · exact absurd h (Option.some_ne_none a).symm

open Classical in
/-- First fit: a request takes the least item that is there, gives an item back, or asks whether an
item is taken, which an item that the pool does not have counts as. -/
noncomputable def serve : Machine (Set α) (Request α) (Answer α)
  | .take, taken =>
    match firstFree taken with
    | some a => (.item (some a), insert a taken)
    | none => (.item none, taken)
  | .give (some a), taken => (.done, taken \ {a})
  | .give none, taken => (.done, taken)
  | .ask (some a), taken => (.held (decide (a ∈ taken)), taken)
  | .ask none, taken => (.held true, taken)

/-! ### Loans -/

/-- The taken items, and those of them that are on loan. -/
structure Ledger (α : Type*) where
  taken : Set α
  loans : List α

/-- The steps of a ledger: only what is on loan is given back. -/
inductive Ledger.Step : Ledger α → Request α → Ledger α → Prop
  | take {l : Ledger α} {a : α} : firstFree l.taken = some a →
      Step l .take ⟨insert a l.taken, a :: l.loans⟩
  | full {l : Ledger α} : firstFree l.taken = none → Step l .take l
  | give {l : Ledger α} {a : α} : a ∈ l.loans →
      Step l (.give (some a)) ⟨l.taken \ {a}, l.loans.erase a⟩
  | ask {l : Ledger α} {a : Option α} : Step l (.ask a) l

/-- A pool that starts without loans and with the items of `kept` taken. -/
def ledgers (kept : Set α) : System (Ledger α) (Request α) where
  init l := l.loans = [] ∧ ∀ a ∈ kept, a ∈ l.taken
  step := Ledger.Step

/-- No item is lent twice, what is on loan is taken, and what is kept is taken but not on loan. -/
structure Ledger.Sound (kept : Set α) (l : Ledger α) : Prop where
  nodup : l.loans.Nodup
  taken : ∀ a ∈ l.loans, a ∈ l.taken
  kept : ∀ a ∈ kept, a ∈ l.taken ∧ a ∉ l.loans

namespace Ledger

variable {kept : Set α} {l : Ledger α}

omit [LinearOrder α] [WellFoundedLT α] in
theorem Sound.take {a : α} (h : l.Sound kept) (ha : a ∉ l.taken) :
    Sound kept ⟨insert a l.taken, a :: l.loans⟩ where
  nodup := List.nodup_cons.mpr ⟨fun hc => ha (h.taken a hc), h.nodup⟩
  taken b hb := by
    rcases List.mem_cons.mp hb with rfl | hb
    · exact Set.mem_insert b _
    · exact Set.mem_insert_of_mem _ (h.taken b hb)
  kept b hb := by
    obtain ⟨htaken, hloan⟩ := h.kept b hb
    refine ⟨Set.mem_insert_of_mem _ htaken, fun hc => ?_⟩
    rcases List.mem_cons.mp hc with rfl | hc
    · exact ha htaken
    · exact hloan hc

omit [WellFoundedLT α] in
theorem Sound.give {a : α} (h : l.Sound kept) (ha : a ∈ l.loans) :
    Sound kept ⟨l.taken \ {a}, l.loans.erase a⟩ where
  nodup := h.nodup.erase a
  taken b hb := by
    obtain ⟨hne, hb⟩ := h.nodup.mem_erase_iff.mp hb
    exact ⟨h.taken b hb, hne⟩
  kept b hb := by
    obtain ⟨htaken, hloan⟩ := h.kept b hb
    refine ⟨⟨htaken, ?_⟩, fun hc => hloan (List.mem_of_mem_erase hc)⟩
    rintro rfl
    exact hloan ha

theorem sound_of_reach (h : (ledgers kept).Reach l) : l.Sound kept := by
  refine h.invariant (fun l hl => ?_) fun l r l' _ hl _ hstep => ?_
  · obtain ⟨hloans, hkept⟩ := hl
    have hnone : ∀ a, a ∉ l.loans := fun a ha => List.not_mem_nil (hloans ▸ ha)
    exact ⟨hloans ▸ List.nodup_nil, fun a ha => absurd ha (hnone a), fun a ha =>
      ⟨hkept a ha, hnone a⟩⟩
  · cases hstep with
    | take hfree => exact hl.take (notMem_of_firstFree hfree)
    | full _ => exact hl
    | give ha => exact hl.give ha
    | ask => exact hl

end Ledger

end Lbos.Lib.Pool

import Mathlib.Data.Finset.Card
import Mathlib.Logic.Function.Basic
import Mathlib.Tactic.Common

/-! A map whose keys lie in regions.  A key can be entered only when its region is open, and opening
a region takes a unit of a supply that nothing refills: without one the update is lost. -/

namespace Lbos.Lib

universe u v w

variable {κ : Type u} {ρ : Type v} {β : Type w}

/-- An update: the value of a key is set, or the key is erased. -/
inductive Update (κ : Type u) (β : Type w) where
  | enter (k : κ) (b : Option β)
  | erase (k : κ)

namespace Update

def key : Update κ β → κ
  | enter k _ => k
  | erase k => k

/-- The value that the key has after the update. -/
def result : Update κ β → Option β
  | enter _ b => b
  | erase _ => none

/-- The region that has to be open for the update. -/
def opens (region : κ → ρ) : Update κ β → Finset ρ
  | enter k _ => {region k}
  | erase _ => ∅

def regions [DecidableEq ρ] (region : κ → ρ) : List (Update κ β) → Finset ρ
  | [] => ∅
  | c :: cs => c.opens region ∪ regions region cs

variable [DecidableEq κ]

/-- The update of a map that has no regions. -/
def write (f : κ → Option β) (c : Update κ β) : κ → Option β := Function.update f c.key c.result

variable {f : κ → Option β} {cs : List (Update κ β)}

theorem foldl_write_other {k : κ} (h : ∀ c ∈ cs, c.key ≠ k) : cs.foldl write f k = f k := by
  induction cs generalizing f with
  | nil => rfl
  | cons c cs ih =>
    rw [List.foldl_cons, ih fun c' hc' => h c' (List.mem_cons_of_mem c hc')]
    exact Function.update_of_ne (h c List.mem_cons_self).symm _ _

/-- The last update of a key decides. -/
theorem foldl_write_last {l r : List (Update κ β)} {c : Update κ β}
    (h : ∀ c' ∈ r, c'.key ≠ c.key) : (l ++ c :: r).foldl write f c.key = c.result := by
  rw [List.foldl_append, List.foldl_cons, foldl_write_other h]
  exact Function.update_self ..

end Update

/-- The values of the keys, the open regions and what is left of the supply. -/
@[ext] structure RegionMap (ρ : Type v) (κ : Type u) (β : Type w) where
  value : κ → Option β
  opened : Finset ρ
  left : Nat

namespace RegionMap

variable [DecidableEq κ] [DecidableEq ρ] (region : κ → ρ)

def apply (m : RegionMap ρ κ β) : Update κ β → RegionMap ρ κ β
  | .enter k b =>
    if region k ∈ m.opened then { m with value := Function.update m.value k b }
    else if m.left = 0 then m
    else ⟨Function.update m.value k b, insert (region k) m.opened, m.left - 1⟩
  | .erase k => { m with value := Function.update m.value k none }

variable {region} {m : RegionMap ρ κ β} {c : Update κ β} {cs : List (Update κ β)}

theorem apply_opened {k : κ} (h : region k ∈ m.opened) (b : Option β) :
    m.apply region (.enter k b) = { m with value := Function.update m.value k b } := if_pos h

theorem apply_lost {k : κ} (h : region k ∉ m.opened) (hleft : m.left = 0) (b : Option β) :
    m.apply region (.enter k b) = m := by
  simp [apply, h, hleft]

theorem apply_opening {k : κ} (h : region k ∉ m.opened) (hleft : m.left ≠ 0) (b : Option β) :
    m.apply region (.enter k b) =
      ⟨Function.update m.value k b, insert (region k) m.opened, m.left - 1⟩ := by
  simp [apply, h, hleft]

/-- Every unit that leaves the supply opens one region. -/
theorem apply_conserves (region : κ → ρ) (m : RegionMap ρ κ β) (c : Update κ β) :
    (m.apply region c).left + (m.apply region c).opened.card = m.left + m.opened.card := by
  cases c with
  | erase k => rfl
  | enter k b =>
    by_cases h : region k ∈ m.opened
    · rw [apply_opened h]
    by_cases hleft : m.left = 0
    · rw [apply_lost h hleft]
    · rw [apply_opening h hleft]
      simp only [Finset.card_insert_of_notMem h]
      omega

theorem run_conserves (region : κ → ρ) (m : RegionMap ρ κ β) (cs : List (Update κ β)) :
    (cs.foldl (apply region) m).left + (cs.foldl (apply region) m).opened.card =
      m.left + m.opened.card := by
  induction cs generalizing m with
  | nil => rfl
  | cons c cs ih => rw [List.foldl_cons, ih, apply_conserves]

/-- The update has its region, or a unit for it. -/
theorem apply_of_room (h : c.opens region ⊆ m.opened ∨ m.left ≠ 0) :
    (m.apply region c).value = Update.write m.value c ∧
      (m.apply region c).opened = m.opened ∪ c.opens region := by
  cases c with
  | erase k => exact ⟨rfl, (Finset.union_empty _).symm⟩
  | enter k b =>
    by_cases hk : region k ∈ m.opened
    · rw [apply_opened hk]
      exact ⟨rfl, (Finset.union_eq_left.mpr (Finset.singleton_subset_iff.mpr hk)).symm⟩
    · have hleft := h.resolve_left fun hsub => hk (Finset.singleton_subset_iff.mp hsub)
      rw [apply_opening hk hleft]
      refine ⟨rfl, ?_⟩
      rw [Update.opens, Finset.union_comm]
      rfl

/-- With a unit for every region that the updates open, they are those of a plain map. -/
theorem run_of_room (h : (Update.regions region cs \ m.opened).card ≤ m.left) :
    (cs.foldl (apply region) m).value = cs.foldl Update.write m.value ∧
      (cs.foldl (apply region) m).opened = m.opened ∪ Update.regions region cs := by
  induction cs generalizing m with
  | nil => exact ⟨rfl, (Finset.union_empty _).symm⟩
  | cons c cs ih =>
    have hsplit : Update.regions region (c :: cs) \ m.opened = (c.opens region \ m.opened) ∪
        (Update.regions region cs \ (m.opened ∪ c.opens region)) := by
      ext r
      simp only [Update.regions, Finset.mem_sdiff, Finset.mem_union]
      tauto
    have hdisjoint : Disjoint (c.opens region \ m.opened)
        (Update.regions region cs \ (m.opened ∪ c.opens region)) := by
      rw [Finset.disjoint_left]
      intro r hr hr'
      rw [Finset.mem_sdiff] at hr hr'
      exact hr'.2 (Finset.mem_union_right _ hr.1)
    rw [hsplit, Finset.card_union_of_disjoint hdisjoint] at h
    have hroom : c.opens region ⊆ m.opened ∨ m.left ≠ 0 := by
      by_cases hleft : m.left = 0
      · left
        rw [← Finset.sdiff_eq_empty_iff_subset, ← Finset.card_eq_zero]
        omega
      · exact .inr hleft
    obtain ⟨hvalue, hopened⟩ := apply_of_room hroom
    have hcard : (m.opened ∪ c.opens region).card =
        m.opened.card + (c.opens region \ m.opened).card := by
      rw [← Finset.union_sdiff_self_eq_union, Finset.card_union_of_disjoint disjoint_sdiff_self_right]
    have hconserves := apply_conserves region m c
    rw [hopened, hcard] at hconserves
    obtain ⟨hrun, hregions⟩ := @ih (m.apply region c) (by rw [hopened]; omega)
    rw [List.foldl_cons, List.foldl_cons, hrun, hregions, hvalue, hopened, Finset.union_assoc]
    exact ⟨rfl, rfl⟩

end RegionMap

end Lbos.Lib

import Mathlib.Data.Finset.Basic
import Mathlib.Data.Finset.Card
import Mathlib.Tactic.Common
import Lbos.Lib.Loop

/-! Items that are entered from a limited supply: each takes a unit, and the first of its group one
more for the group.  When the unit for the group is missing, the item is lost without notice. -/

namespace Lbos.Lib

universe u v w

variable {α : Type u} {ι : Type v} {key : α → ι}

/-- What is left of the supply, the groups that are there and the items in them. -/
@[ext] structure Stock (key : α → ι) where
  left : Nat
  groups : Finset ι
  items : Finset α
  mem_groups : ∀ x ∈ items, key x ∈ groups

namespace Stock

/-- Without a group there is no item. -/
theorem items_eq_empty (s : Stock key) (h : s.groups = ∅) : s.items = ∅ := by
  refine Finset.eq_empty_of_forall_notMem fun x hx => ?_
  have hgroup := s.mem_groups x hx
  rw [h] at hgroup
  exact Finset.notMem_empty _ hgroup

variable [DecidableEq α] [DecidableEq ι]

/-- Enters `x`, which fails when nothing is left. -/
def put (x : α) (s : Stock key) : Bool × Stock key :=
  if s.left = 0 then (false, s)
  else if h : key x ∈ s.groups then
    (true, ⟨s.left - 1, s.groups, insert x s.items, by
      simpa [Finset.forall_mem_insert, h] using s.mem_groups⟩)
  else if s.left = 1 then (true, { s with left := 0 })
  else (true, ⟨s.left - 2, insert (key x) s.groups, insert x s.items, by
    simpa [Finset.forall_mem_insert] using fun y hy => .inr (s.mem_groups y hy)⟩)

/-- Enters items until one fails. -/
def fill : List α → Stock key → Bool × Stock key
  | [], s => (true, s)
  | x :: xs, s =>
    match put x s with
    | (true, s) => fill xs s
    | (false, s) => (false, s)

variable {s : Stock key} {x : α} {xs ys : List α}

theorem fill_append (xs ys : List α) (s : Stock key) :
    fill (xs ++ ys) s = if (fill xs s).1 then fill ys (fill xs s).2 else fill xs s := by
  induction xs generalizing s with
  | nil => rfl
  | cons x xs ih =>
    rw [List.cons_append, fill, fill]
    rcases put x s with ⟨_ | _, s'⟩
    · rfl
    · exact ih s'

theorem fill_singleton (x : α) (s : Stock key) : fill [x] s = put x s := by
  rw [fill]
  rcases put x s with ⟨_ | _, _⟩ <;> rfl

/-! ### One item -/

theorem put_none (h : s.left = 0) (x : α) : put x s = (false, s) := if_pos h

theorem put_known (h : s.left ≠ 0) (hx : key x ∈ s.groups) :
    ∃ s', put x s = (true, s') ∧ s'.left + 1 = s.left ∧ s'.groups = s.groups ∧
      s'.items = insert x s.items := by
  rw [put, if_neg h, dif_pos hx]
  exact ⟨_, rfl, Nat.sub_add_cancel (Nat.pos_of_ne_zero h), rfl, rfl⟩

theorem put_lost (h : s.left = 1) (hx : key x ∉ s.groups) :
    put x s = (true, { s with left := 0 }) := by
  rw [put, if_neg (by omega), dif_neg hx, if_pos h]

theorem put_opens (h : 2 ≤ s.left) (hx : key x ∉ s.groups) :
    ∃ s', put x s = (true, s') ∧ s'.left + 2 = s.left ∧ s'.groups = insert (key x) s.groups ∧
      s'.items = insert x s.items := by
  rw [put, if_neg (by omega), dif_neg hx, if_neg (by omega)]
  exact ⟨_, rfl, Nat.sub_add_cancel h, rfl, rfl⟩

end Stock

/-! ### What items take -/

section Cost

variable {α : Type u} {ι : Type v} [DecidableEq ι] (key : α → ι)

/-- The groups of a list of items. -/
def groupsOf (xs : List α) : Finset ι := (xs.map key).toFinset

/-- What it takes to enter all items, when some groups are there. -/
def cost (groups : Finset ι) (xs : List α) : Nat := xs.length + (groupsOf key xs \ groups).card

/-- The last item is the first of its group. -/
def LastOpens (groups : Finset ι) (xs : List α) : Prop :=
  ∃ ys x, xs = ys ++ [x] ∧ key x ∉ groups ∪ groupsOf key ys

variable {key} {xs : List α} {x : α} {groups : Finset ι}

theorem groupsOf_append_singleton :
    groupsOf key (xs ++ [x]) = insert (key x) (groupsOf key xs) := by
  ext i
  simp [groupsOf]

theorem lastOpens_append_singleton :
    LastOpens key groups (xs ++ [x]) ↔ key x ∉ groups ∪ groupsOf key xs := by
  constructor
  · rintro ⟨ys, y, heq, hy⟩
    obtain ⟨rfl, hlast⟩ := List.append_inj' heq rfl
    obtain rfl := List.singleton_inj.mp hlast
    exact hy
  · exact fun hx => ⟨xs, x, rfl, hx⟩

theorem cost_append_known (hx : key x ∈ groups ∪ groupsOf key xs) :
    cost key groups (xs ++ [x]) = cost key groups xs + 1 := by
  have hsame : insert (key x) (groupsOf key xs) \ groups = groupsOf key xs \ groups := by
    rcases Finset.mem_union.mp hx with hx | hx
    · exact Finset.insert_sdiff_of_mem _ hx
    · rw [Finset.insert_eq_of_mem hx]
  rw [cost, cost, groupsOf_append_singleton, List.length_append, List.length_singleton, hsame]
  omega

theorem cost_append_new (hx : key x ∉ groups ∪ groupsOf key xs) :
    cost key groups (xs ++ [x]) = cost key groups xs + 2 := by
  obtain ⟨hold, hnew⟩ := not_or.mp fun hc => hx (Finset.mem_union.mpr hc)
  have hinsert : insert (key x) (groupsOf key xs) \ groups =
      insert (key x) (groupsOf key xs \ groups) := Finset.insert_sdiff_of_notMem _ hold
  have hcard : (insert (key x) (groupsOf key xs \ groups)).card =
      (groupsOf key xs \ groups).card + 1 :=
    Finset.card_insert_of_notMem fun hc => hnew (Finset.mem_sdiff.mp hc).1
  rw [cost, cost, groupsOf_append_singleton, List.length_append, List.length_singleton, hinsert,
    hcard]
  omega

theorem cost_lt_append (key : α → ι) (groups : Finset ι) (xs : List α) (x : α) :
    cost key groups xs < cost key groups (xs ++ [x]) := by
  by_cases hx : key x ∈ groups ∪ groupsOf key xs
  · rw [cost_append_known hx]
    exact Nat.lt_succ_self _
  · rw [cost_append_new hx]
    omega

theorem cost_le (key : α → ι) (groups : Finset ι) (xs : List α) :
    cost key groups xs ≤ 2 * xs.length := by
  have hgroups : (groupsOf key xs \ groups).card ≤ xs.length := by
    refine (Finset.card_le_card Finset.sdiff_subset).trans ?_
    rw [groupsOf, ← List.length_map key]
    exact List.toFinset_card_le _
  rw [cost]
  omega

end Cost

namespace Stock

variable [DecidableEq α] [DecidableEq ι] {s : Stock key} {x : α} {xs : List α}

/-- How the entering of `xs` ends. -/
inductive Filled (s : Stock key) (xs : List α) : Bool × Stock key → Prop
  /-- All items are entered. -/
  | all {s' : Stock key} : s'.left + cost key s.groups xs = s.left →
      s'.groups = s.groups ∪ groupsOf key xs → s'.items = s.items ∪ xs.toFinset →
      Filled s xs (true, s')
  /-- The last item is lost, as the unit for its group is missing. -/
  | butLast {s' : Stock key} {ys : List α} {x : α} : xs = ys ++ [x] →
      s.left + 1 = cost key s.groups xs → key x ∉ s.groups ∪ groupsOf key ys → s'.left = 0 →
      s'.items = s.items ∪ ys.toFinset → Filled s xs (true, s')
  /-- An item finds nothing left. -/
  | short {s' : Stock key} : s.left < cost key s.groups xs →
      ¬(LastOpens key s.groups xs ∧ s.left + 1 = cost key s.groups xs) → s'.left = 0 →
      Filled s xs (false, s')

/-- One more item after all are entered. -/
theorem Filled.all_put {s' : Stock key} (hleft : s'.left + cost key s.groups xs = s.left)
    (hgroups : s'.groups = s.groups ∪ groupsOf key xs) (hitems : s'.items = s.items ∪ xs.toFinset) :
    Filled s (xs ++ [x]) (put x s') := by
  have hset : insert x s'.items = s.items ∪ (xs ++ [x]).toFinset := by
    ext y
    simp [hitems]
  by_cases hzero : s'.left = 0
  · rw [put_none hzero]
    by_cases hx : key x ∈ s.groups ∪ groupsOf key xs
    · have hcost := cost_append_known hx
      exact .short (by omega) (fun hc => lastOpens_append_singleton.mp hc.1 hx) hzero
    · have hcost := cost_append_new hx
      exact .short (by omega) (fun hc => by omega) hzero
  · by_cases hx : key x ∈ s'.groups
    · obtain ⟨s'', hput, hleft', hgroups', hitems'⟩ := put_known hzero hx
      rw [hgroups] at hx
      have hcost := cost_append_known hx
      rw [hput]
      refine .all (by omega) ?_ (hitems'.trans hset)
      rw [hgroups', hgroups, groupsOf_append_singleton, Finset.union_insert,
        Finset.insert_eq_of_mem hx]
    · have hx' : key x ∉ s.groups ∪ groupsOf key xs := hgroups ▸ hx
      have hcost := cost_append_new hx'
      by_cases hone : s'.left = 1
      · rw [put_lost hone hx]
        exact .butLast rfl (by omega) hx' rfl hitems
      · obtain ⟨s'', hput, hleft', hgroups', hitems'⟩ := put_opens (by omega) hx
        rw [hput]
        refine .all (by omega) ?_ (hitems'.trans hset)
        rw [hgroups', hgroups, groupsOf_append_singleton, Finset.union_insert]

theorem fill_filled (s : Stock key) (xs : List α) : Filled s xs (fill xs s) := by
  induction xs using List.reverseRecOn with
  | nil => exact .all (by simp [cost, groupsOf]) (by simp [groupsOf]) (by simp)
  | append_singleton ys x ih =>
    have hlt := cost_lt_append key s.groups ys x
    rw [fill_append]
    generalize fill ys s = r at ih
    cases ih with
    | all hleft hgroups hitems =>
      rw [if_pos rfl, fill_singleton]
      exact .all_put hleft hgroups hitems
    | butLast _ hcost _ hzero _ =>
      rw [if_pos rfl, fill_singleton, put_none hzero]
      exact .short (by omega) (fun hc => by omega) hzero
    | short hleft _ hzero =>
      rw [if_neg Bool.false_ne_true]
      exact .short (by omega) (fun hc => by omega) hzero

/-- All items are entered when the supply covers them. -/
theorem fill_enough (h : cost key s.groups xs ≤ s.left) :
    ∃ s', fill xs s = (true, s') ∧ s'.left + cost key s.groups xs = s.left ∧
      s'.items = s.items ∪ xs.toFinset := by
  have hfill := fill_filled s xs
  generalize fill xs s = r at hfill
  cases hfill with
  | @all s' hleft _ hitems => exact ⟨s', rfl, hleft, hitems⟩
  | butLast _ hcost => omega
  | short hlt => omega

theorem fill_left (s : Stock key) (xs : List α) :
    (fill xs s).2.left = s.left - cost key s.groups xs := by
  have hfill := fill_filled s xs
  generalize fill xs s = r at hfill ⊢
  cases hfill with
  | all hleft _ _ => exact Nat.eq_sub_of_add_eq hleft
  | @butLast s' _ _ _ hcost _ hzero _ =>
    show s'.left = _
    omega
  | @short s' hlt _ hzero =>
    show s'.left = _
    omega

/-- Entering reports success without having entered all items exactly when the unit for the last
item's group is the one that is missing. -/
theorem fill_loses_iff (s : Stock key) (xs : List α) :
    ((fill xs s).1 = true ∧ ∃ x ∈ xs, x ∉ (fill xs s).2.items) ↔
      LastOpens key s.groups xs ∧ s.left + 1 = cost key s.groups xs := by
  have hfill := fill_filled s xs
  generalize fill xs s = r at hfill ⊢
  cases hfill with
  | all hleft _ hitems =>
    refine iff_of_false ?_ fun hc => by omega
    rintro ⟨-, x, hx, hnot⟩
    exact hnot (hitems ▸ Finset.mem_union_right _ (List.mem_toFinset.mpr hx))
  | @butLast s' ys x hxs hcost hnew hzero hitems =>
    subst hxs
    have hopens := lastOpens_append_singleton.mpr hnew
    refine iff_of_true ⟨rfl, x, List.mem_append_right _ (List.mem_singleton_self x), ?_⟩
      ⟨hopens, hcost⟩
    rw [hitems, Finset.mem_union, List.mem_toFinset]
    rintro (hold | hbefore)
    · exact hnew (Finset.mem_union_left _ (s.mem_groups x hold))
    · exact hnew (Finset.mem_union_right _ (List.mem_toFinset.mpr (List.mem_map_of_mem hbefore)))
  | short _ hnot => exact iff_of_false (fun hc => nomatch hc.1) hnot

/-- One item is entered unless the unit for its group is missing. -/
theorem mem_put_iff (h : s.left ≠ 0) :
    x ∈ (put x s).2.items ↔ ¬(key x ∉ s.groups ∧ s.left = 1) := by
  by_cases hx : key x ∈ s.groups
  · obtain ⟨s', hput, -, -, hitems⟩ := put_known h hx
    rw [hput, hitems]
    exact iff_of_true (Finset.mem_insert_self x _) fun hc => hc.1 hx
  · by_cases hone : s.left = 1
    · rw [put_lost hone hx]
      exact iff_of_false (fun hc => hx (s.mem_groups x hc)) (not_not.mpr ⟨hx, hone⟩)
    · obtain ⟨s', hput, -, -, hitems⟩ := put_opens (by omega) hx
      rw [hput, hitems]
      exact iff_of_true (Finset.mem_insert_self x _) fun hc => hone hc.2

/-- A loop whose rounds each enter a list of items enters all the lists. -/
theorem loopWhile_fill {σ : Type w} (body : Nat → σ → Bool × σ) (I : Nat → σ → Prop)
    (stock : σ → Stock key) (items : Nat → List α) {n i : Nat} {s : σ} (h : I i s)
    (hStep : ∀ j s, i ≤ j → j < i + n → I j s →
      ((body j s).1, stock (body j s).2) = fill (items j) (stock s) ∧
        ((body j s).1 = true → I (j + 1) (body j s).2)) :
    ((loopWhile body n i s).1, stock (loopWhile body n i s).2) =
        fill ((List.range' i n).flatMap items) (stock s) ∧
      ((loopWhile body n i s).1 = true → I (i + n) (loopWhile body n i s).2) := by
  induction n generalizing i s with
  | zero => exact ⟨rfl, fun _ => h⟩
  | succ n ih =>
    obtain ⟨hbody, hnext⟩ := hStep i s (by omega) (by omega) h
    rw [List.range'_succ, List.flatMap_cons, fill_append, ← hbody, loopWhile,
      show i + (n + 1) = i + 1 + n by omega]
    rcases hb : body i s with ⟨_ | _, s'⟩
    · exact ⟨rfl, fun hc => absurd hc Bool.false_ne_true⟩
    · rw [hb] at hnext
      exact ih (hnext rfl) fun j s h1 h2 => hStep j s (by omega) (by omega)

end Stock

end Lbos.Lib

import Mathlib.Data.Finset.Prod
import Lbos.Lib.Supply
import Lbos.Mem.AddressSpace

/-! What a new address space takes from the free frames, exactly: one for the directory, one for each
page that is loaded or copied, and one for each page table. -/

namespace Lbos

open Lib Mem Stock

/-- The page tables in the user half of a directory, by their indices. -/
def userTables (ram : Mem) (d : Word) : Finset Nat :=
  (Finset.range 768).filter fun i => (tableAt ram d i).isSome

/-- The user pages that a directory maps, by their two indices. -/
def userPages (ram : Mem) (d : Word) : Finset (Nat × Nat) :=
  (Finset.range 768 ×ˢ Finset.range 1024).filter fun x => (entryAt ram d x.1 x.2).isSome

theorem mem_userTables {ram : Mem} {d : Word} {i : Nat} :
    i ∈ userTables ram d ↔ i < 768 ∧ (tableAt ram d i).isSome = true := by
  rw [userTables, Finset.mem_filter, Finset.mem_range]

theorem mem_userPages {ram : Mem} {d : Word} {x : Nat × Nat} :
    x ∈ userPages ram d ↔ (x.1 < 768 ∧ x.2 < 1024) ∧ (entryAt ram d x.1 x.2).isSome = true := by
  rw [userPages, Finset.mem_filter, Finset.mem_product, Finset.mem_range, Finset.mem_range]

theorem userTables_of_userPages {ram : Mem} {d : Word} {x : Nat × Nat} :
    x ∈ userPages ram d → x.1 ∈ userTables ram d := by
  rw [mem_userPages, mem_userTables]
  rintro ⟨⟨hi, -⟩, hsome⟩
  refine ⟨hi, ?_⟩
  cases htable : tableAt ram d x.1 with
  | none =>
    rw [entryAt_none htable] at hsome
    cases hsome
  | some => rfl

-- from here on by membership only: unifying memberships would unfold the two ranges
attribute [irreducible] userTables userPages

/-- The free frames as a supply for the pages of a directory. -/
noncomputable def PhysMem.stock (pm : PhysMem) (d : Word) : Stock (Prod.fst : Nat × Nat → Nat) :=
  ⟨pm.freeCount, userTables pm.ram d, userPages pm.ram d, fun _ => userTables_of_userPages⟩

@[simp] theorem PhysMem.stock_left (pm : PhysMem) (d : Word) : (pm.stock d).left = pm.freeCount :=
  rfl

@[simp] theorem PhysMem.stock_groups (pm : PhysMem) (d : Word) :
    (pm.stock d).groups = userTables pm.ram d := rfl

@[simp] theorem PhysMem.stock_items (pm : PhysMem) (d : Word) :
    (pm.stock d).items = userPages pm.ram d := rfl

/-- The user half of directory `d` is the same in two memories. -/
structure SameUserHalf (ram ram' : Mem) (d : Word) : Prop where
  table : ∀ i < 768, tableAt ram' d i = tableAt ram d i
  entry : ∀ i < 768, ∀ j < 1024, entryAt ram' d i j = entryAt ram d i j

theorem SameUserHalf.refl (ram : Mem) (d : Word) : SameUserHalf ram ram d :=
  ⟨fun _ _ => rfl, fun _ _ _ _ => rfl⟩

theorem SameUserHalf.trans {ram ram' ram'' : Mem} {d : Word} (h : SameUserHalf ram ram' d)
    (h' : SameUserHalf ram' ram'' d) : SameUserHalf ram ram'' d :=
  ⟨fun i hi => (h'.table i hi).trans (h.table i hi),
    fun i hi j hj => (h'.entry i hi j hj).trans (h.entry i hi j hj)⟩

theorem SameUserHalf.userTables {ram ram' : Mem} {d : Word} (h : SameUserHalf ram ram' d) :
    userTables ram' d = userTables ram d := by
  ext i
  rw [mem_userTables, mem_userTables]
  exact and_congr_right fun hi => by rw [h.table i hi]

theorem SameUserHalf.userPages {ram ram' : Mem} {d : Word} (h : SameUserHalf ram ram' d) :
    userPages ram' d = userPages ram d := by
  ext x
  rw [mem_userPages, mem_userPages]
  exact and_congr_right fun hx => by rw [h.entry x.1 hx.1 x.2 hx.2]

theorem PhysMem.stock_congr {pm pm' : PhysMem} {d : Word} (hfree : pm'.freeCount = pm.freeCount)
    (h : SameUserHalf pm.ram pm'.ram d) : pm'.stock d = pm.stock d :=
  Stock.ext hfree h.userTables h.userPages

/-! ### The pages, in the order in which they are entered -/

section Pages

variable {ram : Mem} {p : Word} {i j : Nat}

/-- The page at `(i, j)`, if there is one. -/
def entryPages (ram : Mem) (p : Word) (i j : Nat) : List (Nat × Nat) :=
  if (entryAt ram p i j).isSome then [(i, j)] else []

/-- The pages behind one table. -/
def tablePages (ram : Mem) (p : Word) (i : Nat) : List (Nat × Nat) :=
  (List.range' 0 1024).flatMap (entryPages ram p i)

/-- The user pages of a directory in the order in which `sys_fork` copies them. -/
def parentPages (ram : Mem) (p : Word) : List (Nat × Nat) :=
  (List.range' 0 768).flatMap (tablePages ram p)

theorem mem_entryPages {x : Nat × Nat} :
    x ∈ entryPages ram p i j ↔ x = (i, j) ∧ (entryAt ram p i j).isSome = true := by
  rw [entryPages]
  split
  · next hsome => simp [hsome]
  · next hnone => simp [hnone]

theorem mem_tablePages {x : Nat × Nat} :
    x ∈ tablePages ram p i ↔ x.1 = i ∧ x.2 < 1024 ∧ (entryAt ram p x.1 x.2).isSome = true := by
  simp only [tablePages, List.mem_flatMap, List.mem_range'_1, mem_entryPages]
  constructor
  · rintro ⟨j, hj, rfl, hsome⟩
    exact ⟨rfl, by omega, hsome⟩
  · rintro ⟨rfl, hj, hsome⟩
    exact ⟨x.2, by omega, rfl, hsome⟩

theorem mem_parentPages {x : Nat × Nat} : x ∈ parentPages ram p ↔ x ∈ userPages ram p := by
  simp only [parentPages, List.mem_flatMap, List.mem_range'_1, mem_tablePages, mem_userPages]
  constructor
  · rintro ⟨i, hi, rfl, hj, hsome⟩
    exact ⟨⟨by omega, hj⟩, hsome⟩
  · rintro ⟨⟨hi, hj⟩, hsome⟩
    exact ⟨x.1, by omega, rfl, hj, hsome⟩

/-- The order of the loops. -/
theorem parentPages_sorted (ram : Mem) (p : Word) :
    (parentPages ram p).Pairwise fun x y => x.1 < y.1 ∨ x.1 = y.1 ∧ x.2 < y.2 := by
  have hrange : ∀ n, (List.range' 0 n).Pairwise (· < ·) := fun n => by
    rw [← List.range_eq_range']
    exact List.pairwise_lt_range
  refine List.pairwise_flatMap.mpr ⟨fun i _ => ?_, (hrange 768).imp fun hlt x hx y hy => ?_⟩
  · refine List.pairwise_flatMap.mpr ⟨fun j _ => ?_, (hrange 1024).imp fun hlt x hx y hy => ?_⟩
    · rw [entryPages]
      split
      · exact List.pairwise_singleton _ _
      · exact .nil
    · obtain ⟨rfl, -⟩ := mem_entryPages.mp hx
      obtain ⟨rfl, -⟩ := mem_entryPages.mp hy
      exact .inr ⟨rfl, hlt⟩
  · obtain ⟨rfl, -⟩ := mem_tablePages.mp hx
    obtain ⟨rfl, -⟩ := mem_tablePages.mp hy
    exact .inl hlt

theorem parentPages_nodup (ram : Mem) (p : Word) : (parentPages ram p).Nodup := by
  refine (parentPages_sorted ram p).imp fun {x y} hlt heq => ?_
  subst heq
  omega

theorem parentPages_toFinset (ram : Mem) (p : Word) :
    (parentPages ram p).toFinset = userPages ram p := by
  ext x
  rw [List.mem_toFinset, mem_parentPages]

theorem length_parentPages (ram : Mem) (p : Word) :
    (parentPages ram p).length = (userPages ram p).card := by
  rw [← parentPages_toFinset, List.toFinset_card_of_nodup (parentPages_nodup ram p)]

theorem SameUserHalf.parentPages {ram' : Mem} (h : SameUserHalf ram ram' p) :
    parentPages ram' p = parentPages ram p := by
  have hentry : ∀ i < 768, ∀ j < 1024, entryPages ram' p i j = entryPages ram p i j :=
    fun i hi j hj => by rw [entryPages, entryPages, h.entry i hi j hj]
  refine List.flatMap_congr fun i hi => List.flatMap_congr fun j hj => ?_
  rw [List.mem_range'_1] at hi hj
  exact hentry i (by omega) j (by omega)

/-- Page `i` of a module, by its two indices. -/
def modulePage (i : Nat) : Nat × Nat := ((32840 + i) / 1024, (32840 + i) % 1024)

/-- The pages of a module of `n` pages. -/
def modulePages (n : Nat) : List (Nat × Nat) := (List.range' 0 n).map modulePage

theorem modulePage_user {i : Nat} (hi : i < 32768) :
    (modulePage i).1 < 768 ∧ (modulePage i).2 < 1024 := by
  simp only [modulePage]
  omega

theorem index_modulePage {i : Nat} (hi : i < 32768) :
    (pdIndex (userCodeStart + BitVec.ofNat 32 i * frameSize),
      ptIndex (userCodeStart + BitVec.ofNat 32 i * frameSize)) = modulePage i := by
  rw [pdIndex_eq, ptIndex_eq, toNat_modulePage hi, modulePage]
  refine Prod.ext ?_ ?_
  · simp only
    omega
  · simp only
    omega

end Pages

namespace Isolated

variable {pm pm' : PhysMem} {dirs : Set Word} {d p f va flags : Word}

/-- A frame is free exactly when `alloc_frame` finds one. -/
theorem freeCount_eq_zero_iff_allocFrame (h : Isolated pm dirs) :
    pm.freeCount = 0 ↔ pm.allocFrame.1 = 0 := by
  constructor
  · intro hzero
    by_contra hz
    have hcount := (pm.allocFrame_takes hz).freeCount
    omega
  · exact fun hz => PhysMem.freeCount_eq_zero_iff.mpr (pm.allocFrame_fails h.not_free_zero hz).1

theorem entered_sameUserHalf {i j : Nat} {t e : Word} (he : Entered pm pm' dirs d i j t e)
    (hp : p ∈ dirs) (hne : p ≠ d) : SameUserHalf pm.ram pm'.ram p := by
  refine ⟨fun i' hi' => ?_, fun i' hi' j' hj' => ?_⟩
  · rw [he.table p hp i' (by omega), if_neg fun hc => hne hc.1]
  · rw [he.entry p hp i' (by omega) j' hj', if_neg fun hc => hne hc.1]

theorem userTables_entered {i j : Nat} {t e : Word} (he : Entered pm pm' dirs d i j t e)
    (hd : d ∈ dirs) (hi : i < 768) : userTables pm'.ram d = insert i (userTables pm.ram d) := by
  ext i'
  rw [Finset.mem_insert, mem_userTables, mem_userTables]
  by_cases hi' : i' < 768
  · rw [he.table d hd i' (by omega)]
    by_cases heq : i' = i
    · rw [if_pos ⟨rfl, heq⟩]
      exact iff_of_true ⟨hi', rfl⟩ (.inl heq)
    · rw [if_neg fun hc => heq hc.2]
      exact (or_iff_right heq).symm
  · have hne : i' ≠ i := by omega
    exact iff_of_false (fun hc => hi' hc.1) fun hc => hc.elim hne fun hc => hi' hc.1

theorem userPages_entered {i j : Nat} {t e : Word} (he : Entered pm pm' dirs d i j t e)
    (hd : d ∈ dirs) (hi : i < 768) (hj : j < 1024) (hpresent : present e = true) :
    userPages pm'.ram d = insert (i, j) (userPages pm.ram d) := by
  ext x
  rw [Finset.mem_insert, mem_userPages, mem_userPages]
  by_cases hx : x.1 < 768 ∧ x.2 < 1024
  · rw [he.entry d hd x.1 (by omega) x.2 hx.2]
    by_cases heq : x = (i, j)
    · rw [heq, if_pos ⟨rfl, rfl, rfl⟩, if_pos hpresent]
      exact iff_of_true ⟨⟨hi, hj⟩, rfl⟩ (.inl rfl)
    · rw [if_neg fun hc => heq (Prod.ext hc.2.1 hc.2.2)]
      exact (or_iff_right heq).symm
  · have hne : x ≠ (i, j) := fun heq => hx (heq ▸ ⟨hi, hj⟩)
    exact iff_of_false (fun hc => hx hc.1) fun hc => hc.elim hne fun hc => hx hc.1

/-- Mapping a page for which a frame has been taken enters it, as far as the supply goes, and does
not concern the other directories. -/
theorem mapPage_put (h : Isolated pm dirs) (hd : d ∈ dirs) (hva : pdIndex va < 768) (pa : Word)
    (hflags : present flags = true) :
    put (pdIndex va, ptIndex va) { pm.stock d with left := pm.freeCount + 1 } =
        (true, (pm.mapPage d va pa flags).stock d) ∧
      ∀ p ∈ dirs, p ≠ d → SameUserHalf pm.ram (pm.mapPage d va pa flags).ram p := by
  by_cases hok : tableAt pm.ram d (pdIndex va) ≠ none ∨ pm.allocFrame.1 ≠ 0
  · obtain ⟨t, he⟩ := h.forest.mapPage_entered pa flags hd hva hok
    refine ⟨?_, fun p hp hne => entered_sameUserHalf he hp hne⟩
    have htables := userTables_entered he hd hva
    have hpages := userPages_entered he hd hva (ptIndex_lt va) (present_or hflags)
    rcases he.old_or_new with ⟨ht, hsame⟩ | ⟨ht, htake⟩
    · have hin : pdIndex va ∈ userTables pm.ram d :=
        mem_userTables.mpr ⟨hva, by rw [ht]; rfl⟩
      obtain ⟨s', hput, hleft, hgroups, hitems⟩ := put_known
        (s := { pm.stock d with left := pm.freeCount + 1 }) (Nat.succ_ne_zero _)
        (x := (pdIndex va, ptIndex va)) hin
      rw [hput]
      refine congrArg (Prod.mk true) (Stock.ext ?_ ?_ ?_)
      · exact (Nat.succ.inj hleft).trans (PhysMem.freeCount_congr fun n => (hsame n)).symm
      · exact hgroups.trans (htables.trans (Finset.insert_eq_of_mem hin)).symm
      · exact hitems.trans hpages.symm
    · have hcount := htake.freeCount
      have hnot : pdIndex va ∉ userTables pm.ram d := fun hc => by
        have hsome := (mem_userTables.mp hc).2
        rw [ht] at hsome
        cases hsome
      obtain ⟨s', hput, hleft, hgroups, hitems⟩ := put_opens
        (s := { pm.stock d with left := pm.freeCount + 1 })
        (show 2 ≤ pm.freeCount + 1 by omega) (x := (pdIndex va, ptIndex va)) hnot
      rw [hput]
      refine congrArg (Prod.mk true) (Stock.ext ?_ ?_ ?_)
      · have hleft : s'.left + 2 = pm.freeCount + 1 := hleft
        show s'.left = (pm.mapPage d va pa flags).freeCount
        omega
      · exact hgroups.trans htables.symm
      · exact hitems.trans hpages.symm
  · obtain ⟨hnone, hex, hmap⟩ := h.mapPage_fails hok pa flags
    have hcount := PhysMem.freeCount_eq_zero_iff.mpr hex
    have hnot : pdIndex va ∉ userTables pm.ram d := fun hc => by
      have hsome := (mem_userTables.mp hc).2
      rw [hnone] at hsome
      cases hsome
    rw [hmap]
    refine ⟨?_, fun p _ _ => .refl _ p⟩
    rw [put_lost (s := { pm.stock d with left := pm.freeCount + 1 })
      (show pm.freeCount + 1 = 1 by omega) (x := (pdIndex va, ptIndex va)) hnot]
    exact congrArg (Prod.mk true) (Stock.ext hcount.symm rfl rfl)

/-- Writing to a data frame changes no user half. -/
theorem write_sameUserHalf (h : Isolated pm dirs) (hf : DataFrame pm dirs f) {ram : Mem}
    (hram : ∀ x, pageOf x ≠ pageOf f → ram x = pm.ram x) (hp : p ∈ dirs) :
    SameUserHalf pm.ram ram p := by
  have hfal := hf.allocated.aligned
  obtain ⟨hload, -⟩ := h.frame_of_write hf hram
  have htable : ∀ i < 768, tableAt ram p i = tableAt pm.ram p i := fun i hi =>
    tableAt_congr (hload p hp i (by omega))
  refine ⟨htable, fun i hi j hj => entryAt_congr (htable i hi) fun t ht => ?_⟩
  have htal := tableAt_aligned ht
  have hne : t ≠ f := fun heq => hf.not_table p hp i hi (heq ▸ ht)
  exact load_congr htal hj fun x hx => hram x (page_ne htal hfal hne hx)

/-- A page that is entered on demand, with a new frame that is cleared afterwards. -/
theorem demandPage_put (h : Isolated pm dirs) (hd : d ∈ dirs) (hva : pdIndex va < 768)
    (hflags : flags.toNat < 4096) (hpresent : present flags = true) (hz : pm.allocFrame.1 ≠ 0) :
    let mapped := pm.allocFrame.2.mapPage d va pm.allocFrame.1 flags
    put (pdIndex va, ptIndex va) (pm.stock d) =
      (true, (mapped.clear (mapped.physToVirt pm.allocFrame.1) frameSize.toNat).stock d) := by
  have hf := pm.allocFrame_takes hz
  obtain ⟨h₁, hheld⟩ := h.of_takes hf rfl
  obtain ⟨hput, -⟩ := h₁.mapPage_put hd hva pm.allocFrame.1 hpresent
  obtain ⟨h₂, -, hdata⟩ := h₁.of_mapPage hd hva hflags hheld
  have hbefore : { pm.allocFrame.2.stock d with left := pm.allocFrame.2.freeCount + 1 } =
      pm.stock d := Stock.ext (hf.freeCount) rfl rfl
  rw [hbefore] at hput
  generalize pm.allocFrame.2.mapPage d va pm.allocFrame.1 flags = mapped at *
  have hsame : SameUserHalf mapped.ram
      (mapped.clear (mapped.physToVirt pm.allocFrame.1) frameSize.toNat).ram d :=
    h₂.write_sameUserHalf hdata (fun x hx => clear_frame_outside mapped hf.aligned hx) hd
  have hstock : (mapped.clear (mapped.physToVirt pm.allocFrame.1) frameSize.toNat).stock d =
      mapped.stock d := PhysMem.stock_congr (mapped.freeCount_clear ..) hsame
  exact hput.trans (congrArg (Prod.mk true) hstock.symm)

/-! ### Copying a parent's pages -/

variable {g : PageFrameAllocator} {ram : Mem} {t : Word} {i j : Nat}

/-- What the copy keeps: isolation, and the parent's user half as it was in `ram`. -/
structure Copying (dirs : Set Word) (g : PageFrameAllocator) (ram : Mem) (p : Word) (s : PhysMem) :
    Prop where
  isolated : Isolated s dirs
  pfa : s.pfa = g
  parent : SameUserHalf ram s.ram p

/-- A new frame with a copy of a page in it. -/
structure Copied (pm : PhysMem) (dirs : Set Word) (f : Word) (s : PhysMem) : Prop where
  isolated : Isolated s dirs
  held : Held s dirs f
  pfa : s.pfa = pm.pfa
  same : ∀ p ∈ dirs, SameUserHalf pm.ram s.ram p
  freeCount : s.freeCount + 1 = pm.freeCount

theorem copied_of_alloc (h : Isolated pm dirs) (hz : pm.allocFrame.1 ≠ 0) (src : Word) :
    Copied pm dirs pm.allocFrame.1 (pm.allocFrame.2.copy
      (pm.allocFrame.2.physToVirt pm.allocFrame.1) src frameSize.toNat) := by
  have hf := pm.allocFrame_takes hz
  obtain ⟨h₁, hheld⟩ := h.of_takes hf rfl
  have hout : ∀ x, pageOf x ≠ pageOf pm.allocFrame.1 →
      (pm.allocFrame.2.copy (pm.allocFrame.2.physToVirt pm.allocFrame.1) src
        frameSize.toNat).ram x = pm.allocFrame.2.ram x := fun x hx =>
    copy_outside _ hf.aligned _ (Nat.le_refl _) hx
  exact ⟨h₁.of_write hheld.dataFrame hout, h₁.held_of_write hheld hout, rfl,
    fun p hp => h₁.write_sameUserHalf hheld.dataFrame hout hp,
    (hf.of_ram _).freeCount⟩

/-- The stock before the frame was taken, in terms of what is left after it. -/
theorem Copied.stock {s : PhysMem} (h : Copied pm dirs f s) (hd : d ∈ dirs) :
    { s.stock d with left := s.freeCount + 1 } = pm.stock d :=
  Stock.ext h.freeCount (h.same d hd).userTables (h.same d hd).userPages

theorem present_flags {e : Word} (h : present e = true) : present (e &&& 0xFFF) = true := by
  rw [present_eq] at h ⊢
  rw [BitVec.getLsbD_and, h]
  decide

/-- An entry of a parent, as the code reads it after the copy. -/
theorem load_entry {ram' : Mem} {e : Word} (hsame : SameUserHalf ram ram' p) (hi : i < 768)
    (hj : j < 1024) (ht : tableAt ram p i = some t) (he : entryAt ram p i j = some e) :
    ram'.load t j = e := by
  have hentry := hsame.entry i hi j hj
  rw [he, entryAt, hsame.table i hi, ht, Option.bind_some] at hentry
  split at hentry
  · exact Option.some.inj hentry
  · cases hentry

/-- One entry of the parent. -/
theorem forkPage_fill (h : Copying dirs g ram p pm) (hd : d ∈ dirs) (hp : p ∈ dirs)
    (hne : p ≠ d) (hi : i < 768) (hj : j < 1024) (ht : tableAt ram p i = some t) :
    ((forkPage d (g.physToVirt t) i j pm).1, (forkPage d (g.physToVirt t) i j pm).2.stock d) =
        fill (entryPages ram p i j) (pm.stock d) ∧
      Copying dirs g ram p (forkPage d (g.physToVirt t) i j pm).2 := by
  have hload : ∀ s : PhysMem, s.pfa = g → s.load (g.physToVirt t) j = s.ram.load t j :=
    fun s hs => by
      rw [PhysMem.load, PageFrameAllocator.load, hs, PageFrameAllocator.virtToPhys_physToVirt]
  unfold forkPage
  rw [entryPages, hload pm h.pfa]
  cases he : entryAt ram p i j with
  | none =>
    have hpresent : ¬present (pm.ram.load t j) = true := fun hc => by
      rw [← h.parent.entry i hi j hj, entryAt, h.parent.table i hi, ht, Option.bind_some,
        if_pos hc] at he
      cases he
    rw [if_neg hpresent]
    exact ⟨rfl, h⟩
  | some e =>
    obtain rfl := load_entry h.parent hi hj ht he
    have hpresent : present (pm.ram.load t j) = true := by
      by_contra hc
      rw [← h.parent.entry i hi j hj, entryAt, h.parent.table i hi, ht, Option.bind_some,
        if_neg hc] at he
      cases he
    rw [if_pos hpresent, if_pos Option.isSome_some, fill_singleton]
    by_cases hz : pm.allocFrame.1 = 0
    · obtain ⟨-, hsame⟩ := pm.allocFrame_fails h.isolated.not_free_zero hz
      rw [put_none (h.isolated.freeCount_eq_zero_iff_allocFrame.mpr hz)]
      simp only [hz, if_true, hsame]
      exact ⟨trivial, h⟩
    · have hpd := pdIndex_forkPage (show i < 1024 by omega) hj
      have hpt := ptIndex_forkPage (show i < 1024 by omega) hj
      have hflags := pageFlags_lt (pm.ram.load t j)
      simp only [hz, if_false]
      have hs := h.isolated.copied_of_alloc hz
        (pm.allocFrame.2.physToVirt (pm.ram.load t j &&& ~~~0xFFF))
      generalize pm.allocFrame.2.copy (pm.allocFrame.2.physToVirt pm.allocFrame.1)
        (pm.allocFrame.2.physToVirt (pm.ram.load t j &&& ~~~0xFFF)) frameSize.toNat = s at hs ⊢
      generalize pm.allocFrame.1 = f at hs ⊢
      have hparent := h.parent.trans (hs.same p hp)
      rw [hload s (hs.pfa.trans h.pfa), load_entry hparent hi hj ht he]
      generalize (BitVec.ofNat 32 i <<< 22) ||| (BitVec.ofNat 32 j <<< 12) = va at hpd hpt ⊢
      subst hpd hpt
      obtain ⟨hput, hsame⟩ := hs.isolated.mapPage_put hd hi f (present_flags hpresent)
      obtain ⟨hiso, hkeep, -⟩ := hs.isolated.of_mapPage hd hi hflags hs.held
      rw [hs.stock hd] at hput
      refine ⟨hput.symm, hiso, ?_, hparent.trans (hsame p hp hne)⟩
      rw [hkeep.pfa, hs.pfa, h.pfa]

/-- One page table of the parent. -/
theorem forkTable_fill (h : Copying dirs g ram p pm) (hd : d ∈ dirs) (hp : p ∈ dirs)
    (hne : p ≠ d) (hi : i < 768) :
    ((forkTable d (g.physToVirt p) i pm).1, (forkTable d (g.physToVirt p) i pm).2.stock d) =
        fill (tablePages ram p i) (pm.stock d) ∧
      ((forkTable d (g.physToVirt p) i pm).1 = true →
        Copying dirs g ram p (forkTable d (g.physToVirt p) i pm).2) := by
  have hload : pm.load (g.physToVirt p) i = pm.ram.load p i := by
    rw [PhysMem.load, PageFrameAllocator.load, h.pfa, PageFrameAllocator.virtToPhys_physToVirt]
  have htable : tableAt ram p i =
      if present (pm.ram.load p i) then some (pageBase (pm.ram.load p i)) else none := by
    rw [← h.parent.table i hi, tableAt]
  unfold forkTable
  rw [hload]
  split
  · next hpresent =>
    rw [if_pos hpresent] at htable
    have hvirt : pm.physToVirt (pageBase (pm.ram.load p i)) =
        g.physToVirt (pageBase (pm.ram.load p i)) := by
      rw [PhysMem.physToVirt, h.pfa]
    have hloop := loopWhile_fill (forkPage d (g.physToVirt (pageBase (pm.ram.load p i))) i)
      (fun _ => Copying dirs g ram p) (fun s => s.stock d) (entryPages ram p i) (n := 1024) (i := 0)
      (s := pm) h fun j s _ hj hs => by
        obtain ⟨hfill, hcopy⟩ := forkPage_fill hs hd hp hne hi (by omega) htable
        exact ⟨hfill, fun _ => hcopy⟩
    rw [← hvirt] at hloop
    exact hloop
  · next hnot =>
    rw [if_neg hnot] at htable
    have hempty : tablePages ram p i = [] := by
      rw [List.eq_nil_iff_forall_not_mem]
      intro x hx
      obtain ⟨rfl, -, hsome⟩ := mem_tablePages.mp hx
      rw [entryAt_none htable] at hsome
      cases hsome
    rw [hempty]
    exact ⟨rfl, fun _ => h⟩

/-- The copy of a parent's address space enters its pages. -/
theorem forkLoop_fill (h : Isolated pm dirs) (hd : d ∈ dirs) (hp : p ∈ dirs) (hne : p ≠ d) :
    let r := loopWhile (forkTable d (pm.physToVirt p)) 768 0 pm
    (r.1, r.2.stock d) = fill (parentPages pm.ram p) (pm.stock d) :=
  (loopWhile_fill (forkTable d (pm.physToVirt p)) (fun _ => Copying dirs pm.pfa pm.ram p)
    (fun s => s.stock d) (tablePages pm.ram p) (n := 768) (i := 0) (s := pm) ⟨h, rfl, .refl _ _⟩
    fun _ _ _ hi hs => forkTable_fill hs hd hp hne (by omega)).1

/-! ### New directories and modules -/

/-- A new directory does not change the user halves of the others. -/
theorem newDirectory_sameUserHalf (h : Isolated pm dirs) (hnew : NewDirectory pm pm' dirs d)
    (hp : p ∈ dirs) : SameUserHalf pm.ram pm'.ram p := by
  have hnot : ∀ a, PageAligned a → pm.isFrameAllocated a = true → ∀ x, pageOf x = pageOf a →
      pm'.ram x = pm.ram x := fun a ha hmarked x hx => by
    refine hnew.ram x fun heq => ?_
    obtain rfl := ha.pageOf_inj hnew.takes.aligned (hx.symm.trans heq)
    exact (pm.isFrameAllocated_iff a).mp hmarked hnew.takes.free
  have hpal := h.dir_allocated hp
  have htable : ∀ i < 768, tableAt pm'.ram p i = tableAt pm.ram p i := fun i hi =>
    tableAt_congr (load_congr hpal.aligned (by omega) (hnot p hpal.aligned hpal.marked))
  refine ⟨htable, fun i hi j hj => entryAt_congr (htable i hi) fun t ht => ?_⟩
  have htal := h.allocated _ (.table hp hi) t ht
  exact load_congr htal.aligned hj (hnot t htal.aligned htal.marked)

/-- A new directory takes one frame, has no table yet, and is not zero while a frame is left. -/
theorem createPageDirectory_stock (h : Isolated pm dirs) (hsome : 0 < pm.freeCount) :
    ∃ d pm', pm.createPageDirectory = (pm.physToVirt d, pm') ∧ pm.physToVirt d ≠ 0 ∧
      pm'.virtToPhys (pm.physToVirt d) = d ∧ d ∉ dirs ∧ Isolated pm' (insert d dirs) ∧
      pm'.freeCount + 1 = pm.freeCount ∧ userTables pm'.ram d = ∅ ∧
      ∀ p ∈ dirs, SameUserHalf pm.ram pm'.ram p := by
  rcases h.createPageDirectory_new with ⟨hnone, -⟩ | ⟨d, pm', hr, hne, hphys, hnew⟩
  · rw [PhysMem.freeCount_eq_zero_iff.mpr hnone] at hsome
    exact absurd hsome (Nat.lt_irrefl 0)
  · refine ⟨d, pm', hr, hne, hphys, hnew.not_dir, hnew.isolated, hnew.takes.freeCount, ?_,
      fun p hp => h.newDirectory_sameUserHalf hnew hp⟩
    refine Finset.eq_empty_of_forall_notMem fun i hi => ?_
    obtain ⟨hi, hsome⟩ := mem_userTables.mp hi
    rw [hnew.empty i hi] at hsome
    cases hsome

/-- What the load of a module keeps before round `i`: frames are left for as many pages as lie in the
user half. -/
def Loading (dirs : Set Word) (i : Nat) (s : PhysMem) : Prop :=
  Isolated s dirs ∧ i + s.freeCount ≤ 32768

/-- One page of a module. -/
theorem loadPage_fill (h : Loading dirs i pm) (hd : d ∈ dirs) (data size : Word)
    (hsize : i * 4096 < size.toNat) :
    ((loadPage d data size i pm).1, (loadPage d data size i pm).2.stock d) =
        fill [modulePage i] (pm.stock d) ∧
      ((loadPage d data size i pm).1 = true → Loading dirs (i + 1) (loadPage d data size i pm).2) := by
  obtain ⟨hiso, hcount⟩ := h
  obtain ⟨hnext, -, hend⟩ := hiso.of_loadPage hd data size hcount hsize
  rw [fill_singleton]
  by_cases hz : pm.allocFrame.1 = 0
  · obtain ⟨-, hsame⟩ := pm.allocFrame_fails hiso.not_free_zero hz
    have hr : loadPage d data size i pm = (false, pm) := by
      simp only [loadPage, hz, if_true, hsame]
    rw [put_none (hiso.freeCount_eq_zero_iff_allocFrame.mpr hz), hr]
    exact ⟨rfl, fun hc => absurd hc Bool.false_ne_true⟩
  · have hf := pm.allocFrame_takes hz
    have htaken := hf.freeCount
    obtain ⟨h₁, hheld⟩ := hiso.of_takes hf rfl
    have hindex := index_modulePage (show i < 32768 by omega)
    have hva := pdIndex_moduleUser (i := i) (by omega)
    obtain ⟨ram, hr, hout, -⟩ := loadPage_eq (d := d) data size (by omega) hsize hf hz rfl
    obtain ⟨hput, -⟩ := h₁.mapPage_put hd hva pm.allocFrame.1 (show present 7 = true by decide)
    obtain ⟨h₂, -, hdata⟩ := h₁.of_mapPage hd hva (show (7 : Word).toNat < 4096 by decide) hheld
    have hbefore : { pm.allocFrame.2.stock d with left := pm.allocFrame.2.freeCount + 1 } =
        pm.stock d := Stock.ext htaken rfl rfl
    rw [hindex, hbefore] at hput
    have hafter : (loadPage d data size i pm).2.stock d =
        (pm.allocFrame.2.mapPage d (userCodeStart + BitVec.ofNat 32 i * frameSize)
          pm.allocFrame.1 7).stock d := by
      rw [hr]
      exact PhysMem.stock_congr rfl (h₂.write_sameUserHalf hdata hout hd)
    rw [hput, hafter]
    refine ⟨by rw [hr], fun htrue => ⟨hnext, ?_⟩⟩
    rw [if_pos htrue] at hend
    exact hend

/-- The load of a module enters its pages. -/
theorem loadLoop_fill (h : Isolated pm dirs) (hd : d ∈ dirs) (data size : Word) {n : Nat}
    (hn : n = ((size + frameSize - 1) / frameSize).toNat) :
    let r := loopWhile (loadPage d data size) n 0 pm
    (r.1, r.2.stock d) = fill (modulePages n) (pm.stock d) ∧ (r.1 = true → n ≤ 32768) := by
  have hcount := h.freeCount_le
  obtain ⟨hfill, hend⟩ := loopWhile_fill (loadPage d data size) (Loading dirs) (fun s => s.stock d)
    (fun i => [modulePage i]) (n := n) (i := 0) (s := pm) ⟨h, by omega⟩ fun i s _ hi hs =>
      loadPage_fill hs hd data size (lt_of_lt_pagesNeeded (by omega))
  rw [← List.map_eq_flatMap] at hfill
  refine ⟨hfill, fun htrue => ?_⟩
  have hle := (hend htrue).2
  omega

end Isolated

end Lbos

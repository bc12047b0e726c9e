import Lbos.Lib.RegionMap
import Lbos.Mem.AddressSpace

/-! Page tables as a map from the pages of the directories to entries.  A region of 1024 pages is open
when it has a page table, and the supply is the free frames.  Every sequence of `map_page` and
`unmap_page` calls on user pages does to this map what the updates say. -/

namespace Lbos

open Lib Mem

/-- A call of `map_page` or of `unmap_page`. -/
inductive PageCall where
  | mapPage (pageDirectory virtualAddr physicalAddr flags : Word)
  | unmapPage (pageDirectory virtualAddr : Word)

/-- A page: its directory and its number. -/
abbrev Page := Word × Nat

/-- The directory entry of a page. -/
def Page.region (p : Page) : Word × Nat := (p.1, p.2 / 1024)

namespace PageCall

def pageDirectory : PageCall → Word
  | mapPage d _ _ _ => d
  | unmapPage d _ => d

def virtualAddr : PageCall → Word
  | mapPage _ va _ _ => va
  | unmapPage _ va => va

def page (c : PageCall) : Page := (c.pageDirectory, pageOf c.virtualAddr)

/-- The entry that the page has after the call, when it is present. -/
def entry : PageCall → Option Word
  | mapPage _ _ pa flags => if present (pa ||| flags) then some (pa ||| flags) else none
  | unmapPage _ _ => none

def after (pm : PhysMem) : PageCall → PhysMem
  | mapPage d va pa flags => pm.mapPage d va pa flags
  | unmapPage d va => pm.unmapPage d va

def update : PageCall → Update Page Word
  | mapPage d va pa flags => .enter (d, pageOf va) (mapPage d va pa flags).entry
  | unmapPage d va => .erase (d, pageOf va)

/-- The call is about a user page of a directory in `dirs`. -/
structure User (dirs : Set Word) (c : PageCall) : Prop where
  dir : c.pageDirectory ∈ dirs
  user : c.virtualAddr < kernelVirtualStart

theorem update_key (c : PageCall) : c.update.key = c.page := by cases c <;> rfl

theorem update_result (c : PageCall) : c.update.result = c.entry := by cases c <;> rfl

end PageCall

/-- What `get_physical_address` makes of an entry. -/
def physicalOf (e : Option Word) (v : Word) : Word := e.elim 0 fun e => pageBase e ||| (v &&& 0xFFF)

namespace PhysMem

/-- The directory entries of `dirs` for user pages that have a table are finitely many. -/
theorem finite_tables (pm : PhysMem) (dirs : Set Word) :
    {r : Word × Nat | r.1 ∈ dirs ∧ r.2 < 768 ∧ tableAt pm.ram r.1 r.2 ≠ none}.Finite := by
  have hword : Finite Word := Finite.of_injective BitVec.toFin fun _ _ => BitVec.eq_of_toFin_eq
  refine (Set.finite_univ.prod (Set.finite_lt_nat 768)).subset ?_
  intro r hr
  exact ⟨Set.mem_univ _, hr.2.1⟩

/-- The user pages of `dirs`. -/
noncomputable def pageMap (pm : PhysMem) (dirs : Set Word) : RegionMap (Word × Nat) Page Word where
  value := open Classical in fun p =>
    if p.1 ∈ dirs ∧ p.2 < 768 * 1024 then entryAt pm.ram p.1 (p.2 / 1024) (p.2 % 1024) else none
  opened := (pm.finite_tables dirs).toFinset
  left := pm.freeCount

variable {pm pm' : PhysMem} {dirs : Set Word} {d va : Word}

theorem pageMap_value {p : Nat} (hd : d ∈ dirs) (hp : p < 768 * 1024) :
    (pm.pageMap dirs).value (d, p) = entryAt pm.ram d (p / 1024) (p % 1024) :=
  if_pos ⟨hd, hp⟩

theorem mem_opened_iff {r : Word × Nat} :
    r ∈ (pm.pageMap dirs).opened ↔ r.1 ∈ dirs ∧ r.2 < 768 ∧ tableAt pm.ram r.1 r.2 ≠ none :=
  Set.Finite.mem_toFinset _

theorem pageOf_user (h : va < kernelVirtualStart) : pageOf va < 768 * 1024 := by
  have hlt : va.toNat < 0xC0000000 := h
  rw [pageOf]
  omega

theorem pdIndex_pageOf (va : Word) : pageOf va / 1024 = pdIndex va := by
  rw [pdIndex_eq, pageOf]
  omega

theorem ptIndex_pageOf (va : Word) : pageOf va % 1024 = ptIndex va := by
  rw [ptIndex_eq, pageOf]

/-- The translation of a user address is read off the map. -/
theorem getPhysicalAddress_pageMap (hd : d ∈ dirs) (hv : va < kernelVirtualStart) :
    pm.getPhysicalAddress d va = physicalOf ((pm.pageMap dirs).value (d, pageOf va)) va := by
  rw [getPhysicalAddress_eq, pageMap_value hd (pageOf_user hv), pdIndex_pageOf, ptIndex_pageOf]
  rfl

theorem mem_opened_pageOf (hd : d ∈ dirs) (hv : va < kernelVirtualStart) :
    Page.region (d, pageOf va) ∈ (pm.pageMap dirs).opened ↔ tableAt pm.ram d (pdIndex va) ≠ none := by
  have hi := pdIndex_user hv
  rw [mem_opened_iff, Page.region, pdIndex_pageOf]
  simp [hd, hi]

/-- An unopened region has no entry. -/
theorem value_unopened (hd : d ∈ dirs) (hv : va < kernelVirtualStart)
    (h : tableAt pm.ram d (pdIndex va) = none) : (pm.pageMap dirs).value (d, pageOf va) = none := by
  rw [pageMap_value hd (pageOf_user hv), pdIndex_pageOf]
  exact entryAt_none h

theorem unmapPage_of_none (h : tableAt pm.ram d (pdIndex va) = none) : pm.unmapPage d va = pm := by
  unfold tableAt at h
  split at h
  · cases h
  · next hp =>
    simp only [pdIndex] at hp
    simp only [unmapPage, load, physToVirt, PageFrameAllocator.load,
      PageFrameAllocator.virtToPhys_physToVirt, hp, Bool.false_eq_true, if_false]

end PhysMem

/-! ### One call -/

section Step

variable {pm pm' : PhysMem} {dirs : Set Word} {d va t e : Word}

/-- Entering an entry is an update of the map, with the region open afterwards. -/
theorem Entered.pageMap (h : Entered pm pm' dirs d (pdIndex va) (ptIndex va) t e) (hd : d ∈ dirs)
    (hv : va < kernelVirtualStart) :
    pm'.pageMap dirs =
      ⟨Function.update (pm.pageMap dirs).value (d, pageOf va) (if present e then some e else none),
        insert (Page.region (d, pageOf va)) (pm.pageMap dirs).opened, pm'.freeCount⟩ := by
  have hi := pdIndex_user hv
  refine RegionMap.ext ?_ ?_ rfl
  · refine Function.eq_update_iff.mpr ⟨?_, fun p hne => ?_⟩
    · rw [PhysMem.pageMap_value hd (PhysMem.pageOf_user hv), PhysMem.pdIndex_pageOf,
        PhysMem.ptIndex_pageOf, h.entry d hd _ (pdIndex_lt va) _ (ptIndex_lt va)]
      exact if_pos ⟨rfl, rfl, rfl⟩
    · by_cases hp : p.1 ∈ dirs ∧ p.2 < 768 * 1024
      · have hentry := h.entry p.1 hp.1 (p.2 / 1024) (by omega) (p.2 % 1024) (by omega)
        rw [if_neg] at hentry
        · simp only [PhysMem.pageMap, if_pos hp, hentry]
        · rintro ⟨hdir, hpd, hpt⟩
          rw [← PhysMem.pdIndex_pageOf] at hpd
          rw [← PhysMem.ptIndex_pageOf] at hpt
          exact hne (Prod.ext hdir (by omega))
      · simp only [PhysMem.pageMap, if_neg hp]
  · ext r
    rw [Finset.mem_insert, PhysMem.mem_opened_iff, PhysMem.mem_opened_iff, Page.region,
      PhysMem.pdIndex_pageOf]
    by_cases hr : r.1 ∈ dirs ∧ r.2 < 768
    · rw [h.table r.1 hr.1 r.2 (by omega)]
      by_cases heq : r.1 = d ∧ r.2 = pdIndex va
      · have hprod : r = (d, pdIndex va) := Prod.ext heq.1 heq.2
        simp [hprod, hd, hi]
      · have hprod : r ≠ (d, pdIndex va) := fun hc => heq ⟨congrArg Prod.fst hc, congrArg Prod.snd hc⟩
        simp [heq, hprod]
    · have hprod : r ≠ (d, pdIndex va) := by
        rintro rfl
        exact hr ⟨hd, hi⟩
      simp only [hprod, false_or]
      tauto

/-- A call keeps the tables apart and is its update of the map. -/
theorem PageCall.after_pageMap (h : Forest pm dirs) (h0 : ¬pm.FreeFrame 0) {c : PageCall}
    (hc : c.User dirs) :
    Forest (c.after pm) dirs ∧ ¬(c.after pm).FreeFrame 0 ∧
      (c.after pm).pageMap dirs = (pm.pageMap dirs).apply Page.region c.update := by
  obtain ⟨hd, hv⟩ := hc
  cases c with
  | mapPage d va pa flags =>
    simp only [pageDirectory, virtualAddr] at hd hv
    have hi := pdIndex_user hv
    simp only [after, update]
    by_cases hok : tableAt pm.ram d (pdIndex va) ≠ none ∨ pm.allocFrame.1 ≠ 0
    · obtain ⟨t, he⟩ := h.mapPage_entered pa flags hd hi hok
      refine ⟨h.of_entered hd hi he, ?_, ?_⟩
      · rcases he.old_or_new with ⟨-, hsame⟩ | ⟨-, htake⟩
        · rwa [hsame]
        · exact fun hfree => h0 ((htake.free_iff 0).mp hfree).1
      · rw [he.pageMap hd hv]
        rcases he.old_or_new with ⟨ht, hsame⟩ | ⟨ht, htake⟩
        · have hopen : Page.region (d, pageOf va) ∈ (pm.pageMap dirs).opened :=
            (PhysMem.mem_opened_pageOf hd hv).mpr (by simp [ht])
          have hcount := PhysMem.freeCount_congr hsame
          rw [RegionMap.apply_opened hopen, Finset.insert_eq_of_mem hopen, hcount]
          rfl
        · have hclosed : Page.region (d, pageOf va) ∉ (pm.pageMap dirs).opened :=
            fun hc => (PhysMem.mem_opened_pageOf hd hv).mp hc ht
          have hcount := htake.freeCount
          have hleft : (pm.pageMap dirs).left ≠ 0 := by
            show pm.freeCount ≠ 0
            omega
          rw [RegionMap.apply_opening hclosed hleft]
          refine RegionMap.ext rfl rfl ?_
          show (pm.mapPage d va pa flags).freeCount = pm.freeCount - 1
          omega
    · obtain ⟨htable, halloc⟩ := not_or.mp hok
      obtain ⟨hnone, hsame⟩ := pm.allocFrame_fails h0 (not_not.mp halloc)
      have heq : pm.mapPage d va pa flags = pm := by
        rw [PhysMem.mapPage_of_none (not_not.mp htable) (not_not.mp halloc), hsame]
      have hclosed : Page.region (d, pageOf va) ∉ (pm.pageMap dirs).opened :=
        fun hc => htable ((PhysMem.mem_opened_pageOf hd hv).mp hc)
      rw [heq, RegionMap.apply_lost hclosed (PhysMem.freeCount_eq_zero_iff.mpr hnone)]
      exact ⟨h, h0, rfl⟩
  | unmapPage d va =>
    simp only [pageDirectory, virtualAddr] at hd hv
    have hi := pdIndex_user hv
    simp only [after, update]
    cases ht : tableAt pm.ram d (pdIndex va) with
    | some t =>
      have he := (h.store_entered hd hi ht : Entered pm _ dirs d _ _ t 0)
      rw [← PhysMem.unmapPage_of_table ht] at he
      have hopen : Page.region (d, pageOf va) ∈ (pm.pageMap dirs).opened :=
        (PhysMem.mem_opened_pageOf hd hv).mpr (by simp [ht])
      have hfree : ∀ n, (pm.unmapPage d va).FreeFrame n ↔ pm.FreeFrame n := by
        rw [PhysMem.unmapPage_of_table ht]
        exact fun _ => Iff.rfl
      refine ⟨h.of_entered hd hi he, by rwa [hfree], ?_⟩
      have hcount := PhysMem.freeCount_congr hfree
      rw [he.pageMap hd hv, Finset.insert_eq_of_mem hopen, hcount, if_neg (by decide)]
      rfl
    | none =>
      have heq : pm.unmapPage d va = pm := PhysMem.unmapPage_of_none ht
      rw [heq]
      refine ⟨h, h0, RegionMap.ext ?_ rfl rfl⟩
      exact (Function.eq_update_iff.mpr ⟨PhysMem.value_unopened hd hv ht, fun _ _ => rfl⟩)

end Step

/-! ### Every sequence of calls -/

section Run

variable {pm : PhysMem} {dirs : Set Word} {calls : List PageCall}

theorem PageCall.run_pageMap (h : Forest pm dirs) (h0 : ¬pm.FreeFrame 0)
    (hcalls : ∀ c ∈ calls, c.User dirs) :
    Forest (calls.foldl PageCall.after pm) dirs ∧
      (calls.foldl PageCall.after pm).pageMap dirs =
        (calls.map PageCall.update).foldl (RegionMap.apply Page.region) (pm.pageMap dirs) := by
  induction calls generalizing pm with
  | nil => exact ⟨h, rfl⟩
  | cons c calls ih =>
    obtain ⟨hforest, hzero, hmap⟩ := PageCall.after_pageMap h h0 (hcalls c List.mem_cons_self)
    obtain ⟨hend, hrun⟩ := ih hforest hzero fun c' hc' => hcalls c' (List.mem_cons_of_mem c hc')
    refine ⟨hend, ?_⟩
    rw [List.foldl_cons, hrun, hmap, List.map_cons, List.foldl_cons]

/-- Every sequence of calls on user pages keeps the tables apart and does to the translations what
its updates do to the map, also when frames for page tables run out on the way. -/
theorem page_calls_refine (h : Forest pm dirs) (h0 : ¬pm.FreeFrame 0)
    (hcalls : ∀ c ∈ calls, c.User dirs) :
    let pm' := calls.foldl PageCall.after pm
    let m := (calls.map PageCall.update).foldl (RegionMap.apply Page.region) (pm.pageMap dirs)
    Forest pm' dirs ∧ pm'.pageMap dirs = m ∧
      ∀ d ∈ dirs, ∀ v < kernelVirtualStart,
        pm'.getPhysicalAddress d v = physicalOf (m.value (d, pageOf v)) v := by
  intro pm' m
  obtain ⟨hforest, hmap⟩ := PageCall.run_pageMap h h0 hcalls
  refine ⟨hforest, hmap, fun d hd v hv => ?_⟩
  rw [PhysMem.getPhysicalAddress_pageMap hd hv, hmap]

theorem PhysMem.sample_not_free_zero (ram : Mem) : ¬(sample ram).FreeFrame 0 := by
  rw [sample_freeFrame_iff ram (by decide)]
  decide

/-- Two pages are mapped behind one table, and the first is unmapped. -/
def PageCall.sampleCalls : List PageCall :=
  [.mapPage 0x1000 0x1000 0x5000 7, .mapPage 0x1000 0x2000 0x6000 7, .unmapPage 0x1000 0x1000]

theorem PageCall.sampleCalls_user : ∀ c ∈ sampleCalls, c.User {0x1000} := by
  intro c hc
  simp only [sampleCalls, List.mem_cons, List.not_mem_nil, or_false] at hc
  rcases hc with rfl | rfl | rfl
  · exact ⟨rfl, by decide⟩
  · exact ⟨rfl, by decide⟩
  · exact ⟨rfl, by decide⟩

theorem page_calls_refine_sample :
    let pm := PhysMem.sample fun _ => 0
    let m := (PageCall.sampleCalls.map PageCall.update).foldl (RegionMap.apply Page.region)
      (pm.pageMap {0x1000})
    (PageCall.sampleCalls.foldl PageCall.after pm).getPhysicalAddress 0x1000 0x2234 =
      physicalOf (m.value (0x1000, 2)) 0x2234 := by
  intro pm m
  obtain ⟨-, -, hread⟩ := page_calls_refine (PhysMem.sample_forest (by rintro _ rfl; decide)) (PhysMem.sample_not_free_zero _)
    PageCall.sampleCalls_user
  exact hread 0x1000 rfl 0x2234 (by decide)

/-- The directory entries for which the calls need a page table that is not there. -/
def newTables (pm : PhysMem) (calls : List PageCall) : Finset (Word × Nat) :=
  (Update.regions Page.region (calls.map PageCall.update)).filter fun r =>
    tableAt pm.ram r.1 r.2 = none

theorem mem_regions {r : Word × Nat}
    (hr : r ∈ Update.regions Page.region (calls.map PageCall.update)) :
    ∃ c ∈ calls, r = Page.region c.page := by
  induction calls with
  | nil => cases hr
  | cons c calls ih =>
    rcases Finset.mem_union.mp hr with hr | hr
    · refine ⟨c, List.mem_cons_self, ?_⟩
      cases c with
      | mapPage d va pa flags => exact Finset.mem_singleton.mp hr
      | unmapPage d va => cases hr
    · obtain ⟨c', hc', heq⟩ := ih hr
      exact ⟨c', List.mem_cons_of_mem c hc', heq⟩

theorem newTables_eq (hcalls : ∀ c ∈ calls, c.User dirs) :
    newTables pm calls =
      Update.regions Page.region (calls.map PageCall.update) \ (pm.pageMap dirs).opened := by
  ext r
  rw [newTables, Finset.mem_filter, Finset.mem_sdiff]
  refine and_congr_right fun hr => ?_
  obtain ⟨c, hc, rfl⟩ := mem_regions hr
  obtain ⟨hd, hv⟩ := hcalls c hc
  rw [PageCall.page, PhysMem.mem_opened_pageOf hd hv, not_not, Page.region, PhysMem.pdIndex_pageOf]

/-- With a free frame for each page table that is missing, every call succeeds: the last call on a
page decides how it translates, other pages translate as before, and a frame is used up for each new
table and for nothing else. -/
theorem page_calls_last_wins (h : Forest pm dirs) (h0 : ¬pm.FreeFrame 0)
    (hcalls : ∀ c ∈ calls, c.User dirs) (hroom : (newTables pm calls).card ≤ pm.freeCount) :
    let pm' := calls.foldl PageCall.after pm
    (∀ l c r, calls = l ++ c :: r → (∀ c' ∈ r, c'.page ≠ c.page) →
      ∀ v, pageOf v = pageOf c.virtualAddr →
        pm'.getPhysicalAddress c.pageDirectory v = physicalOf c.entry v) ∧
    (∀ d ∈ dirs, ∀ v < kernelVirtualStart, (∀ c ∈ calls, c.page ≠ (d, pageOf v)) →
      pm'.getPhysicalAddress d v = pm.getPhysicalAddress d v) ∧
    pm'.freeCount + (newTables pm calls).card = pm.freeCount := by
  intro pm'
  obtain ⟨-, hmap⟩ := PageCall.run_pageMap h h0 hcalls
  have hnew : newTables pm calls =
      Update.regions Page.region (calls.map PageCall.update) \ (pm.pageMap dirs).opened :=
    newTables_eq hcalls
  rw [hnew] at hroom
  obtain ⟨hvalue, hopened⟩ := RegionMap.run_of_room hroom
  have hread : ∀ d ∈ dirs, ∀ v < kernelVirtualStart, pm'.getPhysicalAddress d v =
      physicalOf ((calls.map PageCall.update).foldl Update.write (pm.pageMap dirs).value
        (d, pageOf v)) v := by
    intro d hd v hv
    rw [PhysMem.getPhysicalAddress_pageMap hd hv, hmap, hvalue]
  refine ⟨?_, ?_, ?_⟩
  · intro l c r hsplit hlast v hpage
    obtain ⟨hd, hv⟩ := hcalls c (by simp [hsplit])
    have huser : v < kernelVirtualStart := user_of_pageOf hv hpage
    have hkey : (c.pageDirectory, pageOf v) = c.update.key := by
      rw [PageCall.update_key, PageCall.page, hpage]
    have hlater : ∀ u ∈ r.map PageCall.update, u.key ≠ c.update.key := by
      intro u hu
      obtain ⟨c', hc', rfl⟩ := List.mem_map.mp hu
      rw [PageCall.update_key, PageCall.update_key]
      exact hlast c' hc'
    rw [hread _ hd v huser, hkey, hsplit, List.map_append, List.map_cons,
      Update.foldl_write_last hlater, PageCall.update_result]
  · intro d hd v hv hother
    have hother' : ∀ u ∈ calls.map PageCall.update, u.key ≠ (d, pageOf v) := by
      intro u hu
      obtain ⟨c, hc, rfl⟩ := List.mem_map.mp hu
      rw [PageCall.update_key]
      exact hother c hc
    rw [hread d hd v hv, Update.foldl_write_other hother', PhysMem.getPhysicalAddress_pageMap hd hv]
  · have hconserves := RegionMap.run_conserves Page.region (pm.pageMap dirs)
      (calls.map PageCall.update)
    rw [hopened, ← hmap, ← Finset.union_sdiff_self_eq_union,
      Finset.card_union_of_disjoint Finset.disjoint_sdiff, ← hnew] at hconserves
    have hleft : ∀ p : PhysMem, (p.pageMap dirs).left = p.freeCount := fun _ => rfl
    rw [hleft, hleft] at hconserves
    show (calls.foldl PageCall.after pm).freeCount + _ = _
    omega

theorem page_calls_last_wins_sample :
    let pm := PageCall.sampleCalls.foldl PageCall.after (PhysMem.sample fun _ => 0)
    pm.getPhysicalAddress 0x1000 0x2234 = 0x6234 ∧ pm.getPhysicalAddress 0x1000 0x1234 = 0 ∧
      pm.getPhysicalAddress 0x1000 0x3000 = 0 := by
  intro pm
  have hroom : (newTables (PhysMem.sample fun _ => 0) PageCall.sampleCalls).card ≤
      (PhysMem.sample fun _ => 0).freeCount := by
    have hpos : 0 < (PhysMem.sample fun _ => 0).freeCount :=
      (Set.ncard_pos (PhysMem.free_finite _)).mpr
        ⟨289, (PhysMem.sample_freeFrame_iff _ (by decide)).mpr (by decide)⟩
    have hone : (newTables (PhysMem.sample fun _ => 0) PageCall.sampleCalls).card ≤ 1 :=
      Finset.card_filter_le _ _
    omega
  obtain ⟨hlast, hother, -⟩ := page_calls_last_wins (PhysMem.sample_forest (by rintro _ rfl; decide))
    (PhysMem.sample_not_free_zero _) PageCall.sampleCalls_user hroom
  refine ⟨?_, ?_, ?_⟩
  · exact hlast [.mapPage 0x1000 0x1000 0x5000 7] (.mapPage 0x1000 0x2000 0x6000 7)
      [.unmapPage 0x1000 0x1000] rfl (by decide) 0x2234 (by decide)
  · exact hlast [.mapPage 0x1000 0x1000 0x5000 7, .mapPage 0x1000 0x2000 0x6000 7]
      (.unmapPage 0x1000 0x1000) [] rfl (by simp) 0x1234 (by decide)
  · rw [hother 0x1000 rfl 0x3000 (by decide) (by decide), PhysMem.getPhysicalAddress_eq]
    rw [show (PhysMem.sample fun _ => 0).ram = fun _ => 0 from rfl, entryAt_none (PhysMem.tableAt_zero _ _)]
    rfl

end Run

end Lbos

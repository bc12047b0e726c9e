import Mathlib.Order.Interval.Finset.Nat
import Lbos.Kernel.SpawnSupply

/-! Whether success means that every page is mapped.  `map_page` returns nothing, so its callers do
not see that the frame for a page table was missing; and the number of a module's pages wraps. -/

namespace Lbos

open Lib Mem Stock

/-- The page of an address is present in directory `d`. -/
def PhysMem.Maps (pm : PhysMem) (d va : Word) : Prop :=
  (entryAt pm.ram d (pdIndex va) (ptIndex va)).isSome = true

/-- The page of highest number is the only one behind its table. -/
def LastPageAlone (ram : Mem) (d : Word) : Prop :=
  ∃ x ∈ userPages ram d, ∀ y ∈ userPages ram d, y ≠ x → y.1 < x.1

/-- The tables that have pages. -/
def tablesUsed (ram : Mem) (d : Word) : Finset Nat := (userPages ram d).image Prod.fst

namespace Kernel

/-- A call that reports success has mapped every page that it was to map. -/
def MapsEveryPage (k : Kernel) : Call → Prop
  | .createProcess data size => ∀ i, (k.createProcess data size).1 = some i → ∀ b < size.toNat,
      (k.createProcess data size).2.mem.Maps
        ((k.createProcess data size).2.processTable i).context.cr3 (userCodeStart + BitVec.ofNat 32 b)
  | .sysFork => ∀ pid, k.sysFork.1 = .ret pid → pid ≠ 0xFFFFFFFF →
      ∃ i, (k.sysFork.2.processTable i).state = .ready ∧ (k.sysFork.2.processTable i).pid = pid ∧
        ∀ c, k.currentProcess = some c →
          userPages k.mem.ram (k.processTable c).context.cr3 ⊆
            userPages k.sysFork.2.mem.ram (k.sysFork.2.processTable i).context.cr3
  | .pageFault addr info => (k.pageFaultHandler addr info).1 = .ret () →
      ∀ c, k.currentProcess = some c →
        (k.pageFaultHandler addr info).2.mem.Maps (k.processTable c).context.cr3 addr
  | _ => True

/-- The call does not run out of frames at the table of its last page, and the size of a module does
not make the number of its pages wrap. -/
def TablesCovered (k : Kernel) : Call → Prop
  | .createProcess _ size => k.findFree = none ∨ k.mem.freeCount = 0 ∨
      size ≤ 0xFFFFF000 ∧ ∀ n, n = ((size + frameSize - 1) / frameSize).toNat →
        (n = 1 ∨ (n + 71) % 1024 = 0) → k.mem.freeCount ≠ n + ((n + 71) / 1024 + 1)
  | .sysFork => k.findFree = none ∨ ∀ c, k.currentProcess = some c →
      LastPageAlone k.mem.ram (k.processTable c).context.cr3 → k.mem.freeCount ≠
        (userPages k.mem.ram (k.processTable c).context.cr3).card +
          (tablesUsed k.mem.ram (k.processTable c).context.cr3).card
  | .pageFault addr info => ∀ c, k.currentProcess = some c → addr < kernelVirtualStart →
      info.errorCode &&& 0x1 = 0 →
      tableAt k.mem.ram (k.processTable c).context.cr3 (pdIndex addr) = none → k.mem.freeCount ≠ 1
  | _ => True

end Kernel

/-! ### The pages of a module -/

theorem modulePages_succ (n : Nat) : modulePages (n + 1) = modulePages n ++ [modulePage n] := by
  simp [modulePages, List.range'_concat]

theorem mem_groupsOf_modulePages {n t : Nat} :
    t ∈ groupsOf Prod.fst (modulePages n) ↔ ∃ i < n, (32840 + i) / 1024 = t := by
  simp [groupsOf, modulePages, modulePage]

/-- The last page of a module opens a table if it is the only one or the first behind its table. -/
theorem lastOpens_modulePages {n : Nat} :
    LastOpens Prod.fst ∅ (modulePages n) ↔ n = 1 ∨ (n + 71) % 1024 = 0 := by
  cases n with
  | zero =>
    refine iff_of_false ?_ (by decide)
    rintro ⟨ys, x, heq, -⟩
    exact absurd heq (by simp [modulePages])
  | succ n =>
    rw [modulePages_succ, lastOpens_append_singleton, Finset.empty_union, mem_groupsOf_modulePages,
      modulePage]
    constructor
    · intro hnew
      by_contra hc
      exact hnew ⟨n - 1, by omega, by simp only; omega⟩
    · rintro hn ⟨i, hi, heq⟩
      simp only at heq
      omega

theorem groupsOf_modulePages (n : Nat) :
    groupsOf Prod.fst (modulePages (n + 1)) = Finset.Icc 32 ((32840 + n) / 1024) := by
  ext t
  rw [mem_groupsOf_modulePages, Finset.mem_Icc]
  constructor
  · rintro ⟨i, hi, rfl⟩
    omega
  · rintro ⟨hlow, hhigh⟩
    by_cases hfirst : t = 32
    · exact ⟨0, by omega, by omega⟩
    · exact ⟨t * 1024 - 32840, by omega, by omega⟩

theorem cost_modulePages {n : Nat} (hn : 0 < n) :
    cost Prod.fst ∅ (modulePages n) = n + ((n + 71) / 1024 + 1) := by
  obtain ⟨m, rfl⟩ := Nat.exists_eq_succ_of_ne_zero (Nat.ne_of_gt hn)
  have hlength : (modulePages (m + 1)).length = m + 1 := by simp [modulePages]
  rw [cost, Finset.sdiff_empty, groupsOf_modulePages, Nat.card_Icc, hlength]
  omega

theorem maps_iff {pm : PhysMem} {d va : Word} (h : pdIndex va < 768) :
    pm.Maps d va ↔ (pdIndex va, ptIndex va) ∈ userPages pm.ram d := by
  rw [mem_userPages, PhysMem.Maps]
  exact (and_iff_right ⟨h, ptIndex_lt va⟩).symm

theorem pagesNeeded_of_le {size : Word} (h : size ≤ 0xFFFFF000) :
    ((size + frameSize - 1) / frameSize).toNat = (size.toNat + 4095) / 4096 := by
  have hle : size.toNat ≤ 0xFFFFF000 := h
  have hframe : frameSize.toNat = 4096 := rfl
  have hone : (1 : Word).toNat = 1 := rfl
  rw [BitVec.toNat_udiv, BitVec.toNat_sub, BitVec.toNat_add, hframe, hone]
  omega

theorem pagesNeeded_wraps {size : Word} (h : ¬size ≤ 0xFFFFF000) :
    ((size + frameSize - 1) / frameSize).toNat = 0 := by
  have hlt : ¬size.toNat ≤ 0xFFFFF000 := h
  have hframe : frameSize.toNat = 4096 := rfl
  have hone : (1 : Word).toNat = 1 := rfl
  rw [BitVec.toNat_udiv, BitVec.toNat_sub, BitVec.toNat_add, hframe, hone]
  omega

theorem toNat_moduleAddress {b : Nat} (hb : b / 4096 < 32768) :
    (userCodeStart + BitVec.ofNat 32 b).toNat = 0x08048000 + b := by
  rw [userCodeStart, BitVec.toNat_add, BitVec.toNat_ofNat]
  simp
  omega

/-- An address of a module lies on the page that its distance from the module's start says. -/
theorem index_moduleAddress {b : Nat} (hb : b / 4096 < 32768) :
    (pdIndex (userCodeStart + BitVec.ofNat 32 b), ptIndex (userCodeStart + BitVec.ofNat 32 b)) =
      modulePage (b / 4096) := by
  rw [pdIndex_eq, ptIndex_eq, toNat_moduleAddress hb, modulePage]
  refine Prod.ext ?_ ?_
  · simp only
    omega
  · simp only
    omega

theorem maps_address_iff {pm : PhysMem} {d : Word} {b : Nat} (hb : b / 4096 < 32768) :
    pm.Maps d (userCodeStart + BitVec.ofNat 32 b) ↔ modulePage (b / 4096) ∈ userPages pm.ram d := by
  rw [maps_iff, index_moduleAddress hb]
  rw [pdIndex_eq, toNat_moduleAddress hb]
  omega

/-- The addresses of a module are those on its pages. -/
theorem maps_module_iff {pm : PhysMem} {d size : Word} {n : Nat} (hsize : size ≤ 0xFFFFF000)
    (hn : n = ((size + frameSize - 1) / frameSize).toNat) (hle : n ≤ 32768) :
    (∀ b < size.toNat, pm.Maps d (userCodeStart + BitVec.ofNat 32 b)) ↔
      ∀ x ∈ modulePages n, x ∈ userPages pm.ram d := by
  rw [pagesNeeded_of_le hsize] at hn
  constructor
  · intro h x hx
    obtain ⟨i, hi, rfl⟩ := List.mem_map.mp hx
    rw [List.mem_range'_1] at hi
    have hmaps := (maps_address_iff (by omega)).mp (h (i * 4096) (by omega))
    rwa [Nat.mul_div_cancel i (by decide)] at hmaps
  · intro h b hb
    refine (maps_address_iff (by omega)).mpr (h _ (List.mem_map_of_mem ?_))
    rw [List.mem_range'_1]
    omega

namespace Kernel

variable {k : Kernel} {i : Slot}

theorem Created.freeCount_pos {k' : Kernel} {d : Word} {birth : Birth}
    (h : Created k k' i d birth) : 0 < k.mem.freeCount := by
  have hmem : pageOf d ∈ {n | k.mem.FreeFrame n} := h.free
  exact (Set.ncard_pos (PhysMem.free_finite _)).mpr ⟨_, hmem⟩

/-- With a slot and a directory, a module is mapped unless its last page is lost. -/
theorem mapsModule_of_slot (h : Isolated k.mem k.dirs) (hi : k.findFree = some i)
    (hsome : k.mem.freeCount ≠ 0) (data : Word) {size : Word} (hsize : size ≤ 0xFFFFF000) {n : Nat}
    (hn : n = ((size + frameSize - 1) / frameSize).toNat) :
    k.MapsEveryPage (.createProcess data size) ↔
      ¬(LastOpens Prod.fst ∅ (modulePages n) ∧ k.mem.freeCount = cost Prod.fst ∅ (modulePages n)) := by
  obtain ⟨d, s, ⟨hleft, hgroups⟩, hstock, hret, hdone⟩ :=
    createProcess_fill h hi (Nat.pos_of_ne_zero hsome) data size hn
  have hlost := fill_loses_iff s (modulePages n)
  rw [hgroups, hleft, hstock, PhysMem.stock_items] at hlost
  rw [← hlost, not_and, not_exists]
  constructor
  · intro hmaps htrue x hx
    obtain ⟨hcr3, hle⟩ := hdone htrue
    rw [if_pos htrue] at hret
    have hall := hmaps i hret
    rw [hcr3] at hall
    exact hx.2 ((maps_module_iff hsize hn hle).mp hall x hx.1)
  · intro hkept j hj
    rw [hret] at hj
    split at hj
    · next htrue =>
      obtain rfl := Option.some.inj hj
      obtain ⟨hcr3, hle⟩ := hdone htrue
      rw [hcr3]
      refine (maps_module_iff hsize hn hle).mpr fun x hx => ?_
      by_contra hnot
      exact hkept htrue x ⟨hx, hnot⟩
    · cases hj

/-- When the number of pages wraps, a process is created and nothing is mapped. -/
theorem not_mapsModule_of_wrap (h : Isolated k.mem k.dirs) (hi : k.findFree = some i)
    (hsome : k.mem.freeCount ≠ 0) (data : Word) {size : Word} (hsize : ¬size ≤ 0xFFFFF000) :
    ¬k.MapsEveryPage (.createProcess data size) := by
  obtain ⟨d, s, ⟨-, hgroups⟩, hstock, hret, hdone⟩ :=
    createProcess_fill h hi (Nat.pos_of_ne_zero hsome) data size (pagesNeeded_wraps hsize).symm
  have hempty : fill (modulePages 0) s = (true, s) := rfl
  rw [hempty] at hstock hret hdone
  obtain ⟨hcr3, -⟩ := hdone rfl
  intro hmaps
  have hpos : 0 < size.toNat := by
    have hlt : ¬size.toNat ≤ 0xFFFFF000 := hsize
    omega
  have hfirst := hmaps i hret 0 hpos
  rw [hcr3, maps_address_iff (by decide), ← PhysMem.stock_items, ← hstock,
    s.items_eq_empty hgroups] at hfirst
  exact Finset.notMem_empty _ hfirst

theorem mapsModule_iff (h : Isolated k.mem k.dirs) (data size : Word) :
    k.MapsEveryPage (.createProcess data size) ↔ k.TablesCovered (.createProcess data size) := by
  have hspawn := createProcess_spawn h data size
  by_cases hnone : k.findFree = none
  · refine iff_of_true (fun i hi => ?_) (.inl hnone)
    generalize k.createProcess data size = r at hspawn hi
    cases hspawn with
    | noSlot => cases hi
    | failed => cases hi
    | created hnew => exact nomatch hnone.symm.trans hnew.slot
  by_cases hzero : k.mem.freeCount = 0
  · refine iff_of_true (fun i hi => ?_) (.inr (.inl hzero))
    generalize k.createProcess data size = r at hspawn hi
    cases hspawn with
    | noSlot => cases hi
    | failed => cases hi
    | created hnew => exact absurd hzero (Nat.ne_of_gt hnew.freeCount_pos)
  obtain ⟨i, hi⟩ := Option.ne_none_iff_exists'.mp hnone
  by_cases hsize : size ≤ 0xFFFFF000
  · rw [mapsModule_of_slot h hi hzero data hsize rfl, lastOpens_modulePages, TablesCovered]
    constructor
    · rintro hcovered
      refine .inr (.inr ⟨hsize, ?_⟩)
      rintro n rfl hlast hcount
      exact hcovered ⟨hlast, hcount.trans (cost_modulePages (by omega)).symm⟩
    · rintro (hslot | hfree | ⟨-, hcovered⟩) ⟨hlast, hcount⟩
      · exact hnone hslot
      · exact hzero hfree
      · exact hcovered _ rfl hlast (hcount.trans (cost_modulePages (by omega)))
  · refine iff_of_false (not_mapsModule_of_wrap h hi hzero data hsize) ?_
    rintro (hslot | hfree | ⟨hle, -⟩)
    · exact hnone hslot
    · exact hzero hfree
    · exact hsize hle

/-! ### The pages of a child -/

theorem lastOpens_parentPages {ram : Mem} {p : Word} :
    LastOpens Prod.fst ∅ (parentPages ram p) ↔ LastPageAlone ram p := by
  have hsorted := parentPages_sorted ram p
  constructor
  · rintro ⟨ys, x, heq, hnew⟩
    rw [Finset.empty_union, groupsOf, List.mem_toFinset] at hnew
    rw [heq, List.pairwise_append] at hsorted
    refine ⟨x, mem_parentPages.mp (heq ▸ List.mem_append_right _ (List.mem_singleton_self x)),
      fun y hy hne => ?_⟩
    have hmem := mem_parentPages.mpr hy
    rw [heq, List.mem_append, List.mem_singleton] at hmem
    have hbefore := hmem.resolve_right hne
    have hfst : y.1 ≠ x.1 := fun hc => hnew (hc ▸ List.mem_map_of_mem hbefore)
    have hlt := hsorted.2.2 y hbefore x (List.mem_singleton_self x)
    omega
  · rintro ⟨x, hx, halone⟩
    obtain ⟨ys, z, heq⟩ := List.eq_nil_or_concat' (parentPages ram p) |>.resolve_left
      (List.ne_nil_of_mem (mem_parentPages.mpr hx))
    have hnodup := parentPages_nodup ram p
    rw [heq, List.pairwise_append] at hsorted
    rw [heq, List.nodup_append] at hnodup
    have hmem := mem_parentPages.mpr hx
    rw [heq, List.mem_append, List.mem_singleton] at hmem
    have hin : ∀ y ∈ ys, y ∈ userPages ram p := fun y hy =>
      mem_parentPages.mp (heq ▸ List.mem_append_left _ hy)
    have hz : z ∈ userPages ram p :=
      mem_parentPages.mp (heq ▸ List.mem_append_right _ (List.mem_singleton_self z))
    obtain rfl : x = z := by
      by_contra hne
      have hlt := hsorted.2.2 x (hmem.resolve_right hne) z (List.mem_singleton_self z)
      have hgt := halone z hz (Ne.symm hne)
      omega
    refine ⟨ys, x, heq, ?_⟩
    rw [Finset.empty_union, groupsOf, List.mem_toFinset, List.mem_map]
    rintro ⟨y, hy, hfst⟩
    have hne : y ≠ x := fun hc =>
      hnodup.2.2 y hy x (List.mem_singleton_self x) hc
    have hlt := halone y (hin y hy) hne
    omega

theorem cost_parentPages (ram : Mem) (p : Word) :
    cost Prod.fst ∅ (parentPages ram p) = (userPages ram p).card + (tablesUsed ram p).card := by
  have hgroups : groupsOf Prod.fst (parentPages ram p) = tablesUsed ram p := by
    ext i
    simp only [groupsOf, List.mem_toFinset, List.mem_map, tablesUsed, Finset.mem_image,
      mem_parentPages]
  rw [cost, Finset.sdiff_empty, hgroups, length_parentPages]

/-- A fork that fails returns no pid. -/
theorem mapsCopy_of_none {r : Option Slot × Kernel} (hr : k.sysFork = k.forkResult r)
    (hnone : r.1 = none) : k.MapsEveryPage .sysFork := by
  intro pid hret hpid
  rw [hr, forkResult, hnone] at hret
  exact absurd (Exit.ret.inj hret).symm hpid

/-- A fork that creates a child has copied the parent's pages if they are all in the child. -/
theorem mapsCopy_of_created (hk : k.WellFormed) {current : Slot}
    (hcur : k.currentProcess = some current) {r : Kernel} {d : Word} {birth : Birth}
    (hr : k.sysFork = k.forkResult (some i, r)) (hnew : Created k r i d birth) :
    k.MapsEveryPage .sysFork ↔ ∀ x ∈ parentPages k.mem.ram (k.processTable current).context.cr3,
      x ∈ userPages k.sysFork.2.mem.ram d := by
  have hstate : k.sysFork.2 = r := congrArg Prod.snd hr
  have hret : k.sysFork.1 = .ret k.nextPid := congrArg Prod.fst hr
  obtain ⟨hfail, hunique⟩ := hk.nextPid_fresh hnew.free
  have hchild := hnew.new
  constructor
  · intro hmaps x hx
    obtain ⟨j, hj, hpid, hpages⟩ := hmaps _ hret hfail
    obtain rfl : j = i := by
      by_contra hne
      rw [hstate, hnew.others hne] at hj hpid
      exact hunique j (by rw [hj]; exact nofun) hpid
    have hin := hpages current hcur (mem_parentPages.mp hx)
    rw [hstate, hchild, ← hstate] at hin
    exact hin
  · intro hpages pid hpid _
    obtain rfl := Exit.ret.inj (hret.symm.trans hpid)
    refine ⟨i, by rw [hstate, hchild], by rw [hstate, hchild], fun c hc x hx => ?_⟩
    obtain rfl := Option.some.inj (hcur.symm.trans hc)
    rw [hstate, hchild, ← hstate]
    exact hpages x (mem_parentPages.mpr hx)

/-- A fork that gets a directory loses a page of its child exactly when the supply ends at the table
of the last page. -/
theorem sysFork_loses_iff (h : Isolated k.mem k.dirs) {current : Slot}
    (hcur : k.currentProcess = some current) (hlive : (k.processTable current).state ≠ .free)
    (hi : k.findFree = some i) (hsome : 0 < k.mem.freeCount) :
    ((k.sysFork.2.processTable i).state = .ready ∧
        ∃ x ∈ parentPages k.mem.ram (k.processTable current).context.cr3,
          x ∉ userPages k.sysFork.2.mem.ram (k.sysFork.2.processTable i).context.cr3) ↔
      LastOpens Prod.fst ∅ (parentPages k.mem.ram (k.processTable current).context.cr3) ∧
        k.mem.freeCount =
          cost Prod.fst ∅ (parentPages k.mem.ram (k.processTable current).context.cr3) := by
  obtain ⟨d, s, ⟨hleft, hgroups⟩, hstock, hstate, hcr3⟩ := sysFork_fill h hcur hlive hi hsome
  have hlost := fill_loses_iff s (parentPages k.mem.ram (k.processTable current).context.cr3)
  rw [hgroups, hleft, hstock, PhysMem.stock_items] at hlost
  rw [← hlost, hstate]
  cases hfill : (fill (parentPages k.mem.ram (k.processTable current).context.cr3) s).1 with
  | false => exact iff_of_false (fun hc => nomatch hc.1) fun hc => nomatch hc.1
  | true =>
    rw [hcr3 hfill]
    exact and_congr_left' (iff_of_true rfl rfl)

theorem mapsCopy_iff (hk : k.WellFormed) :
    k.MapsEveryPage .sysFork ↔ k.TablesCovered .sysFork := by
  cases hcur : k.currentProcess with
  | none =>
    have hret : k.sysFork.1 = .ret (-1) := by rw [sysFork, hcur]
    refine iff_of_true (fun pid hpid hne => ?_) (.inr fun c hc => nomatch hcur.symm.trans hc)
    exact absurd (Exit.ret.inj (hret.symm.trans hpid)).symm hne
  | some current =>
    have hlive := (hk.current current hcur).not_free
    obtain ⟨r, hr, hspawn⟩ := sysFork_spawn hk.isolated hcur hlive
    have hcovered : k.TablesCovered .sysFork ↔ k.findFree = none ∨ ¬(LastOpens Prod.fst ∅
        (parentPages k.mem.ram (k.processTable current).context.cr3) ∧ k.mem.freeCount =
          cost Prod.fst ∅ (parentPages k.mem.ram (k.processTable current).context.cr3)) := by
      rw [lastOpens_parentPages, cost_parentPages, TablesCovered, hcur]
      simp only [Option.some.injEq, forall_eq', not_and, ne_eq]
    rw [hcovered]
    have hk' : k.sysFork.2 = r.2 := congrArg Prod.snd hr
    cases hspawn with
    | noSlot hnone => exact iff_of_true (mapsCopy_of_none hr rfl) (.inl hnone)
    | @failed k' i hfail =>
      refine iff_of_true (mapsCopy_of_none hr rfl) (.inr fun hc => ?_)
      have hpos : 0 < k.mem.freeCount := by
        obtain ⟨⟨ys, x, heq, -⟩, hcount⟩ := hc
        have hlt := cost_lt_append (Prod.fst : Nat × Nat → Nat) ∅ ys x
        rw [heq] at hcount
        omega
      have hready := ((sysFork_loses_iff hk.isolated hcur hlive hfail.slot hpos).mpr hc).1
      rw [hk', hfail.state] at hready
      cases hready
    | @created k' i d hnew =>
      have hloses := sysFork_loses_iff hk.isolated hcur hlive hnew.slot
        hnew.freeCount_pos
      have hchild : k.sysFork.2.processTable i = _ := (congrFun (congrArg _ hk') i).trans hnew.new
      rw [mapsCopy_of_created hk hcur hr hnew, ← hloses, hchild]
      rw [or_iff_right (fun hc => nomatch hc.symm.trans hnew.slot)]
      simp only [true_and, not_exists, not_and, not_not]

/-! ### A page on demand -/

/-- A page fault that returns has entered the page unless the last frame went to the page itself. -/
theorem mapsFault_iff (hk : k.Consistent) (addr : Word) (info : IdtInfo) :
    k.MapsEveryPage (.pageFault addr info) ↔ k.TablesCovered (.pageFault addr info) := by
  cases hcur : k.currentProcess with
  | none =>
    refine iff_of_true (fun _ c hc => nomatch hcur.symm.trans hc)
      fun c hc => nomatch hcur.symm.trans hc
  | some current =>
    rw [MapsEveryPage, TablesCovered, pageFaultHandler, hcur]
    simp only [Option.some.injEq, forall_eq']
    split
    · next hge => exact iff_of_true nofun fun hlt => absurd hge (BitVec.not_le.mpr hlt)
    · next haddr =>
      have hlt : addr < kernelVirtualStart := BitVec.not_le.mp haddr
      split
      · next hbit =>
        have habsent : info.errorCode &&& 0x1 = 0 := by simpa using hbit
        by_cases hz : k.mem.allocFrame.1 = 0
        · have hzero := hk.isolated.freeCount_eq_zero_iff_allocFrame.mpr hz
          simp only [hz, if_true]
          exact iff_of_true nofun fun _ _ _ => by omega
        · have hsome : (k.mem.stock (k.processTable current).context.cr3).left ≠ 0 :=
            fun hzero => hz (hk.isolated.freeCount_eq_zero_iff_allocFrame.mp hzero)
          have hflags : (if info.errorCode &&& 2 != 0 ∨ addr &&& ~~~0xFFF < 0xC0000000 then
              pagePresent ||| pageUser ||| pageRw else pagePresent ||| pageUser).toNat < 4096 := by
            split <;> decide
          have hput := hk.isolated.demandPage_put (hk.current_dir hcur)
            (pdIndex_userPage hlt) hflags (by split <;> decide) hz
          have hin := mem_put_iff (x := (pdIndex addr, ptIndex addr)) hsome
          rw [pdIndex_page, ptIndex_page] at hput
          rw [hput, PhysMem.stock_items, PhysMem.stock_groups, PhysMem.stock_left] at hin
          have habs : pdIndex addr ∉ userTables k.mem.ram (k.processTable current).context.cr3 ↔
              tableAt k.mem.ram (k.processTable current).context.cr3 (pdIndex addr) = none := by
            rw [mem_userTables, not_and, Bool.not_eq_true, Option.isSome_eq_false_iff,
              Option.isNone_iff_eq_none]
            exact forall_prop_of_true (pdIndex_user hlt)
          rw [habs, ← maps_iff (pdIndex_user hlt), not_and] at hin
          simp only [hz, if_false]
          exact ⟨fun hmaps _ _ => hin.mp (hmaps trivial), fun hcov _ => hin.mpr (hcov hlt habsent)⟩
      · next hbit =>
        have hset : info.errorCode &&& 0x1 ≠ 0 := by simpa using hbit
        exact iff_of_true nofun fun _ hclear => absurd hclear hset

theorem WellFormed.mapsEveryPage_iff (hk : k.WellFormed) (call : Call) :
    k.MapsEveryPage call ↔ k.TablesCovered call := by
  cases call with
  | createProcess data size => exact mapsModule_iff hk.isolated data size
  | sysFork => exact mapsCopy_iff hk
  | pageFault addr info => exact mapsFault_iff hk.consistent addr info
  | createKernelProcess => exact Iff.rfl
  | sysExit => exact Iff.rfl
  | sysWait => exact Iff.rfl
  | schedule => exact Iff.rfl
  | userStore => exact Iff.rfl

end Kernel

/-- In a run of the kernel from boot every call that reports success has mapped all its pages exactly
if no call runs out of frames at the table of its last page, or has a module whose pages wrap. -/
theorem maps_every_page_iff (img : KernelImage) {k : Kernel} (hk : img.system.init k)
    {run : List (Call × Kernel)} (hrun : img.system.Run k run) :
    System.Meets Kernel.MapsEveryPage k run ↔ System.Meets Kernel.TablesCovered k run :=
  System.Run.meets_iff_meets (I := fun _ => True)
    (fun _ call _ hreach _ _ =>
      (KernelImage.running_of_reach hreach).wellFormed.mapsEveryPage_iff call)
    (fun _ _ _ _ _ _ _ => trivial) (.init hk) trivial hrun

/-- A module of one page is loaded and its process forks, then the parent comes to a page that is not
there yet. -/
theorem maps_every_page_iff_sample :
    ∃ k₁ k₂ i j, System.Meets Kernel.MapsEveryPage KernelImage.sampleBoot
        [(.createProcess 0xC0110000 4096, k₁), (.schedule, k₂), (.sysFork, k₂.sysFork.2),
          (.pageFault 0x09000000 ⟨14, 4⟩, (k₂.sysFork.2.pageFaultHandler 0x09000000 ⟨14, 4⟩).2)] ∧
      (k₁.processTable i).state = .ready ∧ (k₂.sysFork.2.processTable j).state = .ready := by
  obtain ⟨k₁, k₂, i, j, d, d', birth, h⟩ := KernelImage.sample_family
  have hfault : ∀ k : Kernel, k.after (.pageFault 0x09000000 ⟨14, 4⟩) =
    some (k.pageFaultHandler 0x09000000 ⟨14, 4⟩).2 := fun _ => rfl
  have hrun := h.run.append (.cons (KernelImage.step_after .sample (hfault _)) (.nil _))
  have hfree := KernelImage.sample_freeCount
  have hleft := h.left
  refine ⟨k₁, k₂, i, j, (maps_every_page_iff .sample KernelImage.sampleBoot_init hrun).mpr
    ⟨.inr (.inr ⟨by decide, fun n hn _ => ?_⟩), trivial, .inr fun c hc _ => ?_, fun c _ _ _ _ => ?_,
      trivial⟩, ?_, h.ready⟩
  · obtain rfl : n = 1 := hn.trans (by decide)
    omega
  · obtain rfl := Option.some.inj (h.parent_current.symm.trans hc)
    have hsupply := h.supply
    have hdir : (k₂.processTable i).context.cr3 = d := by
      rw [h.dispatched, Kernel.dispatch_self, h.loaded.new]
    have hmem : k₂.mem = k₁.mem := by
      rw [h.dispatched]
      rfl
    have hpages := h.pages
    have htables : (tablesUsed k₁.mem.ram d).card ≤ (userPages k₁.mem.ram d).card :=
      Finset.card_image_le
    rw [hmem, hdir]
    omega
  · show k₂.sysFork.2.mem.freeCount ≠ 1
    omega
  · rw [h.loaded.new]

/-- A module of the largest size is created without a page. -/
theorem module_not_mapped :
    KernelImage.sample.system.Reach KernelImage.sampleBoot ∧
      ¬KernelImage.sampleBoot.MapsEveryPage (.createProcess 0xC0110000 0xFFFFFFFF) := by
  have hreach : KernelImage.sample.system.Reach KernelImage.sampleBoot :=
    .init KernelImage.sampleBoot_init
  have hwf := (KernelImage.running_of_reach hreach).wellFormed
  have hfree := KernelImage.sample_freeCount
  have hempty : (KernelImage.sampleBoot.processTable ⟨0, by decide⟩).state = .free := rfl
  obtain ⟨i, hi⟩ := Kernel.findFree_exists hempty
  exact ⟨hreach, Kernel.not_mapsModule_of_wrap hwf.isolated hi (by omega) _ (by decide)⟩

end Lbos

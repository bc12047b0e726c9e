import Lbos.Mem.PagingSpec

/-! The laws of `map_page` and `unmap_page` over a set of directories whose tables do not overlap:
each changes the entry of one page and no other translation, and keeps the tables apart. -/

namespace Lbos

open Lib Mem

/-- Each present user-half entry of a directory points to a page-table frame of its own, which is
marked allocated, is no directory and is behind no other entry. -/
structure OwnTables (pm : PhysMem) (dirs : Set Word) : Prop where
  aligned : ∀ d ∈ dirs, PageAligned d
  table_marked : ∀ d ∈ dirs, ∀ i < 768, ∀ t, tableAt pm.ram d i = some t →
    pm.isFrameAllocated t = true
  table_not_dir : ∀ d ∈ dirs, ∀ i < 768, ∀ t, tableAt pm.ram d i = some t → t ∉ dirs
  table_unique : ∀ d ∈ dirs, ∀ i < 768, ∀ d' ∈ dirs, ∀ i' < 1024, ∀ t,
    tableAt pm.ram d i = some t → tableAt pm.ram d' i' = some t → d' = d ∧ i' = i

/-- `OwnTables` where the directories, and the tables of their kernel halves, are marked allocated
as well, and no kernel-half entry points to a directory. -/
structure Forest (pm : PhysMem) (dirs : Set Word) : Prop extends OwnTables pm dirs where
  dir_marked : ∀ d ∈ dirs, pm.isFrameAllocated d = true
  kernel_marked : ∀ d ∈ dirs, ∀ i < 1024, 768 ≤ i → ∀ t, tableAt pm.ram d i = some t →
    pm.isFrameAllocated t = true
  kernel_not_dir : ∀ d ∈ dirs, ∀ i < 1024, 768 ≤ i → ∀ t, tableAt pm.ram d i = some t → t ∉ dirs

namespace Forest

variable {pm : PhysMem} {dirs : Set Word}

theorem marked (h : Forest pm dirs) {d t : Word} (hd : d ∈ dirs) {i : Nat} (hi : i < 1024)
    (ht : tableAt pm.ram d i = some t) : pm.isFrameAllocated t = true := by
  by_cases hu : i < 768
  · exact h.table_marked d hd i hu t ht
  · exact h.kernel_marked d hd i hi (by omega) t ht

theorem not_dir (h : Forest pm dirs) {d t : Word} (hd : d ∈ dirs) {i : Nat} (hi : i < 1024)
    (ht : tableAt pm.ram d i = some t) : t ∉ dirs := by
  by_cases hu : i < 768
  · exact h.table_not_dir d hd i hu t ht
  · exact h.kernel_not_dir d hd i hi (by omega) t ht

end Forest

/-- The effect of entering `e` as entry `(i, j)` of directory `d`, through the table at `t`: no
other entry of a directory in `dirs` changes, the table is entered if it is new, and memory changes
in the pages of `t` and `d` only. -/
structure Entered (pm pm' : PhysMem) (dirs : Set Word) (d : Word) (i j : Nat) (t e : Word) :
    Prop where
  pfa : pm'.pfa = pm.pfa
  kernelPageDirectory : pm'.kernelPageDirectory = pm.kernelPageDirectory
  kernelPageTable : pm'.kernelPageTable = pm.kernelPageTable
  load : ∀ d' ∈ dirs, ∀ i' < 1024, ¬(d' = d ∧ i' = i) → pm'.ram.load d' i' = pm.ram.load d' i'
  table : ∀ d' ∈ dirs, ∀ i' < 1024,
    tableAt pm'.ram d' i' = if d' = d ∧ i' = i then some t else tableAt pm.ram d' i'
  entry : ∀ d' ∈ dirs, ∀ i' < 1024, ∀ j' < 1024,
    entryAt pm'.ram d' i' j' =
      if d' = d ∧ i' = i ∧ j' = j then (if present e then some e else none)
      else entryAt pm.ram d' i' j'
  ram : ∀ x, pageOf x ≠ pageOf t → pageOf x ≠ pageOf d → pm'.ram x = pm.ram x
  old_or_new : tableAt pm.ram d i = some t ∧ (∀ k, pm'.FreeFrame k ↔ pm.FreeFrame k) ∨
    tableAt pm.ram d i = none ∧ pm.Takes t pm'

namespace Forest

variable {pm : PhysMem} {dirs : Set Word} {d va pa flags t e : Word}

/-- A store to an entry of a table that the directory has. -/
theorem store_entered (h : Forest pm dirs) (hd : d ∈ dirs) (hva : pdIndex va < 768)
    (ht : tableAt pm.ram d (pdIndex va) = some t) :
    Entered pm { pm with ram := pm.ram.store t (ptIndex va) e } dirs d (pdIndex va) (ptIndex va)
      t e := by
  have halign := tableAt_aligned ht
  have hndir := h.not_dir hd (pdIndex_lt va) ht
  have hne : ∀ d' ∈ dirs, d' ≠ t := fun d' hd' heq => hndir (heq ▸ hd')
  refine ⟨rfl, rfl, rfl, fun d' hd' i' hi' _ => ?_, fun d' hd' i' hi' => ?_,
    fun d' hd' i' hi' j' hj' => ?_, fun x hx _ => ?_, .inl ⟨ht, fun _ => Iff.rfl⟩⟩
  · exact load_store_page_ne _ _ halign (h.aligned d' hd') (ptIndex_lt va) hi' (hne d' hd')
  · rw [tableAt_store_ne halign (h.aligned d' hd') (hne d' hd') (ptIndex_lt va) hi']
    split
    · next heq => rw [heq.1, heq.2, ht]
    · rfl
  · rw [entryAt_store halign (h.aligned d' hd') (hne d' hd') (ptIndex_lt va) hi' hj']
    by_cases heq : d' = d ∧ i' = pdIndex va
    · obtain ⟨rfl, rfl⟩ := heq
      simp [ht]
    · have hother : tableAt pm.ram d' i' ≠ some t := fun ht' =>
        heq (h.table_unique d hd _ hva d' hd' i' hi' t ht ht')
      rw [if_neg fun hc => hother hc.1, if_neg fun hc => heq ⟨hc.1, hc.2.1⟩]
  · exact store_outside pm.ram e halign (ptIndex_lt va) hx

/-- The same through a table taken from the allocator. -/
theorem newTable_entered (h : Forest pm dirs) (hd : d ∈ dirs) {pm₁ : PhysMem} {f : Word}
    (ht : tableAt pm.ram d (pdIndex va) = none) (hf : pm.Takes f pm₁) :
    Entered pm { pm₁ with ram := (newTable pm.ram d (pdIndex va) f).store f (ptIndex va) e } dirs d
      (pdIndex va) (ptIndex va) f e := by
  have hi := pdIndex_lt va
  have hj := ptIndex_lt va
  have hfresh : ∀ a, pm.isFrameAllocated a = true → a ≠ f := by
    rintro a ha rfl
    exact (pm.isFrameAllocated_iff a).mp ha hf.free
  have hne : ∀ d' ∈ dirs, d' ≠ f := fun d' hd' => hfresh d' (h.dir_marked d' hd')
  have hdal := h.aligned d hd
  refine ⟨hf.pfa, hf.kernelPageDirectory, hf.kernelPageTable, fun d' hd' i' hi' hother => ?_,
    fun d' hd' i' hi' => ?_, fun d' hd' i' hi' j' hj' => ?_, fun x hx hxd => ?_,
    .inr ⟨ht, hf.of_ram _⟩⟩
  · have hd'al := h.aligned d' hd'
    refine (load_store_page_ne _ _ hf.aligned hd'al hj hi' (hne d' hd')).trans ?_
    exact load_newTable hf.aligned hdal hd'al hi hi' (hne d' hd') hother
  · rw [tableAt_store_ne hf.aligned (h.aligned d' hd') (hne d' hd') hj hi',
      tableAt_newTable hf.aligned hdal (h.aligned d' hd') hi hi' (hne d' hd')]
  · have hd'al := h.aligned d' hd'
    have htf : tableAt pm.ram d' i' ≠ some f := fun htf => hfresh f (h.marked hd' hi' htf) rfl
    have htd : tableAt pm.ram d' i' ≠ some d := fun htd => h.not_dir hd' hi' htd hd
    rw [entryAt_store hf.aligned hd'al (hne d' hd') hj hi' hj',
      tableAt_newTable hf.aligned hdal hd'al hi hi' (hne d' hd'),
      entryAt_newTable hf.aligned hdal hd'al hi hi' hj' (hne d hd) (hne d' hd') htf htd]
    by_cases heq : d' = d ∧ i' = pdIndex va
    · obtain ⟨rfl, rfl⟩ := heq
      simp [entryAt_none ht]
    · rw [if_neg heq, if_neg fun hc => htf hc.1, if_neg heq, if_neg fun hc => heq ⟨hc.1, hc.2.1⟩]
  · show (newTable pm.ram d (pdIndex va) f).store f (ptIndex va) e x = _
    rw [store_outside _ _ hf.aligned hj hx, newTable, store_outside _ _ hdal hi hxd,
      memset_page_outside _ _ hf.aligned (Nat.le_refl _) hx]

theorem mapPage_entered (h : Forest pm dirs) (pa flags : Word) (hd : d ∈ dirs) (hva : pdIndex va < 768)
    (hok : tableAt pm.ram d (pdIndex va) ≠ none ∨ pm.allocFrame.1 ≠ 0) :
    ∃ t, Entered pm (pm.mapPage d va pa flags) dirs d (pdIndex va) (ptIndex va) t
      (pa ||| flags) := by
  cases ht : tableAt pm.ram d (pdIndex va) with
  | some t => exact ⟨t, PhysMem.mapPage_of_table ht ▸ h.store_entered hd hva ht⟩
  | none =>
    have hf : pm.allocFrame.1 ≠ 0 := hok.resolve_left fun hne => hne ht
    exact ⟨_, PhysMem.mapPage_of_alloc ht hf ▸ h.newTable_entered hd ht (pm.allocFrame_takes hf)⟩

/-- Entering a page keeps the tables apart. -/
theorem of_entered (h : Forest pm dirs) (hd : d ∈ dirs) {pm' : PhysMem} {i j : Nat} (hi : i < 768)
    (he : Entered pm pm' dirs d i j t e) : Forest pm' dirs := by
  have hmarked : ∀ a, pm.isFrameAllocated a = true → pm'.isFrameAllocated a = true := by
    intro a ha
    rw [PhysMem.isFrameAllocated_iff] at ha ⊢
    rcases he.old_or_new with ⟨-, hsame⟩ | ⟨-, htake⟩
    · rwa [hsame]
    · exact fun hfree => ha ((htake.free_iff _).mp hfree).1
  have htmarked : pm'.isFrameAllocated t = true := by
    rcases he.old_or_new with ⟨ht, -⟩ | ⟨-, htake⟩
    · exact hmarked t (h.table_marked d hd i hi t ht)
    · rw [PhysMem.isFrameAllocated_iff, htake.free_iff]
      exact fun hc => hc.2 rfl
  have htdir : t ∉ dirs := by
    rcases he.old_or_new with ⟨ht, -⟩ | ⟨-, htake⟩
    · exact h.table_not_dir d hd i hi t ht
    · exact fun hmem => (pm.isFrameAllocated_iff t).mp (h.dir_marked t hmem) htake.free
  -- no other entry points to `t`: an old table has one entry, a new one was free
  have hother : ∀ d' ∈ dirs, ∀ i' < 1024, tableAt pm.ram d' i' = some t → d' = d ∧ i' = i := by
    intro d' hd' i' hi' ht'
    rcases he.old_or_new with ⟨ht, -⟩ | ⟨-, htake⟩
    · exact h.table_unique d hd i hi d' hd' i' hi' t ht ht'
    · exact absurd htake.free ((pm.isFrameAllocated_iff t).mp (h.marked hd' hi' ht'))
  have hcases : ∀ d' ∈ dirs, ∀ i' < 1024, ∀ t', tableAt pm'.ram d' i' = some t' →
      (d' = d ∧ i' = i) ∧ t' = t ∨ ¬(d' = d ∧ i' = i) ∧ tableAt pm.ram d' i' = some t' := by
    intro d' hd' i' hi' t' ht'
    rw [he.table d' hd' i' hi'] at ht'
    split at ht'
    · next heq => exact .inl ⟨heq, (Option.some.inj ht').symm⟩
    · next heq => exact .inr ⟨heq, ht'⟩
  have hall : ∀ d' ∈ dirs, ∀ i' < 1024, ∀ t', tableAt pm'.ram d' i' = some t' →
      pm'.isFrameAllocated t' = true ∧ t' ∉ dirs := by
    intro d' hd' i' hi' t' ht'
    rcases hcases d' hd' i' hi' t' ht' with ⟨-, rfl⟩ | ⟨-, hold⟩
    · exact ⟨htmarked, htdir⟩
    · exact ⟨hmarked t' (h.marked hd' hi' hold), h.not_dir hd' hi' hold⟩
  refine ⟨⟨h.aligned, fun d' hd' i' hi' t' ht' => (hall d' hd' i' (by omega) t' ht').1,
    fun d' hd' i' hi' t' ht' => (hall d' hd' i' (by omega) t' ht').2, ?_⟩,
    fun d' hd' => hmarked d' (h.dir_marked d' hd'),
    fun d' hd' i' hi' _ t' ht' => (hall d' hd' i' hi' t' ht').1,
    fun d' hd' i' hi' _ t' ht' => (hall d' hd' i' hi' t' ht').2⟩
  intro d₁ hd₁ i₁ hi₁ d₂ hd₂ i₂ hi₂ t' ht₁ ht₂
  rcases hcases d₁ hd₁ i₁ (by omega) t' ht₁ with ⟨⟨rfl, rfl⟩, rfl⟩ | ⟨hne₁, hold₁⟩
  · rcases hcases d₂ hd₂ i₂ hi₂ t' ht₂ with ⟨heq, -⟩ | ⟨-, hold₂⟩
    · exact heq
    · exact hother d₂ hd₂ i₂ hi₂ hold₂
  · rcases hcases d₂ hd₂ i₂ hi₂ t' ht₂ with ⟨-, rfl⟩ | ⟨-, hold₂⟩
    · exact absurd (hother d₁ hd₁ i₁ (by omega) hold₁) hne₁
    · exact h.table_unique d₁ hd₁ i₁ hi₁ d₂ hd₂ i₂ hi₂ t' hold₁ hold₂

end Forest

/-! ### The laws -/

section Laws

variable {pm pm' : PhysMem} {dirs : Set Word} {d d' va v pa flags t e : Word}

/-- Other pages translate as before. -/
theorem Entered.translate_other (h : Entered pm pm' dirs d (pdIndex va) (ptIndex va) t e)
    (hd' : d' ∈ dirs) (hne : ¬(d' = d ∧ pageOf v = pageOf va)) :
    pm'.getPhysicalAddress d' v = pm.getPhysicalAddress d' v := by
  rw [pageOf_eq_iff_index] at hne
  rw [PhysMem.getPhysicalAddress_eq, PhysMem.getPhysicalAddress_eq,
    h.entry d' hd' _ (pdIndex_lt v) _ (ptIndex_lt v), if_neg hne]

/-- The page's own addresses translate through the new entry. -/
theorem Entered.translate_same (h : Entered pm pm' dirs d (pdIndex va) (ptIndex va) t e)
    (hd : d ∈ dirs) (hv : pageOf v = pageOf va) :
    pm'.getPhysicalAddress d v = if present e then pageBase e ||| (v &&& 0xFFF) else 0 := by
  obtain ⟨hpd, hpt⟩ := pageOf_eq_iff_index.mp hv
  rw [PhysMem.getPhysicalAddress_eq, h.entry d hd _ (pdIndex_lt v) _ (ptIndex_lt v),
    if_pos ⟨rfl, hpd, hpt⟩]
  split <;> rfl

/-- `map_page` has a page table to write to. -/
def MapSucceeds (pm : PhysMem) (d va : Word) : Prop :=
  present (pm.load (pm.physToVirt d) (va >>> 22).toNat) = true ∨ pm.allocFrame.1 ≠ 0

theorem mapSucceeds_iff :
    MapSucceeds pm d va ↔ tableAt pm.ram d (pdIndex va) ≠ none ∨ pm.allocFrame.1 ≠ 0 := by
  refine or_congr_left ?_
  simp only [PhysMem.load, PhysMem.physToVirt, PageFrameAllocator.load,
    PageFrameAllocator.virtToPhys_physToVirt]
  rw [tableAt, pdIndex]
  split
  · next hp => exact iff_of_true hp (Option.some_ne_none _)
  · next hp => exact iff_of_false hp (not_not.mpr rfl)

/-- Mapping a user page translates that page to its frame and no other page differently,
unmapping it again takes only this translation away, and the tables stay apart throughout. -/
theorem map_unmap_laws (pm : PhysMem) (dirs : Set Word) (d va pa flags : Word)
    (h : Forest pm dirs) (hd : d ∈ dirs) (hva : va < kernelVirtualStart) (hpa : PageAligned pa)
    (hflags : flags < 0x1000) (hpresent : present flags = true) (hok : MapSucceeds pm d va) :
    let mapped := pm.mapPage d va pa flags
    let unmapped := mapped.unmapPage d va
    (∀ v, pageOf v = pageOf va → mapped.getPhysicalAddress d v = pa ||| (v &&& 0xFFF)) ∧
    (∀ d' ∈ dirs, ∀ v, ¬(d' = d ∧ pageOf v = pageOf va) →
      mapped.getPhysicalAddress d' v = pm.getPhysicalAddress d' v) ∧
    Forest mapped dirs ∧
    (∀ v, pageOf v = pageOf va → unmapped.getPhysicalAddress d v = 0) ∧
    (∀ d' ∈ dirs, ∀ v, ¬(d' = d ∧ pageOf v = pageOf va) →
      unmapped.getPhysicalAddress d' v = mapped.getPhysicalAddress d' v) ∧
    Forest unmapped dirs := by
  have hi := pdIndex_user hva
  obtain ⟨t, he⟩ := h.mapPage_entered pa flags hd hi (mapSucceeds_iff.mp hok)
  have hforest := h.of_entered hd hi he
  have ht : tableAt (pm.mapPage d va pa flags).ram d (pdIndex va) = some t := by
    rw [he.table d hd _ (pdIndex_lt va), if_pos ⟨rfl, rfl⟩]
  have hu := hforest.store_entered (e := 0) hd hi ht
  rw [← PhysMem.unmapPage_of_table ht] at hu
  refine ⟨fun v hv => ?_, fun d' hd' v hne => he.translate_other hd' hne, hforest, fun v hv => ?_,
    fun d' hd' v hne => hu.translate_other hd' hne, hforest.of_entered hd hi hu⟩
  · rw [he.translate_same hd hv, if_pos (present_or hpresent), pageBase_or hpa hflags]
  · rw [hu.translate_same hd hv]
    simp

end Laws

/-! ### What the tables alone do not give -/

/-- A memory over the sample layout, with the bitmap that initialisation leaves. -/
def PhysMem.sample (ram : Mem) : PhysMem where
  pfa := KernelLayout.sample.allocator
  kernelPageDirectory := 0x101000
  kernelPageTable := 0x102000
  ram := ram
  bitmap := KernelLayout.sample.initMem fun _ => 0

namespace PhysMem

theorem sample_freeFrame_iff (ram : Mem) {k : Nat} (hk : k < 8192) :
    (sample ram).FreeFrame k ↔ 289 ≤ k := by
  have hend : KernelLayout.sample.allocator.kernelEndFrame.toNat = 289 := by decide
  rw [FreeFrame]
  refine (KernelLayout.sample.free_initMem_iff (fun _ => 0) (by omega)).trans ?_
  rw [hend]
  exact and_iff_left fun hc => absurd hc.1 (by omega)

theorem sample_allocFrame (ram : Mem) : (sample ram).allocFrame.1 = 0x121000 := by
  rcases (sample ram).pfa.allocFrame_cases (sample ram).bitmap with ⟨k, hk, hleast, hr⟩ | ⟨hnone, -⟩
  · have h289 : (sample ram).FreeFrame 289 :=
      (sample_freeFrame_iff ram (by decide)).mpr (by decide)
    obtain rfl : k = 289 := by
      rcases Nat.lt_trichotomy k 289 with h | h | h
      · exact absurd ((sample_freeFrame_iff ram (by omega)).mp hk) (by omega)
      · exact h
      · exact absurd h289 (hleast 289 h)
    rw [allocFrame, hr]
    rfl
  · exact absurd ((sample_freeFrame_iff ram (by decide)).mpr (Nat.le_refl _)) (hnone 289)

theorem sample_marked (ram : Mem) {a : Word} (h : pageOf a < 289) :
    (sample ram).isFrameAllocated a = true := by
  rw [isFrameAllocated_iff, sample_freeFrame_iff ram (by omega)]
  omega

/-- Directories without user-half entries. -/
theorem ownTables_of_empty {pm : PhysMem} {dirs : Set Word} (hd : ∀ d ∈ dirs, PageAligned d)
    (h : ∀ d ∈ dirs, ∀ i < 768, tableAt pm.ram d i = none) : OwnTables pm dirs := by
  have hnone : ∀ d ∈ dirs, ∀ i < 768, ∀ t, tableAt pm.ram d i ≠ some t := fun d hd i hi t ht => by
    cases (h d hd i hi).symm.trans ht
  exact ⟨hd, fun d hd i hi t ht => absurd ht (hnone d hd i hi t),
    fun d hd i hi t ht => absurd ht (hnone d hd i hi t),
    fun d hd i hi _ _ _ _ t ht => absurd ht (hnone d hd i hi t)⟩

theorem tableAt_zero (d : Word) (i : Nat) : tableAt (fun _ => 0) d i = none := by
  have hload : Mem.load (fun _ => 0) d i = 0#32 := by simp [Mem.load, Mem.read32]
  rw [tableAt, hload]
  rfl

/-- The memory after the page at `0x1000` of directory `d` is mapped to `0x5000` in a sample
memory where the directory's entry 0 is absent. -/
theorem sample_mapPage_ram {ram : Mem} {d : Word} (h : tableAt ram d 0 = none) :
    ((sample ram).mapPage d 0x1000 0x5000 7).ram =
      (newTable ram d 0 0x121000).store 0x121000 1 0x5007 := by
  have hf := sample_allocFrame ram
  have hmap : (sample ram).mapPage d 0x1000 0x5000 7 = _ :=
    mapPage_of_alloc h (by rw [hf]; decide)
  rw [hmap, hf]
  rfl

theorem sample_mapSucceeds (ram : Mem) (d va : Word) : MapSucceeds (sample ram) d va := by
  refine .inr ?_
  rw [sample_allocFrame]
  decide

/-- A cleared memory except for one kernel-half entry of `d`. -/
def kernelEntry (d e : Word) : Mem := Mem.store (fun _ => 0) d 768 e

theorem tableAt_kernelEntry (d e : Word) {i : Nat} (hi : i < 768) :
    tableAt (kernelEntry d e) d i = none := by
  have h : (kernelEntry d e).load d i = Mem.load (fun _ => 0) d i :=
    load_store_ne _ d e (by decide) (by omega) (by omega)
  exact (tableAt_congr h).trans (tableAt_zero d i)

end PhysMem

open PhysMem

/-- Every other page of `d` translates in `pm'` as in `pm`. -/
def OtherPagesKept (pm pm' : PhysMem) (d va : Word) : Prop :=
  ∀ v, pageOf v ≠ pageOf va → pm'.getPhysicalAddress d v = pm.getPhysicalAddress d v

/-- Apart tables alone are not enough.  Mapping a page changes how another page translates where
the directory's own frame is free, where a table of its kernel half is free, and where an entry of
its kernel half points back to it. -/
theorem own_tables_insufficient :
    (OwnTables (sample fun _ => 0) {0x121000} ∧ MapSucceeds (sample fun _ => 0) 0x121000 0x1000 ∧
      ¬OtherPagesKept (sample fun _ => 0) ((sample fun _ => 0).mapPage 0x121000 0x1000 0x5000 7)
        0x121000 0x1000) ∧
    (OwnTables (sample (kernelEntry 0x1000 0x121003)) {0x1000} ∧
      MapSucceeds (sample (kernelEntry 0x1000 0x121003)) 0x1000 0x1000 ∧
      ¬OtherPagesKept (sample (kernelEntry 0x1000 0x121003))
        ((sample (kernelEntry 0x1000 0x121003)).mapPage 0x1000 0x1000 0x5000 7) 0x1000 0x1000) ∧
    (OwnTables (sample (kernelEntry 0x1000 0x1003)) {0x1000} ∧
      MapSucceeds (sample (kernelEntry 0x1000 0x1003)) 0x1000 0x1000 ∧
      ¬OtherPagesKept (sample (kernelEntry 0x1000 0x1003))
        ((sample (kernelEntry 0x1000 0x1003)).mapPage 0x1000 0x1000 0x5000 7) 0x1000 0x1000) := by
  have hown : ∀ {ram : Mem} {d : Word}, PageAligned d → (∀ i < 768, tableAt ram d i = none) →
      OwnTables (sample ram) {d} := fun hd h =>
    ownTables_of_empty (fun _ heq => heq ▸ hd) fun _ heq => heq ▸ h
  refine ⟨⟨hown (by decide) fun i _ => tableAt_zero _ i, sample_mapSucceeds .., ?_⟩,
    ⟨hown (by decide) fun i => tableAt_kernelEntry _ _, sample_mapSucceeds .., ?_⟩,
    ⟨hown (by decide) fun i => tableAt_kernelEntry _ _, sample_mapSucceeds .., ?_⟩⟩
  · intro h
    have h0 := h 0 (by decide)
    rw [getPhysicalAddress_eq, sample_mapPage_ram (tableAt_zero _ _), newTable_eq] at h0
    rw [show pdIndex 0 = 0 by decide, show ptIndex 0 = 0 by decide] at h0
    revert h0
    decide +kernel
  · intro h
    have h0 := h 0xC0001000 (by decide)
    rw [getPhysicalAddress_eq, sample_mapPage_ram (tableAt_kernelEntry _ _ (by decide)),
      newTable_eq] at h0
    revert h0
    decide +kernel
  · intro h
    have h0 := h 0xC0000000 (by decide)
    rw [getPhysicalAddress_eq, sample_mapPage_ram (tableAt_kernelEntry _ _ (by decide)),
      newTable_eq] at h0
    revert h0
    decide +kernel

/-- Empty directories in the sample memory. -/
theorem PhysMem.sample_forest {dirs : Set Word} (h : ∀ d ∈ dirs, PageAligned d ∧ pageOf d < 289) :
    Forest (sample fun _ => 0) dirs := by
  have hempty : OwnTables (sample fun _ => 0) dirs :=
    ownTables_of_empty (fun d hd => (h d hd).1) fun d _ i _ => tableAt_zero d i
  have hnone : ∀ d i t, tableAt (sample fun _ => 0).ram d i ≠ some t := fun d i t ht => by
    cases (tableAt_zero d i).symm.trans ht
  exact ⟨hempty, fun d hd => sample_marked _ (h d hd).2,
    fun d _ i _ _ t ht => absurd ht (hnone d i t), fun d _ i _ _ t ht => absurd ht (hnone d i t)⟩

/-- A page of the first of two directories. -/
theorem map_unmap_laws_sample :
    let pm := sample fun _ => 0
    let dirs : Set Word := {0x1000, 0x2000}
    let mapped := pm.mapPage 0x1000 0x1000 0x5000 7
    let unmapped := mapped.unmapPage 0x1000 0x1000
    mapped.getPhysicalAddress 0x1000 0x1234 = 0x5234 ∧
      mapped.getPhysicalAddress 0x1000 0x2234 = pm.getPhysicalAddress 0x1000 0x2234 ∧
      mapped.getPhysicalAddress 0x2000 0x1234 = pm.getPhysicalAddress 0x2000 0x1234 ∧
      Forest mapped dirs ∧ unmapped.getPhysicalAddress 0x1000 0x1234 = 0 ∧
      unmapped.getPhysicalAddress 0x2000 0x1234 = mapped.getPhysicalAddress 0x2000 0x1234 ∧
      Forest unmapped dirs := by
  intro pm dirs mapped unmapped
  have hforest : Forest pm dirs := sample_forest (by rintro _ (rfl | rfl) <;> decide)
  obtain ⟨hmap, hother, hmapped, hunmap, hother', hunmapped⟩ := map_unmap_laws pm dirs 0x1000 0x1000
    0x5000 7 hforest (.inl rfl) (by decide) (by decide) (by decide) (by decide)
    (sample_mapSucceeds ..)
  exact ⟨hmap 0x1234 (by decide), hother 0x1000 (.inl rfl) 0x2234 (by decide),
    hother 0x2000 (.inr rfl) 0x1234 (by decide), hmapped, hunmap 0x1234 (by decide),
    hother' 0x2000 (.inr rfl) 0x1234 (by decide), hunmapped⟩

end Lbos

import Lbos.Mem.LoadWrites

/-! What user pages hold while an address space grows: a page is added with a frame that was free,
and no other page changes, neither where it is mapped nor in its bytes. -/

namespace Lbos

open Lib Mem

theorem pageOf_pageBase (a : Word) : pageOf (pageBase a) = pageOf a := by
  rw [pageOf, toNat_pageBase, pageOf]
  omega

theorem pageOf_pageBase_add (a : Word) {o : Word} (ho : o.toNat < 4096) :
    pageOf (pageBase a + o) = pageOf a :=
  (pageOf_add (pageAligned_pageBase a) ho).trans (pageOf_pageBase a)

theorem pageFlags_or {f flags : Word} (hf : PageAligned f) :
    (f ||| flags) &&& 0xFFF = flags &&& 0xFFF := by
  have hzero : f &&& 0xFFF = 0 := by
    apply BitVec.eq_of_toNat_eq
    rw [toNat_pageOffset]
    exact hf
  rw [BitVec.and_or_distrib_right, hzero]
  exact BitVec.zero_or

/-- A translated address has the byte at its offset in the entry's frame. -/
theorem byte_of_entry {ram : Mem} {d v e : Word}
    (he : entryAt ram d (pdIndex v) (ptIndex v) = some e) :
    (translate ram d v).map ram = some (ram (pageBase e + (v &&& 0xFFF))) := by
  have hoff := toNat_pageOffset v
  rw [translate, he, Option.map_some, Option.map_some,
    or_offset (pageAligned_pageBase e) (by omega)]

theorem translate_eq_none {ram : Mem} {d v : Word}
    (he : entryAt ram d (pdIndex v) (ptIndex v) = none) : translate ram d v = none := by
  rw [translate, he, Option.map_none]

/-- The effect of a new page: frame `f`, which was free, is entered for `va` in directory `d`.  No
other entry changes, nor a byte of a page that was there. -/
structure PageAdded (pm pm' : PhysMem) (dirs : Set Word) (d va f flags : Word) : Prop where
  isolated : Isolated pm' dirs
  keeps : pm.Keeps pm'
  free : pm.FreeFrame (pageOf f)
  aligned : PageAligned f
  table : ∀ d' ∈ dirs, d' ≠ d → ∀ i < 768, tableAt pm'.ram d' i = tableAt pm.ram d' i
  entry : ∀ d' ∈ dirs, ∀ i < 768, ∀ j < 1024, entryAt pm'.ram d' i j =
    if d' = d ∧ i = pdIndex va ∧ j = ptIndex va then some (f ||| flags)
    else entryAt pm.ram d' i j
  bytes : ∀ d' ∈ dirs, ∀ i < 768, ∀ j < 1024, ∀ e, entryAt pm.ram d' i j = some e →
    ∀ x, pageOf x = pageOf e → pm'.ram x = pm.ram x
  ram : ∀ x, pageOf x ≠ pageOf f → pageOf x ≠ pageOf d →
    (∀ t, tableAt pm'.ram d (pdIndex va) = some t → pageOf x ≠ pageOf t) → pm'.ram x = pm.ram x

namespace Isolated

variable {pm pm' : PhysMem} {dirs : Set Word} {d f g t va flags e x : Word} {i j : Nat}

/-- Entering a page does not touch what a data frame holds. -/
theorem entered_bytes (h : Isolated pm dirs) (hd : d ∈ dirs) (hi : i < 768)
    (he : Entered pm pm' dirs d i j t e) (hg : DataFrame pm dirs g) (hx : pageOf x = pageOf g) :
    pm'.ram x = pm.ram x := by
  have hgal := hg.allocated.aligned
  refine he.ram x (fun hxt => ?_) fun hxd => ?_
  · rcases he.old_or_new with ⟨ht, -⟩ | ⟨-, htake⟩
    · obtain rfl := hgal.pageOf_inj (tableAt_aligned ht) (hx.symm.trans hxt)
      exact hg.not_table d hd i hi ht
    · obtain rfl := hgal.pageOf_inj htake.aligned (hx.symm.trans hxt)
      exact (pm.isFrameAllocated_iff g).mp hg.allocated.marked htake.free
  · obtain rfl := hgal.pageOf_inj (h.dir_allocated hd).aligned (hx.symm.trans hxd)
    exact hg.not_dir hd

/-- In the kernel half of a directory nothing is translated differently. -/
theorem translate_kernel {dirs' : Set Word} (h : Isolated pm dirs) (h' : Isolated pm' dirs')
    (hk : pm.Keeps pm') (hd : d ∈ dirs) (hd' : d ∈ dirs') {v : Word} (hv : ¬pdIndex v < 768) :
    translate pm'.ram d v = translate pm.ram d v := by
  have hlt := pdIndex_lt v
  have htable : tableAt pm'.ram d (pdIndex v) = tableAt pm.ram d (pdIndex v) := by
    rw [h'.tableAt_kernel hd' (by omega) hlt, h.tableAt_kernel hd (by omega) hlt, tableAt, tableAt,
      h.load_kernelDir hk hlt]
  rw [translate, translate, entryAt_congr htable fun t ht => ?_]
  have hlow := h.kernel_reserved hd (by omega) hlt ht
  exact load_congr (tableAt_aligned ht) (ptIndex_lt v) fun x hx => hk.ram x (hx ▸ hlow)

/-- A new frame that is written to, entered and written to again adds a page. -/
theorem pageAdded (h : Isolated pm dirs) (hd : d ∈ dirs) (hva : pdIndex va < 768)
    (hflags : flags.toNat < 4096) (hpresent : present flags = true) (hz : pm.allocFrame.1 ≠ 0)
    {ram ram' : Mem} (hram : ∀ x, pageOf x ≠ pageOf pm.allocFrame.1 → ram x = pm.ram x)
    (hok : MapSucceeds { pm.allocFrame.2 with ram } d va)
    (hram' : ∀ x, pageOf x ≠ pageOf pm.allocFrame.1 → ram' x =
      ({ pm.allocFrame.2 with ram }.mapPage d va pm.allocFrame.1 flags).ram x) :
    PageAdded pm
      { { pm.allocFrame.2 with ram }.mapPage d va pm.allocFrame.1 flags with ram := ram' } dirs d va
      pm.allocFrame.1 flags ∧
    ∀ x, pageOf x = pageOf pm.allocFrame.1 →
      ({ pm.allocFrame.2 with ram }.mapPage d va pm.allocFrame.1 flags).ram x = ram x := by
  have hf := pm.allocFrame_takes hz
  obtain ⟨h₁, hheld₁⟩ := h.of_takes hf rfl
  have h₂ := h₁.of_write hheld₁.dataFrame hram
  have hheld₂ := h₁.held_of_write hheld₁ hram
  have hkeep₂ := (hf.keeps rfl).trans (write_keeps hheld₁.allocated hram)
  generalize pm.allocFrame.1 = f at *
  obtain ⟨t, he⟩ := h₂.forest.mapPage_entered f flags hd hva (mapSucceeds_iff.mp hok)
  obtain ⟨h₃, hkeep₃, hdata₃⟩ := h₂.of_mapPage hd hva hflags hheld₂
  generalize { pm.allocFrame.2 with ram }.mapPage d va f flags = mapped at *
  have hsame₂ : ∀ d' ∈ dirs, SameUserHalf pm.ram ram d' := fun d' hd' =>
    h₁.write_sameUserHalf hheld₁.dataFrame hram hd'
  have hsame₄ : ∀ d' ∈ dirs, SameUserHalf mapped.ram ram' d' := fun d' hd' =>
    h₃.write_sameUserHalf hdata₃ hram' hd'
  refine ⟨⟨h₃.of_write hdata₃ hram', hkeep₂.trans (hkeep₃.trans
    (write_keeps hdata₃.allocated hram')), hf.free, hf.aligned, fun d' hd' hne i hi => ?_,
    fun d' hd' i hi j hj => ?_, fun d' hd' i hi j hj e hentry x hx => ?_, fun x hxf hxd hxt => ?_⟩,
    fun x hx => h₂.entered_bytes hd hva he hheld₂.dataFrame hx⟩
  · rw [(hsame₄ d' hd').table i hi, he.table d' hd' i (by omega), if_neg fun hc => hne hc.1,
      (hsame₂ d' hd').table i hi]
  · rw [(hsame₄ d' hd').entry i hi j hj, he.entry d' hd' i (by omega) j hj,
      if_pos (present_or hpresent), (hsame₂ d' hd').entry i hi j hj]
  · -- the page's frame is neither the new one nor that of a table
    have hdata : DataFrame pm dirs (pageBase e) := h.dataFrame_of_entry hd' hi hj hentry
    have hentry₂ := hentry
    rw [← (hsame₂ d' hd').entry i hi j hj] at hentry₂
    have hdata₂ := h₂.dataFrame_of_entry hd' hi hj hentry₂
    have hx' : pageOf x = pageOf (pageBase e) := hx.trans (pageOf_pageBase e).symm
    have hne : pageOf x ≠ pageOf f := fun heq => by
      obtain rfl := hdata.allocated.aligned.pageOf_inj hf.aligned (hx'.symm.trans heq)
      exact (pm.isFrameAllocated_iff _).mp hdata.allocated.marked hf.free
    exact (hram' x hne).trans ((h₂.entered_bytes hd hva he hdata₂ hx').trans (hram x hne))
  · have htable : tableAt ram' d (pdIndex va) = some t := by
      rw [(hsame₄ d hd).table _ hva, he.table d hd _ (by omega), if_pos ⟨rfl, rfl⟩]
    exact (hram' x hxf).trans ((he.ram x (hxt t htable) hxd).trans (hram x hxf))

/-- A page on demand: the new frame is entered, then cleared. -/
theorem demandPage_added (h : Isolated pm dirs) (hd : d ∈ dirs) (hva : pdIndex va < 768)
    (hflags : flags.toNat < 4096) (hpresent : present flags = true) (hz : pm.allocFrame.1 ≠ 0)
    (hok : MapSucceeds pm.allocFrame.2 d va) :
    let mapped := pm.allocFrame.2.mapPage d va pm.allocFrame.1 flags
    let cleared := mapped.clear (mapped.physToVirt pm.allocFrame.1) frameSize.toNat
    PageAdded pm cleared dirs d va pm.allocFrame.1 flags ∧
      ∀ x, pageOf x = pageOf pm.allocFrame.1 → cleared.ram x = 0 := by
  intro mapped cleared
  have hf := pm.allocFrame_takes hz
  have hfill : cleared = { mapped with ram := memset mapped.ram pm.allocFrame.1 0 4096 } := by
    show mapped.clear _ _ = _
    rw [PhysMem.clear, PhysMem.virtToPhys, PhysMem.physToVirt,
      PageFrameAllocator.virtToPhys_physToVirt]
    rfl
  have hout : ∀ x, pageOf x ≠ pageOf pm.allocFrame.1 →
      memset mapped.ram pm.allocFrame.1 0 4096 x = mapped.ram x := fun x hx =>
    memset_page_outside _ _ hf.aligned (Nat.le_refl _) hx
  obtain ⟨hadded, -⟩ := h.pageAdded hd hva hflags hpresent hz (fun _ _ => rfl) hok hout
  rw [hfill]
  refine ⟨hadded, fun x hx => ?_⟩
  rw [pageOf_eq_iff hf.aligned] at hx
  exact (memset_apply _ _ _ _ (by decide)).trans (if_pos hx)

/-- When `map_page` finds no frame for the page's table, there is none after it either. -/
theorem demandPage_fails (h : Isolated pm dirs) (hd : d ∈ dirs) (hva : pdIndex va < 768)
    (hz : pm.allocFrame.1 ≠ 0) (hfail : ¬MapSucceeds pm.allocFrame.2 d va) (flags : Word) :
    let mapped := pm.allocFrame.2.mapPage d va pm.allocFrame.1 flags
    tableAt (mapped.clear (mapped.physToVirt pm.allocFrame.1) frameSize.toNat).ram d (pdIndex va) =
      none := by
  intro mapped
  have hf := pm.allocFrame_takes hz
  obtain ⟨h₁, hheld⟩ := h.of_takes hf rfl
  obtain ⟨hnone, -, hsame⟩ :=
    h₁.mapPage_fails (fun hc => hfail (mapSucceeds_iff.mpr hc)) pm.allocFrame.1 flags
  have hmapped : mapped = pm.allocFrame.2 := hsame
  rw [hmapped, ← hnone]
  have hout : ∀ x, pageOf x ≠ pageOf pm.allocFrame.1 →
      (pm.allocFrame.2.clear (pm.allocFrame.2.physToVirt pm.allocFrame.1) frameSize.toNat).ram x =
        pm.allocFrame.2.ram x := fun x hx => clear_frame_outside _ hf.aligned hx
  exact (h₁.write_sameUserHalf hheld.dataFrame hout hd).table _ hva

/-- A copied page: the new frame is filled with the bytes of another page, then entered. -/
theorem copyPage_added (h : Isolated pm dirs) (hd : d ∈ dirs) (hva : pdIndex va < 768)
    (hflags : flags.toNat < 4096) (hpresent : present flags = true) (hz : pm.allocFrame.1 ≠ 0)
    (hg : DataFrame pm dirs g) {copied : PhysMem} (hok : MapSucceeds copied d va)
    (hcopied : copied = pm.allocFrame.2.copy (pm.allocFrame.2.physToVirt pm.allocFrame.1)
      (pm.allocFrame.2.physToVirt g) frameSize.toNat) :
    PageAdded pm (copied.mapPage d va pm.allocFrame.1 flags) dirs d va pm.allocFrame.1 flags ∧
      ∀ o : Word, o.toNat < 4096 →
        (copied.mapPage d va pm.allocFrame.1 flags).ram (pm.allocFrame.1 + o) = pm.ram (g + o) := by
  subst hcopied
  have hf := pm.allocFrame_takes hz
  have hgal := hg.allocated.aligned
  have hout : ∀ x, pageOf x ≠ pageOf pm.allocFrame.1 →
      (pm.allocFrame.2.copy (pm.allocFrame.2.physToVirt pm.allocFrame.1)
        (pm.allocFrame.2.physToVirt g) frameSize.toNat).ram x = pm.ram x := fun x hx =>
    copy_outside _ hf.aligned _ (Nat.le_refl _) hx
  obtain ⟨hadded, hown⟩ := h.pageAdded hd hva hflags hpresent hz hout hok fun _ _ => rfl
  refine ⟨hadded, fun o ho => (hown _ (pageOf_add hf.aligned ho)).trans ?_⟩
  have hvirt : pm.allocFrame.2.virtToPhys (pm.allocFrame.2.physToVirt g) = g :=
    PageFrameAllocator.virtToPhys_physToVirt _ _
  have hne : pageOf (g + o) ≠ pageOf pm.allocFrame.1 := fun heq => by
    obtain rfl := hgal.pageOf_inj hf.aligned ((pageOf_add hgal ho).symm.trans heq)
    exact (pm.isFrameAllocated_iff _).mp hg.allocated.marked hf.free
  refine (copy_byte pm.allocFrame.2 hf.aligned (Nat.le_refl 4096) ho ?_).trans ?_
  · rwa [hvirt]
  · rw [hvirt]
    rfl

end Isolated

namespace PageAdded

variable {pm pm' : PhysMem} {dirs : Set Word} {d d' va f flags v : Word}

theorem entry_other (h : PageAdded pm pm' dirs d va f flags) (hd' : d' ∈ dirs)
    (hv : pdIndex v < 768) (hne : ¬(d' = d ∧ pageOf v = pageOf va)) :
    entryAt pm'.ram d' (pdIndex v) (ptIndex v) = entryAt pm.ram d' (pdIndex v) (ptIndex v) := by
  rw [pageOf_eq_iff_index] at hne
  rw [h.entry d' hd' _ hv _ (ptIndex_lt v), if_neg hne]

theorem entry_same (h : PageAdded pm pm' dirs d va f flags) (hd : d ∈ dirs)
    (hva : pdIndex va < 768) (hv : pageOf v = pageOf va) :
    entryAt pm'.ram d (pdIndex v) (ptIndex v) = some (f ||| flags) := by
  obtain ⟨hpd, hpt⟩ := pageOf_eq_iff_index.mp hv
  rw [h.entry d hd _ (by omega) _ (ptIndex_lt v), if_pos ⟨rfl, hpd, hpt⟩]

/-- Every other page is translated as before, in both halves. -/
theorem translate_other (h : PageAdded pm pm' dirs d va f flags) (hiso : Isolated pm dirs)
    (hd' : d' ∈ dirs) (hne : ¬(d' = d ∧ pageOf v = pageOf va)) :
    translate pm'.ram d' v = translate pm.ram d' v := by
  by_cases hv : pdIndex v < 768
  · rw [translate, translate, h.entry_other hd' hv hne]
  · exact hiso.translate_kernel h.isolated h.keeps hd' hd' hv

/-- A user page that was there holds what it held. -/
theorem byte_other (h : PageAdded pm pm' dirs d va f flags) (hd' : d' ∈ dirs)
    (hv : pdIndex v < 768) (hne : ¬(d' = d ∧ pageOf v = pageOf va)) :
    (translate pm'.ram d' v).map pm'.ram = (translate pm.ram d' v).map pm.ram := by
  rw [translate, h.entry_other hd' hv hne, ← translate]
  refine Option.map_congr fun pa hpa => ?_
  obtain ⟨e, he, hpage⟩ := translate_page hpa
  exact h.bytes d' hd' _ hv _ (ptIndex_lt v) e he pa (hpage.trans (pageOf_pageBase e))

end PageAdded

end Lbos

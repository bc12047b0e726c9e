import Lbos.Mem.MappingLaws

/-! Ownership of frames by address spaces: every frame that a set of directories uses occurs at one
site only, is marked in the bitmap, and lies behind the region that initialisation reserved.  The
steps that the kernel takes on memory, allocation, filling a data frame, mapping and a new
directory, keep this. -/

namespace Lbos

open Lib Mem

/-- A place where a frame occurs: as a directory, as a page table of one, or as the frame that an
entry of such a table maps. -/
inductive Site where
  | dir (d : Word)
  | table (d : Word) (i : Nat)
  | page (d : Word) (i j : Nat)

namespace Site

/-- The user-half sites of the directories in a set. -/
inductive Of (dirs : Set Word) : Site → Prop
  | dir {d : Word} : d ∈ dirs → Of dirs (.dir d)
  | table {d : Word} {i : Nat} : d ∈ dirs → i < 768 → Of dirs (.table d i)
  | page {d : Word} {i j : Nat} : d ∈ dirs → i < 768 → j < 1024 → Of dirs (.page d i j)

def frame (ram : Mem) : Site → Option Word
  | dir d => some d
  | table d i => tableAt ram d i
  | page d i j => (entryAt ram d i j).map pageBase

theorem Of.mono {dirs dirs' : Set Word} (h : dirs ⊆ dirs') {x : Site} (hx : x.Of dirs) :
    x.Of dirs' := by
  cases hx with
  | dir hd => exact .dir (h hd)
  | table hd hi => exact .table (h hd) hi
  | page hd hi hj => exact .page (h hd) hi hj

/-- The translation reads one site. -/
theorem translate_eq_frame (ram : Mem) (d v : Word) :
    translate ram d v =
      ((page d (pdIndex v) (ptIndex v)).frame ram).map fun f => f ||| (v &&& 0xFFF) := by
  rw [translate, frame, Option.map_map]
  rfl

end Site

namespace PhysMem

/-- Frames below this one are reserved by `init_page_frame_allocator`. -/
def reserved (pm : PhysMem) : Nat := pm.pfa.kernelEndFrame.toNat

/-- A frame of the allocator that is in use. -/
structure Allocated (pm : PhysMem) (f : Word) : Prop where
  aligned : PageAligned f
  lt : pageOf f < pm.pfa.totalFrames.toNat
  marked : pm.isFrameAllocated f = true
  reserved_le : pm.reserved ≤ pageOf f

/-- What no step of the kernel changes: its variables, the marked frames and the reserved
memory. -/
structure Keeps (pm pm' : PhysMem) : Prop where
  pfa : pm'.pfa = pm.pfa
  kernelPageDirectory : pm'.kernelPageDirectory = pm.kernelPageDirectory
  kernelPageTable : pm'.kernelPageTable = pm.kernelPageTable
  free : ∀ n, pm'.FreeFrame n → pm.FreeFrame n
  ram : ∀ x, pageOf x < pm.reserved → pm'.ram x = pm.ram x

namespace Keeps

variable {pm pm' pm'' : PhysMem}

theorem refl (pm : PhysMem) : pm.Keeps pm := ⟨rfl, rfl, rfl, fun _ h => h, fun _ _ => rfl⟩

theorem reserved (h : pm.Keeps pm') : pm'.reserved = pm.reserved := by
  rw [PhysMem.reserved, PhysMem.reserved, h.pfa]

theorem trans (h : pm.Keeps pm') (h' : pm'.Keeps pm'') : pm.Keeps pm'' := by
  refine ⟨h'.pfa.trans h.pfa, h'.kernelPageDirectory.trans h.kernelPageDirectory,
    h'.kernelPageTable.trans h.kernelPageTable, fun n hn => h.free n (h'.free n hn),
    fun x hx => ?_⟩
  rw [← h.ram x hx]
  rw [← h.reserved] at hx
  exact h'.ram x hx

theorem marked (h : pm.Keeps pm') {a : Word} (ha : pm.isFrameAllocated a = true) :
    pm'.isFrameAllocated a = true := by
  rw [isFrameAllocated_iff] at ha ⊢
  exact fun hf => ha (h.free _ hf)

theorem allocated (h : pm.Keeps pm') {f : Word} (hf : pm.Allocated f) : pm'.Allocated f := by
  refine ⟨hf.aligned, ?_, h.marked hf.marked, ?_⟩
  · rw [h.pfa]
    exact hf.lt
  · rw [h.reserved]
    exact hf.reserved_le

end Keeps

theorem Takes.keeps {pm pm' : PhysMem} {f : Word} (h : pm.Takes f pm') (hram : pm'.ram = pm.ram) :
    pm.Keeps pm' :=
  ⟨h.pfa, h.kernelPageDirectory, h.kernelPageTable, fun n hn => ((h.free_iff n).mp hn).1,
    fun _ _ => by rw [hram]⟩

end PhysMem

/-- The directories in `dirs` share no frame, with each other or within one of them, and share
their kernel half with the kernel's own directory, which lies in reserved memory. -/
structure Isolated (pm : PhysMem) (dirs : Set Word) : Prop where
  higher_half : pm.pfa.kernelVirtualStart - pm.pfa.kernelPhysicalStart = kernelVirtualStart
  frames_le : pm.pfa.totalFrames.toNat ≤ 32768
  free_ge : ∀ n, pm.FreeFrame n → pm.reserved ≤ n
  reserved_pos : 0 < pm.reserved
  kernelDir_aligned : PageAligned pm.kernelPageDirectory
  kernelDir_reserved : pageOf pm.kernelPageDirectory < pm.reserved
  kernelTable_reserved : ∀ i, 768 ≤ i → i < 1024 → ∀ t,
    tableAt pm.ram pm.kernelPageDirectory i = some t → pageOf t < pm.reserved
  kernelHalf : ∀ d ∈ dirs, ∀ i, 768 ≤ i → i < 1024 →
    pm.ram.load d i = pm.ram.load pm.kernelPageDirectory i
  allocated : ∀ x : Site, x.Of dirs → ∀ f, x.frame pm.ram = some f → pm.Allocated f
  unique : ∀ x y : Site, x.Of dirs → y.Of dirs → ∀ f, x.frame pm.ram = some f →
    y.frame pm.ram = some f → x = y

/-- A frame that holds data: it is in use, but neither as a directory nor as a page table. -/
structure DataFrame (pm : PhysMem) (dirs : Set Word) (f : Word) : Prop where
  allocated : pm.Allocated f
  not_dir : f ∉ dirs
  not_table : ∀ d ∈ dirs, ∀ i < 768, tableAt pm.ram d i ≠ some f

/-- A frame that is in use and occurs at no site. -/
structure Held (pm : PhysMem) (dirs : Set Word) (f : Word) : Prop where
  allocated : pm.Allocated f
  not_site : ∀ x : Site, x.Of dirs → x.frame pm.ram ≠ some f

theorem Held.dataFrame {pm : PhysMem} {dirs : Set Word} {f : Word} (h : Held pm dirs f) :
    DataFrame pm dirs f :=
  ⟨h.allocated, fun hd => h.not_site _ (.dir hd) rfl,
    fun _ hd _ hi => h.not_site _ (.table hd hi)⟩

namespace Isolated

variable {pm pm' : PhysMem} {dirs dirs' : Set Word} {d f t va : Word}

theorem mono (h : Isolated pm dirs) (hsub : dirs' ⊆ dirs) : Isolated pm dirs' :=
  { h with
    kernelHalf := fun d hd => h.kernelHalf d (hsub hd)
    allocated := fun x hx => h.allocated x (hx.mono hsub)
    unique := fun x y hx hy => h.unique x y (hx.mono hsub) (hy.mono hsub) }

theorem dir_allocated (h : Isolated pm dirs) (hd : d ∈ dirs) : pm.Allocated d :=
  h.allocated _ (.dir hd) d rfl

theorem tableAt_kernel (h : Isolated pm dirs) (hd : d ∈ dirs) {i : Nat} (hi : 768 ≤ i)
    (hi' : i < 1024) : tableAt pm.ram d i = tableAt pm.ram pm.kernelPageDirectory i := by
  rw [tableAt, tableAt, h.kernelHalf d hd i hi hi']

theorem kernel_reserved (h : Isolated pm dirs) (hd : d ∈ dirs) {i : Nat} (hi : 768 ≤ i)
    (hi' : i < 1024) (ht : tableAt pm.ram d i = some t) : pageOf t < pm.reserved := by
  rw [h.tableAt_kernel hd hi hi'] at ht
  exact h.kernelTable_reserved i hi hi' t ht

/-- The hypotheses of the mapping laws. -/
theorem forest (h : Isolated pm dirs) : Forest pm dirs := by
  refine ⟨⟨fun d hd => (h.dir_allocated hd).aligned, ?_, ?_, ?_⟩, ?_, ?_, ?_⟩
  · intro d hd i hi t ht
    exact (h.allocated _ (.table hd hi) t ht).marked
  · intro d hd i hi t ht htd
    cases h.unique _ _ (.table hd hi) (.dir htd) t ht rfl
  · intro d hd i hi d' hd' i' hi' t ht ht'
    by_cases hu : i' < 768
    · cases h.unique _ _ (.table hd hi) (.table hd' hu) t ht ht'
      exact ⟨rfl, rfl⟩
    · have hlow := h.kernel_reserved hd' (by omega) hi' ht'
      have hhigh := (h.allocated _ (.table hd hi) t ht).reserved_le
      omega
  · intro d hd
    exact (h.dir_allocated hd).marked
  · intro d hd i hi hk t ht
    rw [PhysMem.isFrameAllocated_iff]
    intro hfree
    have hlow := h.kernel_reserved hd hk hi ht
    have hhigh := h.free_ge _ hfree
    omega
  · intro d hd i hi hk t ht htd
    have hlow := h.kernel_reserved hd hk hi ht
    have hhigh := (h.dir_allocated htd).reserved_le
    omega

theorem load_kernelDir (h : Isolated pm dirs) (hk : pm.Keeps pm') {i : Nat} (hi : i < 1024) :
    pm'.ram.load pm'.kernelPageDirectory i = pm.ram.load pm.kernelPageDirectory i := by
  rw [hk.kernelPageDirectory]
  refine load_congr h.kernelDir_aligned hi fun x hx => hk.ram x ?_
  rw [hx]
  exact h.kernelDir_reserved

/-- What is left to show of a step that keeps the kernel's part. -/
theorem of_keeps (h : Isolated pm dirs) (hk : pm.Keeps pm')
    (hHalf : ∀ d ∈ dirs, ∀ i, 768 ≤ i → i < 1024 → pm'.ram.load d i = pm.ram.load d i)
    (hAlloc : ∀ x : Site, x.Of dirs → ∀ f, x.frame pm'.ram = some f → pm'.Allocated f)
    (hUnique : ∀ x y : Site, x.Of dirs → y.Of dirs → ∀ f, x.frame pm'.ram = some f →
      y.frame pm'.ram = some f → x = y) : Isolated pm' dirs where
  higher_half := by
    rw [hk.pfa]
    exact h.higher_half
  frames_le := by
    rw [hk.pfa]
    exact h.frames_le
  free_ge n hn := by
    rw [hk.reserved]
    exact h.free_ge n (hk.free n hn)
  reserved_pos := by
    rw [hk.reserved]
    exact h.reserved_pos
  kernelDir_aligned := by
    rw [hk.kernelPageDirectory]
    exact h.kernelDir_aligned
  kernelDir_reserved := by
    rw [hk.kernelPageDirectory, hk.reserved]
    exact h.kernelDir_reserved
  kernelTable_reserved i hi hi' t ht := by
    rw [tableAt, h.load_kernelDir hk hi', ← tableAt] at ht
    rw [hk.reserved]
    exact h.kernelTable_reserved i hi hi' t ht
  kernelHalf d hd i hi hi' := by
    rw [hHalf d hd i hi hi', h.load_kernelDir hk hi']
    exact h.kernelHalf d hd i hi hi'
  allocated := hAlloc
  unique := hUnique

/-- A step that changes no site. -/
theorem of_same (h : Isolated pm dirs) (hk : pm.Keeps pm')
    (hHalf : ∀ d ∈ dirs, ∀ i, 768 ≤ i → i < 1024 → pm'.ram.load d i = pm.ram.load d i)
    (hFrame : ∀ x : Site, x.Of dirs → x.frame pm'.ram = x.frame pm.ram) : Isolated pm' dirs := by
  refine h.of_keeps hk hHalf (fun x hx f hf => ?_) (fun x y hx hy f hfx hfy => ?_)
  · rw [hFrame x hx] at hf
    exact hk.allocated (h.allocated x hx f hf)
  · rw [hFrame x hx] at hfx
    rw [hFrame y hy] at hfy
    exact h.unique x y hx hy f hfx hfy

/-! ### Allocation -/

/-- A frame that was free is at no site. -/
theorem not_site_of_free (h : Isolated pm dirs) (hf : pm.FreeFrame (pageOf f)) {x : Site}
    (hx : x.Of dirs) : x.frame pm.ram ≠ some f := fun hxf =>
  (pm.isFrameAllocated_iff f).mp (h.allocated x hx f hxf).marked hf

theorem takes_allocated (h : Isolated pm dirs) (hf : pm.Takes f pm') : pm'.Allocated f := by
  refine ⟨hf.aligned, ?_, ?_, ?_⟩
  · rw [hf.pfa]
    exact hf.free.1
  · rw [PhysMem.isFrameAllocated_iff, hf.free_iff]
    exact fun hc => hc.2 rfl
  · rw [PhysMem.reserved, hf.pfa]
    exact h.free_ge _ hf.free

theorem of_takes (h : Isolated pm dirs) (hf : pm.Takes f pm') (hram : pm'.ram = pm.ram) :
    Isolated pm' dirs ∧ Held pm' dirs f := by
  refine ⟨h.of_same (hf.keeps hram) (fun _ _ _ _ _ => by rw [hram]) fun _ _ => by rw [hram],
    h.takes_allocated hf, fun x hx => ?_⟩
  rw [hram]
  exact h.not_site_of_free hf.free hx

theorem not_free_zero (h : Isolated pm dirs) : ¬pm.FreeFrame 0 := fun h0 => by
  have hle := h.free_ge 0 h0
  have hpos := h.reserved_pos
  omega

/-! ### Writes to data frames -/

theorem page_ne (hd : PageAligned d) (hf : PageAligned f) (hne : d ≠ f) {x : Word}
    (hx : pageOf x = pageOf d) : pageOf x ≠ pageOf f := fun hxf =>
  hne (hd.pageOf_inj hf (hx.symm.trans hxf))

theorem frame_of_write (h : Isolated pm dirs) (hf : DataFrame pm dirs f) {ram : Mem}
    (hram : ∀ x, pageOf x ≠ pageOf f → ram x = pm.ram x) :
    (∀ d ∈ dirs, ∀ i < 1024, ram.load d i = pm.ram.load d i) ∧
      ∀ x : Site, x.Of dirs → x.frame ram = x.frame pm.ram := by
  have hfal := hf.allocated.aligned
  have hload : ∀ d ∈ dirs, ∀ i < 1024, ram.load d i = pm.ram.load d i := fun d hd i hi => by
    have hdal := (h.dir_allocated hd).aligned
    have hne : d ≠ f := fun heq => hf.not_dir (heq ▸ hd)
    exact load_congr hdal hi fun x hx => hram x (page_ne hdal hfal hne hx)
  refine ⟨hload, fun x hx => ?_⟩
  cases hx with
  | dir => rfl
  | table hd hi => exact tableAt_congr (hload _ hd _ (by omega))
  | @page d i j hd hi hj =>
    have htable : tableAt ram d i = tableAt pm.ram d i := tableAt_congr (hload _ hd _ (by omega))
    refine congrArg (Option.map pageBase) (entryAt_congr htable fun t ht => ?_)
    have htal := tableAt_aligned ht
    have hne : t ≠ f := fun heq => hf.not_table d hd i hi (heq ▸ ht)
    exact load_congr htal hj fun x hx => hram x (page_ne htal hfal hne hx)

theorem write_keeps (hf : pm.Allocated f) {ram : Mem}
    (hram : ∀ x, pageOf x ≠ pageOf f → ram x = pm.ram x) : pm.Keeps { pm with ram } := by
  refine ⟨rfl, rfl, rfl, fun _ hn => hn, fun x hx => hram x ?_⟩
  have hle := hf.reserved_le
  omega

/-- Writing to a data frame. -/
theorem of_write (h : Isolated pm dirs) (hf : DataFrame pm dirs f) {ram : Mem}
    (hram : ∀ x, pageOf x ≠ pageOf f → ram x = pm.ram x) : Isolated { pm with ram } dirs := by
  obtain ⟨hload, hframe⟩ := h.frame_of_write hf hram
  exact h.of_same (write_keeps hf.allocated hram) (fun d hd i _ hi => hload d hd i hi) hframe

/-- A held frame that is written to stays held. -/
theorem held_of_write (h : Isolated pm dirs) (hf : Held pm dirs f) {ram : Mem}
    (hram : ∀ x, pageOf x ≠ pageOf f → ram x = pm.ram x) : Held { pm with ram } dirs f := by
  obtain ⟨-, hframe⟩ := h.frame_of_write hf.dataFrame hram
  refine ⟨(write_keeps hf.allocated hram).allocated hf.allocated, fun x hx => ?_⟩
  rw [hframe x hx]
  exact hf.not_site x hx

/-! ### Mapping a held frame -/

variable {i j : Nat} {e : Word}

theorem entered_keeps (h : Isolated pm dirs) (hd : d ∈ dirs) (hi : i < 768)
    (he : Entered pm pm' dirs d i j t e) : pm.Keeps pm' := by
  have hdle := (h.dir_allocated hd).reserved_le
  have htle : pm.reserved ≤ pageOf t := by
    rcases he.old_or_new with ⟨ht, -⟩ | ⟨-, htake⟩
    · exact (h.allocated _ (.table hd hi) t ht).reserved_le
    · exact h.free_ge _ htake.free
  refine ⟨he.pfa, he.kernelPageDirectory, he.kernelPageTable, fun n hn => ?_, fun x hx => ?_⟩
  · rcases he.old_or_new with ⟨-, hsame⟩ | ⟨-, htake⟩
    · exact (hsame n).mp hn
    · exact ((htake.free_iff n).mp hn).1
  · exact he.ram x (by omega) (by omega)

/-- What a site holds after an entry: what it held before, at its own site the entry's frame, or at
the entry's directory slot a table that was free. -/
theorem frame_of_entered (he : Entered pm pm' dirs d i j t e) {x : Site} (hx : x.Of dirs)
    (hfx : x.frame pm'.ram = some f) :
    (x.frame pm.ram = some f ∧ x ≠ .page d i j) ∨ (x = .page d i j ∧ f = pageBase e) ∨
      (x = .table d i ∧ f = t ∧ pm.Takes t pm') := by
  cases hx with
  | dir => exact .inl ⟨hfx, nofun⟩
  | @table d' i' hd' hi' =>
    have htable := he.table d' hd' i' (by omega)
    rw [Site.frame] at hfx ⊢
    rw [htable] at hfx
    split at hfx
    · next heq =>
      obtain ⟨rfl, rfl⟩ := heq
      obtain rfl := Option.some.inj hfx
      rcases he.old_or_new with ⟨ht, -⟩ | ⟨-, htake⟩
      · exact .inl ⟨ht, nofun⟩
      · exact .inr (.inr ⟨rfl, rfl, htake⟩)
    · exact .inl ⟨hfx, nofun⟩
  | @page d' i' j' hd' hi' hj' =>
    have hentry := he.entry d' hd' i' (by omega) j' hj'
    rw [Site.frame] at hfx ⊢
    rw [hentry] at hfx
    split at hfx
    · next heq =>
      obtain ⟨rfl, rfl, rfl⟩ := heq
      split at hfx
      · exact .inr (.inl ⟨rfl, (Option.some.inj hfx).symm⟩)
      · cases hfx
    · next hne =>
      refine .inl ⟨hfx, fun heq => hne ?_⟩
      cases heq
      exact ⟨rfl, rfl, rfl⟩

/-- Entering a held frame. -/
theorem of_entered (h : Isolated pm dirs) (hd : d ∈ dirs) (hi : i < 768)
    (he : Entered pm pm' dirs d i j t e) (hf : Held pm dirs (pageBase e)) : Isolated pm' dirs := by
  have hk := h.entered_keeps hd hi he
  have hnew : pm.Takes t pm' → pageBase e ≠ t := fun htake heq =>
    (pm.isFrameAllocated_iff _).mp hf.allocated.marked (heq ▸ htake.free)
  have hfree : pm.Takes t pm' → ∀ x : Site, x.Of dirs → x.frame pm.ram ≠ some t := fun htake _ hx =>
    h.not_site_of_free htake.free hx
  refine h.of_keeps hk (fun d' hd' i' hi' hi'' => ?_) (fun x hx f hfx => ?_)
    fun x y hx hy f hfx hfy => ?_
  · exact he.load d' hd' i' hi'' fun hc => absurd hc.2 (by omega)
  · rcases frame_of_entered he hx hfx with ⟨hold, -⟩ | ⟨-, rfl⟩ | ⟨-, rfl, htake⟩
    · exact hk.allocated (h.allocated x hx f hold)
    · exact hk.allocated hf.allocated
    · exact h.takes_allocated htake
  · rcases frame_of_entered he hx hfx with ⟨holdx, -⟩ | ⟨rfl, rfl⟩ | ⟨rfl, rfl, htake⟩
    · rcases frame_of_entered he hy hfy with ⟨holdy, -⟩ | ⟨-, rfl⟩ | ⟨-, rfl, htake⟩
      · exact h.unique x y hx hy f holdx holdy
      · exact absurd holdx (hf.not_site x hx)
      · exact absurd holdx (hfree htake x hx)
    · rcases frame_of_entered he hy hfy with ⟨holdy, -⟩ | ⟨rfl, -⟩ | ⟨-, heq, htake⟩
      · exact absurd holdy (hf.not_site y hy)
      · rfl
      · exact absurd heq (hnew htake)
    · rcases frame_of_entered he hy hfy with ⟨holdy, -⟩ | ⟨-, heq⟩ | ⟨rfl, -, -⟩
      · exact absurd holdy (hfree htake y hy)
      · exact absurd heq.symm (hnew htake)
      · rfl

/-- The entered frame stays one that holds data. -/
theorem dataFrame_of_entered (h : Isolated pm dirs) (hd : d ∈ dirs) (hi : i < 768)
    (he : Entered pm pm' dirs d i j t e) (hf : Held pm dirs (pageBase e)) :
    DataFrame pm' dirs (pageBase e) := by
  refine ⟨(h.entered_keeps hd hi he).allocated hf.allocated, hf.dataFrame.not_dir,
    fun d' hd' i' hi' ht => ?_⟩
  rcases frame_of_entered he (.table hd' hi') ht with ⟨hold, -⟩ | ⟨hsite, -⟩ | ⟨-, heq, htake⟩
  · exact hf.not_site _ (.table hd' hi') hold
  · cases hsite
  · exact (pm.isFrameAllocated_iff _).mp hf.allocated.marked (heq ▸ htake.free)

variable {flags : Word}

/-- The frame of a user page holds data. -/
theorem dataFrame_of_entry (h : Isolated pm dirs) (hd : d ∈ dirs) (hi : i < 768) (hj : j < 1024)
    (he : entryAt pm.ram d i j = some e) : DataFrame pm dirs (pageBase e) := by
  have hsite : (Site.page d i j).frame pm.ram = some (pageBase e) := by rw [Site.frame, he]; rfl
  have hof : (Site.page d i j).Of dirs := .page hd hi hj
  refine ⟨h.allocated _ hof _ hsite, fun hdir => ?_, fun d' hd' i' hi' ht => ?_⟩
  · cases h.unique _ _ hof (.dir hdir) _ hsite rfl
  · cases h.unique _ _ hof (.table hd' hi') _ hsite ht

/-- Without a page table and without a frame for one, `map_page` changes nothing. -/
theorem mapPage_fails (h : Isolated pm dirs)
    (hfail : ¬(tableAt pm.ram d (pdIndex va) ≠ none ∨ pm.allocFrame.1 ≠ 0)) (pa flags : Word) :
    tableAt pm.ram d (pdIndex va) = none ∧ (∀ k, ¬pm.FreeFrame k) ∧
      pm.mapPage d va pa flags = pm := by
  obtain ⟨htable, halloc⟩ := not_or.mp hfail
  have hnone := not_not.mp htable
  have hzero := not_not.mp halloc
  obtain ⟨hfree, hsame⟩ := pm.allocFrame_fails h.not_free_zero hzero
  exact ⟨hnone, hfree, (PhysMem.mapPage_of_none hnone hzero).trans hsame⟩

/-- Mapping a held frame to a user page, whether or not a page table can be allocated. -/
theorem of_mapPage (h : Isolated pm dirs) (hd : d ∈ dirs) (hva : pdIndex va < 768)
    (hflags : flags.toNat < 4096) (hf : Held pm dirs f) :
    Isolated (pm.mapPage d va f flags) dirs ∧ pm.Keeps (pm.mapPage d va f flags) ∧
      DataFrame (pm.mapPage d va f flags) dirs f := by
  have hbase : pageBase (f ||| flags) = f := pageBase_or hf.allocated.aligned hflags
  by_cases hok : tableAt pm.ram d (pdIndex va) ≠ none ∨ pm.allocFrame.1 ≠ 0
  · obtain ⟨t, he⟩ := h.forest.mapPage_entered f flags hd hva hok
    have hf' : Held pm dirs (pageBase (f ||| flags)) := hbase.symm ▸ hf
    have hdata := h.dataFrame_of_entered hd hva he hf'
    rw [hbase] at hdata
    exact ⟨h.of_entered hd hva he hf', h.entered_keeps hd hva he, hdata⟩
  · obtain ⟨-, -, hsame⟩ := h.mapPage_fails hok f flags
    rw [hsame]
    exact ⟨h, .refl pm, hf.dataFrame⟩

/-! ### New directories -/

/-- A held frame whose user half is empty, and whose kernel half is the kernel's, becomes a
directory. -/
theorem insert_dir (h : Isolated pm dirs) (hf : Held pm dirs f)
    (hempty : ∀ i < 768, tableAt pm.ram f i = none)
    (hHalf : ∀ i, 768 ≤ i → i < 1024 →
      pm.ram.load f i = pm.ram.load pm.kernelPageDirectory i) :
    Isolated pm (insert f dirs) := by
  have hcases : ∀ x : Site, x.Of (insert f dirs) → ∀ g, x.frame pm.ram = some g →
      (x = .dir f ∧ g = f) ∨ x.Of dirs := by
    intro x hx g hg
    cases hx with
    | @dir d hd =>
      rcases hd with rfl | hd
      · exact .inl ⟨rfl, (Option.some.inj hg).symm⟩
      · exact .inr (.dir hd)
    | @table d i hd hi =>
      rcases hd with rfl | hd
      · rw [Site.frame, hempty i hi] at hg
        cases hg
      · exact .inr (.table hd hi)
    | @page d i j hd hi hj =>
      rcases hd with rfl | hd
      · rw [Site.frame, entryAt_none (hempty i hi)] at hg
        cases hg
      · exact .inr (.page hd hi hj)
  refine { h with kernelHalf := ?_, allocated := ?_, unique := ?_ }
  · rintro d (rfl | hd) i hi hi'
    · exact hHalf i hi hi'
    · exact h.kernelHalf d hd i hi hi'
  · intro x hx g hg
    rcases hcases x hx g hg with ⟨-, rfl⟩ | hx'
    · exact hf.allocated
    · exact h.allocated x hx' g hg
  · intro x y hx hy g hgx hgy
    rcases hcases x hx g hgx with ⟨rfl, rfl⟩ | hx'
    · rcases hcases y hy g hgy with ⟨rfl, -⟩ | hy'
      · rfl
      · exact absurd hgy (hf.not_site y hy')
    · rcases hcases y hy g hgy with ⟨-, rfl⟩ | hy'
      · exact absurd hgx (hf.not_site x hx')
      · exact h.unique x y hx' hy' g hgx hgy

end Isolated

end Lbos

import Lbos.Kernel.Ownership
import Lbos.Kernel.SpawnSupply
import Lbos.Mem.PageContents

/-! The pages of a child: `sys_fork` copies each page of the parent to a new frame, with the parent's
flags, and leaves the parent as it was. -/

namespace Lbos

open Lib Mem

/-- No call of `alloc_frame` for one entry of the parent returns 0: not the one for the copy, and not
the one for its table where `map_page` needs it. -/
def ForkPageAllocs (childCr3 parentPageTable : Word) (pdeIdx pteIdx : Nat) (pm : PhysMem) : Prop :=
  present (pm.load parentPageTable pteIdx) = true → pm.allocFrame.1 ≠ 0 ∧
    MapSucceeds (pm.allocFrame.2.copy (pm.allocFrame.2.physToVirt pm.allocFrame.1)
        (pm.allocFrame.2.physToVirt (pm.load parentPageTable pteIdx &&& ~~~0xFFF)) frameSize.toNat)
      childCr3 ((BitVec.ofNat 32 pdeIdx <<< 22) ||| (BitVec.ofNat 32 pteIdx <<< 12))

def ForkTableAllocs (childCr3 parentPageDir : Word) (pdeIdx : Nat) (pm : PhysMem) : Prop :=
  present (pm.load parentPageDir pdeIdx) = true →
    let parentPageTable := pm.physToVirt (pm.load parentPageDir pdeIdx &&& ~~~0xFFF)
    EachRound (forkPage childCr3 parentPageTable pdeIdx)
      (ForkPageAllocs childCr3 parentPageTable pdeIdx) 1024 0 pm

/-- No call of `alloc_frame` in `sys_fork` returns 0. -/
def Kernel.SysForkAllocs (k : Kernel) : Prop :=
  ∀ current, k.currentProcess = some current → k.mem.allocFrame.1 ≠ 0 ∧
    let mem := k.mem.createPageDirectory.2
    let cr3 := mem.virtToPhys k.mem.createPageDirectory.1
    let parentPageDir := mem.physToVirt (k.cr3 current)
    EachRound (forkTable cr3 parentPageDir) (ForkTableAllocs cr3 parentPageDir)
      (kernelVirtualStart / 0x400000).toNat 0 mem

/-- The page of entry `j` in table `i` of directory `d` is a copy of that of directory `p` in `ram`:
both are absent, or they agree in their flags and their bytes. -/
structure Cloned (ram ram' : Mem) (p d : Word) (i j : Nat) : Prop where
  flags : (entryAt ram' d i j).map (· &&& 0xFFF) = (entryAt ram p i j).map (· &&& 0xFFF)
  bytes : ∀ e e', entryAt ram p i j = some e → entryAt ram' d i j = some e' →
    ∀ o : Word, o.toNat < 4096 → ram' (pageBase e' + o) = ram (pageBase e + o)

/-- The copy before entry `n`, counted over all tables: the parent's pages hold what they held in
`ram`, those before `n` are copied, and the child has no others. -/
structure Cloning (dirs : Set Word) (g : PageFrameAllocator) (ram : Mem) (p d : Word) (n : Nat)
    (s : PhysMem) : Prop extends Isolated.Copying dirs g ram p s where
  kept : ∀ i < 768, ∀ j < 1024, ∀ e, entryAt ram p i j = some e → ∀ x, pageOf x = pageOf e →
    s.ram x = ram x
  cloned : ∀ i < 768, ∀ j < 1024, i * 1024 + j < n → Cloned ram s.ram p d i j
  absent : ∀ i < 768, ∀ j < 1024, n ≤ i * 1024 + j → entryAt s.ram d i j = none

theorem cloned_none {ram ram' : Mem} {p d : Word} {i j : Nat} (hp : entryAt ram p i j = none)
    (hd : entryAt ram' d i j = none) : Cloned ram ram' p d i j := by
  refine ⟨by rw [hp, hd], fun e e' he => ?_⟩
  rw [hp] at he
  cases he

section Loop

variable {dirs : Set Word} {g : PageFrameAllocator} {ram : Mem} {p d t f va flags : Word}
  {i j n : Nat} {s s' : PhysMem}

/-- Entries that the parent does not have need no copy. -/
theorem Cloning.skip (h : Cloning dirs g ram p d n s) {m : Nat} (hle : n ≤ m)
    (hnone : ∀ i < 768, ∀ j < 1024, n ≤ i * 1024 + j → i * 1024 + j < m →
      entryAt ram p i j = none) : Cloning dirs g ram p d m s := by
  refine ⟨h.toCopying, h.kept, fun i hi j hj hlt => ?_, fun i hi j hj hge =>
    h.absent i hi j hj (Nat.le_trans hle hge)⟩
  rcases Nat.lt_or_ge (i * 1024 + j) n with hlt' | hge
  · exact h.cloned i hi j hj hlt'
  · exact cloned_none (hnone i hi j hj hge hlt) (h.absent i hi j hj hge)

/-- A page that is added to the child for the next entry. -/
theorem Cloning.added (h : Cloning dirs g ram p d n s) (hn : n = i * 1024 + j) (hd : d ∈ dirs)
    (hp : p ∈ dirs) (hne : p ≠ d) (hi : i < 768) (hj : j < 1024) (hadded : PageAdded s s' dirs d va f flags)
    (hpd : pdIndex va = i) (hpt : ptIndex va = j) (hnew : Cloned ram s'.ram p d i j) :
    Cloning dirs g ram p d (n + 1) s' := by
  have hsame : SameUserHalf s.ram s'.ram p := by
    refine ⟨hadded.table p hp hne, fun i' hi' j' hj' => ?_⟩
    rw [hadded.entry p hp i' hi' j' hj', if_neg fun hc => hne hc.1]
  have hother : ∀ i' < 768, ∀ j' < 1024, i' * 1024 + j' ≠ n →
      entryAt s'.ram d i' j' = entryAt s.ram d i' j' := fun i' hi' j' hj' hcount => by
    rw [hadded.entry d hd i' hi' j' hj', if_neg fun hc => hcount ?_]
    rw [hc.2.1, hc.2.2, hpd, hpt, hn]
  refine ⟨⟨hadded.isolated, hadded.keeps.pfa.trans h.pfa, h.parent.trans hsame⟩,
    fun i' hi' j' hj' e he x hx => ?_, fun i' hi' j' hj' hlt => ?_, fun i' hi' j' hj' hge => ?_⟩
  · have hentry := (h.parent.entry i' hi' j' hj').trans he
    exact (hadded.bytes p hp i' hi' j' hj' e hentry x hx).trans (h.kept i' hi' j' hj' e he x hx)
  · by_cases heq : i' * 1024 + j' = n
    · obtain ⟨rfl, rfl⟩ : i' = i ∧ j' = j := by omega
      exact hnew
    · have hold := h.cloned i' hi' j' hj' (by omega)
      have hentry := hother i' hi' j' hj' heq
      refine ⟨hentry ▸ hold.flags, fun e e' he he' o ho => ?_⟩
      rw [hentry] at he'
      exact (hadded.bytes d hd i' hi' j' hj' e' he' _ (pageOf_pageBase_add e' ho)).trans
        (hold.bytes e e' he he' o ho)
  · rw [hother i' hi' j' hj' (by omega)]
    exact h.absent i' hi' j' hj' (by omega)

/-- An entry as the code reads it through the address of its table. -/
theorem Cloning.load (h : Cloning dirs g ram p d n s) (t : Word) (j : Nat) :
    s.load (g.physToVirt t) j = s.ram.load t j := by
  rw [PhysMem.load, PageFrameAllocator.load, h.pfa, PageFrameAllocator.virtToPhys_physToVirt]

/-- One entry of the parent. -/
theorem Cloning.forkPage (h : Cloning dirs g ram p d n s) (hn : n = i * 1024 + j) (hd : d ∈ dirs)
    (hp : p ∈ dirs) (hne : p ≠ d) (hi : i < 768) (hj : j < 1024) (ht : tableAt ram p i = some t)
    (hallocs : ForkPageAllocs d (g.physToVirt t) i j s) :
    Cloning dirs g ram p d (n + 1) (forkPage d (g.physToVirt t) i j s).2 := by
  have hentry : entryAt ram p i j =
      if present (s.ram.load t j) then some (s.ram.load t j) else none := by
    rw [← h.parent.entry i hi j hj, entryAt, h.parent.table i hi, ht, Option.bind_some]
  unfold ForkPageAllocs at hallocs
  unfold Lbos.forkPage
  rw [h.load t j] at hallocs ⊢
  split
  · next hpresent =>
    obtain ⟨hz, hok⟩ := hallocs hpresent
    rw [if_pos hpresent] at hentry
    have hpd := Isolated.pdIndex_forkPage (show i < 1024 by omega) hj
    have hpt := Isolated.ptIndex_forkPage (show i < 1024 by omega) hj
    have hflags := Isolated.pageFlags_lt (s.ram.load t j)
    have hsource := hentry
    rw [← h.parent.entry i hi j hj] at hsource
    have hdata := h.isolated.dataFrame_of_entry hp hi hj hsource
    have hcopied := h.isolated.copied_of_alloc hz
      (s.allocFrame.2.physToVirt (s.ram.load t j &&& ~~~0xFFF))
    generalize (BitVec.ofNat 32 i <<< 22) ||| (BitVec.ofNat 32 j <<< 12) = va at hpd hpt hok ⊢
    have hadd := h.isolated.copyPage_added hd (hpd ▸ hi) hflags
      (Isolated.present_flags hpresent) hz hdata hok rfl
    simp only [hz, if_false]
    generalize s.allocFrame.2.copy (s.allocFrame.2.physToVirt s.allocFrame.1)
      (s.allocFrame.2.physToVirt (s.ram.load t j &&& ~~~0xFFF)) frameSize.toNat = c at hcopied hadd ⊢
    generalize s.allocFrame.1 = f at hcopied hadd ⊢
    have hload : c.load (g.physToVirt t) j = s.ram.load t j := by
      rw [PhysMem.load, PageFrameAllocator.load, hcopied.pfa, h.pfa,
        PageFrameAllocator.virtToPhys_physToVirt]
      exact Isolated.load_entry (h.parent.trans (hcopied.same p hp)) hi hj ht hentry
    rw [hload]
    obtain ⟨hadded, hbytes⟩ := hadd
    have hnew := hadded.entry d hd i hi j hj
    rw [if_pos ⟨rfl, hpd.symm, hpt.symm⟩] at hnew
    refine h.added hn hd hp hne hi hj hadded hpd hpt ⟨?_, fun e e' he he' o ho => ?_⟩
    · rw [hnew, hentry, Option.map_some, Option.map_some, pageFlags_or hadded.aligned]
      rw [BitVec.and_assoc, BitVec.and_self]
    · obtain rfl := Option.some.inj (hentry.symm.trans he)
      obtain rfl := Option.some.inj (hnew.symm.trans he')
      rw [pageBase_or hadded.aligned hflags, hbytes o ho]
      exact h.kept i hi j hj _ hentry _ (pageOf_pageBase_add _ ho)
  · next habsent =>
    rw [if_neg habsent] at hentry
    refine h.skip (Nat.le_succ _) fun i' hi' j' hj' hge hlt => ?_
    obtain ⟨rfl, rfl⟩ : i' = i ∧ j' = j := by omega
    exact hentry

/-- One page table of the parent. -/
theorem Cloning.forkTable (h : Cloning dirs g ram p d (i * 1024) s) (hd : d ∈ dirs) (hp : p ∈ dirs)
    (hne : p ≠ d) (hi : i < 768) (hallocs : ForkTableAllocs d (g.physToVirt p) i s)
    (hdone : (forkTable d (g.physToVirt p) i s).1 = true) :
    Cloning dirs g ram p d ((i + 1) * 1024) (forkTable d (g.physToVirt p) i s).2 := by
  have htable : tableAt ram p i =
      if present (s.ram.load p i) then some (pageBase (s.ram.load p i)) else none := by
    rw [← h.parent.table i hi, tableAt]
  have hcount : (i + 1) * 1024 = i * 1024 + (0 + 1024) := by omega
  unfold ForkTableAllocs at hallocs
  unfold Lbos.forkTable at hdone ⊢
  rw [h.load p i] at hallocs hdone ⊢
  split at hdone
  · next hpresent =>
    have heach := hallocs hpresent
    have hvirt : s.physToVirt (s.ram.load p i &&& ~~~0xFFF) =
        g.physToVirt (pageBase (s.ram.load p i)) := by
      rw [PhysMem.physToVirt, h.pfa]
      rfl
    rw [if_pos hpresent] at htable ⊢
    rw [hvirt] at heach hdone ⊢
    have hloop := loopWhile_eachRound _ _ (fun j s => Cloning dirs g ram p d (i * 1024 + j) s)
      (by rwa [Nat.add_zero]) heach hdone fun j s' _ hj hs halloc _ => by
        rw [← Nat.add_assoc]
        exact hs.forkPage rfl hd hp hne hi (by omega) htable halloc
    rwa [← hcount] at hloop
  · next habsent =>
    rw [if_neg habsent] at htable ⊢
    refine h.skip (by omega) fun i' hi' j' hj' hge hlt => ?_
    obtain rfl : i' = i := by omega
    exact entryAt_none htable

/-- The whole copy. -/
theorem Cloning.forkLoop (h : Cloning dirs g ram p d 0 s) (hd : d ∈ dirs) (hp : p ∈ dirs)
    (hne : p ≠ d)
    (heach : EachRound (Lbos.forkTable d (g.physToVirt p)) (ForkTableAllocs d (g.physToVirt p))
      768 0 s)
    (hdone : (loopWhile (Lbos.forkTable d (g.physToVirt p)) 768 0 s).1 = true) :
    Cloning dirs g ram p d (768 * 1024)
      (loopWhile (Lbos.forkTable d (g.physToVirt p)) 768 0 s).2 := by
  have hloop := loopWhile_eachRound _ _ (fun i s => Cloning dirs g ram p d (i * 1024) s)
    (by rwa [Nat.zero_mul]) heach hdone fun _ _ _ hi hs hallocs htrue =>
      hs.forkTable hd hp hne (by omega) hallocs htrue
  rwa [Nat.zero_add] at hloop

/-- What user addresses read in a copied address space. -/
theorem Cloning.byte (h : Cloning dirs g ram p d (768 * 1024) s) {v : Word} (hv : pdIndex v < 768) :
    (translate s.ram d v).map s.ram = (translate ram p v).map ram := by
  have hj := ptIndex_lt v
  obtain ⟨hflags, hbytes⟩ := h.cloned _ hv _ hj (by omega)
  cases he : entryAt ram p (pdIndex v) (ptIndex v) with
  | none =>
    rw [he, Option.map_none, Option.map_eq_none_iff] at hflags
    rw [translate_eq_none hflags, translate_eq_none he]
    rfl
  | some e =>
    obtain ⟨e', he', -⟩ := Option.map_eq_some_iff.mp (hflags.trans (congrArg _ he))
    have hoff := toNat_pageOffset v
    rw [byte_of_entry he, byte_of_entry he', hbytes e e' he he' _ (by omega)]

end Loop

/-- The copy into a new directory begins with the parent as it is, and no page of the child. -/
theorem Isolated.NewDirectory.cloning {pm pm' : PhysMem} {dirs : Set Word} {p d : Word}
    (hnew : NewDirectory pm pm' dirs d) (h : Isolated pm dirs) (hp : p ∈ dirs) :
    Cloning (insert d dirs) pm'.pfa pm.ram p d 0 pm' := by
  refine ⟨⟨hnew.isolated, rfl, h.newDirectory_sameUserHalf hnew hp⟩,
    fun i hi j hj e he x hx => hnew.ram x fun heq => ?_, fun i _ j _ hlt => absurd hlt (Nat.not_lt_zero _),
    fun i hi j _ _ => entryAt_none (hnew.empty i hi)⟩
  have hdata := (h.dataFrame_of_entry hp hi hj he).allocated
  have hpage : pageOf (pageBase e) = pageOf d := (pageOf_pageBase e).trans (hx.symm.trans heq)
  obtain rfl := hdata.aligned.pageOf_inj hnew.takes.aligned hpage
  exact (pm.isFrameAllocated_iff _).mp hdata.marked hnew.takes.free

/-! ### Enough frames -/

namespace Isolated

variable {pm : PhysMem} {dirs : Set Word} {d table : Word} {p q : Nat}

/-- After an `alloc_frame` that returned 0 no frame is left. -/
theorem exhausted_of_forkPage (h : Isolated pm dirs) (hd : d ∈ dirs) (hp : p < 768) (hq : q < 1024)
    (hnot : ¬ForkPageAllocs d table p q pm) : (forkPage d table p q pm).2.Exhausted := by
  obtain ⟨hpresent, hfail⟩ := Classical.not_imp.mp hnot
  by_cases hz : pm.allocFrame.1 = 0
  · obtain ⟨-, hkeep, -⟩ : Isolated (forkPage d table p q pm).2 dirs ∧ _ := h.of_forkPage hd hp hq
    exact hkeep.exhausted (pm.allocFrame_fails h.not_free_zero hz).1
  · have hcopied := h.copied_of_alloc hz
      (pm.allocFrame.2.physToVirt (pm.load table q &&& ~~~0xFFF))
    have hva : pdIndex ((BitVec.ofNat 32 p <<< 22) ||| (BitVec.ofNat 32 q <<< 12)) < 768 := by
      rwa [pdIndex_forkPage (by omega) hq]
    have hmap := fun hs => hfail ⟨hz, hs⟩
    unfold forkPage
    simp only [hpresent, if_true, hz, if_false]
    generalize pm.allocFrame.2.copy (pm.allocFrame.2.physToVirt pm.allocFrame.1)
      (pm.allocFrame.2.physToVirt (pm.load table q &&& ~~~0xFFF)) frameSize.toNat = c at hcopied hmap ⊢
    have hzero : c.allocFrame.1 = 0 := by
      by_contra hnz
      exact hmap (.inr hnz)
    obtain ⟨-, hkeep, -⟩ := hcopied.isolated.of_mapPage hd hva (pageFlags_lt (c.load table q))
      hcopied.held
    exact hkeep.exhausted (c.allocFrame_fails hcopied.isolated.not_free_zero hzero).1

theorem exhausted_of_forkTable (h : Isolated pm dirs) (hd : d ∈ dirs) (hp : p < 768)
    (hnot : ¬ForkTableAllocs d table p pm) : (forkTable d table p pm).2.Exhausted := by
  obtain ⟨hpresent, hfail⟩ := Classical.not_imp.mp hnot
  by_contra hleft
  unfold forkTable at hleft
  rw [if_pos hpresent] at hleft
  refine hfail (eachRound_of_end _ _ (fun s => Isolated s dirs) PhysMem.Exhausted h
    (fun q s _ hq hs => ?_) hleft)
  obtain ⟨hiso, hkeep, -⟩ := hs.of_forkPage hd hp (show q < 1024 by omega)
  exact ⟨hiso, fun hc => hc.elim hkeep.exhausted fun hnot =>
    hs.exhausted_of_forkPage hd hp (by omega) hnot⟩

end Isolated

namespace Kernel

/-- Memory in which the processes of `k` have any address spaces: any pages in frames of their own,
with any flags and contents. -/
structure Repaged (k : Kernel) (mem : PhysMem) : Prop where
  keeps : k.mem.Keeps mem
  isolated : Isolated mem k.dirs

/-- Between `k` and `k'` the user half of process `parent` was copied to that of process `child`. -/
structure ForkCloned (k k' : Kernel) (parent child : Slot) : Prop where
  flags : ∀ v < kernelVirtualStart,
    (entryAt k'.mem.ram (k'.cr3 child) (pdIndex v) (ptIndex v)).map (· &&& 0xFFF) =
      (entryAt k.mem.ram (k.cr3 parent) (pdIndex v) (ptIndex v)).map (· &&& 0xFFF)
  bytes : ∀ v < kernelVirtualStart, k'.userByte child v = k.userByte parent v
  frames : ∀ pde pte n, k'.Uses (.page child pde pte) n →
    ∀ u, k'.Uses u n → u = .page child pde pte
  parent_entry : ∀ v < kernelVirtualStart,
    entryAt k'.mem.ram (k'.cr3 parent) (pdIndex v) (ptIndex v) =
      entryAt k.mem.ram (k.cr3 parent) (pdIndex v) (ptIndex v)
  parent_translation : ∀ v,
    translate k'.mem.ram (k'.cr3 parent) v = translate k.mem.ram (k.cr3 parent) v
  parent_bytes : ∀ v < kernelVirtualStart, k'.userByte parent v = k.userByte parent v

variable {k k' : Kernel} {parent child : Slot} {d : Word}

theorem repaged_self (hk : k.WellFormed) : k.Repaged k.mem := ⟨.refl _, hk.isolated⟩

/-- The memory that a fork with a child leaves behind. -/
theorem sysFork_cloning (hk : k.WellFormed) (hcur : k.currentProcess = some parent)
    (hnew : Created k k.sysFork.2 child d (k.childBirth parent)) (hallocs : k.SysForkAllocs) :
    ∃ g, Cloning (insert d k.dirs) g k.mem.ram (k.cr3 parent) d (768 * 1024) k.sysFork.2.mem := by
  have hlive := (hk.current parent hcur).not_free
  have hp : k.cr3 parent ∈ k.dirs := hk.current_dir hcur
  obtain ⟨hz, heach⟩ := hallocs parent hcur
  rcases hk.isolated.createPageDirectory_new with ⟨hnone, -⟩ | ⟨d', mem, hr, hne, hphys, hdir⟩
  · exact absurd (k.mem.allocFrame_takes hz).free (hnone _)
  obtain ⟨hmem, hstate, hcr3⟩ := sysFork_memory hcur hlive hnew.slot hr hne hphys
  rw [hr] at heach
  simp only [hphys] at heach
  have hdone : (loopWhile (forkTable d' (mem.physToVirt (k.cr3 parent))) 768 0 mem).1 = true := by
    by_contra hfalse
    rw [hnew.new] at hstate
    have hready := hstate.trans (if_neg hfalse)
    cases hready
  have hd : d = d' := by
    have hchild := hcr3 hdone
    rwa [hnew.new] at hchild
  have hdp : k.cr3 parent ≠ d := fun heq => hnew.new_dir (heq ▸ hp)
  subst hd
  rw [hmem]
  exact ⟨mem.pfa, (hdir.cloning hk.isolated hp).forkLoop (Set.mem_insert _ _)
    (Set.mem_insert_of_mem _ hp) hdp heach hdone⟩

/-- A fork with a child has copied the parent. -/
theorem Created.forkCloned (hk : k.WellFormed) (hcur : k.currentProcess = some parent)
    (hnew : Created k k.sysFork.2 child d (k.childBirth parent)) (hallocs : k.SysForkAllocs) :
    ForkCloned k k.sysFork.2 parent child := by
  have hp : k.cr3 parent ∈ k.dirs := hk.current_dir hcur
  obtain ⟨g, hcloning⟩ := sysFork_cloning hk hcur hnew hallocs
  obtain ⟨k', hafter, hk', -⟩ := hk.after .sysFork
  obtain rfl : k.sysFork.2 = k' := Option.some.inj hafter
  have hne : parent ≠ child := fun heq =>
    (hk.current parent hcur).not_free (heq ▸ (findFree_some hnew.slot).1)
  have hchild : k.sysFork.2.cr3 child = d := by rw [cr3, hnew.new]
  have hparent : k.sysFork.2.cr3 parent = k.cr3 parent := by rw [cr3, hnew.others hne, cr3]
  have hentry : ∀ v < kernelVirtualStart,
      entryAt k.sysFork.2.mem.ram (k.cr3 parent) (pdIndex v) (ptIndex v) =
        entryAt k.mem.ram (k.cr3 parent) (pdIndex v) (ptIndex v) := fun v hv =>
    hcloning.parent.entry _ (pdIndex_user hv) _ (ptIndex_lt v)
  have htranslate : ∀ v,
      translate k.sysFork.2.mem.ram (k.cr3 parent) v = translate k.mem.ram (k.cr3 parent) v := by
    intro v
    by_cases hv : pdIndex v < 768
    · rw [translate, translate, hcloning.parent.entry _ hv _ (ptIndex_lt v)]
    · exact hk.isolated.translate_kernel hnew.isolated hnew.keeps hp (Set.mem_insert_of_mem d hp) hv
  exact {
    flags := fun v hv => by
      have hi := pdIndex_user hv
      have hj := ptIndex_lt v
      rw [hchild]
      exact (hcloning.cloned _ hi _ hj (by omega)).flags
    bytes := fun v hv => by
      rw [userByte, hchild]
      exact hcloning.byte (pdIndex_user hv)
    frames := fun pde pte n hn u hu => hu.unique hk' hn
    parent_entry := fun v hv => by rw [hparent, hentry v hv]
    parent_translation := fun v => by rw [hparent, htranslate v]
    parent_bytes := fun v hv => by
      rw [userByte, hparent, htranslate v, userByte]
      refine Option.map_congr fun pa hpa => ?_
      obtain ⟨e, he, hpage⟩ := translate_page hpa
      exact hcloning.kept _ (pdIndex_user hv) _ (ptIndex_lt v) e he pa
        (hpage.trans (pageOf_pageBase e)) }

/-- A fork that finds a slot and leaves a frame has met no `alloc_frame` that returned 0. -/
theorem sysForkAllocs_of_left (hk : k.WellFormed) (hi : k.findFree = some child)
    (hleft : ¬k.sysFork.2.mem.Exhausted) : k.SysForkAllocs := by
  intro current hcur
  have hlive := (hk.current current hcur).not_free
  obtain ⟨k', hafter, -, hkeep⟩ := hk.after .sysFork
  obtain rfl : k.sysFork.2 = k' := Option.some.inj hafter
  rcases hk.isolated.createPageDirectory_new with ⟨hnone, -⟩ | ⟨d, mem, hr, hne, hphys, hdir⟩
  · exact absurd (hkeep.exhausted hnone) hleft
  refine ⟨fun hz => hleft (hkeep.exhausted
    (k.mem.allocFrame_fails hk.isolated.not_free_zero hz).1), ?_⟩
  obtain ⟨hmem, -⟩ := sysFork_memory hcur hlive hi hr hne hphys
  have hpde : (kernelVirtualStart / 0x400000).toNat = 768 := by decide
  rw [hmem] at hleft
  rw [hr, hpde]
  simp only [hphys]
  have hd : d ∈ insert d k.dirs := Set.mem_insert d k.dirs
  refine eachRound_of_end _ _ (fun s => Isolated s (insert d k.dirs)) PhysMem.Exhausted
    hdir.isolated (fun i s _ hi hs => ?_) hleft
  obtain ⟨hiso, hkeep, -⟩ := hs.of_forkTable hd (show i < 768 by omega)
  exact ⟨hiso, fun hc => hc.elim hkeep.exhausted fun hnot =>
    hs.exhausted_of_forkTable hd (by omega) hnot⟩

end Kernel

/-- In every reachable state and for all address spaces there, a fork that succeeds with no frame
missing gives the child the pages of its parent, which keeps its own. -/
theorem forkCloned_of_reach {img : KernelImage} {k : Kernel} (h : img.system.Reach k)
    {mem : PhysMem} (hmem : k.Repaged mem) (hallocs : (k.setMem mem).SysForkAllocs) {pid : Word}
    (hret : (k.setMem mem).sysFork.1 = .ret pid) (hpid : pid ≠ -1) :
    ∃ parent child, k.currentProcess = some parent ∧ (k.processTable child).state = .free ∧
      ((k.setMem mem).sysFork.2.processTable child).state = .ready ∧
      ((k.setMem mem).sysFork.2.processTable child).pid = pid ∧
      (k.setMem mem).ForkCloned (k.setMem mem).sysFork.2 parent child := by
  have hk := (KernelImage.running_of_reach h).wellFormed.setMem hmem.isolated hmem.keeps
  have hslot : ∀ i, ((k.setMem mem).processTable i).state = (k.processTable i).state := fun _ => rfl
  have hcurrent : (k.setMem mem).currentProcess = k.currentProcess := rfl
  generalize k.setMem mem = k at *
  cases hcur : k.currentProcess with
  | none =>
    rw [Kernel.sysFork, hcur] at hret
    exact absurd (Exit.ret.inj hret).symm hpid
  | some parent =>
    obtain ⟨r, hr, hspawn⟩ := Kernel.sysFork_spawn hk.isolated hcur (hk.current parent hcur).not_free
    cases hspawn with
    | noSlot =>
      rw [hr] at hret
      exact absurd (Exit.ret.inj hret).symm hpid
    | failed =>
      rw [hr] at hret
      exact absurd (Exit.ret.inj hret).symm hpid
    | @created k' child d hnew =>
      obtain rfl : k.sysFork.2 = k' := congrArg Prod.snd hr
      rw [hr] at hret
      have hnext := Exit.ret.inj hret
      refine ⟨parent, child, hcurrent ▸ hcur, hslot child ▸ (Kernel.findFree_some hnew.slot).1, ?_, ?_,
        hnew.forkCloned hk hcur hallocs⟩
      · rw [hnew.new]
      · rw [hnew.new]
        exact hnext

/-- The sample kernel's first program forks. -/
theorem forkCloned_of_reach_sample :
    ∃ k parent child, KernelImage.sample.system.Reach k ∧ k.currentProcess = some parent ∧
      k.ForkCloned k.sysFork.2 parent child := by
  obtain ⟨k, i, j, d, hreach, hcur, -, -, hnew, hleft⟩ := KernelImage.sample_fork
  have hk := (KernelImage.running_of_reach hreach).wellFormed
  have hallocs : k.SysForkAllocs := Kernel.sysForkAllocs_of_left hk hnew.slot fun hnone => by
    rw [PhysMem.freeCount_eq_zero_iff.mpr hnone] at hleft
    exact absurd hleft (Nat.lt_irrefl 0)
  obtain ⟨hfail, -⟩ := hk.nextPid_fresh hnew.free
  obtain ⟨parent, child, hparent, -, -, -, hcloned⟩ :=
    forkCloned_of_reach hreach (Kernel.repaged_self hk) hallocs (hnew.fork_returns hk hcur) hfail
  exact ⟨k, parent, child, hreach, hparent, hcloned⟩

end Lbos

import Lbos.Kernel.Ownership
import Lbos.Kernel.PagesMapped
import Lbos.Mem.PageContents

/-! The pages of a new process: `create_process` copies the bytes of the module to new frames, fills
the last page up with zeros, and maps nothing else. -/

namespace Lbos

open Lib Mem

/-- No call of `alloc_frame` in a round of the loop of `create_process` returns 0: not the one for
the page, and not the one for its table where `map_page` needs it. -/
def LoadPageAllocs (cr3 : Word) (i : Nat) (pm : PhysMem) : Prop :=
  pm.allocFrame.1 ≠ 0 ∧
    MapSucceeds pm.allocFrame.2 cr3 (userCodeStart + BitVec.ofNat 32 i * frameSize)

/-- No call of `alloc_frame` in `create_process` returns 0. -/
def Kernel.CreateProcessAllocs (k : Kernel) (moduleData moduleSize : Word) : Prop :=
  k.mem.allocFrame.1 ≠ 0 ∧
    let mem := k.mem.createPageDirectory.2
    let cr3 := mem.virtToPhys k.mem.createPageDirectory.1
    EachRound (loadPage cr3 moduleData moduleSize) (LoadPageAllocs cr3)
      ((moduleSize + frameSize - 1) / frameSize).toNat 0 mem

namespace Isolated

variable {pm : PhysMem} {dirs : Set Word} {d : Word} {i : Nat}

/-- A round of the load adds one page, which holds the bytes of the module at its offset, and zeros
behind the module's end. -/
theorem loadPage_added (h : Isolated pm dirs) (hd : d ∈ dirs) (data size : Word) (hi : i < 32768)
    (hsize : i * 4096 < size.toNat) (hallocs : LoadPageAllocs d i pm) :
    ∃ f, PageAdded pm (loadPage d data size i pm).2 dirs d
        (userCodeStart + BitVec.ofNat 32 i * frameSize) f 7 ∧
      ∀ o : Word, o.toNat < 4096 →
        (size.toNat ≤ i * 4096 + o.toNat → (loadPage d data size i pm).2.ram (f + o) = 0) ∧
        (i * 4096 + o.toNat < size.toNat →
          pageOf (pm.virtToPhys (data + BitVec.ofNat 32 i * frameSize) + o) ≠ pageOf f →
          (loadPage d data size i pm).2.ram (f + o) = (loadPage d data size i pm).2.ram
            (pm.virtToPhys (data + BitVec.ofNat 32 i * frameSize) + o)) := by
  obtain ⟨hz, hok⟩ := hallocs
  have hf := pm.allocFrame_takes hz
  obtain ⟨ram, hload, hout, hbytes⟩ := loadPage_eq (d := d) data size hi hsize hf hz rfl
  have hadded := (h.pageAdded hd (pdIndex_moduleUser hi) (show (7 : Word).toNat < 4096 by decide)
    (show present 7 = true by decide) hz (fun _ _ => rfl) hok hout).1
  rw [hload]
  refine ⟨pm.allocFrame.1, hadded, fun o ho => ⟨(hbytes o ho).1, fun hin hsrc => ?_⟩⟩
  have hpfa := hadded.keeps.pfa
  have hphys : ∀ a, (pm.allocFrame.2.mapPage d (userCodeStart + BitVec.ofNat 32 i * frameSize)
      pm.allocFrame.1 7).virtToPhys a = pm.virtToPhys a :=
    fun a => congrArg (fun g : PageFrameAllocator => g.virtToPhys a) hpfa
  have hbyte := (hbytes o ho).2 hin
  rw [hphys] at hbyte
  exact (hbyte hsrc).trans (hout _ hsrc).symm

end Isolated

/-- Page `i` of the module is behind directory `d`: zeros after the module's end, and before it the
bytes that the module has in `pm₀`, where these were not handed out since. -/
structure PageLoaded (pm₀ pm : PhysMem) (d data size : Word) (i : Nat) (f : Word) : Prop where
  aligned : PageAligned f
  entry : entryAt pm.ram d (modulePage i).1 (modulePage i).2 = some (f ||| 7)
  rest : ∀ o : Word, o.toNat < 4096 → size.toNat ≤ i * 4096 + o.toNat → pm.ram (f + o) = 0
  bytes : ∀ o : Word, o.toNat < 4096 → i * 4096 + o.toNat < size.toNat →
    ¬pm₀.HandedOut pm
      (pageOf (pm₀.virtToPhys (data + BitVec.ofNat 32 i * frameSize) + o)) →
    pm.ram (f + o) = pm₀.ram (pm₀.virtToPhys (data + BitVec.ofNat 32 i * frameSize) + o)

/-- The first `n` pages of the module are behind directory `d`, and no others. -/
structure ModuleLoaded (pm₀ pm : PhysMem) (dirs : Set Word) (d data size : Word) (n : Nat) : Prop
    extends Loaded pm₀ pm d where
  isolated : Isolated pm dirs
  pfa : pm.pfa = pm₀.pfa
  count : n + pm.freeCount ≤ 32768
  pages : ∀ i < n, ∃ f, PageLoaded pm₀ pm d data size i f
  absent : ∀ i < 768, ∀ j < 1024, (∀ m < n, modulePage m ≠ (i, j)) → entryAt pm.ram d i j = none

theorem modulePage_injective {i j : Nat} (h : modulePage i = modulePage j) : i = j := by
  obtain ⟨hdiv, hmod⟩ := Prod.mk.inj h
  omega

section Loop

variable {pm₀ pm pm' : PhysMem} {dirs : Set Word} {d data size f va : Word} {i n : Nat}

theorem pageOf_entry {f o flags : Word} (hf : PageAligned f) (ho : o.toNat < 4096)
    (hflags : flags.toNat < 4096) : pageOf (f + o) = pageOf (f ||| flags) := by
  rw [pageOf_add hf ho, ← pageOf_pageBase (f ||| flags), pageBase_or hf hflags]

/-- A page that is added elsewhere leaves a page of the module as it is. -/
theorem PageLoaded.added (h : PageLoaded pm₀ pm d data size i f) {f' : Word}
    (hadded : PageAdded pm pm' dirs d va f' 7) (hd : d ∈ dirs) (hi : i < 32768)
    (hne : modulePage i ≠ (pdIndex va, ptIndex va)) :
    PageLoaded pm₀ pm' d data size i f := by
  obtain ⟨huser, hpte⟩ := modulePage_user hi
  have hsame : ∀ o : Word, o.toNat < 4096 → pm'.ram (f + o) = pm.ram (f + o) := fun o ho =>
    hadded.bytes d hd _ huser _ hpte _ h.entry _ (pageOf_entry h.aligned ho (by decide))
  refine ⟨h.aligned, ?_, fun o ho hend => (hsame o ho).trans (h.rest o ho hend),
    fun o ho hin hout => (hsame o ho).trans (h.bytes o ho hin fun hc => ?_)⟩
  · rw [hadded.entry d hd _ huser _ hpte, if_neg fun hc => hne (Prod.ext hc.2.1 hc.2.2)]
    exact h.entry
  · exact hout (hc.mono hadded.keeps.free)

/-- One round of the load. -/
theorem ModuleLoaded.loadPage (h : ModuleLoaded pm₀ pm dirs d data size i) (hd : d ∈ dirs)
    (hsize : i * 4096 < size.toNat) (hallocs : LoadPageAllocs d i pm)
    (htrue : (loadPage d data size i pm).1 = true) :
    ModuleLoaded pm₀ (Lbos.loadPage d data size i pm).2 dirs d data size (i + 1) := by
  have hcount := (pm.allocFrame_takes hallocs.1).freeCount
  have hle := h.count
  have hi : i < 32768 := by omega
  obtain ⟨-, -, hend⟩ := h.isolated.of_loadPage hd data size hle hsize
  rw [if_pos htrue] at hend
  have hloaded := h.toLoaded.loadPage h.isolated hd data size hle hsize
  obtain ⟨f, hadded, hbyte⟩ := h.isolated.loadPage_added hd data size hi hsize hallocs
  have hindex := index_modulePage hi
  obtain ⟨huser, hpte⟩ := modulePage_user hi
  generalize (Lbos.loadPage d data size i pm).2 = pm' at *
  have hentry : entryAt pm'.ram d (modulePage i).1 (modulePage i).2 = some (f ||| 7) := by
    rw [hadded.entry d hd _ huser _ hpte, ← hindex, if_pos ⟨rfl, rfl, rfl⟩]
  have htaken : pm₀.HandedOut pm' (pageOf f) := by
    refine ⟨h.free _ hadded.free, fun hfree => ?_⟩
    have hdata := hadded.isolated.dataFrame_of_entry hd huser hpte hentry
    rw [pageBase_or hadded.aligned (by decide)] at hdata
    exact (pm'.isFrameAllocated_iff f).mp hdata.allocated.marked hfree
  have hvirt : ∀ a, pm.virtToPhys a = pm₀.virtToPhys a := fun a => by
    rw [PhysMem.virtToPhys, PhysMem.virtToPhys, h.pfa]
  have hnew : PageLoaded pm₀ pm' d data size i f := by
    refine ⟨hadded.aligned, hentry, fun o ho => (hbyte o ho).1, fun o ho hin hout => ?_⟩
    have hcopied := (hbyte o ho).2 hin
    rw [hvirt] at hcopied
    exact (hcopied fun heq => hout (heq ▸ htaken)).trans (hloaded.ram _ hout)
  refine ⟨hloaded, hadded.isolated, hadded.keeps.pfa.trans h.pfa, hend, fun m hm => ?_,
    fun i' hi' j' hj' hnone => ?_⟩
  · rcases Nat.lt_succ_iff_lt_or_eq.mp hm with hm | rfl
    · obtain ⟨g, hg⟩ := h.pages m hm
      refine ⟨g, hg.added hadded hd (by omega) fun heq => ?_⟩
      exact absurd (modulePage_injective (heq.trans hindex)) (Nat.ne_of_lt hm)
    · exact ⟨f, hnew⟩
  · rw [hadded.entry d hd _ hi' _ hj', if_neg fun hc => ?_]
    · exact h.absent i' hi' j' hj' fun m hm => hnone m (Nat.lt_succ_of_lt hm)
    · exact hnone i (Nat.lt_succ_self i) (hindex.symm.trans (Prod.ext hc.2.1.symm hc.2.2.symm))

/-- A byte of the loaded pages, by its address. -/
theorem ModuleLoaded.byte (h : ModuleLoaded pm₀ pm dirs d data size n)
    (hsrc : ∀ b < size.toNat,
      ¬pm₀.HandedOut pm (pageOf (pm₀.virtToPhys (data + BitVec.ofNat 32 b))))
    {b : Nat} (hb : b < n * 4096) :
    (∃ e, entryAt pm.ram d (pdIndex (userCodeStart + BitVec.ofNat 32 b))
        (ptIndex (userCodeStart + BitVec.ofNat 32 b)) = some e ∧ e &&& 0xFFF = 7) ∧
      (translate pm.ram d (userCodeStart + BitVec.ofNat 32 b)).map pm.ram =
        some (if b < size.toNat then pm₀.ram (pm₀.virtToPhys (data + BitVec.ofNat 32 b))
          else 0) := by
  have hle := h.count
  have hpage : b / 4096 < n := by omega
  have hlt : b / 4096 < 32768 := by omega
  obtain ⟨f, hf⟩ := h.pages _ hpage
  have hindex := index_moduleAddress hlt
  have hentry := hf.entry
  rw [← hindex] at hentry
  have haddr := toNat_moduleAddress hlt
  have hoff := toNat_pageOffset (userCodeStart + BitVec.ofNat 32 b)
  generalize userCodeStart + BitVec.ofNat 32 b = v at hentry haddr hoff ⊢
  have hsplit : data + BitVec.ofNat 32 b =
      data + BitVec.ofNat 32 (b / 4096) * frameSize + (v &&& 0xFFF) := by
    rw [BitVec.add_assoc]
    refine congrArg (data + ·) (BitVec.eq_of_toNat_eq ?_)
    have hframe : frameSize.toNat = 4096 := rfl
    rw [BitVec.toNat_add, BitVec.toNat_mul, hframe, hoff, BitVec.toNat_ofNat, BitVec.toNat_ofNat]
    omega
  have hvirt : pm₀.virtToPhys (data + BitVec.ofNat 32 b) =
      pm₀.virtToPhys (data + BitVec.ofNat 32 (b / 4096) * frameSize) + (v &&& 0xFFF) := by
    rw [hsplit]
    exact pm₀.pfa.virtToPhys_add _ _
  have hflags : (f ||| 7) &&& 0xFFF = 7 := pageFlags_or hf.aligned
  refine ⟨⟨_, hentry, hflags⟩, (byte_of_entry hentry).trans (congrArg some ?_)⟩
  rw [pageBase_or hf.aligned (by decide)]
  split
  · next hin =>
    rw [hvirt]
    refine hf.bytes _ (by omega) (by omega) ?_
    rw [← hvirt]
    exact hsrc b hin
  · next hend => exact hf.rest _ (by omega) (by omega)

/-- A user page that is present is one of the loaded pages. -/
theorem ModuleLoaded.address (h : ModuleLoaded pm₀ pm dirs d data size n) {v : Word}
    (hv : v < kernelVirtualStart) (hsome : (translate pm.ram d v).isSome = true) :
    ∃ b < n * 4096, v = userCodeStart + BitVec.ofNat 32 b := by
  have hle := h.count
  obtain ⟨m, hm, hpage⟩ : ∃ m < n, modulePage m = (pdIndex v, ptIndex v) := by
    by_contra hnone
    rw [translate_eq_none (h.absent _ (pdIndex_user hv) _ (ptIndex_lt v) fun m hm heq =>
      hnone ⟨m, hm, heq⟩)] at hsome
    cases hsome
  obtain ⟨hpd, hpt⟩ := Prod.mk.inj hpage
  rw [pdIndex_eq] at hpd
  rw [ptIndex_eq] at hpt
  have hlow : 0x08048000 ≤ v.toNat := by omega
  refine ⟨v.toNat - 0x08048000, by omega, BitVec.eq_of_toNat_eq ?_⟩
  rw [toNat_moduleAddress (by omega)]
  omega

end Loop

namespace Kernel

variable {k : Kernel} {i : Slot} {data size : Word}

/-- The pages that `create_process` leaves in the new directory. -/
theorem createProcess_moduleLoaded (h : Isolated k.mem k.dirs)
    (hi : (k.createProcess data size).1 = some i) (hallocs : k.CreateProcessAllocs data size) :
    ∃ dirs, ModuleLoaded k.mem (k.createProcess data size).2.mem dirs
      ((k.createProcess data size).2.cr3 i) data size
      ((size + frameSize - 1) / frameSize).toNat := by
  obtain ⟨hz, heach⟩ := hallocs
  have hslot : k.findFree = some i := by
    have hspawn := createProcess_spawn h data size
    generalize k.createProcess data size = r at hspawn hi
    cases hspawn with
    | noSlot => cases hi
    | failed => cases hi
    | created hnew =>
      obtain rfl := Option.some.inj hi
      exact hnew.slot
  rcases h.createPageDirectory_new with ⟨hnone, -⟩ | ⟨d, mem, hr, hne, hphys, hnew⟩
  · exact absurd (k.mem.allocFrame_takes hz).free (hnone _)
  obtain ⟨hmem, hret, hcr3⟩ := createProcess_memory hslot hr hne hphys data size
  have hdone : (loopWhile (loadPage d data size) ((size + frameSize - 1) / frameSize).toNat 0
      mem).1 = true := by
    by_contra hfalse
    rw [hret, if_neg hfalse] at hi
    cases hi
  rw [hr] at heach
  simp only [hphys] at heach
  have hcr3 : (k.createProcess data size).2.cr3 i = d := hcr3 hdone
  rw [hcr3, hmem]
  have hempty : ModuleLoaded k.mem mem (insert d k.dirs) d data size 0 := by
    refine ⟨hnew.loaded, hnew.isolated, hnew.keeps.pfa, ?_,
      fun m hm => absurd hm (Nat.not_lt_zero m), fun i hi j _ _ => entryAt_none (hnew.empty i hi)⟩
    have hcount := hnew.isolated.freeCount_le
    omega
  have hloop := loopWhile_eachRound (loadPage d data size) (LoadPageAllocs d)
    (fun n s => ModuleLoaded k.mem s (insert d k.dirs) d data size n) hempty heach hdone
    fun j s _ hj hs halloc htrue =>
      hs.loadPage (Set.mem_insert d _) (Isolated.lt_of_lt_pagesNeeded (by omega)) halloc htrue
  rw [Nat.zero_add] at hloop
  exact ⟨_, hloop⟩

end Kernel

end Lbos

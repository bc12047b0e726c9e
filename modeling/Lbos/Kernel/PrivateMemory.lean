import Lbos.Kernel.BootModules
import Lbos.Kernel.DemandPaging
import Lbos.Kernel.ForkClone
import Lbos.Kernel.ModuleLoad
import Lbos.Lib.Spaces
import Lbos.Mem.ForkWrites

/-! The processes as owners of memories.  In every run the user memories change as the events of the
calls say: a process stores to its own pages and fills them on demand, a fork copies, a module is
loaded.  So what a process reads depends on nothing that others do. -/

namespace Lbos

open Lib Mem

/-- A round of the load that meets an `alloc_frame` that returns 0 leaves no frame. -/
theorem Isolated.exhausted_of_loadPage {pm : PhysMem} {dirs : Set Word} {d data size : Word} {i : Nat}
    (h : Isolated pm dirs) (hi : i + pm.freeCount ≤ 32768) (hsize : i * 4096 < size.toNat)
    (hnot : ¬LoadPageAllocs d i pm) : (loadPage d data size i pm).2.Exhausted := by
  by_cases hz : pm.allocFrame.1 = 0
  · obtain ⟨hnone, hsame⟩ := pm.allocFrame_fails h.not_free_zero hz
    simp only [loadPage, hz, if_true, hsame]
    exact hnone
  · have hf := pm.allocFrame_takes hz
    have hcount := hf.freeCount
    obtain ⟨h₁, -⟩ := h.of_takes hf rfl
    have hfail := fun hok => hnot ⟨hz, mapSucceeds_iff.mpr hok⟩
    obtain ⟨-, hnone, hsame⟩ := h₁.mapPage_fails hfail pm.allocFrame.1 7
    obtain ⟨ram, hr, -⟩ := loadPage_eq (d := d) data size (by omega) hsize hf hz hsame
    rw [hr]
    exact hnone

theorem PhysMem.freeFrame_clear {pm : PhysMem} {ptr : Word} {count n : Nat} :
    (pm.clear ptr count).FreeFrame n ↔ pm.FreeFrame n :=
  Iff.rfl

namespace Kernel

/-- What each process reads at its user addresses. -/
def spaces (k : Kernel) : Spaces Slot Word Byte := fun i v =>
  if (k.processTable i).state ≠ .free ∧ v < kernelVirtualStart then k.userByte i v else none

/-- An event on the user memories, whose pages go by their numbers. -/
abbrev MemoryEvent := SpaceEvent Slot Word Byte Nat

/-- `m` is the memory of a process to which the module was loaded: the module's bytes from the start
of its code on, zeros up to the end of the last page, and nothing else. -/
structure ModuleSpace (k : Kernel) (data size : Word) (m : Word → Option Byte) : Prop where
  bytes : ∀ b < (size.toNat + 4095) / 4096 * 4096, m (userCodeStart + BitVec.ofNat 32 b) =
    some (if b < size.toNat then k.mem.ram (k.mem.virtToPhys (data + BitVec.ofNat 32 b)) else 0)
  only : ∀ v, (m v).isSome = true →
    ∃ b < (size.toNat + 4095) / 4096 * 4096, v = userCodeStart + BitVec.ofNat 32 b

/-- The call that takes `k` to `k'` does this to the user memories.  A process that is created with
the last free frame may lack a page, so that nothing is said about what it is given. -/
inductive Does (k k' : Kernel) : Call → Option MemoryEvent → Prop
  | load {data size : Word} {i : Slot} {m : Word → Option Byte} :
      (k.createProcess data size).1 = some i →
      (size ≤ 0xFFFFF000 → ¬k'.mem.Exhausted → (∀ b < size.toNat, ¬k.mem.HandedOut k'.mem
        (pageOf (k.mem.virtToPhys (data + BitVec.ofNat 32 b)))) → k.ModuleSpace data size m) →
      Does k k' (.createProcess data size) (some (.give i m))
  | loadFails {data size : Word} : (k.createProcess data size).1 = none →
      Does k k' (.createProcess data size) none
  | kernelProcess {entryPoint : Word} {i : Slot} : (k.createKernelProcess entryPoint).1 = some i →
      Does k k' (.createKernelProcess entryPoint) (some (.give i fun _ => none))
  | kernelProcessFails {entryPoint : Word} : (k.createKernelProcess entryPoint).1 = none →
      Does k k' (.createKernelProcess entryPoint) none
  | fork {parent child : Slot} {pid : Word} : k.currentProcess = some parent →
      k.sysFork.1 = .ret pid → pid ≠ -1 → (k'.processTable child).pid = pid →
      (k'.processTable child).state = .ready → ¬k'.mem.Exhausted →
      Does k k' .sysFork (some (.copy parent child))
  | forkShort {child : Slot} {pid : Word} {m : Word → Option Byte} : k.sysFork.1 = .ret pid →
      pid ≠ -1 → (k'.processTable child).pid = pid → (k'.processTable child).state = .ready →
      k'.mem.Exhausted → Does k k' .sysFork (some (.give child m))
  | forkFails : k.sysFork.1 = .ret (-1) → Does k k' .sysFork none
  | exit {status : Word} : Does k k' (.sysExit status) none
  | wait {statusPtr : Word} : Does k k' (.sysWait statusPtr) none
  | schedule : Does k k' .schedule none
  | fault {addr : Word} {info : IdtInfo} {c : Slot} : k.currentProcess = some c →
      addr < kernelVirtualStart → info.errorCode &&& 0x1 = 0 → k.FaultAllocs c addr →
      Does k k' (.pageFault addr info) (some (.own c (.fill (pageOf addr) 0)))
  | faultStops {addr : Word} {info : IdtInfo} :
      (∀ c, k.currentProcess = some c → addr < kernelVirtualStart → info.errorCode &&& 0x1 = 0 →
        ¬k.FaultAllocs c addr) → Does k k' (.pageFault addr info) none
  | store {addr : Word} {value : Byte} {c : Slot} : k.currentProcess = some c →
      addr < kernelVirtualStart → Does k k' (.userStore addr value) (some (.own c (.store addr value)))
  | storeFaults {addr : Word} {value : Byte} :
      (∀ c, k.currentProcess = some c → ¬addr < kernelVirtualStart) →
      Does k k' (.userStore addr value) none

/-- The user memories after an event, if there is one. -/
def afterEvent (s : Spaces Slot Word Byte) (e : Option MemoryEvent) : Spaces Slot Word Byte :=
  e.toList.foldl (SpaceEvent.apply pageOf) s

variable {k k' : Kernel}

theorem spaces_free {i : Slot} (h : (k.processTable i).state = .free) : k.spaces i = fun _ => none := by
  funext v
  rw [spaces, if_neg fun hc => hc.1 h]

theorem spaces_user {i : Slot} {v : Word} (h : (k.processTable i).state ≠ .free)
    (hv : v < kernelVirtualStart) : k.spaces i v = k.userByte i v := if_pos ⟨h, hv⟩

theorem spaces_high {i : Slot} {v : Word} (hv : ¬v < kernelVirtualStart) : k.spaces i v = none :=
  if_neg fun hc => hv hc.2

/-- A process that is there before and after has the memory that it had, when its user addresses
read the same. -/
theorem spaces_eq {i : Slot} (hlive : (k'.processTable i).state ≠ .free ↔
      (k.processTable i).state ≠ .free)
    (hbyte : (k.processTable i).state ≠ .free → ∀ v < kernelVirtualStart,
      k'.userByte i v = k.userByte i v) : k'.spaces i = k.spaces i := by
  by_cases hi : (k.processTable i).state = .free
  · have hi' : (k'.processTable i).state = .free := by
      by_contra hne
      exact hlive.mp hne hi
    rw [spaces_free hi, spaces_free hi']
  · funext v
    by_cases hv : v < kernelVirtualStart
    · rw [spaces_user hi hv, spaces_user (hlive.mpr hi) hv, hbyte hi v hv]
    · rw [spaces_high hv, spaces_high hv]

/-! ### Creation -/

/-- Writes to new frames leave what a process reads that keeps its directory. -/
theorem userByte_of_writes (h : Isolated k.mem k.dirs) (hwrites : k.mem.WritesHandedOut k'.mem)
    {i : Slot} (hi : (k.processTable i).state ≠ .free)
    (hsame : k'.processTable i = k.processTable i) {v : Word} (hv : v < kernelVirtualStart) :
    k'.userByte i v = k.userByte i v := by
  have hcr3 : k'.cr3 i = k.cr3 i := by rw [cr3, cr3, hsame]
  rw [userByte, userByte, hcr3]
  exact hwrites.byte h ⟨i, hi, rfl⟩ (pdIndex_user hv)

theorem spaces_setMem_of_writes (h : Isolated k.mem k.dirs) {mem : PhysMem}
    (hwrites : k.mem.WritesHandedOut mem) : (k.setMem mem).spaces = k.spaces := by
  have hwrites' : k.mem.WritesHandedOut (k.setMem mem).mem := hwrites
  funext i
  exact spaces_eq Iff.rfl fun hi v hv => userByte_of_writes h hwrites' hi rfl hv

/-- A creation gives its memory to the new process, and changes no other. -/
theorem Spawn.spaces {birth : Slot → Birth} {r : Option Slot × Kernel} (h : k.Spawn birth r)
    (hiso : Isolated k.mem k.dirs) (hwrites : k.mem.WritesHandedOut r.2.mem) :
    r.2.spaces = afterEvent k.spaces (r.1.map fun i => .give i (r.2.spaces i)) := by
  have hold : ∀ i, (k.processTable i).state ≠ .free → r.2.spaces i = k.spaces i := fun i hi => by
    have hsame := h.live_kept hi
    refine spaces_eq (by rw [hsame]) fun _ v hv => userByte_of_writes hiso hwrites hi hsame hv
  cases h with
  | noSlot => rfl
  | @failed k' i h =>
    show k'.spaces = k.spaces
    funext j
    by_cases hj : (k.processTable j).state = .free
    · have hfree : (k'.processTable j).state = .free := by
        by_cases hji : j = i
        · exact hji ▸ h.state
        · rw [h.others j hji, hj]
      rw [spaces_free hj, spaces_free hfree]
    · exact hold j hj
  | @created k' i d h =>
    show k'.spaces = Function.update k.spaces i (k'.spaces i)
    refine Function.eq_update_iff.mpr ⟨rfl, fun j hji => ?_⟩
    by_cases hj : (k.processTable j).state = .free
    · rw [spaces_free hj, spaces_free (by rw [h.others hji, hj])]
    · exact hold j hj

theorem createKernelProcess_writes (h : Isolated k.mem k.dirs) (entryPoint : Word) :
    k.mem.WritesHandedOut (k.createKernelProcess entryPoint).2.mem := by
  cases hfree : k.findFree with
  | none =>
    simp only [createKernelProcess, allocatePcbAndPid, hfree]
    exact .refl _
  | some i =>
    rw [(createKernelProcess_memory hfree entryPoint).1]
    rcases h.createPageDirectory_loaded with ⟨-, hr⟩ | ⟨d, pm, hr, -, -, -, hdir⟩
    · rw [hr]
      exact .refl _
    · rw [hr]
      exact hdir.toWritesHandedOut

/-- A kernel process has no user memory. -/
theorem createKernelProcess_empty (h : Isolated k.mem k.dirs) {entryPoint : Word} {i : Slot}
    (hi : (k.createKernelProcess entryPoint).1 = some i) {v : Word} (hv : v < kernelVirtualStart) :
    (k.createKernelProcess entryPoint).2.userByte i v = none := by
  unfold createKernelProcess at hi ⊢
  cases hfree : k.findFree with
  | none =>
    simp only [allocatePcbAndPid, hfree] at hi
    cases hi
  | some j =>
    simp only [allocatePcbAndPid, hfree, takeSlot_mem, setMem_mem] at hi ⊢
    rcases h.createPageDirectory_new with ⟨-, hr⟩ | ⟨d, mem, hr, hne, hphys, hnew⟩
    · simp only [hr, if_true] at hi
      cases hi
    · simp only [hr, if_neg hne, hphys] at hi ⊢
      obtain rfl := Option.some.inj hi
      have hempty := entryAt_none (j := ptIndex v) (hnew.empty _ (pdIndex_user hv))
      simp [userByte, cr3, finishCreation, setContext, translate_eq_none hempty]

theorem sysFork_writes (hk : k.WellFormed) : k.mem.WritesHandedOut k.sysFork.2.mem := by
  cases hcur : k.currentProcess with
  | none =>
    simp only [sysFork, hcur]
    exact .refl _
  | some parent =>
    cases hfree : k.findFree with
    | none =>
      simp only [sysFork, hcur, allocatePcbAndPid, hfree]
      exact .refl _
    | some i =>
      have hlive := (hk.current parent hcur).not_free
      rcases hk.isolated.createPageDirectory_new with ⟨-, hr⟩ | ⟨d, mem, hr, hne, hphys, hnew⟩
      · simp only [sysFork, hcur, allocatePcbAndPid, hfree, takeSlot_mem, setProcess_mem, hr,
          if_true]
        exact .refl _
      · rw [(sysFork_memory hcur hlive hfree hr hne hphys).1]
        exact (hnew.loaded.forkLoop hnew.isolated (Set.mem_insert d _) _).toWritesHandedOut

/-- A process whose module was loaded with a frame left has met no `alloc_frame` that returned 0. -/
theorem createProcessAllocs_of_left (h : Isolated k.mem k.dirs) {data size : Word} {i : Slot}
    (hi : k.findFree = some i) (hleft : ¬(k.createProcess data size).2.mem.Exhausted) :
    k.CreateProcessAllocs data size := by
  rcases h.createPageDirectory_new with ⟨hnone, hr⟩ | ⟨d, mem, hr, hne, hphys, hnew⟩
  · refine absurd ?_ hleft
    unfold createProcess
    simp only [allocatePcbAndPid, hi, takeSlot_mem, hr, if_true]
    exact hnone
  · have hz : k.mem.allocFrame.1 ≠ 0 := fun hz =>
      (k.mem.allocFrame_fails h.not_free_zero hz).1 _ hnew.takes.free
    obtain ⟨hmem, -⟩ := createProcess_memory hi hr hne hphys data size
    rw [hmem] at hleft
    refine ⟨hz, ?_⟩
    rw [hr]
    simp only [hphys]
    have hd : d ∈ insert d k.dirs := Set.mem_insert d k.dirs
    have hcount := hnew.isolated.freeCount_le
    refine eachRound_of_end_at _ _ (fun j s => Isolated s (insert d k.dirs) ∧
      j + s.freeCount ≤ 32768) PhysMem.Exhausted ⟨hnew.isolated, by omega⟩
      (fun j s _ hj hs => ?_) hleft
    have hsize : j * 4096 < size.toNat := Isolated.lt_of_lt_pagesNeeded (by omega)
    obtain ⟨hiso, hkeep, hend⟩ := hs.1.of_loadPage hd data size hs.2 hsize
    refine ⟨fun htrue => ⟨hiso, by rwa [if_pos htrue] at hend⟩, fun hc => ?_⟩
    rcases hc with hex | hnot
    · exact hkeep.exhausted hex
    · exact hs.1.exhausted_of_loadPage hs.2 hsize hnot

/-- A new process has the memory that its module makes. -/
theorem moduleSpace_of_created (hk : k.WellFormed) {data size : Word} {i : Slot}
    (hi : (k.createProcess data size).1 = some i) (hsize : size ≤ 0xFFFFF000)
    (hleft : ¬(k.createProcess data size).2.mem.Exhausted)
    (hsrc : ∀ b < size.toNat, ¬k.mem.HandedOut (k.createProcess data size).2.mem
      (pageOf (k.mem.virtToPhys (data + BitVec.ofNat 32 b)))) :
    k.ModuleSpace data size ((k.createProcess data size).2.spaces i) := by
  have hspawn := createProcess_spawn hk.isolated data size
  have hfound : k.findFree = some i ∧
      ((k.createProcess data size).2.processTable i).state ≠ .free := by
    generalize k.createProcess data size = r at hspawn hi
    cases hspawn with
    | noSlot => cases hi
    | failed => cases hi
    | created hnew =>
      obtain rfl := Option.some.inj hi
      exact ⟨hnew.slot, by rw [hnew.new]; exact nofun⟩
  obtain ⟨hslot, hlive⟩ := hfound
  have hallocs := createProcessAllocs_of_left hk.isolated hslot hleft
  obtain ⟨dirs, hloaded⟩ := createProcess_moduleLoaded hk.isolated hi hallocs
  rw [pagesNeeded_of_le hsize] at hloaded
  have hle := hloaded.count
  refine ⟨fun b hb => ?_, fun v hv => ?_⟩
  · have haddr := toNat_moduleAddress (b := b) (by omega)
    have huser : userCodeStart + BitVec.ofNat 32 b < kernelVirtualStart := by
      rw [BitVec.lt_def, haddr, kernelVirtualStart]
      have hend : (0xC0000000 : Word).toNat = 0xC0000000 := rfl
      omega
    rw [spaces_user hlive huser]
    exact (hloaded.byte hsrc hb).2
  · by_cases huser : v < kernelVirtualStart
    · rw [spaces_user hlive huser, userByte, Option.isSome_map] at hv
      exact hloaded.address huser hv
    · rw [spaces_high huser] at hv
      cases hv

/-- A fork with a child and a frame left copies the parent's memory. -/
theorem Created.spaces_child {parent child : Slot} {d : Word} (hk : k.WellFormed)
    (hcur : k.currentProcess = some parent)
    (hnew : Created k k.sysFork.2 child d (k.childBirth parent))
    (hleft : ¬k.sysFork.2.mem.Exhausted) : k.sysFork.2.spaces child = k.spaces parent := by
  have hcloned := hnew.forkCloned hk hcur (sysForkAllocs_of_left hk hnew.slot hleft)
  have hlive := (hk.current parent hcur).not_free
  have hlive' : (k.sysFork.2.processTable child).state ≠ .free := by
    rw [hnew.new]
    exact nofun
  funext v
  by_cases hv : v < kernelVirtualStart
  · rw [spaces_user hlive' hv, spaces_user hlive hv, hcloned.bytes v hv]
  · rw [spaces_high hv, spaces_high hv]

/-- A step that keeps memory, directories and which slots are taken changes no memory of a process. -/
theorem spaces_of_same (hmem : k'.mem = k.mem)
    (hlive : ∀ j, (k'.processTable j).state ≠ .free ↔ (k.processTable j).state ≠ .free)
    (hcr3 : ∀ j, (k'.processTable j).context.cr3 = (k.processTable j).context.cr3) :
    k'.spaces = k.spaces := by
  funext i
  refine spaces_eq (hlive i) fun _ v _ => ?_
  rw [userByte, userByte, hmem, cr3, cr3, hcr3]

/-! ### Pages and stores -/

/-- The handler fills the page, for an address whose page it can add. -/
theorem pageFault_fills (hk : k.WellFormed) {c : Slot} (hcur : k.currentProcess = some c)
    {addr : Word} (haddr : addr < kernelVirtualStart) {info : IdtInfo}
    (hcode : info.errorCode &&& 0x1 = 0) (hallocs : k.FaultAllocs c addr) :
    (k.pageFaultHandler addr info).2.spaces =
      afterEvent k.spaces (some (.own c (.fill (pageOf addr) 0))) := by
  obtain ⟨mem, f, hr, hadded, hzero⟩ :=
    pageFaultHandler_added hk.consistent hcur haddr hcode hallocs
  rw [hr]
  have hlive := (hk.current c hcur).not_free
  have hlive' : ((k.setMem mem).processTable c).state ≠ .free := hlive
  have hpage : ∀ v, pageOf v = pageOf (addr &&& ~~~0xFFF) ↔ pageOf v = pageOf addr := fun v => by
    rw [pageOf_eq_iff_index, pageOf_eq_iff_index, pdIndex_page, ptIndex_page]
  have hother : ∀ i, (k.processTable i).state ≠ .free → ∀ v < kernelVirtualStart,
      ¬(i = c ∧ pageOf v = pageOf addr) → (k.setMem mem).userByte i v = k.userByte i v := by
    intro i hi v hv hne
    refine hadded.byte_other ⟨i, hi, rfl⟩ (pdIndex_user hv) fun hc => hne ⟨?_, (hpage v).mp hc.2⟩
    exact hk.cr3_unique i c hi hlive hc.1
  show (k.setMem mem).spaces = Function.update k.spaces c _
  refine Function.eq_update_iff.mpr ⟨funext fun v => ?_, fun i hne => ?_⟩
  · rw [OwnEvent.apply]
    by_cases hv : v < kernelVirtualStart
    · rw [spaces_user hlive' hv]
      split
      · next heq => exact zero_of_added hk.consistent hcur hadded hzero haddr heq
      · next hne =>
        rw [spaces_user hlive hv]
        exact hother c hlive v hv fun hc => hne hc.2
    · rw [spaces_high hv, if_neg fun heq => hv (user_of_pageOf haddr heq), spaces_high hv]
  · exact spaces_eq Iff.rfl fun hi v hv => hother i hi v hv fun hc => hne hc.1

/-- A handler that finds no frame for the page, or none for its table, adds no page. -/
theorem pageFault_unmapped (hk : k.WellFormed) {c : Slot} (hcur : k.currentProcess = some c)
    {addr : Word} (haddr : addr < kernelVirtualStart) {info : IdtInfo}
    (hcode : info.errorCode &&& 0x1 = 0) (hfail : ¬k.FaultAllocs c addr) :
    (k.pageFaultHandler addr info).2.spaces = k.spaces := by
  by_cases hz : k.mem.allocFrame.1 = 0
  · obtain ⟨-, hmem⟩ := k.mem.allocFrame_fails hk.isolated.not_free_zero hz
    have hbit : (info.errorCode &&& 0x1 != 0) = false := by
      rw [hcode]
      rfl
    have hnot : ¬addr ≥ kernelVirtualStart := BitVec.not_le.mpr haddr
    have hr : k.pageFaultHandler addr info = (.halted, k.setMem k.mem.allocFrame.2) := by
      simp only [pageFaultHandler, hcur, hnot, hbit, hz, if_false, if_true, Bool.not_false]
    rw [hr, hmem]
    exact spaces_of_same rfl (fun _ => Iff.rfl) fun _ => rfl
  · have hf := k.mem.allocFrame_takes hz
    obtain ⟨h₁, -⟩ := hk.isolated.of_takes hf rfl
    have hfail' : ¬(tableAt k.mem.allocFrame.2.ram (k.cr3 c) (pdIndex (addr &&& ~~~0xFFF)) ≠ none ∨
        k.mem.allocFrame.2.allocFrame.1 ≠ 0) := fun hok => hfail ⟨hz, mapSucceeds_iff.mpr hok⟩
    obtain ⟨-, hnone, hsame⟩ :=
      h₁.mapPage_fails hfail' k.mem.allocFrame.1 (pagePresent ||| pageUser ||| pageRw)
    have hr := pageFaultHandler_eq hcur haddr hcode hz
    simp only [hsame] at hr
    have hwrites : k.mem.WritesHandedOut (k.mem.allocFrame.2.clear
        (k.mem.allocFrame.2.physToVirt k.mem.allocFrame.1) frameSize.toNat) := by
      refine ⟨fun n hn => ((hf.free_iff n).mp (PhysMem.freeFrame_clear.mp hn)).1, fun x hx => ?_⟩
      have hne : pageOf x ≠ pageOf k.mem.allocFrame.1 := fun heq => by
        rw [heq] at hx
        exact hx ⟨hf.free, fun hn => hnone _ (PhysMem.freeFrame_clear.mp hn)⟩
      exact Isolated.clear_frame_outside _ hf.aligned hne
    rw [hr]
    exact spaces_setMem_of_writes hk.isolated hwrites

/-- A user address without a page is one whose translation is missing. -/
theorem getPhysicalAddress_eq_zero_iff (hk : k.WellFormed) {i : Slot}
    (hi : (k.processTable i).state ≠ .free) {v : Word} (hv : v < kernelVirtualStart) :
    k.mem.getPhysicalAddress (k.cr3 i) v = 0 ↔ translate k.mem.ram (k.cr3 i) v = none := by
  constructor
  · intro h
    by_contra hsome
    obtain ⟨pa, hpa⟩ := Option.ne_none_iff_exists'.mp hsome
    obtain ⟨f, -, hpage, hal⟩ := (uses_of_translate hi hv hpa).allocated hk
    have hphys : k.mem.getPhysicalAddress (k.cr3 i) v = pa := by
      obtain ⟨e, he, rfl⟩ := Option.map_eq_some_iff.mp hpa
      rw [PhysMem.getPhysicalAddress_eq, he]
      rfl
    have hle := hal.reserved_le
    have hpos := hk.isolated.reserved_pos
    rw [hpage, ← hphys, h] at hle
    exact absurd hle (by simp [pageOf]; omega)
  · intro h
    by_contra hne
    have hsome := PhysMem.translate_of_getPhysicalAddress hne
    rw [h] at hsome
    cases hsome

theorem translate_offset {ram : Mem} {d v pa : Word} (h : translate ram d v = some pa) :
    pa.toNat % 4096 = v.toNat % 4096 := by
  obtain ⟨e, -, rfl⟩ := Option.map_eq_some_iff.mp h
  have hoff := toNat_pageOffset v
  have hbase := pageAligned_pageBase e
  rw [or_offset hbase (by omega), BitVec.toNat_add]
  simp only [PageAligned] at hbase
  omega

/-- A handler that adds no page changes nothing that can be read. -/
theorem pageFault_stops (hk : k.WellFormed) {addr : Word} {info : IdtInfo}
    (hnot : ∀ c, k.currentProcess = some c → addr < kernelVirtualStart →
      info.errorCode &&& 0x1 = 0 → ¬k.FaultAllocs c addr) :
    (k.pageFaultHandler addr info).2.spaces = k.spaces := by
  cases hcur : k.currentProcess with
  | none => simp only [pageFaultHandler, hcur]
  | some c =>
    by_cases haddr : addr < kernelVirtualStart
    · by_cases hcode : info.errorCode &&& 0x1 = 0
      · exact pageFault_unmapped hk hcur haddr hcode (hnot c hcur haddr hcode)
      · have hbit : (info.errorCode &&& 0x1 != 0) = true := bne_iff_ne.mpr hcode
        have hnot : ¬addr ≥ kernelVirtualStart := BitVec.not_le.mpr haddr
        simp only [pageFaultHandler, hcur, hnot, hbit, if_false, Bool.not_true, Bool.false_eq_true]
    · have hhigh : addr ≥ kernelVirtualStart := BitVec.not_lt.mp haddr
      simp only [pageFaultHandler, hcur, hhigh, if_true]

/-- Of the addresses of a process only one reads a given byte of a user page. -/
theorem translate_injective (hk : k.WellFormed) {i : Slot} (hi : (k.processTable i).state ≠ .free)
    {v v' pa : Word} (hv : v < kernelVirtualStart) (hv' : v' < kernelVirtualStart)
    (h : translate k.mem.ram (k.cr3 i) v = some pa)
    (h' : translate k.mem.ram (k.cr3 i) v' = some pa) : v = v' := by
  have hsite := (uses_of_translate hi hv h).unique hk (uses_of_translate hi hv' h')
  obtain ⟨-, hpd, hpt⟩ := FrameUse.page.inj hsite
  have hpage : pageOf v = pageOf v' :=
    pageOf_eq_iff_index.mpr ⟨Fin.mk.inj hpd, Fin.mk.inj hpt⟩
  have hoff := translate_offset h
  have hoff' := translate_offset h'
  simp only [pageOf] at hpage
  exact BitVec.eq_of_toNat_eq (by omega)

/-- What the current process reads after its own store. -/
theorem userByte_store_self (hk : k.WellFormed) {c : Slot} (hcur : k.currentProcess = some c)
    {addr : Word} (haddr : addr < kernelVirtualStart) {v : Word} (hv : v < kernelVirtualStart)
    (value : Byte) : (k.userStore addr value).userByte c v =
      if v = addr then (k.userByte c v).map fun _ => value else k.userByte c v := by
  have hlive := (hk.current c hcur).not_free
  simp only [userStore, hcur]
  split
  · next h =>
    obtain ⟨f, hdata, hpage⟩ := hk.consistent.userPage hcur h.1 h.2
    have htrans := PhysMem.translate_of_getPhysicalAddress h.2
    generalize k.mem.getPhysicalAddress (k.processTable c).context.cr3 addr = phys at *
    have hout : ∀ x, pageOf x ≠ pageOf f → k.mem.ram.write phys value x = k.mem.ram x :=
      fun x hx => by
        refine write_ne _ _ fun heq => hx ?_
        rw [heq, hpage]
    have hsame : translate (k.mem.ram.write phys value) (k.cr3 c) v =
        translate k.mem.ram (k.cr3 c) v := by
      have hdir : k.cr3 c ∈ k.dirs := ⟨c, hlive, rfl⟩
      rw [translate, translate, (hk.isolated.write_sameUserHalf hdata hout hdir).entry _
        (pdIndex_user hv) _ (ptIndex_lt v)]
    show (translate (k.mem.ram.write phys value) (k.cr3 c) v).map (k.mem.ram.write phys value) = _
    rw [hsame, userByte, Option.map_map]
    split
    · next heq =>
      subst heq
      refine Option.map_congr fun pa hpa => ?_
      obtain rfl := Option.some.inj (hpa.symm.trans htrans)
      exact write_same ..
    · next hne =>
      refine Option.map_congr fun pa hpa => write_ne _ _ ?_
      rintro rfl
      exact hne (translate_injective hk hlive hv haddr hpa htrans)
  · next h =>
    have hzero : k.mem.getPhysicalAddress (k.cr3 c) addr = 0 := by
      by_contra hne
      exact h ⟨haddr, hne⟩
    split
    · next heq =>
      subst heq
      rw [userByte, (getPhysicalAddress_eq_zero_iff hk hlive hv).mp hzero]
      rfl
    · rfl

/-- A store of the current process changes the byte that it goes to, if it is there. -/
theorem userStore_spaces (hk : k.WellFormed) {c : Slot} (hcur : k.currentProcess = some c)
    {addr : Word} (haddr : addr < kernelVirtualStart) (value : Byte) :
    (k.userStore addr value).spaces =
      afterEvent k.spaces (some (.own c (.store addr value))) := by
  have hlive := (hk.current c hcur).not_free
  obtain ⟨mem, hr, -⟩ := hk.consistent.userStore addr value
  have htable : (k.userStore addr value).processTable = k.processTable := by rw [hr]; rfl
  show (k.userStore addr value).spaces = Function.update k.spaces c _
  refine Function.eq_update_iff.mpr ⟨funext fun v => ?_, fun i hne => ?_⟩
  · rw [OwnEvent.apply]
    by_cases hv : v < kernelVirtualStart
    · rw [spaces_user (by rw [htable]; exact hlive) hv, spaces_user hlive hv]
      exact userByte_store_self hk hcur haddr hv value
    · have hne : v ≠ addr := fun heq => hv (heq ▸ haddr)
      rw [spaces_high hv, if_neg hne, spaces_high hv]
  · refine spaces_eq (by rw [htable]) fun hi v hv => ?_
    exact userByte_userStore hk hcur hi hne hv addr value

/-! ### Steps and runs -/

theorem does_createProcess (hk : k.WellFormed) (data size : Word) :
    ∃ e, k.Does (k.createProcess data size).2 (.createProcess data size) e ∧
      (k.createProcess data size).2.spaces = afterEvent k.spaces e := by
  have hspaces := (createProcess_spawn hk.isolated data size).spaces hk.isolated
    (createProcess_writes hk.isolated data size)
  cases hr : (k.createProcess data size).1 with
  | none =>
    rw [hr] at hspaces
    exact ⟨none, .loadFails hr, hspaces⟩
  | some i =>
    rw [hr] at hspaces
    exact ⟨_, .load hr fun hsize hleft hsrc => moduleSpace_of_created hk hr hsize hleft hsrc, hspaces⟩

theorem does_createKernelProcess (hk : k.WellFormed) (entryPoint : Word) :
    ∃ e, k.Does (k.createKernelProcess entryPoint).2 (.createKernelProcess entryPoint) e ∧
      (k.createKernelProcess entryPoint).2.spaces = afterEvent k.spaces e := by
  have hspaces := (createKernelProcess_spawn hk.isolated entryPoint).spaces hk.isolated
    (createKernelProcess_writes hk.isolated entryPoint)
  cases hr : (k.createKernelProcess entryPoint).1 with
  | none =>
    rw [hr] at hspaces
    exact ⟨none, .kernelProcessFails hr, hspaces⟩
  | some i =>
    have hempty : (k.createKernelProcess entryPoint).2.spaces i = fun _ => none := by
      funext v
      rw [spaces]
      split
      · next hv => exact createKernelProcess_empty hk.isolated hr hv.2
      · rfl
    rw [hr, Option.map_some, hempty] at hspaces
    exact ⟨_, .kernelProcess hr, hspaces⟩

theorem does_sysFork (hk : k.WellFormed) :
    ∃ e, k.Does k.sysFork.2 .sysFork e ∧ k.sysFork.2.spaces = afterEvent k.spaces e := by
  have hwrites := sysFork_writes hk
  cases hcur : k.currentProcess with
  | none =>
    have hr : k.sysFork = (.ret (-1), k) := by simp only [sysFork, hcur]
    exact ⟨none, .forkFails (by rw [hr]), by rw [hr]; rfl⟩
  | some parent =>
    obtain ⟨r, hr, hspawn⟩ := sysFork_spawn hk.isolated hcur (hk.current parent hcur).not_free
    have hmem : r.2 = k.sysFork.2 := by rw [hr]; rfl
    have hspaces := hspawn.spaces hk.isolated (by rwa [hmem])
    cases hspawn with
    | noSlot => exact ⟨none, .forkFails (by rw [hr]; rfl), hmem ▸ hspaces⟩
    | failed => exact ⟨none, .forkFails (by rw [hr]; rfl), hmem ▸ hspaces⟩
    | @created k' child d hnew =>
      obtain rfl : k' = k.sysFork.2 := hmem
      obtain ⟨hfail, -⟩ := hk.nextPid_fresh hnew.free
      have hret : k.sysFork.1 = .ret k.nextPid := by rw [hr]; rfl
      have hpid : (k.sysFork.2.processTable child).pid = k.nextPid := by rw [hnew.new]
      have hready : (k.sysFork.2.processTable child).state = .ready := by rw [hnew.new]
      by_cases hleft : k.sysFork.2.mem.Exhausted
      · exact ⟨_, .forkShort hret hfail hpid hready hleft, hspaces⟩
      · refine ⟨_, .fork hcur hret hfail hpid hready hleft, hspaces.trans ?_⟩
        show Function.update k.spaces child _ = Function.update k.spaces child _
        rw [hnew.spaces_child hk hcur hleft]

theorem dispatch_current (k : Kernel) (head : Slot) :
    (k.dispatch head).currentProcess = some head := rfl

theorem dispatch_spaces (hk : k.WellFormed) {head : Slot} (h : k.readyQueueHead = some head) :
    (k.dispatch head).spaces = k.spaces := by
  obtain ⟨l, hq⟩ := hk.queue
  exact spaces_of_same rfl (hq.dispatch_live h) fun j => by rw [dispatch_eq]

theorem exited_spaces (hk : k.WellFormed) {current : Slot} (h : k.currentProcess = some current)
    (status : Word) : (k.exited current status).spaces = k.spaces :=
  spaces_of_same rfl (exited_live (hk.current current h).not_free status)
    fun j => (exited_eq current status j).2.2.1

/-- Every call does to the user memories what one of its events says, or nothing. -/
theorem WellFormed.does (hk : k.WellFormed) {call : Call} (h : k.after call = some k') :
    ∃ e, k.Does k' call e ∧ k'.spaces = afterEvent k.spaces e := by
  cases call with
  | createProcess data size =>
    obtain rfl := Option.some.inj h
    exact does_createProcess hk data size
  | createKernelProcess entryPoint =>
    obtain rfl := Option.some.inj h
    exact does_createKernelProcess hk entryPoint
  | sysFork =>
    obtain rfl := Option.some.inj h
    exact does_sysFork hk
  | sysExit status =>
    refine ⟨none, .exit, ?_⟩
    cases hk.effect h with
    | spawn hbirth => cases hbirth
    | noCaller => rfl
    | exit _ hcur => exact exited_spaces hk hcur status
    | exitTo _ hcur hhead =>
      exact (dispatch_spaces (hk.exited hcur status) hhead).trans (exited_spaces hk hcur status)
  | sysWait statusPtr =>
    rw [Kernel.after, sysWait_eq hk] at h
    obtain rfl := Option.some.inj h
    exact ⟨none, .wait, rfl⟩
  | schedule =>
    refine ⟨none, .schedule, ?_⟩
    cases hk.effect h with
    | spawn hbirth => cases hbirth
    | idle => rfl
    | dispatch hhead => exact dispatch_spaces hk hhead
  | pageFault addr info =>
    obtain rfl := Option.some.inj h
    by_cases hfill : ∃ c, k.currentProcess = some c ∧ addr < kernelVirtualStart ∧
        info.errorCode &&& 0x1 = 0 ∧ k.FaultAllocs c addr
    · obtain ⟨c, hcur, haddr, hcode, hallocs⟩ := hfill
      exact ⟨_, .fault hcur haddr hcode hallocs, pageFault_fills hk hcur haddr hcode hallocs⟩
    · have hstop := fun c hcur haddr hcode hallocs =>
        hfill ⟨c, hcur, haddr, hcode, hallocs⟩
      exact ⟨none, .faultStops hstop, pageFault_stops hk hstop⟩
  | userStore addr value =>
    obtain rfl := Option.some.inj h
    by_cases hstore : ∃ c, k.currentProcess = some c ∧ addr < kernelVirtualStart
    · obtain ⟨c, hcur, haddr⟩ := hstore
      exact ⟨_, .store hcur haddr, userStore_spaces hk hcur haddr value⟩
    · have hfault := fun c hcur haddr => hstore ⟨c, hcur, haddr⟩
      refine ⟨none, .storeFaults hfault, ?_⟩
      show (k.userStore addr value).spaces = k.spaces
      rw [userStore]
      cases hcur : k.currentProcess with
      | none => rfl
      | some c =>
        simp only
        rw [if_neg fun hc => hfault c hcur hc.1]

/-- A run with the events on the user memories that its calls make. -/
inductive Traced : Kernel → List (Call × Kernel) → List MemoryEvent → Prop
  | nil (k : Kernel) : Traced k [] []
  | cons {k k' : Kernel} {call : Call} {run : List (Call × Kernel)} {e : Option MemoryEvent}
      {events : List MemoryEvent} : k.Does k' call e → Traced k' run events →
      Traced k ((call, k') :: run) (e.toList ++ events)

instance (k : Kernel) (c : Slot) (addr : Word) : Decidable (k.FaultAllocs c addr) :=
  inferInstanceAs (Decidable (_ ∧ (_ ∨ _)))

/-- Each call that the current process makes as user code, as an event of its own: a store, or a
fault that its handler can serve. -/
def ownEvent (k : Kernel) (i : Slot) : Call → Option (OwnEvent Word Byte Nat)
  | .userStore addr value =>
    if k.currentProcess = some i ∧ addr < kernelVirtualStart then some (.store addr value) else none
  | .pageFault addr info =>
    if k.currentProcess = some i ∧ addr < kernelVirtualStart ∧ info.errorCode &&& 0x1 = 0 ∧
        k.FaultAllocs i addr then some (.fill (pageOf addr) 0) else none
  | _ => none

def ownEvents (i : Slot) : Kernel → List (Call × Kernel) → List (OwnEvent Word Byte Nat)
  | _, [] => []
  | k, (call, k') :: run => (k.ownEvent i call).toList ++ ownEvents i k' run

/-- A process that is there is one that the event of a call does not make. -/
theorem Does.not_makes (hk : k.WellFormed) {call : Call} {e : Option MemoryEvent}
    (h : k.Does k' call e) (hafter : k.after call = some k') {i : Slot}
    (hi : (k.processTable i).state ≠ .free) : ∀ ev ∈ e, ¬ev.Makes i := by
  have hfound : ∀ {birth : Slot → Birth} {r : Option Slot × Kernel} {j : Slot}, k.Spawn birth r →
      r.1 = some j → ¬j = i := by
    rintro birth r j hspawn hj rfl
    cases hspawn with
    | noSlot => cases hj
    | failed => cases hj
    | created hnew =>
      obtain rfl := Option.some.inj hj
      exact hi (findFree_some hnew.slot).1
  have hchild : ∀ {pid : Word} {child : Slot}, k' = k.sysFork.2 → k.sysFork.1 = .ret pid → pid ≠ -1 →
      (k'.processTable child).pid = pid → ¬child = i := by
    rintro pid child rfl hret hpid hchild rfl
    cases hcur : k.currentProcess with
    | none =>
      simp only [sysFork, hcur] at hret
      exact hpid (Exit.ret.inj hret).symm
    | some parent =>
      obtain ⟨r, hr, hspawn⟩ := sysFork_spawn hk.isolated hcur (hk.current parent hcur).not_free
      have hmem : r.2 = k.sysFork.2 := by rw [hr]; rfl
      have hkept := hspawn.live_kept hi
      rw [hmem] at hkept
      rw [hkept] at hchild
      cases hspawn with
      | noSlot =>
        rw [hr] at hret
        exact hpid (Exit.ret.inj hret).symm
      | failed =>
        rw [hr] at hret
        exact hpid (Exit.ret.inj hret).symm
      | created hnew =>
        rw [hr] at hret
        have hnext : k.nextPid = pid := Exit.ret.inj hret
        exact (hk.nextPid_fresh hnew.free).2 child hi (hchild.trans hnext.symm)
  rintro ev hev hmakes
  cases h with
  | load hr =>
    cases hev
    exact hfound (createProcess_spawn hk.isolated _ _) hr hmakes
  | kernelProcess hr =>
    cases hev
    exact hfound (createKernelProcess_spawn hk.isolated _) hr hmakes
  | fork _ hret hpid hslot =>
    cases hev
    exact hchild (Option.some.inj hafter).symm hret hpid hslot hmakes
  | forkShort hret hpid hslot =>
    cases hev
    exact hchild (Option.some.inj hafter).symm hret hpid hslot hmakes
  | fault =>
    cases hev
    exact hmakes
  | store =>
    cases hev
    exact hmakes
  | _ => cases hev

/-- The event of a call is one of process `i` on its own memory exactly when `i` makes the call. -/
theorem Does.ownOf {call : Call} {e : Option MemoryEvent} (h : k.Does k' call e) (i : Slot) :
    e.toList.filterMap (SpaceEvent.ownOf i) = (k.ownEvent i call).toList := by
  cases h with
  | @fault addr info c hcur haddr hcode hallocs =>
    by_cases hci : c = i
    · subst hci
      rw [ownEvent, if_pos ⟨hcur, haddr, hcode, hallocs⟩]
      simp [SpaceEvent.ownOf]
    · simp [ownEvent, SpaceEvent.ownOf, hcur, hci]
  | @faultStops addr info hnot =>
    rw [ownEvent, if_neg fun hc => hnot i hc.1 hc.2.1 hc.2.2.1 hc.2.2.2]
    rfl
  | @store addr value c hcur haddr =>
    by_cases hci : c = i
    · subst hci
      simp [ownEvent, SpaceEvent.ownOf, hcur, haddr]
    · simp [ownEvent, SpaceEvent.ownOf, hcur, hci]
  | @storeFaults addr value hnot =>
    rw [ownEvent, if_neg fun hc => hnot i hc.1 hc.2]
    rfl
  | _ => rfl

/-- No call ends a process's use of its slot. -/
theorem WellFormed.live_after (hk : k.WellFormed) {call : Call} (h : k.after call = some k')
    {i : Slot} (hi : (k.processTable i).state ≠ .free) : (k'.processTable i).state ≠ .free := by
  obtain ⟨l, hq⟩ := hk.queue
  cases hk.effect h with
  | spawn _ hspawn =>
    rw [hspawn.live_kept hi]
    exact hi
  | exit status hcur => exact (exited_live (hk.current _ hcur).not_free status i).mpr hi
  | exitTo status hcur hhead =>
    have hq' := hq.exited (hk.current _ hcur) status
    exact (hq'.dispatch_live hhead i).mpr ((exited_live (hk.current _ hcur).not_free status i).mpr hi)
  | dispatch hhead => exact (hq.dispatch_live hhead i).mpr hi
  | _ => exact hi

end Kernel

/-- The events of a run from a reachable state. -/
theorem KernelImage.traced_of_run {img : KernelImage} {k : Kernel} (hk : img.system.Reach k)
    {run : List (Call × Kernel)} (hrun : img.system.Run k run) :
    ∃ events, Kernel.Traced k run events ∧
      (System.runEnd k run).spaces = events.foldl (SpaceEvent.apply pageOf) k.spaces ∧
      ∀ i, (k.processTable i).state ≠ .free → (∀ e ∈ events, ¬e.Makes i) ∧
        events.filterMap (SpaceEvent.ownOf i) = Kernel.ownEvents i k run := by
  induction hrun with
  | nil k => exact ⟨[], .nil k, rfl, fun i _ => ⟨nofun, rfl⟩⟩
  | @cons k k' call run hstep _ ih =>
    have hwf := (running_of_reach hk).wellFormed
    obtain ⟨hafter, -⟩ := (running_of_reach hk).step hstep
    obtain ⟨e, hdoes, hspaces⟩ := hwf.does hafter
    obtain ⟨events, htraced, hend, hown⟩ := ih (reach_after hk hafter)
    refine ⟨_, .cons hdoes htraced, ?_, fun i hi => ?_⟩
    · rw [System.runEnd, hend, hspaces, List.foldl_append]
      rfl
    · obtain ⟨hmakes, hfilter⟩ := hown i (hwf.live_after hafter hi)
      refine ⟨fun ev hev => ?_, ?_⟩
      · rcases List.mem_append.mp hev with hev | hev
        · exact hdoes.not_makes hwf hafter hi ev (Option.mem_toList.mp hev)
        · exact hmakes ev hev
      · rw [List.filterMap_append, hdoes.ownOf i, hfilter]
        rfl

/-- In every run from a reachable state the user memories change as the events of the calls say. -/
theorem user_memories_of_run {img : KernelImage} {k : Kernel} (hk : img.system.Reach k)
    {run : List (Call × Kernel)} (hrun : img.system.Run k run) :
    ∃ events, Kernel.Traced k run events ∧
      (System.runEnd k run).spaces = events.foldl (SpaceEvent.apply pageOf) k.spaces := by
  obtain ⟨events, htraced, hend, -⟩ := KernelImage.traced_of_run hk hrun
  exact ⟨events, htraced, hend⟩

/-- The sample kernel's first program stores a byte, and then another process is made. -/
theorem user_memories_of_run_sample :
    ∃ (k : Kernel) (i : Slot) (events : List Kernel.MemoryEvent), k.currentProcess = some i ∧
      Kernel.Traced k [(.userStore userCodeStart 5, k.userStore userCodeStart 5),
        (.createKernelProcess 0xC0100000,
          ((k.userStore userCodeStart 5).createKernelProcess 0xC0100000).2)] events ∧
      ((k.userStore userCodeStart 5).createKernelProcess 0xC0100000).2.spaces =
        events.foldl (SpaceEvent.apply pageOf) k.spaces := by
  obtain ⟨i, d, birth, hnew, -, -, -, hreach⟩ := KernelImage.sample_process
  generalize hk : (KernelImage.sampleBoot.createProcess 0xC0110000 4096).2.dispatch i = k at hreach
  have hcur : k.currentProcess = some i := by rw [← hk, Kernel.dispatch_current]
  have hrun : KernelImage.sample.system.Run k [(.userStore userCodeStart 5,
      k.userStore userCodeStart 5), (.createKernelProcess 0xC0100000,
        ((k.userStore userCodeStart 5).createKernelProcess 0xC0100000).2)] :=
    .cons (fun _ h => Option.some.inj h) (.cons (fun _ h => Option.some.inj h) (.nil _))
  obtain ⟨events, htraced, hend⟩ := user_memories_of_run hreach hrun
  rw [System.runEnd_cons, System.runEnd_cons, System.runEnd_nil] at hend
  exact ⟨k, i, events, hcur, htraced, hend⟩

/-- What a process reads after any run is what its own stores and faults make of what it read before,
whatever the other processes and the kernel did in between. -/
theorem user_memory_private {img : KernelImage} {k : Kernel} (hk : img.system.Reach k) {i : Slot}
    (hi : (k.processTable i).state ≠ .free) {run : List (Call × Kernel)}
    (hrun : img.system.Run k run) :
    (System.runEnd k run).spaces i =
      (Kernel.ownEvents i k run).foldl (OwnEvent.apply pageOf) (k.spaces i) := by
  obtain ⟨events, -, hend, hown⟩ := KernelImage.traced_of_run hk hrun
  obtain ⟨hmakes, hfilter⟩ := hown i hi
  rw [hend, SpaceEvent.foldl_apply_eq_own hmakes, hfilter]

/-- The sample kernel's first program stores a byte, and then another process is made. -/
theorem user_memory_private_sample :
    ∃ (k : Kernel) (i : Slot), k.currentProcess = some i ∧ (k.processTable i).state ≠ .free ∧
      ((k.userStore userCodeStart 5).createKernelProcess 0xC0100000).2.spaces i =
        OwnEvent.apply pageOf (k.spaces i) (.store userCodeStart 5) := by
  obtain ⟨i, d, birth, hnew, -, -, -, hreach⟩ := KernelImage.sample_process
  generalize hk : (KernelImage.sampleBoot.createProcess 0xC0110000 4096).2.dispatch i = k at hreach
  have hcur : k.currentProcess = some i := by rw [← hk, Kernel.dispatch_current]
  have hlive : (k.processTable i).state ≠ .free := by
    rw [← hk, Kernel.dispatch_self]
    exact nofun
  have hrun : KernelImage.sample.system.Run k [(.userStore userCodeStart 5,
      k.userStore userCodeStart 5), (.createKernelProcess 0xC0100000,
        ((k.userStore userCodeStart 5).createKernelProcess 0xC0100000).2)] :=
    .cons (fun _ h => Option.some.inj h) (.cons (fun _ h => Option.some.inj h) (.nil _))
  have hown : Kernel.ownEvents i k [(.userStore userCodeStart 5, k.userStore userCodeStart 5),
      (.createKernelProcess 0xC0100000,
        ((k.userStore userCodeStart 5).createKernelProcess 0xC0100000).2)] =
      [.store userCodeStart 5] := by
    have huser : userCodeStart < kernelVirtualStart := by decide
    simp [Kernel.ownEvents, Kernel.ownEvent, hcur, huser]
  have hprivate := user_memory_private hreach hlive hrun
  rw [hown, System.runEnd_cons, System.runEnd_cons, System.runEnd_nil] at hprivate
  exact ⟨k, i, hcur, hlive, hprivate⟩

end Lbos

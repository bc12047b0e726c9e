import Lbos.Kernel.Boot
import Lbos.Mem.FrameSupply

/-! The creation of a process succeeds when a slot and enough frames are free, and takes exactly the
frames that its pages and their tables need. -/

namespace Lbos

open Lib Mem Stock

namespace Kernel

variable {k : Kernel} {i : Slot} {d : Word} {mem : PhysMem}

theorem createProcess_memory (hi : k.findFree = some i)
    (hr : k.mem.createPageDirectory = (k.mem.physToVirt d, mem)) (hne : k.mem.physToVirt d ≠ 0)
    (hphys : mem.virtToPhys (k.mem.physToVirt d) = d) (data size : Word) :
    let r := loopWhile (loadPage d data size) ((size + frameSize - 1) / frameSize).toNat 0 mem
    (k.createProcess data size).2.mem = r.2 ∧
      (k.createProcess data size).1 = (if r.1 then some i else none) ∧
      (r.1 = true → ((k.createProcess data size).2.processTable i).context.cr3 = d) := by
  unfold createProcess
  simp only [allocatePcbAndPid, hi, takeSlot_mem, hr, if_neg hne, setMem_mem, hphys, setContext,
    setProcess_mem]
  generalize loopWhile (loadPage d data size) ((size + frameSize - 1) / frameSize).toNat 0 mem = r
  obtain ⟨_ | _, mem'⟩ := r
  · exact ⟨rfl, rfl, fun hc => absurd hc Bool.false_ne_true⟩
  · refine ⟨rfl, rfl, fun _ => ?_⟩
    simp [finishCreation]

/-- What a new directory starts with: one frame fewer than there were, and nothing entered. -/
structure Fresh (k : Kernel) (s : Stock (Prod.fst : Nat × Nat → Nat)) : Prop where
  left : s.left + 1 = k.mem.freeCount
  groups : s.groups = ∅

/-- A process that gets a directory enters the pages of its module. -/
theorem createProcess_fill (h : Isolated k.mem k.dirs) (hi : k.findFree = some i)
    (hsome : 0 < k.mem.freeCount) (data size : Word) {n : Nat}
    (hn : n = ((size + frameSize - 1) / frameSize).toNat) :
    ∃ d s, k.Fresh s ∧ (fill (modulePages n) s).2 = (k.createProcess data size).2.mem.stock d ∧
      (k.createProcess data size).1 = (if (fill (modulePages n) s).1 then some i else none) ∧
      ((fill (modulePages n) s).1 = true →
        ((k.createProcess data size).2.processTable i).context.cr3 = d ∧ n ≤ 32768) := by
  obtain ⟨d, mem, hr, hne, hphys, -, hiso, hcount, hempty, -⟩ := h.createPageDirectory_stock hsome
  obtain ⟨hmem, hret, hcr3⟩ := createProcess_memory hi hr hne hphys data size
  obtain ⟨hfill, hle⟩ := hiso.loadLoop_fill (Set.mem_insert d _) data size hn
  rw [← hn] at hmem hret hcr3
  obtain ⟨hok, hstock⟩ := Prod.mk.inj hfill
  refine ⟨d, mem.stock d, ⟨hcount, hempty⟩, ?_, ?_, ?_⟩
  · rw [hmem, hstock]
  · rw [hret, hok]
  · rw [← hok]
    exact fun htrue => ⟨hcr3 htrue, hle htrue⟩

/-- Two frames for each page cover the pages of a module. -/
theorem fill_modulePages {s : Stock (Prod.fst : Nat × Nat → Nat)} {n : Nat} (h : 2 * n ≤ s.left) :
    ∃ s', fill (modulePages n) s = (true, s') ∧ s.left ≤ s'.left + 2 * n ∧
      s'.items = s.items ∪ (modulePages n).toFinset := by
  have hlength : (modulePages n).length = n := by simp [modulePages]
  have hcost := cost_le (Prod.fst : Nat × Nat → Nat) s.groups (modulePages n)
  obtain ⟨s', hfill, hspent, hitems⟩ := fill_enough
    (show cost Prod.fst s.groups (modulePages n) ≤ s.left by omega)
  exact ⟨s', hfill, by omega, hitems⟩

/-- A process is created, with a page for each page of the module at most, when there are two frames
for each of them and one for the directory. -/
theorem createProcess_created (h : Isolated k.mem k.dirs) (hi : k.findFree = some i)
    (data size : Word) {n : Nat} (hn : n = ((size + frameSize - 1) / frameSize).toNat)
    (hsupply : 1 + 2 * n ≤ k.mem.freeCount) :
    ∃ d birth, Created k (k.createProcess data size).2 i d birth ∧ birth.stack = entryStack ∧
      (userPages (k.createProcess data size).2.mem.ram d).card ≤ n ∧
      k.mem.freeCount ≤ (k.createProcess data size).2.mem.freeCount + 1 + 2 * n := by
  obtain ⟨d, s, ⟨hleft, hgroups⟩, hstock, hret, hdone⟩ :=
    createProcess_fill h hi (by omega) data size hn
  have hlength : (modulePages n).length = n := by simp [modulePages]
  obtain ⟨s', hfill, hspent, hitems⟩ := fill_modulePages (s := s) (n := n) (by omega)
  rw [hfill] at hstock hret hdone
  obtain ⟨hcr3, -⟩ := hdone rfl
  have hnone := s.items_eq_empty hgroups
  have hpages : (userPages (k.createProcess data size).2.mem.ram d).card ≤ n := by
    rw [← PhysMem.stock_items, ← hstock, hitems, hnone, Finset.empty_union]
    exact (modulePages n).toFinset_card_le.trans_eq hlength
  have hfree : (k.createProcess data size).2.mem.freeCount = s'.left := by
    rw [← PhysMem.stock_left _ d, ← hstock]
  have hspawn := createProcess_spawn h data size
  generalize k.createProcess data size = r at *
  cases hspawn with
  | noSlot => cases hret
  | failed => cases hret
  | @created k' j d' hnew =>
    obtain rfl := Option.some.inj hret
    rw [hnew.new] at hcr3
    obtain rfl : d' = d := hcr3
    exact ⟨d', _, hnew, rfl, hpages, by omega⟩

theorem sysFork_memory {current : Slot} (hcur : k.currentProcess = some current)
    (hlive : (k.processTable current).state ≠ .free) (hi : k.findFree = some i)
    (hr : k.mem.createPageDirectory = (k.mem.physToVirt d, mem)) (hne : k.mem.physToVirt d ≠ 0)
    (hphys : mem.virtToPhys (k.mem.physToVirt d) = d) :
    let r := loopWhile (forkTable d (mem.physToVirt (k.processTable current).context.cr3)) 768 0 mem
    k.sysFork.2.mem = r.2 ∧
      (k.sysFork.2.processTable i).state = (if r.1 then .ready else .free) ∧
      (r.1 = true → (k.sysFork.2.processTable i).context.cr3 = d) := by
  have hpde : (kernelVirtualStart / 0x400000).toNat = 768 := by decide
  have hci : current ≠ i := fun heq => hlive (heq ▸ (findFree_some hi).1)
  have hparent : ∀ p q : Process, (((((k.takeSlot i).setProcess i p).setMem mem).setProcess i
      q).processTable current).context.cr3 = (k.processTable current).context.cr3 := by
    simp [hci]
  unfold sysFork
  simp only [hcur, hpde, allocatePcbAndPid, hi, takeSlot_mem, setProcess_mem, hr, if_neg hne,
    setMem_mem, hphys, setContext, hparent]
  generalize loopWhile (forkTable d _) 768 0 mem = r
  obtain ⟨_ | _, mem'⟩ := r
  · refine ⟨rfl, ?_, fun hc => absurd hc Bool.false_ne_true⟩
    simp [setState]
  · refine ⟨rfl, ?_, fun _ => ?_⟩
    · simp [finishCreation]
    · simp [finishCreation]

/-- A child that gets a directory enters the pages of its parent. -/
theorem sysFork_fill (h : Isolated k.mem k.dirs) {current : Slot}
    (hcur : k.currentProcess = some current) (hlive : (k.processTable current).state ≠ .free)
    (hi : k.findFree = some i) (hsome : 0 < k.mem.freeCount) :
    ∃ d s, k.Fresh s ∧
      (fill (parentPages k.mem.ram (k.processTable current).context.cr3) s).2 =
        k.sysFork.2.mem.stock d ∧
      (k.sysFork.2.processTable i).state =
        (if (fill (parentPages k.mem.ram (k.processTable current).context.cr3) s).1 then .ready
          else .free) ∧
      ((fill (parentPages k.mem.ram (k.processTable current).context.cr3) s).1 = true →
        (k.sysFork.2.processTable i).context.cr3 = d) := by
  have hp : (k.processTable current).context.cr3 ∈ k.dirs := ⟨current, hlive, rfl⟩
  obtain ⟨d, mem, hr, hne, hphys, hnew, hiso, hcount, hempty, hsame⟩ :=
    h.createPageDirectory_stock hsome
  obtain ⟨hmem, hstate, hcr3⟩ := sysFork_memory hcur hlive hi hr hne hphys
  have hpd : (k.processTable current).context.cr3 ≠ d := fun heq => hnew (heq ▸ hp)
  have hfill := hiso.forkLoop_fill (Set.mem_insert d _) (Set.mem_insert_of_mem d hp) hpd
  rw [(hsame _ hp).parentPages] at hfill
  obtain ⟨hok, hstock⟩ := Prod.mk.inj hfill
  refine ⟨d, mem.stock d, ⟨hcount, hempty⟩, ?_, ?_, ?_⟩
  · rw [hmem, hstock]
  · rw [hstate, hok]
  · rw [← hok]
    exact hcr3

/-- A process forks when there are two frames for each of its pages and one for the directory, and no
more than these are taken. -/
theorem sysFork_created (hk : k.WellFormed) {current : Slot} (hcur : k.currentProcess = some current)
    (hi : k.findFree = some i)
    (hsupply : 1 + 2 * (userPages k.mem.ram (k.processTable current).context.cr3).card ≤
      k.mem.freeCount) :
    (k.sysFork.2.processTable i).state = .ready ∧ k.mem.freeCount ≤ k.sysFork.2.mem.freeCount + 1 +
      2 * (userPages k.mem.ram (k.processTable current).context.cr3).card := by
  have hlive := (hk.current current hcur).not_free
  obtain ⟨d, s, ⟨hleft, hgroups⟩, hstock, hstate, -⟩ := sysFork_fill hk.isolated hcur hlive hi (by omega)
  have hlength := length_parentPages k.mem.ram (k.processTable current).context.cr3
  have hcost := cost_le (Prod.fst : Nat × Nat → Nat) s.groups
    (parentPages k.mem.ram (k.processTable current).context.cr3)
  have henough : cost Prod.fst s.groups
      (parentPages k.mem.ram (k.processTable current).context.cr3) ≤ s.left := by omega
  obtain ⟨s', hfill, hspent, -⟩ := fill_enough henough
  rw [hfill] at hstock hstate
  have hfree : k.sysFork.2.mem.freeCount = s'.left := by
    rw [← PhysMem.stock_left _ d, ← hstock]
  exact ⟨hstate, by omega⟩

/-- A fork that makes a slot ready has created the child in it. -/
theorem created_of_fork (hwf : k.WellFormed) {parent : Slot}
    (hparent : k.currentProcess = some parent) (hslot : (k.processTable i).state = .free)
    (hchild : (k.sysFork.2.processTable i).state = .ready) :
    ∃ d, Created k k.sysFork.2 i d (k.childBirth parent) := by
  obtain ⟨r, hr, hspawn⟩ := sysFork_spawn hwf.isolated hparent
    (hwf.current parent hparent).not_free
  have hk' : k.sysFork.2 = r.2 := congrArg Prod.snd hr
  rw [hk'] at hchild ⊢
  cases hspawn with
  | noSlot =>
    rw [hslot] at hchild
    cases hchild
  | @failed _ j hfail =>
    by_cases hne : i = j
    · rw [hne, hfail.state] at hchild
      cases hchild
    · rw [hfail.others i hne, hslot] at hchild
      cases hchild
  | @created _ j d hnew =>
    by_cases hne : i = j
    · rw [hne]
      exact ⟨d, hnew⟩
    · rw [hnew.others hne, hslot] at hchild
      cases hchild

/-- A fork with a child returns the child's pid. -/
theorem Created.fork_returns (hwf : k.WellFormed) {parent : Slot}
    (hparent : k.currentProcess = some parent) {birth : Birth}
    (hnew : Created k k.sysFork.2 i d birth) : k.sysFork.1 = .ret k.nextPid := by
  obtain ⟨r, hr, hspawn⟩ := sysFork_spawn hwf.isolated hparent
    (hwf.current parent hparent).not_free
  have hk' : k.sysFork.2 = r.2 := congrArg Prod.snd hr
  have hready := hnew.new
  rw [hk'] at hready
  cases hspawn with
  | noSlot hnone => exact nomatch hnone.symm.trans hnew.slot
  | failed hfail =>
    obtain rfl := Option.some.inj (hfail.slot.symm.trans hnew.slot)
    exact nomatch hfail.state.symm.trans (congrArg Process.state hready)
  | created => exact congrArg Prod.fst hr

/-- A new process that is dispatched forks, when a slot, two frames for each of its pages and one
more are free, and no more frames than these are taken. -/
theorem fork_dispatched {k₁ : Kernel} {birth : Birth} {j : Slot} (hne : j ≠ i)
    (hj : (k.processTable j).state = .free) (hnew : Created k k₁ i d birth)
    (hwf : (k₁.dispatch i).WellFormed)
    (hsupply : 1 + 2 * (userPages k₁.mem.ram d).card ≤ k₁.mem.freeCount) :
    ∃ child d', Created (k₁.dispatch i) (k₁.dispatch i).sysFork.2 child d'
        ((k₁.dispatch i).childBirth i) ∧
      k₁.mem.freeCount ≤ (k₁.dispatch i).sysFork.2.mem.freeCount + 1 +
        2 * (userPages k₁.mem.ram d).card := by
  have hcur : (k₁.dispatch i).currentProcess = some i := rfl
  have hd : ((k₁.dispatch i).processTable i).context.cr3 = d := by rw [dispatch_self, hnew.new]
  have hslot : ((k₁.dispatch i).processTable j).state = .free := by
    rw [dispatch_others hne, hnew.others hne]
    exact hj
  obtain ⟨child, hchild⟩ := findFree_exists hslot
  obtain ⟨hready, hspent⟩ := sysFork_created hwf hcur hchild (by rw [hd]; exact hsupply)
  rw [hd] at hspent
  obtain ⟨d', hcreated⟩ := created_of_fork hwf hcur (findFree_some hchild).1 hready
  exact ⟨child, d', hcreated, hspent⟩

/-- The first process of a kernel forks. -/
theorem fork_first {k₁ : Kernel} {birth : Birth} (hempty : ∀ j, (k.processTable j).state = .free)
    (hqueue : k.readyQueueHead = none) (hnew : Created k k₁ i d birth)
    (hwf : (k₁.dispatch i).WellFormed)
    (hsupply : 1 + 2 * (userPages k₁.mem.ram d).card ≤ k₁.mem.freeCount) :
    ∃ j d', (k₁.dispatch i).readyQueueHead = none ∧
      Created (k₁.dispatch i) (k₁.dispatch i).sysFork.2 j d' ((k₁.dispatch i).childBirth i) ∧
      k₁.mem.freeCount ≤ (k₁.dispatch i).sysFork.2.mem.freeCount + 1 +
        2 * (userPages k₁.mem.ram d).card := by
  obtain ⟨j, hne⟩ := exists_slot_ne i
  obtain ⟨child, d', hcreated, hspent⟩ := fork_dispatched hne (hempty j) hnew hwf hsupply
  refine ⟨child, d', ?_, hcreated, hspent⟩
  rw [dispatch, hnew.new]
  exact hqueue

end Kernel

/-- The sample kernel loads a program of one page, and dispatches it. -/
theorem KernelImage.sample_process :
    ∃ i d birth, Kernel.Created KernelImage.sampleBoot
        (KernelImage.sampleBoot.createProcess 0xC0110000 4096).2 i d birth ∧
      birth.stack = Kernel.entryStack ∧
      (userPages (KernelImage.sampleBoot.createProcess 0xC0110000 4096).2.mem.ram d).card ≤ 1 ∧
      KernelImage.sampleBoot.mem.freeCount ≤
        (KernelImage.sampleBoot.createProcess 0xC0110000 4096).2.mem.freeCount + 3 ∧
      KernelImage.sample.system.Reach
        ((KernelImage.sampleBoot.createProcess 0xC0110000 4096).2.dispatch i) := by
  have hreach : KernelImage.sample.system.Reach KernelImage.sampleBoot :=
    .init KernelImage.sampleBoot_init
  have hwf := (KernelImage.running_of_reach hreach).wellFormed
  have hempty : ∀ i, (KernelImage.sampleBoot.processTable i).state = .free := fun _ => rfl
  have hfree := KernelImage.sample_freeCount
  obtain ⟨i, hi⟩ := Kernel.findFree_exists (hempty ⟨0, by decide⟩)
  obtain ⟨d, birth, hnew, hstack, hpages, hspent⟩ := Kernel.createProcess_created hwf.isolated hi
    0xC0110000 4096 (n := 1) (by decide) (by omega)
  have hstart : KernelImage.sampleBoot.after (.createProcess 0xC0110000 4096) =
    some (KernelImage.sampleBoot.createProcess 0xC0110000 4096).2 := rfl
  have htick : ∀ k : Kernel, k.after .schedule = some k.schedule.2 := fun _ => rfl
  have hreach₂ := KernelImage.reach_after (KernelImage.reach_after hreach hstart) (htick _)
  rw [Kernel.schedule_some hnew.readyQueueHead] at hreach₂
  exact ⟨i, d, birth, hnew, hstack, hpages, hspent, hreach₂⟩

/-! ### A parent and its child -/

namespace Kernel

theorem after_schedule {k : Kernel} {head : Slot} (h : k.readyQueueHead = some head) :
    k.after .schedule = some (k.dispatch head) := by
  rw [after, schedule_some h]

theorem after_sysFork (k : Kernel) : k.after .sysFork = some k.sysFork.2 := rfl

end Kernel

namespace KernelImage

/-- The sample kernel loads a program of one page, which runs and forks.  Then the parent runs while
its child is ready, and there are thousands of frames left. -/
structure SampleFamily (k₁ k₂ : Kernel) (i j : Slot) (d d' : Word) (birth : Kernel.Birth) :
    Prop where
  load : sampleBoot.after (.createProcess 0xC0110000 4096) = some k₁
  tick : k₁.after .schedule = some k₂
  ne : i ≠ j
  loaded : Kernel.Created sampleBoot k₁ i d birth
  pages : (userPages k₁.mem.ram d).card ≤ 1
  dispatched : k₂ = k₁.dispatch i
  idle : k₂.readyQueueHead = none
  supply : 6000 ≤ k₁.mem.freeCount
  forked : Kernel.Created k₂ k₂.sysFork.2 j d' (k₂.childBirth i)
  left : 6000 ≤ k₂.sysFork.2.mem.freeCount

theorem sample_family : ∃ k₁ k₂ i j d d' birth, SampleFamily k₁ k₂ i j d d' birth := by
  have hfree := sample_freeCount
  obtain ⟨i, d, birth, hnew, -, hpages, hspent, hreach⟩ := sample_process
  have hstart : sampleBoot.after (.createProcess 0xC0110000 4096) =
    some (sampleBoot.createProcess 0xC0110000 4096).2 := rfl
  generalize (sampleBoot.createProcess 0xC0110000 4096).2 = k₁ at *
  have hwf := (running_of_reach hreach).wellFormed
  obtain ⟨j, d', hidle, hfork, hleft⟩ := Kernel.fork_first (fun _ => rfl) rfl hnew hwf (by omega)
  refine ⟨k₁, _, i, j, d, d', birth, hstart, Kernel.after_schedule hnew.readyQueueHead, fun heq => ?_,
    hnew, hpages, rfl, hidle, by omega, hfork, by omega⟩
  have hslot := (Kernel.findFree_some hfork.slot).1
  rw [← heq, Kernel.dispatch_self] at hslot
  cases hslot

namespace SampleFamily

variable {k₁ k₂ : Kernel} {i j : Slot} {d d' : Word} {birth : Kernel.Birth}
variable (h : SampleFamily k₁ k₂ i j d d' birth)
include h

theorem run : sample.system.Run sampleBoot
    [(.createProcess 0xC0110000 4096, k₁), (.schedule, k₂), (.sysFork, k₂.sysFork.2)] :=
  .cons (step_after _ h.load) (.cons (step_after _ h.tick)
    (.cons (step_after _ (Kernel.after_sysFork k₂)) (.nil _)))

theorem parent_reach : sample.system.Reach k₂ :=
  reach_after (reach_after (.init sampleBoot_init) h.load) h.tick

theorem reach : sample.system.Reach k₂.sysFork.2 :=
  reach_after h.parent_reach (Kernel.after_sysFork k₂)

theorem loaded_idle : k₁.currentProcess = none := h.loaded.currentProcess

theorem parent_current : k₂.currentProcess = some i := by
  rw [h.dispatched]
  rfl

theorem parent_running : (k₂.processTable i).state = .running := by
  rw [h.dispatched, Kernel.dispatch_self]

theorem current : k₂.sysFork.2.currentProcess = some i := h.forked.currentProcess.trans h.parent_current

theorem running : (k₂.sysFork.2.processTable i).state = .running := by
  rw [h.forked.others h.ne, h.parent_running]

theorem ready : (k₂.sysFork.2.processTable j).state = .ready := by
  rw [h.forked.new]

theorem queue : k₂.sysFork.2.readyQueueHead = some j := h.forked.readyQueueHead

/-- The other slots are free. -/
theorem others {x : Slot} (hi : x ≠ i) (hj : x ≠ j) :
    (k₂.sysFork.2.processTable x).state = .free := by
  rw [h.forked.others hj, h.dispatched, Kernel.dispatch_others hi, h.loaded.others hi]
  rfl

theorem not_terminated (x : Slot) : (k₂.sysFork.2.processTable x).state ≠ .terminated := by
  by_cases hi : x = i
  · rw [hi, h.running]
    exact nofun
  by_cases hj : x = j
  · rw [hj, h.ready]
    exact nofun
  · rw [h.others hi hj]
    exact nofun

theorem child : (k₂.sysFork.2.processTable j).parentPid = (k₂.sysFork.2.processTable i).pid := by
  rw [h.forked.new, h.forked.others h.ne]
  rfl

end SampleFamily

/-- The sample kernel's first program forks, and frames are left. -/
theorem sample_fork :
    ∃ k i j d, sample.system.Reach k ∧ k.currentProcess = some i ∧
      (k.processTable i).state = .running ∧ k.readyQueueHead = none ∧
      Kernel.Created k k.sysFork.2 j d (k.childBirth i) ∧ 0 < k.sysFork.2.mem.freeCount := by
  obtain ⟨k₁, k₂, i, j, d, d', birth, h⟩ := sample_family
  have hleft := h.left
  exact ⟨k₂, i, j, d', h.parent_reach, h.parent_current, h.parent_running, h.idle, h.forked, by omega⟩

end KernelImage

end Lbos

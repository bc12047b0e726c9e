import Lbos.Lib.Chain
import Lbos.Kernel.Spawn

/-! What every function of the process manager keeps, whatever the parents and pids are: isolated
address spaces, a current process that has been selected, and a ready queue of the ready processes.
`Effect` says once what each call does. -/

namespace Lbos

open Lib Mem

/-- A process that `schedule` has selected. -/
def ProcessState.Dispatched (s : ProcessState) : Prop := s = .running ∨ s = .terminated

theorem ProcessState.Dispatched.not_free {s : ProcessState} (h : s.Dispatched) : s ≠ .free := by
  rcases h with rfl | rfl <;> exact nofun

theorem ProcessState.Dispatched.not_ready {s : ProcessState} (h : s.Dispatched) : s ≠ .ready := by
  rcases h with rfl | rfl <;> exact nofun

namespace Kernel

/-- The ready queue is the list `l`. -/
structure Queue (k : Kernel) (l : List Slot) : Prop where
  linked : Linked (fun i => (k.processTable i).nextInReadyQueue) k.readyQueueHead l
  mem_iff : ∀ i, i ∈ l ↔ (k.processTable i).state = .ready

structure Consistent (k : Kernel) : Prop where
  isolated : Isolated k.mem k.dirs
  cr3_unique : ∀ i j, (k.processTable i).state ≠ .free → (k.processTable j).state ≠ .free →
    (k.processTable i).context.cr3 = (k.processTable j).context.cr3 → i = j
  current : ∀ c, k.currentProcess = some c → (k.processTable c).state.Dispatched
  queue : ∃ l, k.Queue l

/-! ### Creation -/

section Creation

variable {k k' : Kernel} {i : Slot} {d : Word}

theorem Failed.dirs {parentPid : Word} (h : Failed k k' i parentPid) : k'.dirs = k.dirs := by
  have hfree := (findFree_some h.slot).1
  apply Set.ext
  intro d
  constructor
  · rintro ⟨j, hj, rfl⟩
    have hne : j ≠ i := fun heq => hj (heq ▸ h.state)
    rw [h.others j hne] at hj ⊢
    exact ⟨j, hj, rfl⟩
  · rintro ⟨j, hj, rfl⟩
    have hne : j ≠ i := fun heq => hj (heq ▸ hfree)
    rw [← h.others j hne] at hj ⊢
    exact ⟨j, hj, rfl⟩

theorem Created.others {birth : Birth} (h : Created k k' i d birth) {j : Slot} (hj : j ≠ i) :
    k'.processTable j = k.processTable j := by
  rw [h.table, Function.update_of_ne hj]

theorem Created.new {birth : Birth} (h : Created k k' i d birth) : k'.processTable i = {
    pid := k.nextPid
    state := .ready
    context := ⟨{ birth.reg with esp := (k.pushedKstacks i birth.words).1 }, birth.stack, d⟩
    nextInReadyQueue := k.readyQueueHead
    parentPid := birth.parentPid } := by
  rw [h.table, Function.update_self]

theorem Created.dirs {birth : Birth} (h : Created k k' i d birth) :
    k'.dirs = insert d k.dirs := by
  have hfree := (findFree_some h.slot).1
  apply Set.ext
  intro d'
  constructor
  · rintro ⟨j, hj, rfl⟩
    by_cases hne : j = i
    · subst hne
      rw [h.new]
      exact .inl rfl
    · rw [h.others hne] at hj ⊢
      exact .inr ⟨j, hj, rfl⟩
  · rintro (rfl | ⟨j, hj, rfl⟩)
    · exact ⟨i, by rw [h.new]; exact nofun, by rw [h.new]⟩
    · have hne : j ≠ i := fun heq => hj (heq ▸ hfree)
      rw [← h.others hne] at hj ⊢
      exact ⟨j, hj, rfl⟩

theorem Failed.queue {parentPid : Word} (h : Failed k k' i parentPid) {l : List Slot}
    (hq : k.Queue l) : k'.Queue l := by
  have hfree := (findFree_some h.slot).1
  have hi : i ∉ l := fun hmem => by
    rw [hq.mem_iff, hfree] at hmem
    cases hmem
  refine ⟨?_, fun j => ?_⟩
  · rw [h.readyQueueHead]
    refine hq.linked.congr fun j hj => ?_
    rw [h.others j (ne_of_mem_of_not_mem hj hi)]
  · by_cases hne : j = i
    · subst hne
      rw [h.state]
      exact ⟨fun hmem => absurd hmem hi, nofun⟩
    · rw [h.others j hne]
      exact hq.mem_iff j

/-- The new process comes first. -/
theorem Created.queue {birth : Birth} (h : Created k k' i d birth) {l : List Slot}
    (hq : k.Queue l) : k'.Queue (i :: l) := by
  have hfree := (findFree_some h.slot).1
  have hi : i ∉ l := fun hmem => by
    rw [hq.mem_iff, hfree] at hmem
    cases hmem
  refine ⟨⟨h.readyQueueHead, ?_⟩, fun j => ?_⟩
  · show Linked _ (k'.processTable i).nextInReadyQueue l
    rw [h.new]
    refine hq.linked.congr fun j hj => ?_
    rw [h.others (ne_of_mem_of_not_mem hj hi)]
  · rw [List.mem_cons]
    by_cases hne : j = i
    · subst hne
      rw [h.new]
      exact ⟨fun _ => rfl, fun _ => .inl rfl⟩
    · rw [h.others hne, ← hq.mem_iff]
      exact or_iff_right hne

theorem Spawn.keeps {birth : Slot → Birth} {r : Option Slot × Kernel} (h : k.Spawn birth r) :
    k.mem.Keeps r.2.mem := by
  cases h with
  | noSlot => exact .refl _
  | failed h => exact h.keeps
  | created h => exact h.keeps

/-- A creation changes none of the processes that there are. -/
theorem Spawn.live_kept {birth : Slot → Birth} {r : Option Slot × Kernel} (h : k.Spawn birth r)
    {j : Slot} (hj : (k.processTable j).state ≠ .free) :
    r.2.processTable j = k.processTable j := by
  have hne : ∀ i, k.findFree = some i → j ≠ i := by
    rintro i hi rfl
    exact hj (findFree_some hi).1
  cases h with
  | noSlot => rfl
  | failed h => exact h.others j (hne _ h.slot)
  | created h => exact h.others (hne _ h.slot)

theorem Spawn.currentProcess {birth : Slot → Birth} {r : Option Slot × Kernel}
    (h : k.Spawn birth r) : r.2.currentProcess = k.currentProcess := by
  cases h with
  | noSlot => rfl
  | failed h => exact h.currentProcess
  | created h => exact h.currentProcess

theorem Failed.consistent {parentPid : Word} (h : Failed k k' i parentPid) (hk : k.Consistent) :
    k'.Consistent := by
  have hlive : ∀ j, (k'.processTable j).state ≠ .free → k'.processTable j = k.processTable j :=
    fun j hj => h.others j fun heq => hj (heq ▸ h.state)
  obtain ⟨l, hq⟩ := hk.queue
  refine ⟨?_, fun a b ha hb heq => ?_, fun c hcur => ?_, ⟨l, h.queue hq⟩⟩
  · rw [h.dirs]
    exact h.isolated
  · rw [hlive a ha, hlive b hb] at heq
    rw [hlive a ha] at ha
    rw [hlive b hb] at hb
    exact hk.cr3_unique a b ha hb heq
  · rw [h.currentProcess] at hcur
    have hne : c ≠ i := fun heq =>
      (hk.current c hcur).not_free (heq ▸ (findFree_some h.slot).1)
    rw [h.others c hne]
    exact hk.current c hcur

/-- The directory at least is taken. -/
theorem Created.freeCount {birth : Birth} (h : Created k k' i d birth) :
    k'.mem.freeCount < k.mem.freeCount := by
  have hdir := h.isolated.dir_allocated (Set.mem_insert d _)
  have hsub : {n | k'.mem.FreeFrame n} ⊂ {n | k.mem.FreeFrame n} := by
    refine Set.ssubset_iff_of_subset (fun n hn => h.keeps.free n hn) |>.mpr ⟨pageOf d, h.free, ?_⟩
    exact (k'.mem.isFrameAllocated_iff d).mp hdir.marked
  exact Set.ncard_lt_ncard hsub (PhysMem.free_finite _)

theorem Created.consistent {birth : Birth} (h : Created k k' i d birth) (hk : k.Consistent) :
    k'.Consistent := by
  obtain ⟨l, hq⟩ := hk.queue
  have hcr3 : (k'.processTable i).context.cr3 = d := by rw [h.new]
  have hold : ∀ j, j ≠ i → (k'.processTable j).state ≠ .free →
      (k'.processTable j).context.cr3 ≠ d := fun j hne hj heq => by
    rw [h.others hne] at hj heq
    exact h.new_dir ⟨j, hj, heq⟩
  refine ⟨?_, fun a b ha hb heq => ?_, fun c hcur => ?_, ⟨i :: l, h.queue hq⟩⟩
  · rw [h.dirs]
    exact h.isolated
  · by_cases hai : a = i
    · by_cases hbi : b = i
      · rw [hai, hbi]
      · rw [hai, hcr3] at heq
        exact absurd heq.symm (hold b hbi hb)
    · by_cases hbi : b = i
      · rw [hbi, hcr3] at heq
        exact absurd heq (hold a hai ha)
      · rw [h.others hai] at ha heq
        rw [h.others hbi] at hb heq
        exact hk.cr3_unique a b ha hb heq
  · rw [h.currentProcess] at hcur
    have hne : c ≠ i := fun heq =>
      (hk.current c hcur).not_free (heq ▸ (findFree_some h.slot).1)
    rw [h.others hne]
    exact hk.current c hcur

end Creation

/-! ### Dispatch and exit -/

section Steps

variable {k : Kernel}

/-- What `schedule` does with a process at the head of the queue. -/
def dispatch (k : Kernel) (head : Slot) : Kernel :=
  { k with
    currentProcess := some head
    readyQueueHead := (k.processTable head).nextInReadyQueue
    processTable :=
      Function.update k.processTable head { k.processTable head with state := .running }
    tssEsp0 := k.kstackTop head }

theorem schedule_none (h : k.readyQueueHead = none) : k.schedule = (.ret (), k) := by
  rw [schedule, h]

theorem schedule_some {head : Slot} (h : k.readyQueueHead = some head) :
    k.schedule = (switchToProcess (k.dispatch head) head, k.dispatch head) := by
  rw [schedule, h]
  rfl

theorem dispatch_self (head : Slot) :
    (k.dispatch head).processTable head = { k.processTable head with state := .running } :=
  Function.update_self ..

theorem dispatch_others {head j : Slot} (h : j ≠ head) :
    (k.dispatch head).processTable j = k.processTable j :=
  Function.update_of_ne h ..

theorem dirs_congr {k k' : Kernel}
    (hlive : ∀ j, (k'.processTable j).state ≠ .free ↔ (k.processTable j).state ≠ .free)
    (hcr3 : ∀ j, (k'.processTable j).context.cr3 = (k.processTable j).context.cr3) :
    k'.dirs = k.dirs := by
  apply Set.ext
  intro d
  simp only [dirs, Set.mem_ofPred_eq, hlive, hcr3]

theorem Queue.head_ready {l : List Slot} (hq : k.Queue l) {head : Slot}
    (h : k.readyQueueHead = some head) : (k.processTable head).state = .ready := by
  cases l with
  | nil => exact absurd (h.symm.trans hq.linked) nofun
  | cons x xs =>
    obtain rfl := Option.some.inj (h.symm.trans hq.linked.1)
    exact (hq.mem_iff head).mp (List.mem_cons_self ..)

theorem Queue.dispatch {l : List Slot} (hq : k.Queue l) {head : Slot}
    (h : k.readyQueueHead = some head) : (k.dispatch head).Queue l.tail := by
  cases l with
  | nil => exact absurd (h.symm.trans hq.linked) nofun
  | cons x xs =>
    obtain rfl := Option.some.inj (h.symm.trans hq.linked.1)
    have hx : head ∉ xs := (List.nodup_cons.mp hq.linked.nodup).1
    refine ⟨hq.linked.2.congr fun j hj => ?_, fun j => ?_⟩
    · rw [dispatch_others (ne_of_mem_of_not_mem hj hx)]
    · by_cases hne : j = head
      · subst hne
        rw [dispatch_self]
        exact ⟨fun hmem => absurd hmem hx, nofun⟩
      · rw [dispatch_others hne, ← hq.mem_iff, List.mem_cons]
        exact (or_iff_right hne).symm

/-- What `sys_exit` does before it calls `schedule`. -/
def exited (k : Kernel) (current : Slot) (status : Word) : Kernel :=
  let p := k.processTable current
  k.setProcess current { p with
    context := { p.context with reg := { p.context.reg with eax := status } }
    state := .terminated }

theorem sysExit_some {current : Slot} (h : k.currentProcess = some current) (status : Word) :
    k.sysExit status = ((k.exited current status).schedule.1.map fun _ => 0,
      (k.exited current status).schedule.2) := by
  unfold sysExit
  simp only [h, setContext, setState, exited, setProcess_processTable, Function.update_self]
  have htwice : ∀ p q, (k.setProcess current p).setProcess current q = k.setProcess current q := by
    intro p q
    simp [setProcess]
  simp only [htwice]

/-- `sys_exit` switches to a process when its `schedule` does. -/
theorem sysExit_switched {status cr3 : Word} {cpu : Cpu} {k' : Kernel}
    (h : k.sysExit status = (.switched cpu cr3, k')) : ∃ current,
      k.currentProcess = some current ∧
      (k.exited current status).schedule = (.switched cpu cr3, k') := by
  cases hcur : k.currentProcess with
  | none =>
    unfold sysExit at h
    simp only [hcur] at h
    cases h
  | some current =>
    refine ⟨current, rfl, ?_⟩
    rw [sysExit_some hcur] at h
    obtain ⟨hexit, rfl⟩ := Prod.mk.inj h
    cases hs : (k.exited current status).schedule.1 with
    | switched cpu' cr3' =>
      rw [hs] at hexit
      obtain ⟨rfl, rfl⟩ := Exit.switched.inj hexit
      exact Prod.ext hs rfl
    | ret a =>
      rw [hs] at hexit
      cases hexit
    | stored addr value a =>
      rw [hs] at hexit
      cases hexit
    | halted =>
      rw [hs] at hexit
      cases hexit

theorem exited_self (current : Slot) (status : Word) :
    ((k.exited current status).processTable current).state = .terminated := by
  simp [exited]

theorem exited_others {current j : Slot} (status : Word) (h : j ≠ current) :
    (k.exited current status).processTable j = k.processTable j := by
  simp [exited, h]

/-- A step that changes only what the table holds of dispatched processes, or which of the ready
ones is the current process. -/
theorem Consistent.of_table {k' : Kernel} (hk : k.Consistent) (hmem : k'.mem = k.mem)
    (hlive : ∀ j, (k'.processTable j).state ≠ .free ↔ (k.processTable j).state ≠ .free)
    (hcr3 : ∀ j, (k'.processTable j).context.cr3 = (k.processTable j).context.cr3)
    (hcur : ∀ c, k'.currentProcess = some c → (k'.processTable c).state.Dispatched)
    (hqueue : ∃ l, k'.Queue l) : k'.Consistent := by
  refine ⟨?_, fun a b ha hb heq => ?_, hcur, hqueue⟩
  · rw [hmem, dirs_congr hlive hcr3]
    exact hk.isolated
  · rw [hcr3, hcr3] at heq
    exact hk.cr3_unique a b ((hlive a).mp ha) ((hlive b).mp hb) heq

theorem dispatch_eq (head j : Slot) : (k.dispatch head).processTable j =
    { k.processTable j with state := ((k.dispatch head).processTable j).state } := by
  by_cases hne : j = head
  · subst hne
    rw [dispatch_self]
  · rw [dispatch_others hne]

theorem dispatch_terminated {head j : Slot}
    (h : ((k.dispatch head).processTable j).state = .terminated) :
    (k.processTable j).state = .terminated := by
  rwa [dispatch_others] at h
  rintro rfl
  rw [dispatch_self] at h
  cases h

theorem Queue.dispatch_live {l : List Slot} (hq : k.Queue l) {head : Slot}
    (h : k.readyQueueHead = some head) (j : Slot) :
    ((k.dispatch head).processTable j).state ≠ .free ↔ (k.processTable j).state ≠ .free := by
  by_cases hne : j = head
  · subst hne
    rw [dispatch_self, hq.head_ready h]
    exact iff_of_true nofun nofun
  · rw [dispatch_others hne]

theorem Consistent.dispatch (hk : k.Consistent) {head : Slot}
    (h : k.readyQueueHead = some head) : (k.dispatch head).Consistent := by
  obtain ⟨l, hq⟩ := hk.queue
  refine hk.of_table rfl (hq.dispatch_live h) (fun j => by rw [dispatch_eq]) ?_ ⟨_, hq.dispatch h⟩
  rintro c hc
  obtain rfl := Option.some.inj hc
  rw [dispatch_self]
  exact .inl rfl

/-- A dispatch changes the process at the head of the queue only, which was ready. -/
theorem Consistent.dispatch_kept (hk : k.Consistent) {head i : Slot}
    (h : k.readyQueueHead = some head) (hi : (k.processTable i).state ≠ .ready) :
    (k.dispatch head).processTable i = k.processTable i := by
  obtain ⟨l, hq⟩ := hk.queue
  refine dispatch_others ?_
  rintro rfl
  exact hi (hq.head_ready h)

/-- An exit changes the state and `eax` of the process only. -/
theorem exited_eq (current : Slot) (status : Word) (j : Slot) :
    ((k.exited current status).processTable j).pid = (k.processTable j).pid ∧
      ((k.exited current status).processTable j).parentPid = (k.processTable j).parentPid ∧
      ((k.exited current status).processTable j).context.cr3 = (k.processTable j).context.cr3 ∧
      ((k.exited current status).processTable j).nextInReadyQueue =
        (k.processTable j).nextInReadyQueue := by
  by_cases hne : j = current
  · simp [hne, exited]
  · rw [exited_others status hne]
    exact ⟨rfl, rfl, rfl, rfl⟩

theorem exited_live {current : Slot} (hlive : (k.processTable current).state ≠ .free)
    (status : Word) (j : Slot) : ((k.exited current status).processTable j).state ≠ .free ↔
      (k.processTable j).state ≠ .free := by
  by_cases hne : j = current
  · rw [hne, exited_self]
    exact iff_of_true nofun hlive
  · rw [exited_others status hne]

theorem exited_ready {current : Slot} (hcur : (k.processTable current).state.Dispatched)
    (status : Word) (j : Slot) : ((k.exited current status).processTable j).state = .ready ↔
      (k.processTable j).state = .ready := by
  by_cases hne : j = current
  · rw [hne, exited_self]
    exact iff_of_false nofun hcur.not_ready
  · rw [exited_others status hne]

theorem Queue.exited {l : List Slot} (hq : k.Queue l) {current : Slot}
    (hcur : (k.processTable current).state.Dispatched) (status : Word) :
    (k.exited current status).Queue l := by
  refine ⟨hq.linked.congr fun j _ => (exited_eq current status j).2.2.2, fun j => ?_⟩
  rw [exited_ready hcur]
  exact hq.mem_iff j

theorem Consistent.exited (hk : k.Consistent) {current : Slot}
    (h : k.currentProcess = some current) (status : Word) :
    (k.exited current status).Consistent := by
  obtain ⟨l, hq⟩ := hk.queue
  have hcur := hk.current current h
  refine hk.of_table rfl (exited_live hcur.not_free status)
    (fun j => (exited_eq current status j).2.2.1) (fun c hc => ?_) ⟨l, hq.exited hcur status⟩
  obtain rfl := Option.some.inj (h.symm.trans hc)
  exact .inr (exited_self current status)

/-! ### Memory -/

theorem Queue.setMem {l : List Slot} (hq : k.Queue l) (mem : PhysMem) : (k.setMem mem).Queue l :=
  ⟨hq.linked, hq.mem_iff⟩

/-- A step that changes memory only. -/
theorem Consistent.setMem (hk : k.Consistent) {mem : PhysMem} (h : Isolated mem k.dirs) :
    (k.setMem mem).Consistent := by
  obtain ⟨l, hq⟩ := hk.queue
  exact ⟨h, hk.cr3_unique, hk.current, ⟨l, hq.setMem mem⟩⟩

theorem Consistent.current_dir (hk : k.Consistent) {current : Slot}
    (h : k.currentProcess = some current) : (k.processTable current).context.cr3 ∈ k.dirs :=
  ⟨current, (hk.current current h).not_free, rfl⟩

/-- What `page_fault_handler` does: it stops, or enters a page. -/
theorem Consistent.pageFault (hk : k.Consistent) (addr : Word) (info : IdtInfo) :
    ∃ mem, (k.pageFaultHandler addr info).2 = k.setMem mem ∧ Isolated mem k.dirs ∧
      k.mem.Keeps mem := by
  have hsame : ∃ mem, k = k.setMem mem ∧ Isolated mem k.dirs ∧ k.mem.Keeps mem :=
    ⟨k.mem, rfl, hk.isolated, .refl _⟩
  unfold pageFaultHandler
  cases hcur : k.currentProcess with
  | none => exact hsame
  | some current =>
    simp only
    split
    · exact hsame
    · next haddr =>
      split
      · by_cases hz : k.mem.allocFrame.1 = 0
        · obtain ⟨-, hmem⟩ := k.mem.allocFrame_fails hk.isolated.not_free_zero hz
          simp only [hz, if_true, hmem]
          exact hsame
        · have hva := pdIndex_userPage (BitVec.not_le.mp haddr)
          simp only [hz, if_false, setMem_mem, setMem_processTable]
          obtain ⟨hiso, hkeep⟩ := hk.isolated.of_demandPage
            (if info.errorCode &&& 2 != 0 ∨ addr &&& ~~~0xFFF < 0xC0000000 then
              pagePresent ||| pageUser ||| pageRw else pagePresent ||| pageUser)
            (hk.current_dir hcur) hva (by split <;> decide) hz
          exact ⟨_, rfl, hiso, hkeep⟩
      · exact hsame

/-- A user page that is present is a data frame of its process. -/
theorem Consistent.userPage (hk : k.Consistent) {current : Slot}
    (h : k.currentProcess = some current) {addr : Word} (haddr : addr < kernelVirtualStart)
    (hphys : k.mem.getPhysicalAddress (k.processTable current).context.cr3 addr ≠ 0) :
    ∃ f, DataFrame k.mem k.dirs f ∧
      pageOf (k.mem.getPhysicalAddress (k.processTable current).context.cr3 addr) = pageOf f := by
  rw [PhysMem.getPhysicalAddress_eq] at hphys ⊢
  cases he : entryAt k.mem.ram (k.processTable current).context.cr3 (pdIndex addr)
    (ptIndex addr) with
  | none =>
    rw [he] at hphys
    exact absurd rfl hphys
  | some e =>
    have hdata := hk.isolated.dataFrame_of_entry (hk.current_dir h) (pdIndex_user haddr)
      (ptIndex_lt addr) he
    have hoff := toNat_pageOffset addr
    refine ⟨pageBase e, hdata, ?_⟩
    rw [Option.elim_some, or_offset (pageAligned_pageBase e) (by omega)]
    exact pageOf_add (pageAligned_pageBase e) (by omega)

theorem Consistent.userStore (hk : k.Consistent) (addr : Word) (value : Byte) :
    ∃ mem, k.userStore addr value = k.setMem mem ∧ Isolated mem k.dirs ∧ k.mem.Keeps mem := by
  have hsame : ∃ mem, k = k.setMem mem ∧ Isolated mem k.dirs ∧ k.mem.Keeps mem :=
    ⟨k.mem, rfl, hk.isolated, .refl _⟩
  unfold Kernel.userStore
  cases hcur : k.currentProcess with
  | none => exact hsame
  | some current =>
    simp only
    split
    · next h =>
      obtain ⟨f, hdata, hpage⟩ := hk.userPage hcur h.1 h.2
      have hout : ∀ x, pageOf x ≠ pageOf f → k.mem.ram.write
          (k.mem.getPhysicalAddress (k.processTable current).context.cr3 addr) value x =
            k.mem.ram x := fun x hx => by
        refine write_ne _ _ fun heq => hx ?_
        rw [heq, hpage]
      exact ⟨_, rfl, hk.isolated.of_write hdata hout, Isolated.write_keeps hdata.allocated hout⟩
    · exact hsame

/-! ### Calls -/

/-- What the calls that create processes give to the new one. -/
def birth (k : Kernel) : Call → Option (Slot → Birth)
  | .createProcess _ _ =>
    some fun i => ⟨(k.processTable i).parentPid, .zero, entryStack, entryStack.frame⟩
  | .createKernelProcess entryPoint =>
    some fun i => ⟨(k.processTable i).parentPid, .zero,
      ⟨entryPoint, kernelCsSelector, kernelEflags, 0, 0⟩,
      [k.kernelIdle, kernelEflags, kernelCsSelector, entryPoint]⟩
  | .sysFork => k.currentProcess.map fun current _ => k.childBirth current
  | _ => none

/-- What a call does, when `sys_wait` finds no child. -/
inductive Effect (k : Kernel) : Call → Kernel → Prop
  | spawn {call : Call} {birth : Slot → Birth} {r : Option Slot × Kernel} :
      k.birth call = some birth → k.Spawn birth r → Effect k call r.2
  | noParent : k.currentProcess = none → Effect k .sysFork k
  | noCaller (status : Word) : k.currentProcess = none → Effect k (.sysExit status) k
  | exit (status : Word) {current : Slot} : k.currentProcess = some current →
      k.readyQueueHead = none → Effect k (.sysExit status) (k.exited current status)
  | exitTo (status : Word) {current head : Slot} : k.currentProcess = some current →
      k.readyQueueHead = some head →
        Effect k (.sysExit status) ((k.exited current status).dispatch head)
  | wait (statusPtr : Word) : Effect k (.sysWait statusPtr) k
  | idle : k.readyQueueHead = none → Effect k .schedule k
  | dispatch {head : Slot} : k.readyQueueHead = some head → Effect k .schedule (k.dispatch head)
  | pageFault (addr : Word) (info : IdtInfo) {mem : PhysMem} : Isolated mem k.dirs →
      k.mem.Keeps mem → Effect k (.pageFault addr info) (k.setMem mem)
  | userStore (addr : Word) (value : Byte) {mem : PhysMem} : Isolated mem k.dirs →
      k.mem.Keeps mem → Effect k (.userStore addr value) (k.setMem mem)

theorem Effect.keeps {k' : Kernel} {call : Call} (h : k.Effect call k') : k.mem.Keeps k'.mem := by
  cases h with
  | spawn _ hspawn => exact hspawn.keeps
  | pageFault _ _ _ hkeep => exact hkeep
  | userStore _ _ _ hkeep => exact hkeep
  | _ => exact .refl _

theorem Consistent.effect {k' : Kernel} (hk : k.Consistent) {call : Call}
    (hwait : ∀ statusPtr, call ≠ .sysWait statusPtr) (h : k.after call = some k') :
    k.Effect call k' := by
  cases call with
  | createProcess data size =>
    obtain rfl := Option.some.inj h
    exact .spawn rfl (createProcess_spawn hk.isolated data size)
  | createKernelProcess entry =>
    obtain rfl := Option.some.inj h
    exact .spawn rfl (createKernelProcess_spawn hk.isolated entry)
  | sysFork =>
    obtain rfl := Option.some.inj h
    cases hcur : k.currentProcess with
    | none =>
      have hsame : k.sysFork.2 = k := by
        unfold Kernel.sysFork
        simp only [hcur]
      rw [hsame]
      exact .noParent hcur
    | some current =>
      obtain ⟨r, hr, hspawn⟩ := sysFork_spawn hk.isolated hcur (hk.current current hcur).not_free
      rw [hr]
      exact .spawn (by rw [birth, hcur]; rfl) hspawn
  | sysExit status =>
    obtain rfl := Option.some.inj h
    cases hcur : k.currentProcess with
    | none =>
      have hsame : (k.sysExit status).2 = k := by
        unfold Kernel.sysExit
        simp only [hcur]
      rw [hsame]
      exact .noCaller status hcur
    | some current =>
      rw [sysExit_some hcur]
      cases hhead : k.readyQueueHead with
      | none =>
        have hidle : (k.exited current status).readyQueueHead = none := hhead
        rw [schedule_none hidle]
        exact .exit status hcur hhead
      | some head =>
        have hnext : (k.exited current status).readyQueueHead = some head := hhead
        rw [schedule_some hnext]
        exact .exitTo status hcur hhead
  | sysWait statusPtr => exact absurd rfl (hwait statusPtr)
  | schedule =>
    obtain rfl := Option.some.inj h
    cases hhead : k.readyQueueHead with
    | none =>
      rw [schedule_none hhead]
      exact .idle hhead
    | some head =>
      rw [schedule_some hhead]
      exact .dispatch hhead
  | pageFault addr info =>
    obtain rfl := Option.some.inj h
    obtain ⟨mem, hr, hiso, hkeep⟩ := hk.pageFault addr info
    rw [hr]
    exact .pageFault addr info hiso hkeep
  | userStore addr value =>
    obtain rfl := Option.some.inj h
    obtain ⟨mem, hr, hiso, hkeep⟩ := hk.userStore addr value
    rw [hr]
    exact .userStore addr value hiso hkeep

end Steps

end Kernel

end Lbos

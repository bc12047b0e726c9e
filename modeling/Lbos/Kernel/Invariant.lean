import Lbos.Kernel.Consistent

/-! The invariant of the process manager: on top of consistency, a census of the pids and parents,
by which `sys_wait` never finds a child. -/

namespace Lbos

open Lib Mem

namespace Kernel

/-- The first `n` slots are taken, and slots and pids correspond.  When a creation fails no frame is
left, so that no process is created after `next_pid` has run ahead.  A parent that is dispatched is
not ready any more, and no process is both the current one and the parent of a dispatched one, so
that `sys_wait` never finds a child. -/
structure Census (k : Kernel) (n : Nat) : Prop where
  live_iff : ∀ i : Slot, (k.processTable i).state ≠ .free ↔ i.val < n
  le : n ≤ maxProcesses
  pid : ∀ i : Slot, i.val < n → (k.processTable i).pid.toNat = i.val + 1
  parent_le : ∀ i : Slot, i.val < n → (k.processTable i).parentPid.toNat ≤ i.val
  fresh : k.mem.Exhausted ∨
    k.nextPid.toNat = n + 1 ∧ ∀ i : Slot, n ≤ i.val → (k.processTable i).parentPid = 0
  ready_parent : ∀ i j : Slot, i.val < n → (k.processTable j).state = .ready →
    (k.processTable i).parentPid ≠ (k.processTable j).pid
  current_parent : ∀ i c : Slot, (k.processTable i).state.Dispatched →
    k.currentProcess = some c → (k.processTable i).parentPid ≠ (k.processTable c).pid

structure WellFormed (k : Kernel) : Prop where
  isolated : Isolated k.mem k.dirs
  cr3_unique : ∀ i j, (k.processTable i).state ≠ .free → (k.processTable j).state ≠ .free →
    (k.processTable i).context.cr3 = (k.processTable j).context.cr3 → i = j
  current : ∀ c, k.currentProcess = some c → (k.processTable c).state.Dispatched
  census : ∃ n, k.Census n
  queue : ∃ l, k.Queue l

/-! ### Creation -/

section Creation

variable {k k' : Kernel} {i : Slot} {d : Word}

theorem Failed.census {parentPid : Word} {n : Nat} (h : Failed k k' i parentPid)
    (hc : k.Census n) (hcur : ∀ c, k.currentProcess = some c →
      (k.processTable c).state.Dispatched) : k'.Census n := by
  have hfree := (findFree_some h.slot).1
  have hi : ¬i.val < n := fun hlt => (hc.live_iff i).mpr hlt hfree
  have hother : ∀ j : Slot, j.val < n → k'.processTable j = k.processTable j := fun j hj =>
    h.others j fun heq => hi (heq ▸ hj)
  have hstate : ∀ j, (k'.processTable j).state = (k.processTable j).state := fun j => by
    by_cases hne : j = i
    · rw [hne, h.state, hfree]
    · rw [h.others j hne]
  have hlt : ∀ j : Slot, (k'.processTable j).state ≠ .free → j.val < n := fun j hj =>
    (hc.live_iff j).mp (hstate j ▸ hj)
  refine ⟨fun j => by rw [hstate, hc.live_iff], hc.le, fun j hj => ?_, fun j hj => ?_,
    .inl h.exhausted, fun j j' hj hj' => ?_, fun j c hj hcur' => ?_⟩
  · rw [hother j hj]
    exact hc.pid j hj
  · rw [hother j hj]
    exact hc.parent_le j hj
  · have hj'n : j'.val < n := hlt j' (by rw [hj']; exact nofun)
    rw [hother j hj, hother j' hj'n]
    rw [hother j' hj'n] at hj'
    exact hc.ready_parent j j' hj hj'
  · rw [h.currentProcess] at hcur'
    rw [hother c ((hc.live_iff c).mp (hcur c hcur').not_free), hother j (hlt j hj.not_free)]
    rw [hother j (hlt j hj.not_free)] at hj
    exact hc.current_parent j c hj hcur'

/-- The slot of a new process is the first that was never taken. -/
theorem Census.slot {n : Nat} (hc : k.Census n) (hi : k.findFree = some i) : i.val = n := by
  obtain ⟨hfree, hfirst⟩ := findFree_some hi
  have hle : n ≤ i.val := Nat.le_of_not_lt fun hlt => (hc.live_iff i).mpr hlt hfree
  by_contra hne
  have hlt : n < i.val := by omega
  have hn : n < maxProcesses := Nat.lt_trans hlt i.isLt
  exact Nat.lt_irrefl n ((hc.live_iff ⟨n, hn⟩).mp (hfirst ⟨n, hn⟩ hlt))

/-- The conditions on the parent of a new process: it is none, or not ready. -/
structure ParentOk (k : Kernel) (n : Nat) (parentPid : Word) : Prop where
  le : parentPid.toNat ≤ n
  not_ready : ∀ j : Slot, (k.processTable j).state = .ready → parentPid ≠ (k.processTable j).pid

theorem Census.parentOk_zero {n : Nat} (hc : k.Census n) : ParentOk k n 0 := by
  refine ⟨Nat.zero_le n, fun j hj heq => ?_⟩
  have hpid := hc.pid j ((hc.live_iff j).mp (by rw [hj]; exact nofun))
  rw [← heq] at hpid
  simp at hpid

theorem Census.parentOk_current {n : Nat} (hc : k.Census n) {c : Slot}
    (hcur : (k.processTable c).state.Dispatched) : ParentOk k n (k.processTable c).pid := by
  have hlt := (hc.live_iff c).mp hcur.not_free
  refine ⟨by rw [hc.pid c hlt]; omega, fun j hj heq => ?_⟩
  have hpid := hc.pid j ((hc.live_iff j).mp (by rw [hj]; exact nofun))
  rw [← heq, hc.pid c hlt] at hpid
  obtain rfl : c = j := Fin.ext (by omega)
  exact hcur.not_ready hj

/-- The process in a slot that is taken is the new one or one that was there. -/
theorem Created.slot_cases {birth : Birth} {n : Nat} (h : Created k k' i d birth) (hc : k.Census n)
    {j : Slot} (hj : j.val < n + 1) : j = i ∨ j.val < n ∧ k'.processTable j = k.processTable j := by
  have hin := hc.slot h.slot
  by_cases hne : j = i
  · exact .inl hne
  · have hval : j.val ≠ i.val := fun heq => hne (Fin.ext heq)
    exact .inr ⟨by omega, h.others hne⟩

theorem Created.live_iff {birth : Birth} {n : Nat} (h : Created k k' i d birth) (hc : k.Census n)
    (j : Slot) : (k'.processTable j).state ≠ .free ↔ j.val < n + 1 := by
  have hin := hc.slot h.slot
  by_cases hne : j = i
  · subst hne
    rw [h.new]
    exact ⟨fun _ => by omega, fun _ => nofun⟩
  · have hval : j.val ≠ i.val := fun heq => hne (Fin.ext heq)
    rw [h.others hne, hc.live_iff]
    omega

/-- The new process is ready, but its pid is above that of every parent. -/
theorem Created.ready_parent {birth : Birth} {n : Nat} (h : Created k k' i d birth)
    (hc : k.Census n) (hnext : k.nextPid.toNat = n + 1) (hp : ParentOk k n birth.parentPid)
    {j j' : Slot} (hj : j.val < n + 1) (hready : (k'.processTable j').state = .ready) :
    (k'.processTable j).parentPid ≠ (k'.processTable j').pid := by
  have hpid : (k'.processTable i).pid.toNat = n + 1 := by
    rw [h.new]
    exact hnext
  have hparent : (k'.processTable i).parentPid = birth.parentPid := by rw [h.new]
  have hin' := (h.live_iff hc j').mp (by rw [hready]; exact nofun)
  rcases h.slot_cases hc hin' with rfl | ⟨-, hsame'⟩
  · intro heq
    rw [← heq] at hpid
    rcases h.slot_cases hc hj with rfl | ⟨hj, hsame⟩
    · rw [hparent] at hpid
      have hle := hp.le
      omega
    · rw [hsame] at hpid
      have hle := hc.parent_le j hj
      omega
  · rw [hsame'] at hready ⊢
    rcases h.slot_cases hc hj with rfl | ⟨hj, hsame⟩
    · rw [hparent]
      exact hp.not_ready j' hready
    · rw [hsame]
      exact hc.ready_parent j j' hj hready

theorem Created.census {birth : Birth} {n : Nat} (h : Created k k' i d birth) (hc : k.Census n)
    (hcur : ∀ c, k.currentProcess = some c → (k.processTable c).state.Dispatched)
    (hp : ParentOk k n birth.parentPid) : k'.Census (n + 1) := by
  have hin := hc.slot h.slot
  have hlt64 : i.val < 64 := i.isLt
  obtain ⟨hnext, hparents⟩ := hc.fresh.resolve_left fun hex => hex _ h.free
  refine ⟨h.live_iff hc, by rw [maxProcesses]; omega, fun j hj => ?_, fun j hj => ?_,
    .inr ⟨?_, fun j hj => ?_⟩, fun j j' hj hready => h.ready_parent hc hnext hp hj hready,
    fun j c hj hcur' => ?_⟩
  · rcases h.slot_cases hc hj with rfl | ⟨hj, hsame⟩
    · rw [h.new, hin]
      exact hnext
    · rw [hsame]
      exact hc.pid j hj
  · rcases h.slot_cases hc hj with rfl | ⟨hj, hsame⟩
    · rw [h.new, hin]
      exact hp.le
    · rw [hsame]
      exact hc.parent_le j hj
  · have hone : (1 : Word).toNat = 1 := rfl
    rw [h.nextPid, BitVec.toNat_add, hnext, hone]
    omega
  · have hne : j ≠ i := fun heq => by
      rw [heq] at hj
      omega
    rw [h.others hne]
    exact hparents j (by omega)
  · rw [h.currentProcess] at hcur'
    have hci : c ≠ i := fun heq => by
      have hfree := (findFree_some h.slot).1
      exact (hcur c hcur').not_free (heq ▸ hfree)
    have hji : j ≠ i := fun heq => by
      rw [heq, h.new] at hj
      exact hj.not_ready rfl
    rw [h.others hji] at hj ⊢
    rw [h.others hci]
    exact hc.current_parent j c hj hcur'

/-! ### The parts of the invariant -/

theorem WellFormed.consistent (hk : k.WellFormed) : k.Consistent :=
  ⟨hk.isolated, hk.cr3_unique, hk.current, hk.queue⟩

theorem Consistent.wellFormed (hk : k.Consistent) {n : Nat} (hc : k.Census n) : k.WellFormed :=
  ⟨hk.isolated, hk.cr3_unique, hk.current, ⟨n, hc⟩, hk.queue⟩

theorem Failed.wellFormed {parentPid : Word} (h : Failed k k' i parentPid) (hk : k.WellFormed) :
    k'.WellFormed := by
  obtain ⟨n, hc⟩ := hk.census
  exact (h.consistent hk.consistent).wellFormed (h.census hc hk.current)

theorem Created.wellFormed {birth : Birth} (h : Created k k' i d birth) (hk : k.WellFormed)
    (hp : ∀ n, k.Census n → ParentOk k n birth.parentPid) : k'.WellFormed := by
  obtain ⟨n, hc⟩ := hk.census
  exact (h.consistent hk.consistent).wellFormed (h.census hc hk.current (hp n hc))

/-- The pid of the next child is neither that of a process nor the result of a failure. -/
theorem WellFormed.nextPid_fresh (hk : k.WellFormed) {n : Nat} (hn : k.mem.FreeFrame n) :
    k.nextPid ≠ 0xFFFFFFFF ∧
      ∀ j, (k.processTable j).state ≠ .free → (k.processTable j).pid ≠ k.nextPid := by
  obtain ⟨m, hc⟩ := hk.census
  obtain ⟨hnext, -⟩ := hc.fresh.resolve_left fun hex => hex n hn
  have hle : m ≤ 64 := hc.le
  refine ⟨fun hpid => ?_, fun j hj hpid => ?_⟩
  · rw [hpid] at hnext
    have hmax : (0xFFFFFFFF : Word).toNat = 4294967295 := rfl
    omega
  · have hlt := (hc.live_iff j).mp hj
    have hold := hc.pid j hlt
    rw [hpid] at hold
    omega

theorem Spawn.wellFormed {birth : Slot → Birth} {r : Option Slot × Kernel} (h : k.Spawn birth r)
    (hk : k.WellFormed)
    (hp : ∀ n, k.Census n → ∀ j : Slot, k.findFree = some j → k.mem.Exhausted ∨
      ParentOk k n (birth j).parentPid) : r.2.WellFormed := by
  cases h with
  | noSlot => exact hk
  | failed h => exact h.wellFormed hk
  | created h =>
    exact h.wellFormed hk fun n hc => (hp n hc _ h.slot).resolve_left fun hex => hex _ h.free

/-- The processes that are not forked have no parent, as long as slots were never used before. -/
theorem Census.parentOk_stale {n : Nat} (hc : k.Census n) (hi : k.findFree = some i) :
    k.mem.Exhausted ∨ ParentOk k n (k.processTable i).parentPid := by
  refine hc.fresh.imp_right fun hfresh => ?_
  rw [hfresh.2 i (Nat.le_of_eq (hc.slot hi).symm)]
  exact hc.parentOk_zero

end Creation

/-! ### Memory, dispatch and exit -/

section Steps

variable {k : Kernel} {n : Nat}

theorem Census.setMem (hc : k.Census n) {mem : PhysMem} (hkeep : k.mem.Keeps mem) :
    (k.setMem mem).Census n :=
  ⟨hc.live_iff, hc.le, hc.pid, hc.parent_le, hc.fresh.imp_left hkeep.exhausted, hc.ready_parent,
    hc.current_parent⟩

/-- A step that changes neither pids nor parents nor which slots are taken. -/
theorem Census.of_table {k' : Kernel} (hc : k.Census n) (hmem : k'.mem = k.mem)
    (hnext : k'.nextPid = k.nextPid)
    (hlive : ∀ j, (k'.processTable j).state ≠ .free ↔ (k.processTable j).state ≠ .free)
    (hready : ∀ j, (k'.processTable j).state = .ready → (k.processTable j).state = .ready)
    (hpid : ∀ j, (k'.processTable j).pid = (k.processTable j).pid)
    (hparent : ∀ j, (k'.processTable j).parentPid = (k.processTable j).parentPid)
    (hcurParent : ∀ i c, (k'.processTable i).state.Dispatched → k'.currentProcess = some c →
      (k.processTable i).parentPid ≠ (k.processTable c).pid) : k'.Census n := by
  refine ⟨fun j => ?_, hc.le, fun j hj => ?_, fun j hj => ?_, ?_, fun i j hi hj => ?_,
    fun i c hi hc' => ?_⟩
  · rw [hlive]
    exact hc.live_iff j
  · rw [hpid]
    exact hc.pid j hj
  · rw [hparent]
    exact hc.parent_le j hj
  · rw [hmem, hnext]
    refine hc.fresh.imp_right fun hfresh => ⟨hfresh.1, fun j hj => ?_⟩
    rw [hparent]
    exact hfresh.2 j hj
  · rw [hparent, hpid]
    exact hc.ready_parent i j hi (hready j hj)
  · rw [hparent, hpid]
    exact hcurParent i c hi hc'

theorem WellFormed.setMem (hk : k.WellFormed) {mem : PhysMem} (h : Isolated mem k.dirs)
    (hkeep : k.mem.Keeps mem) : (k.setMem mem).WellFormed := by
  obtain ⟨n, hc⟩ := hk.census
  exact (hk.consistent.setMem h).wellFormed (hc.setMem hkeep)

theorem WellFormed.dispatch (hk : k.WellFormed) {head : Slot}
    (h : k.readyQueueHead = some head) : (k.dispatch head).WellFormed := by
  obtain ⟨n, hc⟩ := hk.census
  obtain ⟨l, hq⟩ := hk.queue
  have hready := hq.head_ready h
  have hlive := hq.dispatch_live h
  refine (hk.consistent.dispatch h).wellFormed (hc.of_table rfl rfl hlive (fun j hj => ?_)
    (fun j => by rw [dispatch_eq]) (fun j => by rw [dispatch_eq]) ?_)
  · by_cases hne : j = head
    · subst hne
      exact hready
    · rwa [dispatch_others hne] at hj
  · rintro i c hi hc'
    obtain rfl := Option.some.inj hc'
    exact hc.ready_parent i head ((hc.live_iff i).mp ((hlive i).mp hi.not_free)) hready

theorem WellFormed.exited (hk : k.WellFormed) {current : Slot}
    (h : k.currentProcess = some current) (status : Word) :
    (k.exited current status).WellFormed := by
  obtain ⟨n, hc⟩ := hk.census
  have hcur := hk.current current h
  refine (hk.consistent.exited h status).wellFormed (hc.of_table rfl rfl
    (exited_live hcur.not_free status) (fun j => (exited_ready hcur status j).mp)
    (fun j => (exited_eq current status j).1) (fun j => (exited_eq current status j).2.1) ?_)
  intro i c hi hc'
  refine hc.current_parent i c ?_ hc'
  by_cases hne : i = current
  · exact hne ▸ hcur
  · rwa [exited_others status hne] at hi

/-- A process that is waited for is never found: its parent has not run since it was created. -/
theorem getZombie_none {n : Nat} (hc : k.Census n) {current : Slot}
    (h : k.currentProcess = some current) :
    k.getZombieProcessForParent (k.processTable current).pid = none := by
  rw [getZombieProcessForParent, List.find?_eq_none]
  intro i _ hi
  obtain ⟨hterm, hparent⟩ := of_decide_eq_true hi
  exact hc.current_parent i current (.inr hterm) h hparent

theorem sysWait_eq (hk : k.WellFormed) (statusPtr : Word) : k.sysWait statusPtr = (.ret (-1), k) := by
  obtain ⟨n, hc⟩ := hk.census
  unfold sysWait
  cases h : k.currentProcess with
  | none => rfl
  | some current => simp only [getZombie_none hc h]

theorem WellFormed.current_dir (hk : k.WellFormed) {current : Slot}
    (h : k.currentProcess = some current) : (k.processTable current).context.cr3 ∈ k.dirs :=
  hk.consistent.current_dir h

/-- Every call has a known result. -/
theorem WellFormed.effect {k' : Kernel} (hk : k.WellFormed) {call : Call}
    (h : k.after call = some k') : k.Effect call k' := by
  by_cases hwait : ∃ statusPtr, call = .sysWait statusPtr
  · obtain ⟨statusPtr, rfl⟩ := hwait
    rw [Kernel.after, sysWait_eq hk] at h
    obtain rfl := Option.some.inj h
    exact .wait statusPtr
  · exact hk.consistent.effect (fun statusPtr heq => hwait ⟨statusPtr, heq⟩) h

theorem WellFormed.after_some (hk : k.WellFormed) (call : Call) : ∃ k', k.after call = some k' := by
  cases call with
  | sysWait statusPtr => exact ⟨k, by rw [Kernel.after, sysWait_eq hk]⟩
  | _ => exact ⟨_, rfl⟩

/-- The parent of a new process is none, or not ready. -/
theorem WellFormed.birth_parentOk (hk : k.WellFormed) {call : Call} {birth : Slot → Birth}
    (h : k.birth call = some birth) (hc : k.Census n) {i : Slot} (hi : k.findFree = some i) :
    k.mem.Exhausted ∨ ParentOk k n (birth i).parentPid := by
  cases call with
  | createProcess =>
    obtain rfl := Option.some.inj h
    exact hc.parentOk_stale hi
  | createKernelProcess =>
    obtain rfl := Option.some.inj h
    exact hc.parentOk_stale hi
  | sysFork =>
    obtain ⟨current, hcur, rfl⟩ := Option.map_eq_some_iff.mp h
    exact .inr (hc.parentOk_current (hk.current current hcur))
  | _ => cases h

/-- Every call keeps the invariant and the kernel's part of memory. -/
theorem WellFormed.after (hk : k.WellFormed) (call : Call) :
    ∃ k', k.after call = some k' ∧ k'.WellFormed ∧ k.mem.Keeps k'.mem := by
  obtain ⟨k', hafter⟩ := hk.after_some call
  refine ⟨k', hafter, ?_⟩
  cases hk.effect hafter with
  | spawn hbirth hspawn =>
    exact ⟨hspawn.wellFormed hk fun n hc _ hi => hk.birth_parentOk hbirth hc hi, hspawn.keeps⟩
  | noParent => exact ⟨hk, .refl _⟩
  | noCaller => exact ⟨hk, .refl _⟩
  | exit status hcur => exact ⟨hk.exited hcur status, .refl _⟩
  | exitTo status hcur hhead => exact ⟨(hk.exited hcur status).dispatch hhead, .refl _⟩
  | wait => exact ⟨hk, .refl _⟩
  | idle => exact ⟨hk, .refl _⟩
  | dispatch hhead => exact ⟨hk.dispatch hhead, .refl _⟩
  | pageFault _ _ hiso hkeep => exact ⟨hk.setMem hiso hkeep, hkeep⟩
  | userStore _ _ hiso hkeep => exact ⟨hk.setMem hiso hkeep, hkeep⟩

end Steps

end Kernel

end Lbos

import Lbos.Kernel.SpawnSupply

/-! Runs of the kernel with the history of their processes: each creation has a number, and a process
remembers the creation of the process that forked it and the argument of its last `sys_exit`.  The
pids, `parent_pid` and `eax` agree with that history.

Here a process that was dispatched before may get the processor back at any time.  The scheduler
itself never gives it back, so that these runs include those of the kernel. -/

namespace Lbos

open Lib Mem

namespace Kernel

variable (k : Kernel)

/-- A store of a byte to an address of the current process, whose page is entered when it is not
present. -/
def userWrite (addr : Word) (value : Byte) : Kernel :=
  match k.currentProcess with
  | none => k
  | some current =>
    if k.mem.getPhysicalAddress (k.processTable current).context.cr3 addr = 0 then
      (k.pageFaultHandler addr ⟨14, 2⟩).2.userStore addr value
    else k.userStore addr value

/-- `*user_status = exit_status`, byte by byte. -/
def storeWord (addr value : Word) : Kernel :=
  loop (fun i k => k.userWrite (addr + BitVec.ofNat 32 i) (value.extractLsb' (8 * i) 8)) 4 0 k

/-- The state after a call, with the store of `sys_wait`. -/
def next : Call → Kernel
  | .sysWait statusPtr =>
    match k.sysWait statusPtr with
    | (.stored addr value _, k) => k.storeWord addr value
    | (_, k) => k
  | call => (k.after call).getD k

/-- What `sys_wait` does with the child that it finds. -/
def reap (child : Slot) : Kernel :=
  k.setProcess child { k.processTable child with state := .free, pid := 0, parentPid := 0 }

/-- `sys_wait` gives slot `i` back. -/
def Frees (statusPtr : Word) (i : Slot) : Prop :=
  (k.processTable i).state ≠ .free ∧ ((k.sysWait statusPtr).2.processTable i).state = .free

end Kernel

/-- What a run tells of a process: the number of the creation that made it, that of the process
which forked it, and the argument of its last `sys_exit`. -/
structure Life where
  serial : Nat
  parent : Option Nat
  exited : Option Word

/-- A kernel with the number of its creations so far, the lives of its processes, and the numbers of
those that were reaped. -/
structure History where
  kernel : Kernel
  created : Nat
  lives : Slot → Option Life
  reaped : List Nat

namespace History

variable (h : History)

/-- The life of the process in slot `i` after a call that led to `k`. -/
def lifeAfter (call : Call) (k : Kernel) (i : Slot) : Option Life :=
  if (k.processTable i).state = .free then none
  else if (h.kernel.processTable i).state = .free then
    match call with
    | .sysFork => some ⟨h.created, (h.kernel.currentProcess.bind h.lives).map Life.serial, none⟩
    | _ => some ⟨h.created, none, none⟩
  else
    match call with
    | .sysExit status =>
      if h.kernel.currentProcess = some i then
        (h.lives i).map fun life => { life with exited := some status }
      else h.lives i
    | _ => h.lives i

/-- The history after a call that led to `k`: slots that were free and are not any more count as
created, those that have become free as reaped. -/
def advance (call : Call) (k : Kernel) : History :=
  let born := (List.finRange maxProcesses).any fun i =>
    (h.kernel.processTable i).state = .free ∧ (k.processTable i).state ≠ .free
  let freed := (List.finRange maxProcesses).filter fun i =>
    (h.kernel.processTable i).state ≠ .free ∧ (k.processTable i).state = .free
  { kernel := k
    created := if born then h.created + 1 else h.created
    lives := h.lifeAfter call k
    reaped := freed.filterMap (fun i => (h.lives i).map Life.serial) ++ h.reaped }

/-- The call is no `sys_exit` of a process. -/
def NoExit (call : Call) : Prop := ∀ status, call = .sysExit status → h.kernel.currentProcess = none

end History

/-- A call, or the return of the processor to a process. -/
inductive Event where
  | call (call : Call)
  | resume (i : Slot)

/-- The status pointer of a `sys_wait` is null or points into user space. -/
def Call.StatusInUserSpace (call : Call) : Prop :=
  ∀ statusPtr, call = .sysWait statusPtr →
    statusPtr = 0 ∨ statusPtr.toNat + 4 ≤ kernelVirtualStart.toNat

/-- The kernel from boot on, with its history. -/
def KernelImage.historySystem (img : KernelImage) : System History Event where
  init h := ∃ ram bitmap, h = ⟨img.boot ram bitmap, 0, fun _ => none, []⟩
  step h event h' :=
    match event with
    | .call call => call.StatusInUserSpace ∧ h' = h.advance call (h.kernel.next call)
    | .resume i => (h.kernel.processTable i).state.Dispatched ∧
        h' = { h with kernel := { h.kernel with currentProcess := some i } }

namespace Kernel

variable {k k' : Kernel} {i child current : Slot}

/-! ### The steps on the kernel -/

/-- A change of the memory of well-behaved code. -/
def MemoryStep (k k' : Kernel) : Prop :=
  ∃ mem, k' = k.setMem mem ∧ Isolated mem k.dirs ∧ k.mem.Keeps mem

theorem MemoryStep.trans {k'' : Kernel} (h : MemoryStep k k') (h' : MemoryStep k' k'') :
    MemoryStep k k'' := by
  obtain ⟨mem, rfl, -, hkeep⟩ := h
  obtain ⟨mem', rfl, hiso', hkeep'⟩ := h'
  exact ⟨mem', rfl, hiso', hkeep.trans hkeep'⟩

theorem MemoryStep.consistent (h : MemoryStep k k') (hk : k.Consistent) : k'.Consistent := by
  obtain ⟨mem, rfl, hiso, -⟩ := h
  exact hk.setMem hiso

theorem Consistent.userWrite (hk : k.Consistent) (addr : Word) (value : Byte) :
    MemoryStep k (k.userWrite addr value) := by
  unfold Kernel.userWrite
  cases hcur : k.currentProcess with
  | none => exact ⟨k.mem, rfl, hk.isolated, .refl _⟩
  | some current =>
    simp only
    split
    · have hfault : MemoryStep k (k.pageFaultHandler addr ⟨14, 2⟩).2 := hk.pageFault addr _
      exact hfault.trans ((hfault.consistent hk).userStore addr value)
    · exact hk.userStore addr value

theorem Consistent.storeWord (hk : k.Consistent) (addr value : Word) :
    MemoryStep k (k.storeWord addr value) := by
  refine loop_invariant _ (fun _ s => MemoryStep k s) ⟨k.mem, rfl, hk.isolated, .refl _⟩ ?_
  intro j s _ _ hs
  exact hs.trans ((hs.consistent hk).userWrite _ _)

theorem reap_self (child : Slot) : ((k.reap child).processTable child).state = .free := by
  simp [reap]

theorem reap_others (h : i ≠ child) : (k.reap child).processTable i = k.processTable i := by
  simp [reap, h]

/-- What `sys_wait` does: nothing, or it reaps a terminated process whose parent has the caller's
pid. -/
theorem sysWait_cases (k : Kernel) (statusPtr : Word) :
    k.sysWait statusPtr = (.ret (-1), k) ∨
    ∃ current child, k.currentProcess = some current ∧
      (k.processTable child).state = .terminated ∧
      (k.processTable child).parentPid = (k.processTable current).pid ∧
      k.sysWait statusPtr = (if statusPtr = 0 then .ret 0
        else .stored statusPtr (k.processTable child).context.reg.eax 0, k.reap child) := by
  unfold sysWait
  cases hcur : k.currentProcess with
  | none => exact .inl rfl
  | some current =>
    simp only
    cases hchild : k.getZombieProcessForParent (k.processTable current).pid with
    | none => exact .inl rfl
    | some child =>
      have hfound := hchild
      rw [getZombieProcessForParent] at hfound
      have hzombie : (k.processTable child).state = .terminated ∧
          (k.processTable child).parentPid = (k.processTable current).pid := by
        simpa using List.find?_some hfound
      refine .inr ⟨current, child, rfl, hzombie.1, hzombie.2, ?_⟩
      simp only [setProcess_processTable, Function.update_self]
      split
      · rfl
      · rfl

/-- `sys_wait` of a process with a terminated child reaps one. -/
theorem sysWait_reaps (hcur : k.currentProcess = some current)
    (hterm : (k.processTable child).state = .terminated)
    (hparent : (k.processTable child).parentPid = (k.processTable current).pid) (statusPtr : Word) :
    ∃ i, (k.processTable i).state = .terminated ∧
      k.sysWait statusPtr = (if statusPtr = 0 then .ret 0
        else .stored statusPtr (k.processTable i).context.reg.eax 0, k.reap i) := by
  rcases k.sysWait_cases statusPtr with hw | ⟨_, i, -, hi, -, hw⟩
  · unfold sysWait at hw
    simp only [hcur] at hw
    cases hchild : k.getZombieProcessForParent (k.processTable current).pid with
    | none =>
      rw [getZombieProcessForParent, List.find?_eq_none] at hchild
      exact absurd (decide_eq_true ⟨hterm, hparent⟩) (hchild child (List.mem_finRange child))
    | some i =>
      rw [hchild] at hw
      simp only at hw
      split at hw
      · exact absurd (congrArg Prod.fst hw) (by simp)
      · cases congrArg Prod.fst hw
  · exact ⟨i, hi, hw⟩

/-- What a call leaves: the effect of a call that reaps no process, or a reaped process and a
changed memory. -/
theorem Consistent.next_cases (hk : k.Consistent) (call : Call)
    (hreap : ∀ {current child}, k.currentProcess = some current →
      (k.processTable child).state = .terminated →
      (k.processTable child).parentPid = (k.processTable current).pid →
        (k.reap child).Consistent) :
    k.Effect call (k.next call) ∨
    ∃ statusPtr current child, call = .sysWait statusPtr ∧ k.currentProcess = some current ∧
      (k.processTable child).state = .terminated ∧
      (k.processTable child).parentPid = (k.processTable current).pid ∧
      MemoryStep (k.reap child) (k.next call) := by
  by_cases hwait : ∃ statusPtr, call = .sysWait statusPtr
  · obtain ⟨statusPtr, rfl⟩ := hwait
    rcases k.sysWait_cases statusPtr with hr | ⟨current, child, hcur, hterm, hparent, hr⟩
    · left
      have hsame : k.next (.sysWait statusPtr) = k := by rw [next, hr]
      rw [hsame]
      exact .wait statusPtr
    · right
      have hcons := hreap hcur hterm hparent
      refine ⟨statusPtr, current, child, rfl, hcur, hterm, hparent, ?_⟩
      rw [next, hr]
      split
      · next heq =>
        obtain ⟨hexit, rfl⟩ := Prod.mk.inj heq
        exact hcons.storeWord _ _
      · next heq =>
        obtain ⟨-, rfl⟩ := Prod.mk.inj heq
        exact ⟨k.mem, rfl, hcons.isolated, .refl _⟩
  · left
    have hcall : ∀ statusPtr, call ≠ .sysWait statusPtr := fun p heq => hwait ⟨p, heq⟩
    refine hk.effect hcall ?_
    cases call with
    | sysWait statusPtr => exact absurd rfl (hcall statusPtr)
    | _ => rfl

theorem Queue.reap {l : List Slot} (hq : k.Queue l) (hready : (k.processTable child).state ≠ .ready) :
    (k.reap child).Queue l := by
  refine ⟨hq.linked.congr fun j hj => ?_, fun j => ?_⟩
  · have hj' : j ≠ child := by
      rintro rfl
      exact hready ((hq.mem_iff j).mp hj)
    rw [reap_others hj']
  · by_cases hj : j = child
    · rw [hj, reap_self, hq.mem_iff]
      exact iff_of_false hready nofun
    · rw [reap_others hj]
      exact hq.mem_iff j

/-- A process that is not current and not ready may be taken out of the table. -/
theorem Consistent.reap (hk : k.Consistent) (hcur : k.currentProcess ≠ some child)
    (hready : (k.processTable child).state ≠ .ready) : (k.reap child).Consistent := by
  obtain ⟨l, hq⟩ := hk.queue
  have hne : ∀ j, ((k.reap child).processTable j).state ≠ .free → j ≠ child := by
    rintro j hj rfl
    exact hj (reap_self j)
  have hdirs : (k.reap child).dirs ⊆ k.dirs := by
    rintro d ⟨j, hj, rfl⟩
    have hj' := hne j hj
    rw [reap_others hj'] at hj ⊢
    exact ⟨j, hj, rfl⟩
  refine ⟨hk.isolated.mono hdirs, fun a b ha hb heq => ?_, fun c hc => ?_, ⟨l, hq.reap hready⟩⟩
  · have ha' := hne a ha
    have hb' := hne b hb
    rw [reap_others ha'] at ha heq
    rw [reap_others hb'] at hb heq
    exact hk.cr3_unique a b ha hb heq
  · have hc' : c ≠ child := by
      rintro rfl
      exact hcur hc
    rw [reap_others hc']
    exact hk.current c hc

end Kernel

/-! ### The history -/

/-- A process is what its life, one of the first `created` ones, tells. -/
structure Life.Agrees (life : Life) (p : Process) (created : Nat) : Prop where
  pid : p.pid.toNat = life.serial + 1
  parent : p.parentPid.toNat = life.parent.elim 0 (· + 1)
  serial_lt : life.serial < created
  parent_lt : ∀ n, life.parent = some n → n < life.serial
  exited : p.state = .terminated → life.exited = some p.context.reg.eax

theorem Life.Agrees.succ {life : Life} {p : Process} {created : Nat} (h : life.Agrees p created) :
    life.Agrees p (created + 1) :=
  ⟨h.pid, h.parent, Nat.lt_succ_of_lt h.serial_lt, h.parent_lt, h.exited⟩

/-- The kernel's table agrees with the history.  As long as frames are left every pid is the number
of a creation, and a free slot names no parent. -/
structure Recorded (h : History) : Prop where
  consistent : h.kernel.Consistent
  free_iff : ∀ i, h.lives i = none ↔ (h.kernel.processTable i).state = .free
  agrees : ∀ i life, h.lives i = some life → life.Agrees (h.kernel.processTable i) h.created
  unique : ∀ i j life life', h.lives i = some life → h.lives j = some life' →
    life.serial = life'.serial → i = j
  fresh : h.kernel.mem.Exhausted ∨
    h.kernel.nextPid.toNat = h.created + 1 ∧ h.created + h.kernel.mem.freeCount ≤ 32768 ∧
      ∀ i, (h.kernel.processTable i).state = .free → (h.kernel.processTable i).parentPid = 0
  reaped_lt : ∀ n ∈ h.reaped, n < h.created
  not_reaped : ∀ i life, h.lives i = some life → life.serial ∉ h.reaped

namespace Recorded

variable {h h' : History} {k' : Kernel} {call : Call} {i : Slot}

/-- A terminated process whose parent has the pid of the current one is an exited child of it. -/
theorem child (hr : Recorded h) {current child : Slot}
    (hcur : h.kernel.currentProcess = some current)
    (hterm : (h.kernel.processTable child).state = .terminated)
    (hparent : (h.kernel.processTable child).parentPid = (h.kernel.processTable current).pid) :
    ∃ life parent, h.lives child = some life ∧ h.lives current = some parent ∧
      life.parent = some parent.serial ∧
      life.exited = some (h.kernel.processTable child).context.reg.eax := by
  have hlive := (hr.consistent.current current hcur).not_free
  obtain ⟨parent, hp⟩ := Option.ne_none_iff_exists'.mp fun hnone =>
    hlive ((hr.free_iff current).mp hnone)
  obtain ⟨life, hl⟩ := Option.ne_none_iff_exists'.mp fun hnone =>
    absurd ((hr.free_iff child).mp hnone) (by rw [hterm]; exact nofun)
  refine ⟨life, parent, hl, hp, ?_, (hr.agrees child life hl).exited hterm⟩
  have hnum := (hr.agrees child life hl).parent
  rw [hparent, (hr.agrees current parent hp).pid] at hnum
  cases hpar : life.parent with
  | none =>
    rw [hpar] at hnum
    cases hnum
  | some n =>
    rw [hpar] at hnum
    rw [Nat.succ.inj hnum]

theorem child_ne (hr : Recorded h) {current child : Slot}
    (hcur : h.kernel.currentProcess = some current)
    (hterm : (h.kernel.processTable child).state = .terminated)
    (hparent : (h.kernel.processTable child).parentPid = (h.kernel.processTable current).pid) :
    child ≠ current := by
  rintro rfl
  obtain ⟨life, parent, hl, hp, hpar, -⟩ := hr.child hcur hterm hparent
  obtain rfl := Option.some.inj (hl.symm.trans hp)
  exact Nat.lt_irrefl _ ((hr.agrees child life hl).parent_lt _ hpar)

theorem reapable (hr : Recorded h) {current child : Slot}
    (hcur : h.kernel.currentProcess = some current)
    (hterm : (h.kernel.processTable child).state = .terminated)
    (hparent : (h.kernel.processTable child).parentPid = (h.kernel.processTable current).pid) :
    (h.kernel.reap child).Consistent := by
  refine hr.consistent.reap (fun heq => ?_) (by rw [hterm]; exact nofun)
  exact hr.child_ne hcur hterm hparent (Option.some.inj (heq.symm.trans hcur))

/-- A step that creates and reaps no process. -/
theorem of_table (hr : Recorded h) (hcons : h'.kernel.Consistent) (hcreated : h'.created = h.created)
    (hreaped : h'.reaped = h.reaped)
    (hserial : ∀ i life', h'.lives i = some life' → ∃ life, h.lives i = some life ∧
      life'.serial = life.serial)
    (hfree : ∀ i, h'.lives i = none ↔ (h'.kernel.processTable i).state = .free)
    (hagrees : ∀ i life, h'.lives i = some life →
      life.Agrees (h'.kernel.processTable i) h.created)
    (hfresh : h'.kernel.mem.Exhausted ∨
      h'.kernel.nextPid.toNat = h.created + 1 ∧ h.created + h'.kernel.mem.freeCount ≤ 32768 ∧
      ∀ i, (h'.kernel.processTable i).state = .free →
        (h'.kernel.processTable i).parentPid = 0) : Recorded h' := by
  refine ⟨hcons, hfree, ?_, fun i j life₁ life₂ hl₁ hl₂ heq => ?_, ?_, fun n hn => ?_,
    fun i life' hl => ?_⟩
  · rw [hcreated]
    exact hagrees
  · obtain ⟨old₁, hold₁, hserial₁⟩ := hserial i life₁ hl₁
    obtain ⟨old₂, hold₂, hserial₂⟩ := hserial j life₂ hl₂
    exact hr.unique i j old₁ old₂ hold₁ hold₂ (by rw [← hserial₁, heq, hserial₂])
  · rw [hcreated]
    exact hfresh
  · rw [hcreated]
    exact hr.reaped_lt n (hreaped ▸ hn)
  · obtain ⟨life, hold, heq⟩ := hserial i life' hl
    rw [heq, hreaped]
    exact hr.not_reaped i life hold

/-! ### Steps without creation or reaping -/

/-- Nothing is created while the free slots stay free. -/
theorem advance_created (call : Call) (hfree : ∀ i, (h.kernel.processTable i).state = .free →
    (k'.processTable i).state = .free) : (h.advance call k').created = h.created := by
  refine if_neg ?_
  rw [List.any_eq_true]
  rintro ⟨i, -, hborn⟩
  obtain ⟨hold, hnew⟩ := of_decide_eq_true hborn
  exact hnew (hfree i hold)

/-- Nothing is reaped while no slot becomes free. -/
theorem advance_reaped (call : Call) (hfree : ∀ i, (k'.processTable i).state = .free →
    (h.kernel.processTable i).state = .free) : (h.advance call k').reaped = h.reaped := by
  have hfreed : (List.finRange maxProcesses).filter (fun i =>
      (h.kernel.processTable i).state ≠ .free ∧ (k'.processTable i).state = .free) = [] := by
    refine List.filter_eq_nil_iff.mpr fun i _ hfreed => ?_
    obtain ⟨hold, hnew⟩ := of_decide_eq_true hfreed
    exact hold (hfree i hnew)
  rw [History.advance, hfreed]
  rfl

/-- A process that is not created, reaped or exited keeps its life. -/
theorem lifeAfter_kept (hr : Recorded h) (hexit : h.NoExit call) {i : Slot}
    (hlive : (k'.processTable i).state = .free ↔ (h.kernel.processTable i).state = .free) :
    h.lifeAfter call k' i = h.lives i := by
  unfold History.lifeAfter
  by_cases hfree : (h.kernel.processTable i).state = .free
  · rw [if_pos (hlive.mpr hfree), (hr.free_iff i).mpr hfree]
  · rw [if_neg fun hc => hfree (hlive.mp hc), if_neg hfree]
    cases call with
    | sysExit status =>
      have hnone := hexit status rfl
      simp [hnone]
    | _ => rfl

/-- A step that leaves the processes that there are alone, but may dispatch one. -/
theorem kept (hr : Recorded h) (hexit : h.NoExit call)
    (hcons : k'.Consistent)
    (hlive : ∀ i, (k'.processTable i).state = .free ↔ (h.kernel.processTable i).state = .free)
    (hsame : ∀ i, (h.kernel.processTable i).state ≠ .free → k'.processTable i =
      { h.kernel.processTable i with state := (k'.processTable i).state })
    (hterm : ∀ i, (k'.processTable i).state = .terminated →
      (h.kernel.processTable i).state = .terminated)
    (hfresh : k'.mem.Exhausted ∨
      k'.nextPid.toNat = h.created + 1 ∧ h.created + k'.mem.freeCount ≤ 32768 ∧
      ∀ i, (k'.processTable i).state = .free → (k'.processTable i).parentPid = 0) :
    Recorded (h.advance call k') := by
  have hcreated := advance_created call fun i => (hlive i).mpr
  have hreaped := advance_reaped call fun i => (hlive i).mp
  have hlives : (h.advance call k').lives = h.lives :=
    funext fun i => hr.lifeAfter_kept hexit (hlive i)
  refine hr.of_table hcons hcreated hreaped (fun i life hl => ?_) (fun i => ?_)
    (fun i life hl => ?_) hfresh
  · rw [hlives] at hl
    exact ⟨life, hl, rfl⟩
  · rw [hlives, hr.free_iff]
    exact (hlive i).symm
  · rw [hlives] at hl
    have hold := hr.agrees i life hl
    have hprocess := hsame i fun hfree => absurd ((hr.free_iff i).mpr hfree) (by rw [hl]; exact nofun)
    show life.Agrees (k'.processTable i) h.created
    refine ⟨?_, ?_, hold.serial_lt, hold.parent_lt, fun hi => ?_⟩
    · rw [hprocess]
      exact hold.pid
    · rw [hprocess]
      exact hold.parent
    · have hcontext : (k'.processTable i).context = (h.kernel.processTable i).context := by
        rw [hprocess]
      rw [hcontext]
      exact hold.exited (hterm i hi)

/-- The memory of a step does not gain frames. -/
theorem fresh_of_keeps (hr : Recorded h) {mem : PhysMem} (hkeep : h.kernel.mem.Keeps mem) :
    mem.Exhausted ∨ h.kernel.nextPid.toNat = h.created + 1 ∧ h.created + mem.freeCount ≤ 32768 ∧
      ∀ i, (h.kernel.processTable i).state = .free →
        (h.kernel.processTable i).parentPid = 0 := by
  refine hr.fresh.imp hkeep.exhausted fun hfresh => ⟨hfresh.1, ?_, hfresh.2.2⟩
  have hle := hkeep.freeCount_le
  have hbound := hfresh.2.1
  omega

theorem memory (hr : Recorded h) (hexit : h.NoExit call) {mem : PhysMem}
    (hiso : Isolated mem h.kernel.dirs) (hkeep : h.kernel.mem.Keeps mem) :
    Recorded (h.advance call (h.kernel.setMem mem)) :=
  hr.kept hexit (hr.consistent.setMem hiso) (fun _ => Iff.rfl) (fun _ _ => rfl) (fun _ hi => hi)
    (hr.fresh_of_keeps hkeep)

theorem same (hr : Recorded h) (hexit : h.NoExit call) :
    Recorded (h.advance call h.kernel) :=
  hr.memory hexit hr.consistent.isolated (.refl _)

theorem dispatch (hr : Recorded h) {head : Slot} (hhead : h.kernel.readyQueueHead = some head) :
    Recorded (h.advance .schedule (h.kernel.dispatch head)) := by
  obtain ⟨l, hq⟩ := hr.consistent.queue
  have hlive := fun i => not_iff_not.mp (hq.dispatch_live hhead i)
  refine hr.kept nofun (hr.consistent.dispatch hhead) hlive
    (fun i _ => Kernel.dispatch_eq head i) (fun _ => Kernel.dispatch_terminated) ?_
  refine hr.fresh.imp_right fun hfresh => ⟨hfresh.1, hfresh.2.1, fun i hi => ?_⟩
  rw [Kernel.dispatch_eq]
  exact hfresh.2.2 i ((hlive i).mp hi)

/-! ### Exit -/

theorem lifeAfter_exit (hr : Recorded h) (hlive : ∀ i, (k'.processTable i).state = .free ↔
    (h.kernel.processTable i).state = .free) (status : Word) (i : Slot) :
    h.lifeAfter (.sysExit status) k' i = if h.kernel.currentProcess = some i then
      (h.lives i).map fun life => { life with exited := some status } else h.lives i := by
  unfold History.lifeAfter
  by_cases hfree : (h.kernel.processTable i).state = .free
  · rw [if_pos ((hlive i).mpr hfree), (hr.free_iff i).mpr hfree]
    split <;> rfl
  · rw [if_neg fun hc => hfree ((hlive i).mp hc), if_neg hfree]

/-- The current process exits, and another may be dispatched. -/
theorem exit (hr : Recorded h) {current : Slot} (hcur : h.kernel.currentProcess = some current)
    (status : Word) (hcons : k'.Consistent) (hmem : k'.mem = h.kernel.mem)
    (hnext : k'.nextPid = h.kernel.nextPid)
    (hlive : ∀ i, (k'.processTable i).state = .free ↔ (h.kernel.processTable i).state = .free)
    (hsame : ∀ i, k'.processTable i =
      { (h.kernel.exited current status).processTable i with state := (k'.processTable i).state })
    (hterm : ∀ i, (k'.processTable i).state = .terminated →
      ((h.kernel.exited current status).processTable i).state = .terminated) :
    Recorded (h.advance (.sysExit status) k') := by
  have hcreated := advance_created (.sysExit status) fun i => (hlive i).mpr
  have hreaped := advance_reaped (.sysExit status) fun i => (hlive i).mp
  have hlives : ∀ i, (h.advance (.sysExit status) k').lives i = if h.kernel.currentProcess = some i
      then (h.lives i).map fun life => { life with exited := some status } else h.lives i :=
    hr.lifeAfter_exit hlive status
  have hpid : ∀ i, (k'.processTable i).pid = (h.kernel.processTable i).pid := by
    intro i
    rw [hsame i]
    exact (Kernel.exited_eq current status i).1
  have hparent : ∀ i, (k'.processTable i).parentPid = (h.kernel.processTable i).parentPid := by
    intro i
    rw [hsame i]
    exact (Kernel.exited_eq current status i).2.1
  refine hr.of_table hcons hcreated hreaped (fun i life hl => ?_) (fun i => ?_)
    (fun i life hl => ?_) ?_
  · rw [hlives] at hl
    split at hl
    · obtain ⟨old, hold, rfl⟩ := Option.map_eq_some_iff.mp hl
      exact ⟨old, hold, rfl⟩
    · exact ⟨life, hl, rfl⟩
  · rw [hlives]
    refine Iff.trans ?_ ((hr.free_iff i).trans (hlive i).symm)
    split
    · rw [Option.map_eq_none_iff]
    · exact Iff.rfl
  · have hcontext : (k'.processTable i).context =
        ((h.kernel.exited current status).processTable i).context := by
      rw [hsame i]
    show life.Agrees (k'.processTable i) h.created
    rw [hlives] at hl
    split at hl
    · next heq =>
      obtain rfl := Option.some.inj (hcur.symm.trans heq)
      obtain ⟨old, hold, rfl⟩ := Option.map_eq_some_iff.mp hl
      have hagrees := hr.agrees current old hold
      refine ⟨(hpid current).symm ▸ hagrees.pid, (hparent current).symm ▸ hagrees.parent,
        hagrees.serial_lt, hagrees.parent_lt, fun _ => ?_⟩
      rw [hcontext]
      simp [Kernel.exited]
    · next hne =>
      have hother : i ≠ current := fun heq => hne (heq ▸ hcur)
      have hagrees := hr.agrees i life hl
      refine ⟨(hpid i).symm ▸ hagrees.pid, (hparent i).symm ▸ hagrees.parent, hagrees.serial_lt,
        hagrees.parent_lt, fun hi => ?_⟩
      have hold := hterm i hi
      rw [hcontext]
      rw [Kernel.exited_others status hother] at hold ⊢
      exact hagrees.exited hold
  · show k'.mem.Exhausted ∨ k'.nextPid.toNat = h.created + 1 ∧ h.created + k'.mem.freeCount ≤ 32768 ∧
      ∀ i, (k'.processTable i).state = .free → (k'.processTable i).parentPid = 0
    rw [hmem, hnext]
    refine hr.fresh.imp_right fun hfresh => ⟨hfresh.1, hfresh.2.1, fun i hi => ?_⟩
    exact (hparent i).trans (hfresh.2.2 i ((hlive i).mp hi))

/-! ### Creation -/

/-- A failed creation leaves no frame. -/
theorem failed (hr : Recorded h) (hexit : h.NoExit call) {parentPid : Word}
    (hf : Kernel.Failed h.kernel k' i parentPid) : Recorded (h.advance call k') := by
  have hfree := (Kernel.findFree_some hf.slot).1
  have hcases : ∀ j, (j = i ∧ (k'.processTable j).state = .free) ∨
      k'.processTable j = h.kernel.processTable j := fun j => by
    by_cases hj : j = i
    · rw [hj]
      exact .inl ⟨rfl, hf.state⟩
    · exact .inr (hf.others j hj)
  refine hr.kept hexit (hf.consistent hr.consistent) (fun j => ?_) (fun j hj => ?_) (fun j hj => ?_)
    (.inl hf.exhausted)
  · rcases hcases j with ⟨rfl, hj⟩ | hj
    · exact iff_of_true hj hfree
    · rw [hj]
  · rcases hcases j with ⟨rfl, -⟩ | hj'
    · exact absurd hfree hj
    · rw [hj']
  · rcases hcases j with ⟨rfl, hj'⟩ | hj'
    · rw [hj'] at hj
      cases hj
    · rwa [hj'] at hj

/-- The number of the creation that made the parent of a new process. -/
theorem birth_parent (hr : Recorded h) {birth : Slot → Kernel.Birth}
    (hbirth : h.kernel.birth call = some birth) (hfree : (h.kernel.processTable i).state = .free)
    (hstale : ∀ j, (h.kernel.processTable j).state = .free →
      (h.kernel.processTable j).parentPid = 0) {d : Word}
    (hc : Kernel.Created h.kernel k' i d (birth i)) :
    ∃ parent, h.lifeAfter call k' i = some ⟨h.created, parent, none⟩ ∧
      (birth i).parentPid.toNat = parent.elim 0 (· + 1) ∧ ∀ n, parent = some n → n < h.created := by
  have hnew : (k'.processTable i).state ≠ .free := by
    rw [hc.new]
    exact nofun
  unfold History.lifeAfter
  rw [if_neg hnew, if_pos hfree]
  cases call with
  | createProcess =>
    obtain rfl := Option.some.inj hbirth
    refine ⟨none, rfl, ?_, nofun⟩
    exact congrArg BitVec.toNat (hstale i hfree)
  | createKernelProcess =>
    obtain rfl := Option.some.inj hbirth
    refine ⟨none, rfl, ?_, nofun⟩
    exact congrArg BitVec.toNat (hstale i hfree)
  | sysFork =>
    obtain ⟨current, hcur, rfl⟩ := Option.map_eq_some_iff.mp hbirth
    have hlive := (hr.consistent.current current hcur).not_free
    obtain ⟨life, hl⟩ := Option.ne_none_iff_exists'.mp fun hnone =>
      hlive ((hr.free_iff current).mp hnone)
    have hagrees := hr.agrees current life hl
    refine ⟨some life.serial, ?_, hagrees.pid, fun n hn => ?_⟩
    · simp only [hcur, Option.bind_some, hl, Option.map_some]
    · obtain rfl := Option.some.inj hn
      exact hagrees.serial_lt
  | _ => cases hbirth

/-- A creation counts one, and reaps nothing. -/
theorem created_counts (call : Call) {birth : Kernel.Birth} {d : Word}
    (hc : Kernel.Created h.kernel k' i d birth) :
    (h.advance call k').created = h.created + 1 ∧ (h.advance call k').reaped = h.reaped := by
  have hfree := (Kernel.findFree_some hc.slot).1
  constructor
  · refine if_pos (List.any_eq_true.mpr ⟨i, List.mem_finRange i, decide_eq_true ⟨hfree, ?_⟩⟩)
    rw [hc.new]
    exact nofun
  · refine advance_reaped call fun j hj => ?_
    by_cases hji : j = i
    · rw [hji, hfree]
    · rwa [hc.others hji] at hj

theorem created (hr : Recorded h) {birth : Slot → Kernel.Birth}
    (hbirth : h.kernel.birth call = some birth) {d : Word}
    (hc : Kernel.Created h.kernel k' i d (birth i)) : Recorded (h.advance call k') := by
  have hfree := (Kernel.findFree_some hc.slot).1
  obtain ⟨hnext, hbound, hstale⟩ := hr.fresh.resolve_left fun hex => hex _ hc.free
  obtain ⟨parent, hlife, hpar, hpar_lt⟩ := hr.birth_parent hbirth hfree hstale hc
  obtain ⟨hcreated, hreaped⟩ := created_counts call hc
  have hcount := hc.freeCount
  have hexit : h.NoExit call := by
    rintro status rfl
    cases hbirth
  have hself : (h.advance call k').lives i = some ⟨h.created, parent, none⟩ := hlife
  have hlives : ∀ j, j ≠ i → (h.advance call k').lives j = h.lives j :=
    fun j hj => hr.lifeAfter_kept hexit (by rw [hc.others hj])
  have hcases : ∀ {j life}, (h.advance call k').lives j = some life →
      (j = i ∧ life = ⟨h.created, parent, none⟩) ∨ (j ≠ i ∧ h.lives j = some life) := by
    intro j life hl
    by_cases hj : j = i
    · rw [hj, hself] at hl
      exact .inl ⟨hj, (Option.some.inj hl).symm⟩
    · rw [hlives j hj] at hl
      exact .inr ⟨hj, hl⟩
  have hnew : (h.advance call k').kernel.processTable i = k'.processTable i := rfl
  have hold : ∀ {j}, j ≠ i →
      (h.advance call k').kernel.processTable j = h.kernel.processTable j := hc.others
  refine ⟨hc.consistent hr.consistent, fun j => ?_, fun j life hl => ?_,
    fun a b life life' hla hlb heq => ?_, .inr ⟨?_, ?_, fun j hj => ?_⟩, fun n hn => ?_,
    fun j life hl => ?_⟩
  · by_cases hj : j = i
    · rw [hj, hself, hnew, hc.new]
      exact iff_of_false nofun nofun
    · rw [hlives j hj, hold hj]
      exact hr.free_iff j
  · rw [hcreated]
    rcases hcases hl with ⟨rfl, rfl⟩ | ⟨hj, hl⟩
    · rw [hnew, hc.new]
      exact ⟨hnext, hpar, Nat.lt_succ_self _, hpar_lt, nofun⟩
    · rw [hold hj]
      exact (hr.agrees j life hl).succ
  · rcases hcases hla with ⟨rfl, rfl⟩ | ⟨ha, hla⟩
    · rcases hcases hlb with ⟨rfl, rfl⟩ | ⟨-, hlb⟩
      · rfl
      · exact absurd heq (Nat.ne_of_gt (hr.agrees b life' hlb).serial_lt)
    · rcases hcases hlb with ⟨rfl, rfl⟩ | ⟨-, hlb⟩
      · exact absurd heq (Nat.ne_of_lt (hr.agrees a life hla).serial_lt)
      · exact hr.unique a b life life' hla hlb heq
  · have hone : (1 : Word).toNat = 1 := rfl
    show k'.nextPid.toNat = _
    rw [hcreated, hc.nextPid, BitVec.toNat_add, hnext, hone]
    omega
  · rw [hcreated]
    show h.created + 1 + k'.mem.freeCount ≤ 32768
    omega
  · by_cases hji : j = i
    · rw [hji, hnew, hc.new] at hj
      cases hj
    · rw [hold hji] at hj ⊢
      exact hstale j hj
  · rw [hcreated]
    rw [hreaped] at hn
    exact Nat.lt_succ_of_lt (hr.reaped_lt n hn)
  · rw [hreaped]
    rcases hcases hl with ⟨-, rfl⟩ | ⟨-, hl⟩
    · exact fun hmem => Nat.lt_irrefl _ (hr.reaped_lt _ hmem)
    · exact hr.not_reaped j life hl

/-! ### Reaping -/

section Reap

variable {child : Slot} (hothers : ∀ j, j ≠ child → k'.processTable j = h.kernel.processTable j)
  (statusPtr : Word)

include hothers

/-- Only the child's number is added. -/
theorem mem_reaped {life : Life} (hchild : h.lives child = some life) {n : Nat}
    (hn : n ∈ (h.advance (.sysWait statusPtr) k').reaped) : n = life.serial ∨ n ∈ h.reaped := by
  rcases List.mem_append.mp hn with hn | hn
  · obtain ⟨j, hj, hlife⟩ := List.mem_filterMap.mp hn
    obtain ⟨hlive, hfree⟩ := of_decide_eq_true (List.mem_filter.mp hj).2
    by_cases hjc : j = child
    · rw [hjc, hchild] at hlife
      exact .inl (Option.some.inj hlife).symm
    · rw [hothers j hjc] at hfree
      exact absurd hfree hlive
  · exact .inr hn

variable (hgone : (k'.processTable child).state = .free)

include hgone

/-- Only the child's life ends. -/
theorem lives_reap (hr : Recorded h) (j : Slot) :
    (h.advance (.sysWait statusPtr) k').lives j = if j = child then none else h.lives j := by
  by_cases hj : j = child
  · rw [if_pos hj, hj]
    exact if_pos hgone
  · have hexit : h.NoExit (.sysWait statusPtr) := fun _ heq => by cases heq
    rw [if_neg hj]
    exact hr.lifeAfter_kept hexit (by rw [hothers j hj])

theorem created_reap : (h.advance (.sysWait statusPtr) k').created = h.created := by
  refine advance_created _ fun j hj => ?_
  by_cases hjc : j = child
  · rwa [hjc]
  · rwa [hothers j hjc]

end Reap

/-- `sys_wait` reaps a child and stores its status. -/
theorem reap (hr : Recorded h) (statusPtr : Word) {current child : Slot}
    (hcur : h.kernel.currentProcess = some current)
    (hterm : (h.kernel.processTable child).state = .terminated)
    (hparent : (h.kernel.processTable child).parentPid = (h.kernel.processTable current).pid)
    (hstep : Kernel.MemoryStep (h.kernel.reap child) k') :
    Recorded (h.advance (.sysWait statusPtr) k') := by
  obtain ⟨childLife, -, hchild, -⟩ := hr.child hcur hterm hparent
  have hcons' := hstep.consistent (hr.reapable hcur hterm hparent)
  obtain ⟨mem, rfl, -, hkeep⟩ := hstep
  have htable : ∀ j, j ≠ child →
      ((h.kernel.reap child).setMem mem).processTable j = h.kernel.processTable j :=
    fun j hj => Kernel.reap_others hj
  have hgone : (((h.kernel.reap child).setMem mem).processTable child).state = .free :=
    Kernel.reap_self child
  generalize hk' : (h.kernel.reap child).setMem mem = k' at *
  have hlives := hr.lives_reap htable statusPtr hgone
  have hcreated := created_reap htable statusPtr hgone
  have hcases : ∀ {j life}, (h.advance (.sysWait statusPtr) k').lives j = some life →
      j ≠ child ∧ h.lives j = some life := by
    intro j life hl
    rw [hlives] at hl
    split at hl
    · cases hl
    · next hj => exact ⟨hj, hl⟩
  have hold : ∀ {j}, j ≠ child → (h.advance (.sysWait statusPtr) k').kernel.processTable j =
      h.kernel.processTable j := fun {j} hj => htable j hj
  refine ⟨hcons', fun j => ?_, fun j life hl => ?_, fun a b life life' hla hlb heq => ?_, ?_,
    fun n hn => ?_, fun j life hl hmem => ?_⟩
  · rw [hlives]
    by_cases hj : j = child
    · rw [if_pos hj, hj]
      exact iff_of_true rfl hgone
    · rw [if_neg hj, hold hj]
      exact hr.free_iff j
  · obtain ⟨hj, hl⟩ := hcases hl
    rw [hcreated, hold hj]
    exact hr.agrees j life hl
  · exact hr.unique a b life life' (hcases hla).2 (hcases hlb).2 heq
  · rw [hcreated]
    have hmem : (h.advance (.sysWait statusPtr) k').kernel.mem = mem := by rw [← hk']; rfl
    have hnext : (h.advance (.sysWait statusPtr) k').kernel.nextPid = h.kernel.nextPid := by
      rw [← hk']
      rfl
    rw [hmem, hnext]
    refine (hr.fresh_of_keeps hkeep).imp_right fun hfresh => ⟨hfresh.1, hfresh.2.1, fun j hj => ?_⟩
    by_cases hjc : j = child
    · rw [hjc, ← hk']
      simp [History.advance, Kernel.reap]
    · rw [hold hjc] at hj ⊢
      exact hfresh.2.2 j hj
  · rw [hcreated]
    rcases mem_reaped htable statusPtr hchild hn with rfl | hn
    · exact (hr.agrees child childLife hchild).serial_lt
    · exact hr.reaped_lt n hn
  · obtain ⟨hjc, hl⟩ := hcases hl
    rcases mem_reaped htable statusPtr hchild hmem with heq | hmem
    · exact hjc (hr.unique j child life childLife hl hchild heq)
    · exact hr.not_reaped j life hl hmem

/-! ### Runs -/

/-- No call makes a frame free. -/
theorem next_keeps (hr : Recorded h) (call : Call) :
    h.kernel.mem.Keeps (h.kernel.next call).mem := by
  rcases hr.consistent.next_cases call hr.reapable with heffect |
    ⟨_, _, _, _, _, _, _, mem, hnext, -, hkeep⟩
  · exact heffect.keeps
  · rw [hnext]
    exact hkeep

theorem step {event : Event} {img : KernelImage} (hr : Recorded h)
    (hstep : img.historySystem.step h event h') : Recorded h' := by
  cases event with
  | resume i =>
    obtain ⟨hdispatched, rfl⟩ := hstep
    have hc := hr.consistent
    obtain ⟨l, hq⟩ := hc.queue
    refine { hr with
      consistent := ⟨hc.isolated, hc.cr3_unique, fun c hc' => ?_, l, hq.linked, hq.mem_iff⟩ }
    obtain rfl := Option.some.inj hc'
    exact hdispatched
  | call call =>
    obtain ⟨-, rfl⟩ := hstep
    rcases hr.consistent.next_cases call hr.reapable with heffect |
      ⟨statusPtr, current, child, rfl, hcur, hterm, hparent, hmem⟩
    · generalize h.kernel.next call = k' at *
      cases heffect with
      | @spawn call birth r hbirth hspawn =>
        have hexit : h.NoExit call := by
          rintro status rfl
          cases hbirth
        cases hspawn with
        | noSlot => exact hr.same hexit
        | failed hf => exact hr.failed hexit hf
        | created hc => exact hr.created hbirth hc
      | noParent => exact hr.same nofun
      | noCaller status hcur => exact hr.same fun _ _ => hcur
      | exit status hcur =>
        have hlive := (hr.consistent.current _ hcur).not_free
        exact hr.exit hcur status (hr.consistent.exited hcur status) rfl rfl
          (fun i => not_iff_not.mp (Kernel.exited_live hlive status i)) (fun _ => rfl)
          fun _ hi => hi
      | exitTo status hcur hhead =>
        have hlive := (hr.consistent.current _ hcur).not_free
        have hcons := hr.consistent.exited hcur status
        obtain ⟨l, hq⟩ := hcons.queue
        refine hr.exit hcur status (hcons.dispatch hhead) rfl rfl (fun i => ?_)
          (Kernel.dispatch_eq _) fun _ => Kernel.dispatch_terminated
        refine not_iff_not.mp ((hq.dispatch_live hhead i).trans ?_)
        exact Kernel.exited_live hlive status i
      | wait => exact hr.same nofun
      | idle => exact hr.same nofun
      | dispatch hhead => exact hr.dispatch hhead
      | pageFault _ _ hiso hkeep => exact hr.memory (fun _ heq => by cases heq) hiso hkeep
      | userStore _ _ hiso hkeep => exact hr.memory (fun _ heq => by cases heq) hiso hkeep
    · exact hr.reap statusPtr hcur hterm hparent hmem

theorem step_keeps {event : Event} {img : KernelImage} (hr : Recorded h)
    (hstep : img.historySystem.step h event h') : h.kernel.mem.Keeps h'.kernel.mem := by
  cases event with
  | resume =>
    obtain ⟨-, rfl⟩ := hstep
    exact .refl _
  | call call =>
    obtain ⟨-, rfl⟩ := hstep
    exact hr.next_keeps call

theorem of_reach {img : KernelImage} (hh : img.historySystem.Reach h) : Recorded h := by
  refine hh.invariant ?_ fun _ _ _ _ hr _ hstep => hr.step hstep
  rintro _ ⟨ram, bitmap, rfl⟩
  have hk := img.boot_wellFormed ram bitmap
  refine ⟨hk.consistent, fun i => iff_of_true rfl rfl, nofun, nofun,
    .inr ⟨rfl, ?_, fun _ _ => rfl⟩, nofun, nofun⟩
  rw [Nat.zero_add]
  exact hk.isolated.freeCount_le

/-- No run makes a frame free. -/
theorem reach_keeps {img : KernelImage} (hr : Recorded h)
    (hh : (img.historySystem.startingAt h).Reach h') :
    Recorded h' ∧ h.kernel.mem.Keeps h'.kernel.mem := by
  refine hh.invariant (I := fun s => Recorded s ∧ h.kernel.mem.Keeps s.kernel.mem) ?_ ?_
  · rintro _ rfl
    exact ⟨hr, .refl _⟩
  · rintro s event s' _ ⟨hs, hkeep⟩ _ hstep
    have hstep : img.historySystem.step s event s' := hstep
    exact ⟨hs.step hstep, hkeep.trans (hs.step_keeps hstep)⟩

end Recorded

/-- The history of a run of the kernel, as far as it calls `sys_wait` with such pointers. -/
theorem KernelImage.history_of_reach {img : KernelImage} {k : Kernel} (hk : img.system.Reach k) :
    ∃ h, img.historySystem.Reach h ∧ h.kernel = k := by
  induction hk with
  | init h =>
    obtain ⟨ram, bitmap, rfl⟩ := h
    exact ⟨_, .init ⟨ram, bitmap, rfl⟩, rfl⟩
  | @step k k' call hk _ hstep ih =>
    obtain ⟨h, hh, rfl⟩ := ih
    have hrun := KernelImage.running_of_reach hk
    have hafter := (hrun.step hstep).1
    by_cases hwait : ∃ statusPtr, call = .sysWait statusPtr
    · obtain ⟨statusPtr, rfl⟩ := hwait
      rw [Kernel.after, Kernel.sysWait_eq hrun.wellFormed] at hafter
      exact ⟨h, hh, Option.some.inj hafter⟩
    · have hstatus : call.StatusInUserSpace := fun p heq => absurd ⟨p, heq⟩ hwait
      refine ⟨_, .step (a := .call call) hh trivial ⟨hstatus, rfl⟩, ?_⟩
      have hnext : h.kernel.next call = k' := by
        cases call with
        | sysWait p => exact absurd ⟨p, rfl⟩ hwait
        | _ => exact Option.some.inj hafter
      exact hnext

end Lbos

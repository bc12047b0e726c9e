import Mathlib.Data.Set.Card
import Mathlib.Order.CompletePartialOrder
import Lbos.Kernel.History

/-! Which processes `sys_wait` gives back: exited children of its caller, each once. -/

namespace Lbos

open Lib Mem

/-- A slot that `sys_wait` gives back holds a process that the caller forked, that has exited and
was not reaped, and the status that is stored is the argument of its last `sys_exit`. -/
def History.ReapsOwnChild (h : History) (statusPtr : Word) : Prop :=
  ∀ i, h.kernel.Frees statusPtr i → ∃ current life parent status result,
    h.kernel.currentProcess = some current ∧ h.lives i = some life ∧
    h.lives current = some parent ∧ life.parent = some parent.serial ∧
    life.exited = some status ∧ life.serial ∉ h.reaped ∧
    (h.kernel.sysWait statusPtr).1 =
      if statusPtr = 0 then .ret result else .stored statusPtr status result

/-- In every run `sys_wait` reaps children of its caller only, once, with their status. -/
theorem wait_reaps_own_child (img : KernelImage) {h : History} (hh : img.historySystem.Reach h)
    (statusPtr : Word) : h.ReapsOwnChild statusPtr := by
  have hr := Recorded.of_reach hh
  rintro i ⟨hlive, hfree⟩
  rcases h.kernel.sysWait_cases statusPtr with hw | ⟨current, child, hcur, hterm, hparent, hw⟩
  · rw [hw] at hfree
    exact absurd hfree hlive
  · rw [hw] at hfree ⊢
    obtain rfl : i = child := by
      by_contra hne
      rw [Kernel.reap_others hne] at hfree
      exact hlive hfree
    obtain ⟨life, parent, hl, hp, hpar, hexited⟩ := hr.child hcur hterm hparent
    exact ⟨current, life, parent, _, 0, hcur, hl, hp, hpar, hexited, hr.not_reaped i life hl, rfl⟩

/-- A process that waits while a child of it is terminated gets a slot back. -/
theorem Kernel.sysWait_frees {k : Kernel} {current child : Slot}
    (hcur : k.currentProcess = some current) (hterm : (k.processTable child).state = .terminated)
    (hparent : (k.processTable child).parentPid = (k.processTable current).pid) (statusPtr : Word) :
    ∃ i, k.Frees statusPtr i := by
  obtain ⟨i, hi, hw⟩ := sysWait_reaps hcur hterm hparent statusPtr
  refine ⟨i, by rw [hi]; decide, ?_⟩
  rw [hw]
  exact Kernel.reap_self i

/-- The state after a fork. -/
def History.forked (h : History) : History := h.advance .sysFork (h.kernel.next .sysFork)

/-- After a fork, in slot `j`, the child is dispatched and exits, and the process gets the processor
back: then it has a child to reap. -/
theorem fork_exit_wait (img : KernelImage) {h : History} {i j : Slot} {d : Word}
    (hrun : (h.kernel.processTable i).state = .running) (hqueue : h.kernel.readyQueueHead = none)
    (hfork : Kernel.Created h.kernel h.kernel.sysFork.2 j d (h.kernel.childBirth i))
    (status statusPtr : Word) :
    ∃ h' i', (img.historySystem.startingAt h.forked).Reach h' ∧ h'.kernel.Frees statusPtr i' := by
  have hne : i ≠ j := by
    rintro rfl
    have hfree := (Kernel.findFree_some hfork.slot).1
    rw [hrun] at hfree
    cases hfree
  have hcall : ∀ {h₀ : History} (call : Call), (img.historySystem.startingAt h.forked).Reach h₀ →
      call.StatusInUserSpace → (img.historySystem.startingAt h.forked).Reach
        (h₀.advance call (h₀.kernel.next call)) :=
    fun call hh₀ hstatus => .step (a := .call call) hh₀ trivial ⟨hstatus, rfl⟩
  have hexited := hcall (.sysExit status) (hcall .schedule (.init rfl) nofun) nofun
  have hschedule : h.kernel.sysFork.2.next .schedule = h.kernel.sysFork.2.dispatch j := by
    show h.kernel.sysFork.2.schedule.2 = _
    rw [Kernel.schedule_some hfork.readyQueueHead]
  have hidle : ((h.kernel.sysFork.2.dispatch j).exited j status).readyQueueHead = none := by
    show (h.kernel.sysFork.2.processTable j).nextInReadyQueue = none
    rw [hfork.new]
    exact hqueue
  have hexit : (h.kernel.sysFork.2.dispatch j).next (.sysExit status) =
      (h.kernel.sysFork.2.dispatch j).exited j status := by
    show ((h.kernel.sysFork.2.dispatch j).sysExit status).2 = _
    rw [Kernel.sysExit_some rfl, Kernel.schedule_none hidle]
  have hparent : ((h.kernel.sysFork.2.dispatch j).exited j status).processTable i =
      h.kernel.processTable i := by
    rw [Kernel.exited_others status hne, Kernel.dispatch_others hne, hfork.others hne]
  have hchild : (((h.kernel.sysFork.2.dispatch j).exited j status).processTable j).parentPid =
      (((h.kernel.sysFork.2.dispatch j).exited j status).processTable i).pid := by
    rw [(Kernel.exited_eq j status j).2.1, hparent, Kernel.dispatch_self, hfork.new]
    rfl
  obtain ⟨i', hi'⟩ := Kernel.sysWait_frees
    (k := { (h.kernel.sysFork.2.dispatch j).exited j status with currentProcess := some i })
    rfl (Kernel.exited_self j status) hchild statusPtr
  refine ⟨_, i', .step (a := .resume i) hexited trivial ⟨?_, rfl⟩, ?_⟩
  · show (((h.kernel.sysFork.2.next .schedule).next (.sysExit status)).processTable
      i).state.Dispatched
    rw [hschedule, hexit, hparent, hrun]
    exact .inl rfl
  · show ({ (h.kernel.sysFork.2.next .schedule).next (.sysExit status) with
      currentProcess := some i } : Kernel).Frees statusPtr i'
    rw [hschedule, hexit]
    exact hi'

/-- The sample kernel's first program forks and later reaps. -/
theorem KernelImage.sample_wait (statusPtr : Word) :
    ∃ h h' i i' j d, KernelImage.sample.historySystem.Reach h ∧
      Kernel.Created h.kernel h.kernel.sysFork.2 j d (h.kernel.childBirth i) ∧
      (KernelImage.sample.historySystem.startingAt h.forked).Reach h' ∧
      h'.kernel.Frees statusPtr i' := by
  obtain ⟨k, i, j, d, hreach, -, hrun, hqueue, hfork, -⟩ := KernelImage.sample_fork
  obtain ⟨h, hh, rfl⟩ := KernelImage.history_of_reach hreach
  obtain ⟨h', i', hh', hfrees⟩ := fork_exit_wait .sample hrun hqueue hfork 42 statusPtr
  exact ⟨h, h', i, i', j, d, hh, hfork, hh', hfrees⟩

theorem History.reach_forked {img : KernelImage} {h h' : History}
    (hh : img.historySystem.Reach h)
    (hh' : (img.historySystem.startingAt h.forked).Reach h') : img.historySystem.Reach h' := by
  have hfork : Call.sysFork.StatusInUserSpace := nofun
  exact System.ReachWhen.continue (.step (a := .call .sysFork) hh trivial ⟨hfork, rfl⟩) hh'

theorem wait_reaps_own_child_sample :
    ∃ h i, KernelImage.sample.historySystem.Reach h ∧ h.kernel.Frees 0 i ∧ h.ReapsOwnChild 0 := by
  obtain ⟨h, h', i, i', j, d, hh, -, hh', hfrees⟩ := KernelImage.sample_wait 0
  have hreach := History.reach_forked hh hh'
  exact ⟨h', i', hreach, hfrees, wait_reaps_own_child .sample hreach 0⟩

/-! ### Memory -/

/-- `sys_wait` makes the frames of the process in slot `i` free: its directory, its tables and its
pages. -/
def Kernel.GivesBack (k : Kernel) (statusPtr : Word) (i : Slot) : Prop :=
  ∀ x : Site, x.Of {(k.processTable i).context.cr3} → ∀ f, x.frame k.mem.ram = some f →
    (k.next (.sysWait statusPtr)).mem.FreeFrame (pageOf f)

/-- The frames of a process stay in use, whatever is called. -/
theorem Recorded.frames_kept {h : History} (hr : Recorded h) {i : Slot}
    (hi : (h.kernel.processTable i).state ≠ .free) (call : Call) {x : Site}
    (hx : x.Of {(h.kernel.processTable i).context.cr3}) {f : Word}
    (hf : x.frame h.kernel.mem.ram = some f) :
    ¬(h.kernel.next call).mem.FreeFrame (pageOf f) := by
  have hsub : {(h.kernel.processTable i).context.cr3} ⊆ h.kernel.dirs :=
    Set.singleton_subset_iff.mpr ⟨i, hi, rfl⟩
  have hmarked := (hr.consistent.isolated.allocated x (hx.mono hsub) f hf).marked
  intro hfree
  exact (h.kernel.mem.isFrameAllocated_iff f).mp hmarked ((hr.next_keeps call).free _ hfree)

/-- After a fork, the frame of the child's directory is never free again. -/
theorem free_after_fork {img : KernelImage} {h h' : History} (hh : img.historySystem.Reach h)
    {i j : Slot} {d : Word}
    (hfork : Kernel.Created h.kernel h.kernel.sysFork.2 j d (h.kernel.childBirth i))
    (hh' : (img.historySystem.startingAt h.forked).Reach h') (call : Call) :
    {n | (h'.kernel.next call).mem.FreeFrame n} ⊂ {n | h.kernel.mem.FreeFrame n} := by
  have hforked : Recorded h.forked := Recorded.of_reach (History.reach_forked hh (.init rfl))
  obtain ⟨hr', hrun⟩ := hforked.reach_keeps hh'
  have hkeep : h.kernel.sysFork.2.mem.Keeps (h'.kernel.next call).mem :=
    hrun.trans (hr'.next_keeps call)
  refine (Set.ssubset_iff_of_subset fun n hn => hfork.keeps.free n (hkeep.free n hn)).mpr
    ⟨pageOf d, hfork.free, fun hfree => ?_⟩
  have hmarked := (hfork.isolated.dir_allocated (Set.mem_insert d _)).marked
  exact (h.kernel.sysFork.2.mem.isFrameAllocated_iff d).mp hmarked (hkeep.free _ hfree)

/-- When a child is reaped, every frame of it stays in use, and fewer frames are free than before
the fork, whatever else happened in between. -/
theorem reaping_keeps_frames (img : KernelImage) {h h' : History}
    (hh : img.historySystem.Reach h) {i i' j : Slot} {d : Word}
    (hfork : Kernel.Created h.kernel h.kernel.sysFork.2 j d (h.kernel.childBirth i))
    (hh' : (img.historySystem.startingAt h.forked).Reach h') {statusPtr : Word}
    (hfrees : h'.kernel.Frees statusPtr i') :
    (∀ x : Site, x.Of {(h'.kernel.processTable i').context.cr3} → ∀ f,
      x.frame h'.kernel.mem.ram = some f →
        ¬(h'.kernel.next (.sysWait statusPtr)).mem.FreeFrame (pageOf f)) ∧
    {n | (h'.kernel.next (.sysWait statusPtr)).mem.FreeFrame n} ⊂
      {n | h.kernel.mem.FreeFrame n} := by
  have hr' := Recorded.of_reach (History.reach_forked hh hh')
  refine ⟨fun x hx f hf => ?_, free_after_fork hh hfork hh' _⟩
  exact hr'.frames_kept hfrees.1 _ hx hf

theorem reaping_keeps_frames_sample :
    ∃ (h h' : History) (i : Slot), KernelImage.sample.historySystem.Reach h ∧
      h'.kernel.Frees 0 i ∧
      {n | (h'.kernel.next (.sysWait 0)).mem.FreeFrame n} ⊂ {n | h.kernel.mem.FreeFrame n} := by
  obtain ⟨h, h', i, i', j, d, hh, hfork, hh', hfrees⟩ := KernelImage.sample_wait 0
  exact ⟨h, h', i', hh, hfrees, (reaping_keeps_frames .sample hh hfork hh' hfrees).2⟩

/-- A child is forked, exits and is reaped, and its frames are lost.  For the last call the parent gets
the processor back by `Event.resume`; no code of the kernel gives it back. -/
theorem reaped_memory_leaks :
    ∃ (h h' : History) (i i' j : Slot) (d : Word), KernelImage.sample.historySystem.Reach h ∧
      Kernel.Created h.kernel h.kernel.sysFork.2 j d (h.kernel.childBirth i) ∧
      (KernelImage.sample.historySystem.startingAt h.forked).Reach h' ∧
      h'.kernel.Frees 0 i' ∧ ¬h'.kernel.GivesBack 0 i' ∧
      ¬h.kernel.mem.SameFree (h'.kernel.next (.sysWait 0)).mem := by
  obtain ⟨h, h', i, i', j, d, hh, hfork, hh', hfrees⟩ := KernelImage.sample_wait 0
  have hr' := Recorded.of_reach (History.reach_forked hh hh')
  refine ⟨h, h', i, i', j, d, hh, hfork, hh', hfrees, fun hback => ?_, fun hsame => ?_⟩
  · exact hr'.frames_kept hfrees.1 _ (.dir rfl) rfl (hback (.dir _) (.dir rfl) _ rfl)
  · have hlost := free_after_fork hh hfork hh' (.sysWait 0)
    exact hlost.2 fun n hn => (hsame n).mpr hn

end Lbos

import Lbos.Kernel.SpawnSupply

/-! Who gets the processor back from the kernel.  A process that has exited is never resumed by a
switch, but `sys_exit` returns to its caller when no process is ready. -/

namespace Lbos

open Lib Mem

namespace Kernel

variable {k k' : Kernel}

/-- The process whose code goes on when a handler has ended: the current one, if there is one and
the kernel does not stop. -/
def resumed {α : Type} (r : Exit α × Kernel) : Option Process :=
  match r.1 with
  | .halted => none
  | _ => r.2.currentProcess.map r.2.processTable

/-- The process that a system call, a timer tick or a page fault returns to. -/
def resumes (k : Kernel) : Call → Option Process
  | .sysFork => resumed k.sysFork
  | .sysExit status => resumed (k.sysExit status)
  | .sysWait statusPtr => resumed (k.sysWait statusPtr)
  | .schedule => resumed k.schedule
  | .pageFault faultingAddress info => resumed (k.pageFaultHandler faultingAddress info)
  | .createProcess _ _ | .createKernelProcess _ | .userStore _ _ => none

/-- A call that returns to a process returns to a running one. -/
def ReturnsToRunning (k : Kernel) (call : Call) : Prop :=
  ∀ p, k.resumes call = some p → p.state = .running

/-- The call is no `sys_exit` of a process while none is ready. -/
def ExitFindsReady (k : Kernel) (call : Call) : Prop :=
  ∀ status, call = .sysExit status → k.currentProcess ≠ none → k.readyQueueHead ≠ none

/-- The current process is running. -/
def CurrentRunning (k : Kernel) : Prop :=
  ∀ c, k.currentProcess = some c → (k.processTable c).state = .running

theorem resumed_running {α : Type} {r : Exit α × Kernel} (h : r.2.CurrentRunning) {p : Process}
    (hp : resumed r = some p) : p.state = .running := by
  unfold resumed at hp
  split at hp
  · cases hp
  · obtain ⟨c, hc, rfl⟩ := Option.map_eq_some_iff.mp hp
    exact h c hc

theorem currentRunning_dispatch (k : Kernel) (head : Slot) : (k.dispatch head).CurrentRunning := by
  intro c hc
  obtain rfl := Option.some.inj hc
  rw [dispatch_self]

/-- A call that is no `sys_exit` without a successor leaves a running process in charge. -/
theorem Effect.currentRunning {call : Call} (h : k.Effect call k') (hk : k.CurrentRunning)
    (hready : k.ExitFindsReady call) : k'.CurrentRunning := by
  cases h with
  | spawn _ hspawn =>
    intro c hc
    rw [hspawn.currentProcess] at hc
    have hrun := hk c hc
    rw [hspawn.live_kept (by rw [hrun]; exact nofun)]
    exact hrun
  | noParent => exact hk
  | noCaller => exact hk
  | exit status hcur hhead =>
    have hsome : k.currentProcess ≠ none := by
      rw [hcur]
      exact nofun
    exact absurd hhead (hready status rfl hsome)
  | exitTo => exact currentRunning_dispatch _ _
  | wait => exact hk
  | idle => exact hk
  | dispatch => exact currentRunning_dispatch _ _
  | pageFault => exact hk
  | userStore => exact hk

/-- What the call returns to is the current process of the state after it. -/
theorem WellFormed.resumes_running (hk : k.WellFormed) {call : Call} (h : k.after call = some k')
    (hrun : k'.CurrentRunning) : k.ReturnsToRunning call := by
  intro p hp
  cases call with
  | createProcess => cases hp
  | createKernelProcess => cases hp
  | sysFork =>
    obtain rfl := Option.some.inj h
    exact resumed_running hrun hp
  | sysExit status =>
    obtain rfl := Option.some.inj h
    exact resumed_running hrun hp
  | sysWait statusPtr =>
    rw [Kernel.after, sysWait_eq hk] at h
    obtain rfl := Option.some.inj h
    rw [resumes, sysWait_eq hk] at hp
    exact resumed_running (r := (Exit.ret (-1 : Word), k)) hrun hp
  | schedule =>
    obtain rfl := Option.some.inj h
    exact resumed_running hrun hp
  | pageFault addr info =>
    obtain rfl := Option.some.inj h
    exact resumed_running hrun hp
  | userStore => cases hp

/-- A process that exits while none is ready goes on. -/
theorem resumes_exit {current : Slot} (hcur : k.currentProcess = some current)
    (hhead : k.readyQueueHead = none) (status : Word) :
    k.resumes (.sysExit status) = some ((k.exited current status).processTable current) := by
  have hidle : (k.exited current status).readyQueueHead = none := hhead
  have hstays : (k.exited current status).currentProcess = some current := hcur
  rw [resumes, sysExit_some hcur, schedule_none hidle, resumed]
  simp only [Exit.map, hstays, Option.map_some]

/-- One call returns to a running process exactly if it is no such `sys_exit`. -/
theorem WellFormed.returnsToRunning_iff (hk : k.WellFormed) (hrun : k.CurrentRunning) (call : Call) :
    k.ReturnsToRunning call ↔ k.ExitFindsReady call := by
  constructor
  · intro hreturns status hexit hcur hhead
    obtain ⟨current, hcur⟩ := Option.ne_none_iff_exists'.mp hcur
    rw [hexit] at hreturns
    have hstate := hreturns _ (resumes_exit hcur hhead status)
    rw [exited_self] at hstate
    cases hstate
  · intro hready
    obtain ⟨k', hafter, -, -⟩ := hk.after call
    exact hk.resumes_running hafter ((hk.effect hafter).currentRunning hrun hready)

end Kernel

/-- In a run of the kernel from boot every return from the kernel is to a running process exactly if
no process of the run exits while none is ready. -/
theorem returns_to_running_iff (img : KernelImage) {k : Kernel} (hk : img.system.init k)
    {run : List (Call × Kernel)} (hrun : img.system.Run k run) :
    System.Meets Kernel.ReturnsToRunning k run ↔ System.Meets Kernel.ExitFindsReady k run := by
  refine System.Run.meets_iff_meets (I := Kernel.CurrentRunning)
    (fun k call k' hreach hI _ => ?_) (fun k call k' hreach hI hstep hready => ?_) (.init hk) ?_ hrun
  · exact (KernelImage.running_of_reach hreach).wellFormed.returnsToRunning_iff hI call
  · have hk := KernelImage.running_of_reach hreach
    exact (hk.wellFormed.effect (hk.step hstep).1).currentRunning hI hready
  · obtain ⟨ram, bitmap, rfl⟩ := hk
    exact nofun

/-- A parent exits while its child is ready, and the child gets the processor. -/
theorem returns_to_running_iff_sample :
    ∃ k₁ k₂ j, System.Meets Kernel.ReturnsToRunning KernelImage.sampleBoot
        [(.createProcess 0xC0110000 4096, k₁), (.schedule, k₂), (.sysFork, k₂.sysFork.2),
          (.sysExit 0, (k₂.sysFork.2.sysExit 0).2)] ∧
      k₂.sysFork.2.currentProcess ≠ some j ∧
      ∃ p, k₂.sysFork.2.resumes (.sysExit 0) = some p ∧
        p = (k₂.sysFork.2.sysExit 0).2.processTable j := by
  obtain ⟨k₁, k₂, i, j, d, d', birth, h⟩ := KernelImage.sample_family
  have hexit : ∀ k : Kernel, k.after (.sysExit 0) = some (k.sysExit 0).2 := fun _ => rfl
  have hrun := h.run.append (.cons (KernelImage.step_after .sample (hexit _)) (.nil _))
  refine ⟨k₁, k₂, j, (returns_to_running_iff .sample KernelImage.sampleBoot_init hrun).mpr
    ⟨nofun, nofun, nofun, fun _ _ _ => ?_, trivial⟩, ?_, ?_⟩
  · rw [h.queue]
    exact nofun
  · rw [h.current, Ne, Option.some.injEq]
    exact h.ne
  · have hqueue : (k₂.sysFork.2.exited i 0).readyQueueHead = some j := h.queue
    refine ⟨_, ?_, rfl⟩
    rw [Kernel.resumes, Kernel.sysExit_some h.current, Kernel.schedule_some hqueue]
    rfl

/-- The only process exits, and `sys_exit` returns to it. -/
theorem exit_returns_to_terminated :
    ∃ k, KernelImage.sample.system.Reach k ∧
      ∃ p, k.resumes (.sysExit 0) = some p ∧ p.state = .terminated := by
  obtain ⟨i, d, birth, hnew, -, -, -, hreach⟩ := KernelImage.sample_process
  have hempty : ((KernelImage.sampleBoot.createProcess 0xC0110000 4096).2.dispatch
      i).readyQueueHead = none := by
    rw [Kernel.dispatch, hnew.new]
    rfl
  exact ⟨_, hreach, _, Kernel.resumes_exit rfl hempty 0, Kernel.exited_self i 0⟩

end Lbos

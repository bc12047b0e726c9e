import Mathlib.Data.Fintype.Card
import Lbos.Kernel.ReadyQueue
import Lbos.Kernel.UserReturn

/-! Nothing puts a process back on the ready queue once `schedule` has taken it.  So over a whole run
`switch_to_process` is called at most once for each process. -/

namespace Lbos

open Lib

namespace Kernel

variable {k k' : Kernel}

/-- The process that `switch_to_process` has given the processor to. -/
def switchedTo {α : Type} (r : Exit α × Kernel) : Option Slot :=
  match r.1 with
  | .switched _ _ => r.2.currentProcess
  | _ => none

/-- The process to which a call switches. -/
def switches (k : Kernel) : Call → Option Slot
  | .sysFork => switchedTo k.sysFork
  | .sysExit status => switchedTo (k.sysExit status)
  | .sysWait statusPtr => switchedTo (k.sysWait statusPtr)
  | .schedule => switchedTo k.schedule
  | .pageFault faultingAddress info => switchedTo (k.pageFaultHandler faultingAddress info)
  | .createProcess _ _ | .createKernelProcess _ | .userStore _ _ => none

/-- The processes to which a run switches, in order. -/
def switchesOf : Kernel → List (Call × Kernel) → List Slot
  | _, [] => []
  | k, (call, k') :: run => (k.switches call).toList ++ switchesOf k' run

theorem switchedTo_schedule (k : Kernel) : switchedTo k.schedule = k.readyQueueHead := by
  cases h : k.readyQueueHead with
  | none => rw [schedule_none h, switchedTo]
  | some head => rw [schedule_some h]; rfl

theorem switchedTo_map {α β : Type} (f : α → β) (e : Exit α) (k : Kernel) :
    switchedTo (e.map f, k) = switchedTo (e, k) := by
  cases e <;> rfl

theorem sysFork_returns (k : Kernel) : ∃ a, k.sysFork.1 = .ret a := by
  unfold sysFork
  split
  · exact ⟨_, rfl⟩
  · split
    · exact ⟨_, rfl⟩
    · dsimp only
      split
      · exact ⟨_, rfl⟩
      · split
        · exact ⟨_, rfl⟩
        · exact ⟨_, rfl⟩

theorem sysWait_not_switched (k : Kernel) (statusPtr : Word) :
    switchedTo (k.sysWait statusPtr) = none := by
  unfold sysWait
  split
  · rfl
  · split
    · rfl
    · dsimp only
      split
      · rfl
      · rfl

theorem pageFaultHandler_not_switched (k : Kernel) (addr : Word) (info : IdtInfo) :
    switchedTo (k.pageFaultHandler addr info) = none := by
  unfold pageFaultHandler
  split
  · rfl
  · split
    · rfl
    · split
      dsimp only
      split
      · split
        · rfl
        · rfl
      · rfl

/-- A switch is to the head of the ready queue, in `schedule` or at the end of `sys_exit`. -/
theorem switches_eq (k : Kernel) (call : Call) :
    k.switches call = match call with
      | .schedule => k.readyQueueHead
      | .sysExit _ => if k.currentProcess = none then none else k.readyQueueHead
      | _ => none := by
  cases call with
  | sysFork =>
    obtain ⟨a, h⟩ := k.sysFork_returns
    rw [switches, switchedTo, h]
  | sysExit status =>
    rw [switches]
    cases hcur : k.currentProcess with
    | none => simp only [sysExit, hcur, switchedTo, if_true]
    | some current =>
      rw [sysExit_some hcur, switchedTo_map]
      exact switchedTo_schedule _
  | sysWait statusPtr => exact k.sysWait_not_switched statusPtr
  | schedule => exact k.switchedTo_schedule
  | pageFault addr info => exact k.pageFaultHandler_not_switched addr info
  | createProcess => rfl
  | createKernelProcess => rfl
  | userStore => rfl

theorem mem_switchesOf {i : Slot} (h : k.readyQueueHead = some i) (k' : Kernel)
    (run : List (Call × Kernel)) : i ∈ switchesOf k ((.schedule, k') :: run) := by
  rw [switchesOf, switches_eq]
  exact List.mem_append_left _ (Option.mem_toList.mpr h)

/-- A process that is switched to was ready, and is running then. -/
theorem WellFormed.switches_ready (hk : k.WellFormed) {call : Call} (h : k.after call = some k')
    {i : Slot} (hi : k.switches call = some i) :
    (k.processTable i).state = .ready ∧ (k'.processTable i).state = .running := by
  obtain ⟨l, hq⟩ := hk.queue
  rw [switches_eq] at hi
  cases call with
  | schedule =>
    obtain rfl := Option.some.inj h
    refine ⟨hq.head_ready hi, ?_⟩
    rw [schedule_some hi, dispatch_self]
  | sysExit status =>
    obtain rfl := Option.some.inj h
    simp only at hi
    split at hi
    · cases hi
    · next hcur =>
      obtain ⟨current, hcur⟩ := Option.ne_none_iff_exists'.mp hcur
      refine ⟨hq.head_ready hi, ?_⟩
      have hhead : (k.exited current status).readyQueueHead = some i := hi
      rw [sysExit_some hcur, schedule_some hhead, dispatch_self]
  | _ => cases hi

/-- A process that has been switched to stays one. -/
theorem WellFormed.dispatched_kept (hk : k.WellFormed) {call : Call} (h : k.after call = some k')
    {i : Slot} (hi : (k.processTable i).state.Dispatched) : (k'.processTable i).state.Dispatched := by
  have hexited : ∀ current status, ((k.exited current status).processTable i).state.Dispatched := by
    intro current status
    by_cases hne : i = current
    · rw [hne, exited_self]
      exact .inr rfl
    · rwa [exited_others status hne]
  cases hk.effect h with
  | spawn _ hspawn => rwa [hspawn.live_kept hi.not_free]
  | noParent => exact hi
  | noCaller => exact hi
  | exit status => exact hexited _ status
  | exitTo status hcur hhead =>
    rw [(hk.consistent.exited hcur status).dispatch_kept hhead (hexited _ status).not_ready]
    exact hexited _ status
  | wait => exact hi
  | idle => exact hi
  | dispatch hhead => rwa [hk.consistent.dispatch_kept hhead hi.not_ready]
  | pageFault => exact hi
  | userStore => exact hi

end Kernel

theorem KernelImage.switchesOf_run {img : KernelImage} {k : Kernel} (hk : img.system.Reach k)
    {run : List (Call × Kernel)} (hrun : img.system.Run k run) :
    (Kernel.switchesOf k run).Nodup ∧
      ∀ i ∈ Kernel.switchesOf k run, ¬(k.processTable i).state.Dispatched := by
  induction hrun with
  | nil k => exact ⟨.nil, nofun⟩
  | @cons k k' call run hstep _ ih =>
    have hwf := (running_of_reach hk).wellFormed
    obtain ⟨hafter, -⟩ := (running_of_reach hk).step hstep
    obtain ⟨hnodup, hnew⟩ := ih (reach_after hk hafter)
    have hlater : ∀ i ∈ Kernel.switchesOf k' run, ¬(k.processTable i).state.Dispatched :=
      fun i hi hd => hnew i hi (hwf.dispatched_kept hafter hd)
    rw [Kernel.switchesOf]
    cases hcall : k.switches call with
    | none => exact ⟨hnodup, hlater⟩
    | some i =>
      obtain ⟨hready, hrunning⟩ := hwf.switches_ready hafter hcall
      refine ⟨List.nodup_cons.mpr ⟨fun hi => hnew i hi (.inl hrunning), hnodup⟩, ?_⟩
      intro j hj
      rcases List.mem_cons.mp hj with rfl | hj
      · exact fun hd => hd.not_ready hready
      · exact hlater j hj

/-- In every run from a reachable state the processor is given to a process at most once, and to none
that has had it: at most 64 times in all. -/
theorem switched_to_once {img : KernelImage} {k : Kernel} (hk : img.system.Reach k)
    {run : List (Call × Kernel)} (hrun : img.system.Run k run) :
    (Kernel.switchesOf k run).Nodup ∧ (Kernel.switchesOf k run).length ≤ maxProcesses ∧
      ∀ i ∈ Kernel.switchesOf k run, k.currentProcess ≠ some i ∧
        ¬(k.processTable i).state.Dispatched := by
  obtain ⟨hnodup, hnew⟩ := KernelImage.switchesOf_run hk hrun
  refine ⟨hnodup, ?_, fun i hi => ⟨fun hcur => ?_, hnew i hi⟩⟩
  · have hcard := hnodup.length_le_card
    rwa [Fintype.card_fin] at hcard
  · exact hnew i hi ((KernelImage.running_of_reach hk).wellFormed.current i hcur)

/-- The sample kernel's program gets the processor, and the timer ticks twice. -/
theorem switched_to_once_sample :
    ∃ (k : Kernel) (i : Slot), k.readyQueueHead = some i ∧
      (Kernel.switchesOf k [(.schedule, k.schedule.2), (.schedule, k.schedule.2.schedule.2)]).Nodup ∧
      i ∈ Kernel.switchesOf k [(.schedule, k.schedule.2), (.schedule, k.schedule.2.schedule.2)] := by
  obtain ⟨i, d, birth, hnew, -⟩ := KernelImage.sample_process
  have hafter : ∀ k : Kernel, k.after (.createProcess 0xC0110000 4096) =
      some (k.createProcess 0xC0110000 4096).2 := fun _ => rfl
  have hreach := KernelImage.reach_after (.init KernelImage.sampleBoot_init) (hafter _)
  have hhead := hnew.readyQueueHead
  generalize (KernelImage.sampleBoot.createProcess 0xC0110000 4096).2 = k at hreach hhead
  have hrun : KernelImage.sample.system.Run k
      [(.schedule, k.schedule.2), (.schedule, k.schedule.2.schedule.2)] :=
    .cons (fun _ h => Option.some.inj h) (.cons (fun _ h => Option.some.inj h) (.nil _))
  obtain ⟨hnodup, -, -⟩ := switched_to_once hreach hrun
  exact ⟨k, i, hhead, hnodup, Kernel.mem_switchesOf hhead _ _⟩

end Lbos

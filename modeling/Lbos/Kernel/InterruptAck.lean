import Lbos.Arch.Pic
import Lbos.Kernel.SpawnSupply

/-! Which hardware interrupts are acknowledged.  The timer's are, when `schedule` returns to its
handler; the keyboard and the serial port have no handler although their lines are unmasked. -/

namespace Lbos

open Lib

/-- The calls of `Call` and the interrupts of a line, in code that has these registers. -/
inductive MachineEvent where
  | call (call : Call)
  | irq (line : Fin picNumIrqs) (state : CpuState) (exec : StackState)

/-- `interrupt_handlers` and the state that the handlers work on. -/
abbrev MachineState := InterruptTable Machine × Machine

namespace MachineState

/-- An interrupt of a line: the stubs of these push no error code of their own. -/
def deliver (st : MachineState) (line : Fin picNumIrqs) (state : CpuState) (exec : StackState) :
    Exit CpuState × Machine :=
  interruptHandler st.1 state ⟨irqIndex line, 0⟩ exec st.2

/-- Unless the kernel stops, an interrupt is acknowledged once before a process goes on. -/
def Acknowledges (st : MachineState) : MachineEvent → Prop
  | .call _ => True
  | .irq line state exec =>
    (st.deliver line state exec).1 = .halted ∨
      (st.deliver line state exec).2.ports = picAcknowledge st.2.ports

/-- The interrupt is a tick of the timer while no process is ready. -/
def TickFindsNoneReady (st : MachineState) : MachineEvent → Prop
  | .call _ => True
  | .irq line _ _ => line.val = 0 ∧ st.2.kernel.readyQueueHead = none

/-- Of the lines' interrupts, the timer's alone have a handler. -/
def TimerOnly (handlers : InterruptTable Machine) : Prop :=
  ∀ line, registeredHandler handlers (irqIndex line) =
    if line.val = 0 then some Machine.pitHandler else none

variable {st : MachineState}

theorem timerOnly_boot (s : Machine) : TimerOnly (interruptBoot (fun _ => none) s).1 := by
  have hother : ∀ line, irqIndex line ≠ 13 ∧ irqIndex line ≠ syscallIntIdx ∧ irqIndex line ≠ 14 := by
    decide
  have htimer : ∀ line, irqIndex line = pitIntIdx ↔ line.val = 0 := by decide
  intro line
  obtain ⟨hgpf, hsyscall, hfault⟩ := hother line
  simp only [interruptBoot, interruptInit, pitInit, registeredHandler_register_ne _ hgpf,
    registeredHandler_register_ne _ hsyscall, registeredHandler_register_ne _ hfault]
  split
  · next hline =>
    rw [(htimer line).mpr hline]
    exact registeredHandler_register_self (by decide) rfl _
  · next hline =>
    rw [registeredHandler_register_ne _ fun h => hline ((htimer line).mp h)]
    rw [registeredHandler]
    split <;> rfl

/-- An interrupt without a handler changes nothing and returns. -/
theorem deliver_unhandled (h : TimerOnly st.1) {line : Fin picNumIrqs} (hline : line.val ≠ 0)
    (state : CpuState) (exec : StackState) : st.deliver line state exec = (.ret state, st.2) := by
  have hnone := h line
  rw [if_neg hline] at hnone
  simp only [deliver, interruptHandler, hnone]

theorem deliver_timer (h : TimerOnly st.1) {line : Fin picNumIrqs} (hline : line.val = 0)
    (state : CpuState) (exec : StackState) : st.deliver line state exec =
      ((Machine.pitHandler state ⟨irqIndex line, 0⟩ exec st.2).1.map fun _ => state,
        (Machine.pitHandler state ⟨irqIndex line, 0⟩ exec st.2).2) := by
  have hsome := h line
  rw [if_pos hline] at hsome
  simp only [deliver, interruptHandler, hsome]

theorem ports_ne_acknowledge (ports : Ports) : ports ≠ picAcknowledge ports := by
  intro h
  have hlen := congrArg List.length h
  simp only [picAcknowledge, outb, List.length_append, List.length_singleton] at hlen
  omega

/-- A tick that finds a process ready goes to it, and `pit_handler` does not go on. -/
theorem pitHandler_some {s : Machine} {head : Slot} (h : s.kernel.readyQueueHead = some head)
    (state : CpuState) (info : IdtInfo) (exec : StackState) :
    ∃ cpu cr3, Machine.pitHandler state info exec s =
      (.switched cpu cr3, { s with kernel := s.kernel.dispatch head }) := by
  rw [Machine.pitHandler, Kernel.schedule_some h]
  exact ⟨_, _, rfl⟩

theorem pitHandler_none {s : Machine} (h : s.kernel.readyQueueHead = none)
    (state : CpuState) (info : IdtInfo) (exec : StackState) :
    Machine.pitHandler state info exec s =
      (.ret state, { s with ports := picAcknowledge s.ports }) := by
  rw [Machine.pitHandler, Kernel.schedule_none h]

/-- An interrupt is acknowledged exactly if it is a tick that finds no process ready. -/
theorem acknowledges_iff (h : TimerOnly st.1) (event : MachineEvent) :
    st.Acknowledges event ↔ st.TickFindsNoneReady event := by
  cases event with
  | call => exact Iff.rfl
  | irq line state exec =>
    rw [Acknowledges, TickFindsNoneReady]
    by_cases hline : line.val = 0
    · rw [deliver_timer h hline]
      cases hhead : st.2.kernel.readyQueueHead with
      | none =>
        rw [pitHandler_none hhead]
        exact iff_of_true (.inr rfl) ⟨hline, rfl⟩
      | some head =>
        obtain ⟨cpu, cr3, hpit⟩ := pitHandler_some hhead state ⟨irqIndex line, 0⟩ exec
        rw [hpit]
        refine iff_of_false ?_ fun hc => nomatch hc.2
        rintro (hhalt | hports)
        · cases hhalt
        · exact ports_ne_acknowledge _ hports
    · rw [deliver_unhandled h hline]
      refine iff_of_false ?_ fun hc => hline hc.1
      rintro (hhalt | hports)
      · cases hhalt
      · exact ports_ne_acknowledge _ hports

end MachineState

/-- The machine from boot on: the calls of the kernel's own system, which leave the controllers
alone, and the interrupts of the lines that `pic_init` leaves unmasked. -/
def KernelImage.machine (img : KernelImage) : System MachineState MachineEvent where
  init st := ∃ k cr2, img.system.init k ∧ st = interruptBoot (fun _ => none) ⟨k, cr2, []⟩
  step st event st' :=
    match event with
    | .call call => ∃ k cr2, img.system.step st.2.kernel call k ∧
        st' = (st.1, { st.2 with kernel := k, cr2 })
    | .irq line state exec => (picInit []).Unmasked line ∧
        st' = (st.1, (st.deliver line state exec).2)

/-- In a run of the machine from boot every interrupt is acknowledged once, before a process goes
on, exactly if all of them are ticks that find no process ready. -/
theorem irq_acknowledged_iff (img : KernelImage) {st : MachineState} (hst : img.machine.init st)
    {run : List (MachineEvent × MachineState)} (hrun : img.machine.Run st run) :
    System.Meets MachineState.Acknowledges st run ↔
      System.Meets MachineState.TickFindsNoneReady st run := by
  refine System.Run.meets_iff_meets (I := fun st => MachineState.TimerOnly st.1)
    (fun st event st' _ hI _ => ?_) (fun st event st' _ hI hstep _ => ?_) (.init hst) ?_ hrun
  · exact MachineState.acknowledges_iff hI event
  · cases event with
    | call =>
      obtain ⟨k, cr2, -, rfl⟩ := hstep
      exact hI
    | irq =>
      obtain ⟨-, rfl⟩ := hstep
      exact hI
  · obtain ⟨k, cr2, -, rfl⟩ := hst
    exact MachineState.timerOnly_boot _

/-- The lines behind `PIT_INT_IDX` and `KBD_INT_IDX`. -/
def timerLine : Fin picNumIrqs := ⟨0, by decide⟩

def keyboardLine : Fin picNumIrqs := ⟨1, by decide⟩

/-- The machine booted from the sample image. -/
def MachineState.sampleBoot : MachineState :=
  interruptBoot (fun _ => none) ⟨KernelImage.sampleBoot, 0, []⟩

theorem MachineState.sampleBoot_init : KernelImage.sample.machine.init MachineState.sampleBoot :=
  ⟨_, _, KernelImage.sampleBoot_init, rfl⟩

theorem irq_acknowledged_iff_sample :
    System.Meets MachineState.Acknowledges MachineState.sampleBoot
      [(MachineEvent.irq timerLine .zero .zero, (MachineState.sampleBoot.1,
        (MachineState.sampleBoot.deliver timerLine .zero .zero).2))] := by
  have hstep : KernelImage.sample.machine.step MachineState.sampleBoot
      (.irq timerLine .zero .zero) (MachineState.sampleBoot.1,
        (MachineState.sampleBoot.deliver timerLine .zero .zero).2) :=
    ⟨(unmasked_picInit_iff _).mpr (.inl rfl), rfl⟩
  exact (irq_acknowledged_iff .sample MachineState.sampleBoot_init (.cons hstep (.nil _))).mpr
    ⟨⟨rfl, rfl⟩, trivial⟩

/-- While a process is ready no interrupt is acknowledged. -/
theorem MachineState.not_acknowledges {st : MachineState} (h : TimerOnly st.1) {head : Slot}
    (hhead : st.2.kernel.readyQueueHead = some head) (line : Fin picNumIrqs) (state : CpuState)
    (exec : StackState) : ¬st.Acknowledges (.irq line state exec) := by
  intro hack
  obtain ⟨-, hnone⟩ := (acknowledges_iff h _).mp hack
  exact nomatch hhead.symm.trans hnone

theorem KernelImage.irq_missed {img : KernelImage} {k k' : Kernel} (hk : img.system.init k)
    {call : Call} (hstep : img.system.step k call k') {head : Slot}
    (hhead : k'.readyQueueHead = some head) :
    ∃ st, img.machine.Reach st ∧ ∀ line state exec, ¬st.Acknowledges (.irq line state exec) := by
  have hinit : img.machine.init (interruptBoot (fun _ => none) ⟨k, 0, []⟩) := ⟨k, 0, hk, rfl⟩
  have hreach : img.machine.Reach ((interruptBoot (fun _ => none) ⟨k, 0, []⟩).1,
      { (interruptBoot (fun _ => none) ⟨k, 0, []⟩).2 with kernel := k' }) :=
    .step (a := .call call) (.init hinit) trivial ⟨k', 0, hstep, rfl⟩
  exact ⟨_, hreach, MachineState.not_acknowledges (MachineState.timerOnly_boot ⟨k, 0, []⟩) hhead⟩

/-- A tick that switches to the process that booting has created is not acknowledged, nor is a
key that is pressed. -/
theorem irq_not_acknowledged :
    ∃ st, KernelImage.sample.machine.Reach st ∧
      (picInit []).Unmasked timerLine ∧ (picInit []).Unmasked keyboardLine ∧
      ¬st.Acknowledges (.irq timerLine .zero .zero) ∧
      ¬st.Acknowledges (.irq keyboardLine .zero .zero) := by
  obtain ⟨i, d, birth, hnew, -⟩ := KernelImage.sample_process
  have hstep : KernelImage.sample.system.step KernelImage.sampleBoot
      (.createProcess 0xC0110000 4096)
      (KernelImage.sampleBoot.createProcess 0xC0110000 4096).2 :=
    fun k₁ hk₁ => Option.some.inj hk₁
  obtain ⟨st, hreach, hmiss⟩ :=
    KernelImage.irq_missed KernelImage.sampleBoot_init hstep hnew.readyQueueHead
  exact ⟨st, hreach, (unmasked_picInit_iff _).mpr (.inl rfl),
    (unmasked_picInit_iff _).mpr (.inr (.inl rfl)), hmiss _ _ _, hmiss _ _ _⟩

end Lbos

import Lbos.Kernel.History
import Lbos.Kernel.SavedContext

/-! The first dispatch of a process.  The context of a new process is there twice, in its `process_t`
and in the words on its kernel stack, and `switch_to_process` uses both: the registers come from the
one, what `iret` pops from the other. -/

namespace Lbos

open Lib Mem

/-- The processor, CR3 and `tss.esp0` are what a context and the top of a kernel stack say.  Within
the kernel `iret` leaves the stack as it is. -/
structure ProcessContext.Resumed (p : ProcessContext) (top : Word) (cpu : Cpu) (cr3 esp0 : Word) :
    Prop where
  cr3 : cr3 = p.cr3
  eip : cpu.eip = p.stack.eip
  cs : cpu.cs = p.stack.cs
  eflags : cpu.eflags = p.stack.eflags
  user : p.stack.cs &&& 3 = 3 → cpu.reg.esp = p.stack.esp ∧ cpu.ss = p.stack.ss
  registers : { cpu.reg with esp := 0 } = { p.reg with esp := 0 }
  esp0 : esp0 = top

namespace Kernel

/-- The call ends with the switch to the process in slot `i`: the registers that the `iret` leaves,
and CR3. -/
inductive Selects (k : Kernel) (i : Slot) (cpu : Cpu) (cr3 : Word) (k' : Kernel) : Call → Prop
  | schedule : k.schedule = (.switched cpu cr3, k') → k'.currentProcess = some i →
      Selects k i cpu cr3 k' .schedule
  | sysExit {status : Word} : k.sysExit status = (.switched cpu cr3, k') →
      k'.currentProcess = some i → Selects k i cpu cr3 k' (.sysExit status)

variable {k k' : Kernel} {i : Slot} {cpu : Cpu} {cr3 : Word}

/-! ### The switch -/

/-- The words that a creation pushed let `iret` return to the context's stack. -/
theorem Prepared.iret_words (h : k.Prepared i) (reg : CpuState)
    (hesp : reg.esp = (k.processTable i).context.reg.esp) :
    (iret k.kstacks reg kernelDsSelector).eip = (k.processTable i).context.stack.eip ∧
      (iret k.kstacks reg kernelDsSelector).cs = (k.processTable i).context.stack.cs ∧
      (iret k.kstacks reg kernelDsSelector).eflags = (k.processTable i).context.stack.eflags ∧
      ((k.processTable i).context.stack.cs &&& 3 = 3 →
        (iret k.kstacks reg kernelDsSelector).reg.esp = (k.processTable i).context.stack.esp ∧
        (iret k.kstacks reg kernelDsSelector).ss = (k.processTable i).context.stack.ss) := by
  obtain ⟨words, hwords, -, hload⟩ := h
  generalize (k.processTable i).context.stack = stack at *
  rw [← hesp] at hload
  cases hwords with
  | frame =>
    have hlen : ∀ j < 5, j < stack.frame.length := fun _ hj => hj
    have heip : k.kstacks.load reg.esp 0 = stack.eip := hload 0 (hlen 0 (by decide))
    have hcs : k.kstacks.load reg.esp 1 = stack.cs := hload 1 (hlen 1 (by decide))
    have heflags : k.kstacks.load reg.esp 2 = stack.eflags := hload 2 (hlen 2 (by decide))
    have husp : k.kstacks.load reg.esp 3 = stack.esp := hload 3 (hlen 3 (by decide))
    have hss : k.kstacks.load reg.esp 4 = stack.ss := hload 4 (hlen 4 (by decide))
    simp only [iret, heip, hcs, heflags, husp, hss]
    by_cases hring : stack.cs &&& 3 = 0
    · simp only [hring, if_true, true_and]
      exact fun h3 => absurd h3 (by decide)
    · simp only [hring, if_false, true_and]
      exact fun _ => trivial
  | kernel idle hkernel =>
    -- a kernel process has no stack to return to behind its three words
    have hlen : ∀ j < 4, j < [idle, stack.eflags, stack.cs, stack.eip].length := fun _ hj => hj
    have heip : k.kstacks.load reg.esp 0 = stack.eip := hload 0 (hlen 0 (by decide))
    have hcs : k.kstacks.load reg.esp 1 = stack.cs := hload 1 (hlen 1 (by decide))
    have heflags : k.kstacks.load reg.esp 2 = stack.eflags := hload 2 (hlen 2 (by decide))
    have hring : stack.cs &&& 3 = 0 := by
      rw [hkernel]
      decide
    simp only [iret, heip, hcs, heflags, hring, if_true, true_and]
    exact fun h3 => absurd h3 (by decide)

/-- `iret` touches the stack pointer only. -/
theorem iret_registers (m : Mem) (reg : CpuState) (ss : Word) :
    { (iret m reg ss).reg with esp := 0 } = { reg with esp := 0 } := by
  unfold iret
  simp only
  split <;> rfl

/-- The switch to a process that has not run yet. -/
theorem Prepared.resumed (h : k.Prepared i) : ∃ cpu,
    k.switchToProcess i = .switched cpu (k.processTable i).context.cr3 ∧
      (k.processTable i).context.Resumed (k.kstackTop i) cpu (k.processTable i).context.cr3
        (k.kstackTop i) := by
  obtain ⟨heip, hcs, heflags, huser⟩ := h.iret_words (k.processTable i).context.reg rfl
  exact ⟨_, rfl, rfl, heip, hcs, heflags, huser, iret_registers .., rfl⟩

/-- `schedule` resumes the context of the process that it selects. -/
theorem Contexts.schedule_resumed (hk : k.Contexts) (hready : (k.processTable i).state = .ready)
    (h : k.schedule = (.switched cpu cr3, k')) (hcur : k'.currentProcess = some i) :
    (k.processTable i).context.Resumed (k.kstackTop i) cpu cr3 k'.tssEsp0 := by
  obtain ⟨rfl, hswitch, hprepared, hcontext⟩ := hk.schedule_prepared hready h hcur
  obtain ⟨cpu', hcpu, hresumed⟩ := hprepared.resumed
  rw [hcpu, hcontext] at hswitch
  obtain ⟨rfl, rfl⟩ := Exit.switched.inj hswitch
  rw [hcontext] at hresumed
  exact hresumed

/-- So does the `schedule` at the end of `sys_exit`. -/
theorem Contexts.selects_resumed (hk : k.Contexts) (hc : k.Consistent)
    (hready : (k.processTable i).state = .ready) {call : Call} (h : k.Selects i cpu cr3 k' call) :
    (k.processTable i).context.Resumed (k.kstackTop i) cpu cr3 k'.tssEsp0 := by
  cases h with
  | schedule hret hcur => exact hk.schedule_resumed hready hret hcur
  | @sysExit status hret hcur =>
    obtain ⟨current, hcurrent, hschedule⟩ := sysExit_switched hret
    have hdisp := hc.current current hcurrent
    have hne : i ≠ current := by
      rintro rfl
      exact hdisp.not_ready hready
    have hsame := exited_others (k := k) status hne
    have hresumed := (hk.exited hdisp status).schedule_resumed (by rwa [hsame]) hschedule hcur
    rwa [hsame] at hresumed

/-! ### Runs -/

variable {k k' : Kernel} {i child : Slot}

theorem Contexts.setMem (hk : k.Contexts) (mem : PhysMem) : (k.setMem mem).Contexts :=
  ⟨hk.registers, hk.stack, hk.eax, hk.prepared⟩

/-- A terminated process that is reaped was not ready. -/
theorem Contexts.reap (hk : k.Contexts) (hterm : (k.processTable child).state = .terminated) :
    (k.reap child).Contexts := by
  have hcontext : ∀ j, ((k.reap child).processTable j).context = (k.processTable j).context := by
    intro j
    by_cases hj : j = child
    · simp [Kernel.reap, hj]
    · rw [reap_others hj]
  refine hk.of_table rfl rfl (fun j hj => ?_) (fun j hj => ?_) (fun j => ?_) fun j hj => ?_
  · by_cases heq : j = child
    · rw [heq, hterm]
      exact fun hfree => by cases hfree
    · rwa [reap_others heq] at hj
  · rw [hcontext]
    exact hj
  · rw [hcontext]
  · refine reap_others ?_
    rintro rfl
    rw [reap_self] at hj
    cases hj

end Kernel

namespace Recorded

variable {img : KernelImage} {h h' : History} {i : Slot}

/-- A call keeps the contexts, and that of a process that goes on waiting as it is. -/
theorem next_contexts (hr : Recorded h) (hk : h.kernel.Contexts) (call : Call) :
    (h.kernel.next call).Contexts ∧ ((h.kernel.processTable i).state = .ready →
      ((h.kernel.next call).processTable i).state = .ready →
        (h.kernel.next call).processTable i = h.kernel.processTable i) := by
  rcases hr.consistent.next_cases call hr.reapable with heffect |
    ⟨_, _, child, _, _, hterm, _, mem, hnext, -, -⟩
  · exact ⟨hk.effect hr.consistent heffect, hr.consistent.ready_kept heffect⟩
  · rw [hnext]
    refine ⟨(hk.reap hterm).setMem mem, fun hready _ => Kernel.reap_others ?_⟩
    rintro rfl
    rw [hterm] at hready
    cases hready

theorem step_contexts {event : Event} (hr : Recorded h) (hk : h.kernel.Contexts)
    (hstep : img.historySystem.step h event h') :
    h'.kernel.Contexts ∧ ((h.kernel.processTable i).state = .ready →
      (h'.kernel.processTable i).state = .ready →
        h'.kernel.processTable i = h.kernel.processTable i) := by
  cases event with
  | resume =>
    obtain ⟨-, rfl⟩ := hstep
    exact ⟨⟨hk.registers, hk.stack, hk.eax, hk.prepared⟩, fun _ _ => rfl⟩
  | call call =>
    obtain ⟨-, rfl⟩ := hstep
    exact hr.next_contexts hk call

end Recorded

theorem KernelImage.contexts_of_history {img : KernelImage} {h : History}
    (hh : img.historySystem.Reach h) : h.kernel.Contexts := by
  refine hh.invariant (I := fun h => h.kernel.Contexts) ?_ fun h event h' hreach hk _ hstep => ?_
  · rintro _ ⟨ram, bitmap, rfl⟩
    exact ⟨fun i hi => absurd rfl hi, fun i hi => absurd rfl hi, fun i => nofun, fun i => nofun⟩
  · exact ((Recorded.of_reach hreach).step_contexts (i := ⟨0, by decide⟩) hk hstep).1

/-- A part of a run in which the process of slot `i` waits for its first turn. -/
abbrev History.Waits (img : KernelImage) (i : Slot) (h : History) : History → Prop :=
  (img.historySystem.startingAt h).ReachWhen fun s _ => (s.kernel.processTable i).state = .ready

theorem History.Waits.kept {img : KernelImage} {h h' : History} {i : Slot}
    (hwaits : h.Waits img i h') (hh : img.historySystem.Reach h)
    (hready : (h'.kernel.processTable i).state = .ready) :
    h'.kernel.processTable i = h.kernel.processTable i := by
  induction hwaits with
  | init heq => rw [show _ = h from heq]
  | @step s s' event hs hcond hstep ih =>
    have hreach : img.historySystem.Reach s := System.ReachWhen.continue hh hs.reach
    have hk := KernelImage.contexts_of_history hreach
    have hstep : img.historySystem.step s event s' := hstep
    have hsame := ((Recorded.of_reach hreach).step_contexts hk hstep).2 hcond hready
    exact hsame.trans (ih hcond)

/-- A new process is resumed with the context that its creation gave it, whatever happens before it
is selected for the first time. -/
theorem first_dispatch_resumes (img : KernelImage) {h h' : History}
    (hh : img.historySystem.Reach h) {i : Slot} (hwaits : h.Waits img i h')
    (hready : (h'.kernel.processTable i).state = .ready) {cpu : Cpu} {cr3 : Word} {k : Kernel}
    {call : Call} (hselects : h'.kernel.Selects i cpu cr3 k call) :
    h'.kernel.processTable i = h.kernel.processTable i ∧
      (h'.kernel.processTable i).context.Resumed (h'.kernel.kstackTop i) cpu cr3 k.tssEsp0 := by
  have hreach : img.historySystem.Reach h' := System.ReachWhen.continue hh hwaits.reach
  refine ⟨hwaits.kept hh hready, ?_⟩
  exact (KernelImage.contexts_of_history hreach).selects_resumed
    (Recorded.of_reach hreach).consistent hready hselects

/-- The first program of the sample kernel. -/
theorem first_dispatch_resumes_sample :
    ∃ (h : History) (i : Slot) (cpu : Cpu) (cr3 : Word) (k : Kernel),
      KernelImage.sample.historySystem.Reach h ∧ h.kernel.Selects i cpu cr3 k .schedule ∧
      (h.kernel.processTable i).context.Resumed (h.kernel.kstackTop i) cpu cr3 k.tssEsp0 := by
  obtain ⟨i, d, birth, hnew, -⟩ := KernelImage.sample_process
  have hstart : KernelImage.sampleBoot.after (.createProcess 0xC0110000 4096) =
    some (KernelImage.sampleBoot.createProcess 0xC0110000 4096).2 := rfl
  obtain ⟨h, hh, heq⟩ := KernelImage.history_of_reach
    (KernelImage.reach_after (.init KernelImage.sampleBoot_init) hstart)
  rw [← heq] at hnew
  have hready : (h.kernel.processTable i).state = .ready := by rw [hnew.new]
  have hselects := Kernel.Selects.schedule (Kernel.schedule_some hnew.readyQueueHead) rfl
  exact ⟨h, i, _, _, _, hh, hselects,
    (first_dispatch_resumes .sample hh (.init rfl) hready hselects).2⟩

end Lbos

import Lbos.Lib.Lifo
import Lbos.Kernel.FirstDispatch
import Lbos.Kernel.ReadyQueue

/-! The order in which `schedule` serves the ready processes: all three creations link the new
process in at the head of the ready queue, and `schedule` takes the head, so that the process that
became ready last comes first. -/

namespace Lbos

open Lib Mem

namespace Kernel

variable {k k' : Kernel} {l : List Slot}

theorem Spawn.queue {birth : Slot → Birth} {r : Option Slot × Kernel} (h : k.Spawn birth r)
    (hq : k.Queue l) : ∃ l', r.2.Queue l' ∧ PushPop l l' := by
  cases h with
  | noSlot => exact ⟨l, hq, .same l⟩
  | failed hf => exact ⟨l, hf.queue hq, .same l⟩
  | created hc => exact ⟨_, hc.queue hq, .push _ l⟩

/-- A call that reaps no process leaves the ready queue, pushes a process on it or pops one. -/
theorem Consistent.effect_queue (hk : k.Consistent) {call : Call} (h : k.Effect call k')
    (hq : k.Queue l) : ∃ l', k'.Queue l' ∧ PushPop l l' := by
  cases h with
  | spawn _ hspawn => exact hspawn.queue hq
  | exit status hcur => exact ⟨l, hq.exited (hk.current _ hcur) status, .same l⟩
  | exitTo status hcur hhead =>
    exact ⟨l.tail, (hq.exited (hk.current _ hcur) status).dispatch hhead, .of_tail l⟩
  | dispatch hhead => exact ⟨l.tail, hq.dispatch hhead, .of_tail l⟩
  | @pageFault addr info mem => exact ⟨l, hq.setMem mem, .same l⟩
  | @userStore addr value mem => exact ⟨l, hq.setMem mem, .same l⟩
  | _ => exact ⟨l, hq, .same l⟩

/-- `q` comes before `p` in the ready queue. -/
def Overtakes (k : Kernel) (q p : Slot) : Prop := ∃ l, k.Queue l ∧ Above q p l

theorem Overtakes.ready {p q : Slot} (h : k.Overtakes q p) : (k.processTable p).state = .ready := by
  obtain ⟨l, hq, habove⟩ := h
  exact (hq.mem_iff p).mp (habove.subset (by simp))

end Kernel

namespace Recorded

variable {img : KernelImage} {h h' : History} {event : Event} {p q : Slot} {l : List Slot}

/-- So does every step of a run. -/
theorem step_queue (hr : Recorded h) (hstep : img.historySystem.step h event h')
    (hq : h.kernel.Queue l) : ∃ l', h'.kernel.Queue l' ∧ PushPop l l' := by
  cases event with
  | resume =>
    obtain ⟨-, rfl⟩ := hstep
    exact ⟨l, ⟨hq.linked, hq.mem_iff⟩, .same l⟩
  | call call =>
    obtain ⟨-, rfl⟩ := hstep
    rcases hr.consistent.next_cases call hr.reapable with heffect |
      ⟨_, _, child, _, _, hterm, _, mem, hnext, -, -⟩
    · exact hr.consistent.effect_queue heffect hq
    · have hready : (h.kernel.processTable child).state ≠ .ready := by
        rw [hterm]
        exact nofun
      have hq' : (h.kernel.next call).Queue l := by
        rw [hnext]
        exact (hq.reap hready).setMem mem
      exact ⟨l, hq', .same l⟩

/-- A process that becomes ready is the head of the queue, before all that were ready. -/
theorem step_entered (hr : Recorded h) (hstep : img.historySystem.step h event h')
    (hq : (h.kernel.processTable q).state ≠ .ready)
    (hq' : (h'.kernel.processTable q).state = .ready) :
    h'.kernel.readyQueueHead = some q ∧
      ((h.kernel.processTable p).state = .ready → h'.kernel.Overtakes q p) := by
  obtain ⟨l, hl⟩ := hr.consistent.queue
  obtain ⟨l', hl', hpush⟩ := hr.step_queue hstep hl
  obtain rfl := hpush.entered (mt (hl.mem_iff q).mp hq) ((hl'.mem_iff q).mpr hq')
  refine ⟨hl'.linked.1, fun hp => ⟨_, hl', ?_⟩⟩
  exact (List.singleton_sublist.mpr ((hl.mem_iff p).mpr hp)).cons_cons q

/-- A process does not overtake one that came after it. -/
theorem step_overtakes (hr : Recorded h) (hstep : img.historySystem.step h event h')
    (habove : h.kernel.Overtakes q p) (hq : (h'.kernel.processTable q).state = .ready) :
    h'.kernel.Overtakes q p := by
  obtain ⟨l, hl, hsub⟩ := habove
  obtain ⟨l', hl', hpush⟩ := hr.step_queue hstep hl
  exact ⟨l', hl', hpush.above hl.linked.nodup hsub ((hl'.mem_iff q).mpr hq)⟩

end Recorded

/-- As long as `q` waits for its turn, so do those that it overtakes. -/
theorem History.Waits.overtakes {img : KernelImage} {h h' : History} {p q : Slot}
    (hwaits : h.Waits img q h') (hh : img.historySystem.Reach h) (habove : h.kernel.Overtakes q p)
    (hq : (h'.kernel.processTable q).state = .ready) : h'.kernel.Overtakes q p := by
  induction hwaits with
  | init heq =>
    rw [show _ = h from heq]
    exact habove
  | @step s s' event hs hcond hstep ih =>
    have hstep : img.historySystem.step s event s' := hstep
    have hr := Recorded.of_reach (System.ReachWhen.continue hh hs.reach)
    exact hr.step_overtakes hstep (ih hcond) hq

/-- When `q` becomes ready while `p` is ready, `schedule` would dispatch `q` next, and in every run
`p` is not dispatched before `q` is. -/
theorem last_ready_first_dispatched (img : KernelImage) {h h' : History} {event : Event}
    (hh : img.historySystem.Reach h) (hstep : img.historySystem.step h event h') {p q : Slot}
    (hp : (h.kernel.processTable p).state = .ready) (hq : (h.kernel.processTable q).state ≠ .ready)
    (hq' : (h'.kernel.processTable q).state = .ready) :
    h'.kernel.schedule.2.currentProcess = some q ∧
      ∀ h'', h'.Waits img q h'' → (h''.kernel.processTable q).state = .ready →
        (h''.kernel.processTable p).state = .ready := by
  have hr := Recorded.of_reach hh
  obtain ⟨hhead, habove⟩ := hr.step_entered (p := p) hstep hq hq'
  refine ⟨by rw [Kernel.schedule_some hhead]; rfl, fun h'' hwaits hready => ?_⟩
  have hreach' : img.historySystem.Reach h' := .step hh trivial hstep
  exact (hwaits.overtakes hreach' (habove hp) hready).ready

/-- In the sample kernel a process is created while another one waits. -/
theorem KernelImage.sample_second_ready : ∃ h h' event p q, KernelImage.sample.historySystem.Reach h ∧
    KernelImage.sample.historySystem.step h event h' ∧ (h.kernel.processTable p).state = .ready ∧
    (h.kernel.processTable q).state ≠ .ready ∧ (h'.kernel.processTable p).state = .ready ∧
    (h'.kernel.processTable q).state = .ready := by
  obtain ⟨p, q, d, d', birth, birth', hfirst, hsecond⟩ := KernelImage.sample_two_created
  have hstart : KernelImage.sampleBoot.after (.createKernelProcess 0xC0100000) =
    some (KernelImage.sampleBoot.createKernelProcess 0xC0100000).2 := rfl
  obtain ⟨h, hh, heq⟩ := KernelImage.history_of_reach
    (KernelImage.reach_after (.init KernelImage.sampleBoot_init) hstart)
  rw [← heq] at hfirst hsecond
  have hp : (h.kernel.processTable p).state = .ready := by rw [hfirst.new]
  have hq : (h.kernel.processTable q).state = .free := (Kernel.findFree_some hsecond.slot).1
  have hne : p ≠ q := by
    rintro rfl
    rw [hp] at hq
    cases hq
  have hstep : KernelImage.sample.historySystem.step h (.call (.createKernelProcess 0xC0100000))
      (h.advance _ (h.kernel.next (.createKernelProcess 0xC0100000))) := ⟨nofun, rfl⟩
  refine ⟨h, _, _, p, q, hh, hstep, hp, by rw [hq]; exact nofun, ?_, ?_⟩
  · show ((h.kernel.createKernelProcess 0xC0100000).2.processTable p).state = .ready
    rw [hsecond.others hne, hp]
  · show ((h.kernel.createKernelProcess 0xC0100000).2.processTable q).state = .ready
    rw [hsecond.new]

theorem last_ready_first_dispatched_sample :
    ∃ h h' event p q, KernelImage.sample.historySystem.Reach h ∧
      KernelImage.sample.historySystem.step h event h' ∧
      (h.kernel.processTable p).state = .ready ∧ h'.kernel.schedule.2.currentProcess = some q ∧
      (h'.kernel.processTable p).state = .ready := by
  obtain ⟨h, h', event, p, q, hh, hstep, hp, hq, hp', hq'⟩ := KernelImage.sample_second_ready
  have hlast := last_ready_first_dispatched .sample hh hstep hp hq hq'
  exact ⟨h, h', event, p, q, hh, hstep, hp, hlast.1, hlast.2 h' (.init rfl) hq'⟩

/-- A process waits, another one is created, and `schedule` takes that one. -/
theorem schedule_overtakes :
    ∃ h h' event p q, KernelImage.sample.historySystem.Reach h ∧
      KernelImage.sample.historySystem.step h event h' ∧
      (h.kernel.processTable p).state = .ready ∧ (h.kernel.processTable q).state ≠ .ready ∧
      (h'.kernel.processTable p).state = .ready ∧ (h'.kernel.processTable q).state = .ready ∧
      h'.kernel.schedule.2.currentProcess = some q ∧
      (h'.kernel.schedule.2.processTable p).state = .ready := by
  obtain ⟨h, h', event, p, q, hh, hstep, hp, hq, hp', hq'⟩ := KernelImage.sample_second_ready
  have hne : p ≠ q := by
    rintro rfl
    exact hq hp
  have hhead := ((Recorded.of_reach hh).step_entered (p := p) hstep hq hq').1
  refine ⟨h, h', event, p, q, hh, hstep, hp, hq, hp', hq', ?_, ?_⟩
  · rw [Kernel.schedule_some hhead]
    rfl
  · rw [Kernel.schedule_some hhead, Kernel.dispatch_others hne]
    exact hp'

end Lbos

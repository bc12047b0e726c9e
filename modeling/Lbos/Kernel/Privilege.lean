import Lbos.Arch.DescriptorTables
import Lbos.Kernel.FirstDispatch

/-! The privilege of the code that the kernel gives the processor to.  The contexts of `create_process`
and of `create_kernel_process`, which a fork copies, are the only ones there are, and the segments of
`gdt_init` accept them. -/

namespace Lbos

open Lib

/-- The start of a program, or of a function of the kernel. -/
def StartStack (stack : StackState) : Prop :=
  stack = Kernel.entryStack ∨ ∃ entryPoint, stack = ⟨entryPoint, kernelCsSelector, kernelEflags, 0, 0⟩

namespace Kernel

/-- Every process has such a stack in its context. -/
def StartStacks (k : Kernel) : Prop :=
  ∀ i, (k.processTable i).state ≠ .free → StartStack (k.processTable i).context.stack

variable {k k' : Kernel}

/-- A step whose live processes had the same stacks before it. -/
theorem StartStacks.of_kept (hk : k.StartStacks)
    (h : ∀ i, (k'.processTable i).state ≠ .free → (k.processTable i).state ≠ .free ∧
      (k'.processTable i).context.stack = (k.processTable i).context.stack) : k'.StartStacks := by
  intro i hi
  obtain ⟨hlive, hsame⟩ := h i hi
  rw [hsame]
  exact hk i hlive

theorem StartStacks.spawn {birth : Slot → Birth} {r : Option Slot × Kernel} (hk : k.StartStacks)
    (h : k.Spawn birth r) (hbirth : ∀ i, StartStack (birth i).stack) : r.2.StartStacks := by
  cases h with
  | noSlot => exact hk
  | failed hf =>
    refine hk.of_kept fun j hj => ?_
    have hsame := hf.others j fun heq => hj (heq ▸ hf.state)
    rw [hsame] at hj ⊢
    exact ⟨hj, rfl⟩
  | @created _ i _ hc =>
    intro j hj
    by_cases hne : j = i
    · rw [hne, hc.new]
      exact hbirth i
    · rw [hc.others hne] at hj ⊢
      exact hk j hj

theorem StartStacks.birth (hk : k.StartStacks) (hc : k.Consistent) {call : Call}
    {birth : Slot → Birth} (h : k.birth call = some birth) (i : Slot) :
    StartStack (birth i).stack := by
  cases call with
  | createProcess =>
    obtain rfl := Option.some.inj h
    exact .inl rfl
  | createKernelProcess =>
    obtain rfl := Option.some.inj h
    exact .inr ⟨_, rfl⟩
  | sysFork =>
    obtain ⟨current, hcur, rfl⟩ := Option.map_eq_some_iff.mp h
    exact hk current (hc.current current hcur).not_free
  | _ => cases h

theorem StartStacks.dispatch (hk : k.StartStacks) (hc : k.Consistent) {head : Slot}
    (h : k.readyQueueHead = some head) : (k.dispatch head).StartStacks := by
  obtain ⟨l, hq⟩ := hc.queue
  refine hk.of_kept fun j hj => ⟨(hq.dispatch_live h j).mp hj, ?_⟩
  rw [dispatch_eq]

theorem StartStacks.exited (hk : k.StartStacks) {current : Slot}
    (hcur : (k.processTable current).state.Dispatched) (status : Word) :
    (k.exited current status).StartStacks := by
  refine hk.of_kept fun j hj => ⟨(exited_live hcur.not_free status j).mp hj, ?_⟩
  by_cases hne : j = current
  · simp [Kernel.exited, hne]
  · rw [exited_others status hne]

theorem StartStacks.effect (hk : k.StartStacks) (hc : k.Consistent) {call : Call}
    (h : k.Effect call k') : k'.StartStacks := by
  cases h with
  | spawn hbirth hspawn => exact hk.spawn hspawn (hk.birth hc hbirth)
  | noParent => exact hk
  | noCaller => exact hk
  | exit status hcur => exact hk.exited (hc.current _ hcur) status
  | exitTo status hcur hhead =>
    exact (hk.exited (hc.current _ hcur) status).dispatch (hc.exited hcur status) hhead
  | wait => exact hk
  | idle => exact hk
  | dispatch hhead => exact hk.dispatch hc hhead
  | pageFault => exact hk
  | userStore => exact hk

theorem StartStacks.reap (hk : k.StartStacks) (child : Slot) : (k.reap child).StartStacks := by
  refine hk.of_kept fun j hj => ?_
  have hne : j ≠ child := by
    rintro rfl
    rw [reap_self] at hj
    exact hj rfl
  rw [reap_others hne] at hj ⊢
  exact ⟨hj, rfl⟩

/-- A switch is to a process that was ready. -/
theorem Selects.ready (hc : k.Consistent) {i : Slot} {cpu : Cpu} {cr3 : Word} {call : Call}
    (h : k.Selects i cpu cr3 k' call) : (k.processTable i).state = .ready := by
  obtain ⟨l, hq⟩ := hc.queue
  have hschedule : ∀ {k₁ : Kernel}, k₁.readyQueueHead = k.readyQueueHead →
      k₁.schedule = (.switched cpu cr3, k') → k'.currentProcess = some i →
        (k.processTable i).state = .ready := by
    intro k₁ hsame hret hcur
    cases hhead : k₁.readyQueueHead with
    | none =>
      rw [schedule_none hhead] at hret
      cases hret
    | some head =>
      rw [schedule_some hhead] at hret
      obtain ⟨-, rfl⟩ := Prod.mk.inj hret
      obtain rfl := Option.some.inj hcur
      exact hq.head_ready (hsame.symm.trans hhead)
  cases h with
  | schedule hret hcur => exact hschedule rfl hret hcur
  | sysExit hret hcur =>
    obtain ⟨current, -, hret'⟩ := sysExit_switched hret
    exact @hschedule (k.exited current _) rfl hret' hcur

end Kernel

theorem KernelImage.startStacks_of_history {img : KernelImage} {h : History}
    (hh : img.historySystem.Reach h) : h.kernel.StartStacks := by
  refine hh.invariant (I := fun h => h.kernel.StartStacks) ?_ fun h event h' hreach hk _ hstep => ?_
  · rintro _ ⟨ram, bitmap, rfl⟩ i hi
    exact absurd rfl hi
  · have hr := Recorded.of_reach hreach
    have hstep : img.historySystem.step h event h' := hstep
    cases event with
    | resume =>
      obtain ⟨-, rfl⟩ := hstep
      exact hk
    | call call =>
      obtain ⟨-, rfl⟩ := hstep
      rcases hr.consistent.next_cases call hr.reapable with heffect |
        ⟨_, _, child, _, _, _, _, mem, hnext, -, -⟩
      · exact hk.effect hr.consistent heffect
      · show (h.kernel.next call).StartStacks
        rw [hnext]
        exact hk.reap child

/-- The selectors that the processor has loaded, and the level that port instructions need. -/
def Cpu.csSelector (cpu : Cpu) : Selector := cpu.cs.setWidth 16

def Cpu.ssSelector (cpu : Cpu) : Selector := cpu.ss.setWidth 16

def Cpu.iopl (cpu : Cpu) : Ring := cpu.eflags.extractLsb' 12 2

/-- The code has no port that it may use, with the task state that `tss_init` sets up. -/
def PortsClosed (tssAddr : Word) (entries : GdtEntries) (cpu : Cpu) : Prop :=
  ∀ x, (bootGdt tssAddr entries).find 0x28 = some x → ∀ bit port, ¬PortAllowed cpu.csSelector.rpl
    cpu.iopl x.last (tssInit tssAddr (gdtInit entries)).1.iomapBase.toNat bit port

theorem portsClosed_of_user {tssAddr : Word} {entries : GdtEntries} {cpu : Cpu}
    (hlevel : cpu.iopl < cpu.csSelector.rpl) : PortsClosed tssAddr entries cpu := by
  intro x hfind bit port hport
  obtain ⟨x', hfind', -, hlast, -⟩ := bootGdt_tss tssAddr entries
  obtain rfl := Option.some.inj (hfind.symm.trans hfind')
  rcases hport with hle | ⟨hmap, -⟩
  · exact BitVec.not_le.mpr hlevel hle
  · have hbase : (tssInit tssAddr (gdtInit entries)).1.iomapBase.toNat = tssSize := rfl
    rw [hbase, hlast] at hmap
    omega

/-- The segments that booting sets up accept every context that the kernel switches to.  The code runs
with interrupts on; it is that of a function of the kernel, or the start of a program at level 3, which
has no port to use and whose interrupts take the kernel stack of its process. -/
theorem switch_privilege (img : KernelImage) {h : History} (hh : img.historySystem.Reach h) {i : Slot}
    {cpu : Cpu} {cr3 : Word} {k : Kernel} {call : Call} (hselects : h.kernel.Selects i cpu cr3 k call)
    (tssAddr : Word) (entries : GdtEntries) :
    (bootGdt tssAddr entries).IretAllowed 0 cpu.csSelector cpu.ssSelector ∧
      cpu.eflags.getLsbD 9 = true ∧ k.tssEsp0 = h.kernel.kstackTop i ∧
      (cpu.csSelector.rpl = 0 ∨ cpu.csSelector.rpl = 3 ∧ cpu.eip = userCodeStart ∧
        cpu.reg.esp = userStackTop ∧ PortsClosed tssAddr entries cpu) := by
  have hc := (Recorded.of_reach hh).consistent
  have hready := hselects.ready hc
  obtain ⟨-, heip, hcs, heflags, huser, -, hesp0⟩ :=
    (KernelImage.contexts_of_history hh).selects_resumed hc hready hselects
  have hstack := KernelImage.startStacks_of_history hh i (by rw [hready]; exact nofun)
  obtain ⟨hkernelCode, -, huserCode, huserStack, -⟩ := bootGdt_segments tssAddr entries
  rcases hstack with hstack | ⟨entryPoint, hstack⟩
  · rw [hstack] at heip hcs heflags huser
    obtain ⟨hesp, hss⟩ := huser rfl
    have hcode : cpu.csSelector = 0x1B := by rw [Cpu.csSelector, hcs]; rfl
    have hseg : cpu.ssSelector = 0x23 := by rw [Cpu.ssSelector, hss]; rfl
    have hlevel : cpu.iopl < cpu.csSelector.rpl := by
      rw [Cpu.iopl, heflags, hcode]
      decide
    refine ⟨⟨?_, ?_, fun _ => ?_⟩, ?_, hesp0, .inr ⟨?_, heip, hesp, portsClosed_of_user hlevel⟩⟩
    · rw [hcode]
      decide
    · rw [hcode]
      exact huserCode
    · rw [hcode, hseg]
      exact huserStack
    · rw [heflags]
      decide
    · rw [hcode]
      decide
  · rw [hstack] at hcs heflags
    have hcode : cpu.csSelector = 0x08 := by rw [Cpu.csSelector, hcs]; rfl
    refine ⟨⟨?_, ?_, fun hlt => ?_⟩, ?_, hesp0, .inl ?_⟩
    · rw [hcode]
      decide
    · rw [hcode]
      exact hkernelCode
    · rw [hcode] at hlt
      exact absurd hlt (by decide)
    · rw [heflags]
      exact (by decide : kernelEflags.getLsbD 9 = true)
    · rw [hcode]
      decide

/-- The first program of the sample kernel. -/
theorem switch_privilege_sample :
    ∃ cpu : Cpu, (bootGdt 0xC0105000 fun _ => ⟨0, 0, 0, 0, 0, 0⟩).IretAllowed 0 cpu.csSelector
      cpu.ssSelector := by
  obtain ⟨i, d, birth, hnew, -⟩ := KernelImage.sample_process
  have hafter : ∀ k : Kernel, k.after (.createProcess 0xC0110000 4096) =
      some (k.createProcess 0xC0110000 4096).2 := fun _ => rfl
  obtain ⟨h, hh, heq⟩ := KernelImage.history_of_reach
    (KernelImage.reach_after (.init KernelImage.sampleBoot_init) (hafter _))
  rw [← heq] at hnew
  have hselects := Kernel.Selects.schedule (Kernel.schedule_some hnew.readyQueueHead) rfl
  exact ⟨_, (switch_privilege .sample hh hselects _ _).1⟩

end Lbos

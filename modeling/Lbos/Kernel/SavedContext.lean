import Lbos.Kernel.Boot

/-! The saved contexts.  A process that waits for its first turn has on its kernel stack what its
creation pushed there; the registers of a process are saved nowhere else, so that those of its
creation are the only ones that `process_t` ever holds. -/

namespace Lbos

open Lib Mem

namespace Kernel

/-- What a creation pushes on the kernel stack: the whole frame, or what an `iret` within the kernel
pops and a return address. -/
inductive StartWords (stack : StackState) : List Word → Prop
  | frame : StartWords stack stack.frame
  | kernel (idle : Word) : stack.cs = kernelCsSelector →
      StartWords stack [idle, stack.eflags, stack.cs, stack.eip]

theorem StartWords.length {stack : StackState} {words : List Word} (h : StartWords stack words) :
    words.length ≤ 5 := by
  cases h with
  | frame => exact Nat.le_refl 5
  | kernel idle => exact Nat.le_succ 4

/-- The registers but for `eax` and `esp` are zero, as for every new process. -/
def ZeroRegisters (reg : CpuState) : Prop := { reg with eax := 0, esp := 0 } = CpuState.zero

theorem ZeroRegisters.eq_zero {reg : CpuState} (h : ZeroRegisters reg) (heax : reg.eax = 0)
    (esp : Word) : { reg with esp } = { CpuState.zero with esp } := by
  obtain ⟨edi, esi, ebp, edx, ecx, ebx, eax, _⟩ := reg
  simp only [ZeroRegisters, CpuState.zero, CpuState.mk.injEq, and_true] at h heax ⊢
  exact ⟨h.1, h.2.1, h.2.2.1, h.2.2.2.1, h.2.2.2.2.1, h.2.2.2.2.2, heax⟩

/-- A stack in user mode is that of a program's entry. -/
def EntryOrKernel (stack : StackState) : Prop := stack.cs = userCsSelector → stack = entryStack

/-- The kernel stack of the process is as its creation left it. -/
def Prepared (k : Kernel) (i : Slot) : Prop :=
  ∃ words, StartWords (k.processTable i).context.stack words ∧
    (k.processTable i).context.reg.esp = k.kstackTop i - BitVec.ofNat 32 (4 * words.length) ∧
    ∀ j (_ : j < words.length), k.kstacks.load (k.processTable i).context.reg.esp j =
      words.get ⟨words.length - 1 - j, by omega⟩

/-- The invariant of the saved contexts. -/
structure Contexts (k : Kernel) : Prop where
  registers : ∀ i, (k.processTable i).state ≠ .free →
    ZeroRegisters (k.processTable i).context.reg
  stack : ∀ i, (k.processTable i).state ≠ .free → EntryOrKernel (k.processTable i).context.stack
  eax : ∀ i, (k.processTable i).state = .ready → (k.processTable i).context.reg.eax = 0
  prepared : ∀ i, (k.processTable i).state = .ready → k.Prepared i

/-! ### Kernel stacks -/

section Kstacks

variable {k k' : Kernel} {i j : Slot}

/-- The kernel stacks of two slots are apart. -/
theorem kstack_apart (h : i ≠ j) {x : Word} (hx : (x - k.kstackAddr j).toNat < 4096) :
    4096 ≤ (x - k.kstackAddr i).toNat := by
  have hi : i.val < 64 := i.isLt
  have hj : j.val < 64 := j.isLt
  have hne : i.val ≠ j.val := fun heq => h (Fin.ext heq)
  have hdiff : x - k.kstackAddr i = (x - k.kstackAddr j) +
      (BitVec.ofNat 32 (0x1050 * j.val + 0x40) - BitVec.ofNat 32 (0x1050 * i.val + 0x40)) := by
    simp only [kstackAddr]
    bv_omega
  rw [hdiff]
  generalize x - k.kstackAddr j = offset at hx
  have hoff : ∀ l : Nat, l < 64 →
      (BitVec.ofNat 32 (0x1050 * l + 0x40)).toNat = 0x1050 * l + 0x40 := fun l hl => by
    rw [BitVec.toNat_ofNat]
    omega
  rw [BitVec.toNat_add, BitVec.toNat_sub, hoff _ hi, hoff _ hj]
  generalize i.val = a at *
  generalize j.val = b at *
  rcases Nat.lt_or_gt_of_ne hne with hlt | hlt
  · have hgap : (2 ^ 32 - (0x1050 * a + 0x40) + (0x1050 * b + 0x40)) % 2 ^ 32 =
        0x1050 * (b - a) := by omega
    rw [hgap, Nat.mod_eq_of_lt (by omega)]
    omega
  · have hgap : (2 ^ 32 - (0x1050 * a + 0x40) + (0x1050 * b + 0x40)) % 2 ^ 32 =
        2 ^ 32 - 0x1050 * (a - b) := by omega
    rw [hgap, Nat.mod_eq_of_lt (by omega)]
    omega

/-- A creation in slot `i` writes to the kernel stack of that slot only. -/
theorem pushedKstacks_outside {words : List Word} (hlen : words.length ≤ 5) {x : Word}
    (hx : 4096 ≤ (x - k.kstackAddr i).toNat) :
    (k.pushedKstacks i words).2 x = k.kstacks x := by
  have hx' : 4096 ≤ (x - k.kstackAddr i).toNat := hx
  rw [pushedKstacks, pushAll_outside _ _ _ _ (by omega), memset_apply _ _ _ _ (by decide),
    if_neg (by rw [processKernelStackSize]; omega)]
  simp only [kstackTop, processKernelStackSize, BitVec.toNat_sub, BitVec.toNat_add,
    BitVec.toNat_ofNat] at *
  omega

theorem Prepared.congr (h : k.Prepared i)
    (hcontext : (k'.processTable i).context = (k.processTable i).context)
    (haddr : k'.processTableAddr = k.processTableAddr)
    (hmem : ∀ x, (x - k.kstackAddr i).toNat < 4096 → k'.kstacks x = k.kstacks x) :
    k'.Prepared i := by
  obtain ⟨words, hwords, hesp, hload⟩ := h
  have hlen := hwords.length
  have htop : k'.kstackTop i = k.kstackTop i := by
    rw [kstackTop, kstackTop, kstackAddr, kstackAddr, haddr]
  rw [Prepared, hcontext, htop]
  refine ⟨words, hwords, hesp, fun j hj => ?_⟩
  rw [← hload j hj]
  refine read32_congr fun x hx => hmem x ?_
  rw [hesp] at hx
  simp only [kstackTop, processKernelStackSize, BitVec.toNat_sub, BitVec.toNat_add,
    BitVec.toNat_ofNat] at *
  omega

end Kstacks

/-! ### The steps -/

/-- What a creation gives to a new process in keeping with the invariant. -/
structure Birth.Regular (birth : Birth) : Prop where
  registers : ZeroRegisters birth.reg
  eax : birth.reg.eax = 0
  stack : EntryOrKernel birth.stack
  words : StartWords birth.stack birth.words

section Steps

variable {k k' : Kernel} {i : Slot} {d : Word}

theorem Contexts.failed {parentPid : Word} (hk : k.Contexts) (h : Failed k k' i parentPid) :
    k'.Contexts := by
  have hne : ∀ j, (k'.processTable j).state ≠ .free → j ≠ i := fun j hj heq => hj (heq ▸ h.state)
  have hready : ∀ j, (k'.processTable j).state = .ready → j ≠ i := fun j hj =>
    hne j (by rw [hj]; exact nofun)
  refine ⟨fun j hj => ?_, fun j hj => ?_, fun j hj => ?_, fun j hj => ?_⟩
  · have hsame := h.others j (hne j hj)
    rw [hsame] at hj ⊢
    exact hk.registers j hj
  · have hsame := h.others j (hne j hj)
    rw [hsame] at hj ⊢
    exact hk.stack j hj
  · have hsame := h.others j (hready j hj)
    rw [hsame] at hj ⊢
    exact hk.eax j hj
  · have hsame := h.others j (hready j hj)
    have hj' : (k.processTable j).state = .ready := hsame ▸ hj
    refine (hk.prepared j hj').congr (congrArg _ hsame) h.processTableAddr fun x hx => ?_
    have hout : 4096 ≤ (x - k.kstackAddr i).toNat := kstack_apart (hready j hj).symm hx
    rw [h.kstacks, memset_apply _ _ _ _ (by decide),
      if_neg (by rw [processKernelStackSize]; omega)]

theorem Created.prepared {birth : Birth} (h : Created k k' i d birth)
    (hwords : StartWords birth.stack birth.words) : k'.Prepared i := by
  have hlen := hwords.length
  have htop : k'.kstackTop i = k.kstackTop i := by
    rw [kstackTop, kstackTop, kstackAddr, kstackAddr, h.processTableAddr]
  rw [Prepared, h.new, htop, h.kstacks]
  refine ⟨birth.words, hwords, pushAll_sp .., fun j hj => ?_⟩
  simp only [pushedKstacks, pushAll_sp]
  exact load_pushAll _ _ _ (by omega) hj

theorem Contexts.created {birth : Birth} (hk : k.Contexts) (h : Created k k' i d birth)
    (hb : birth.Regular) : k'.Contexts := by
  refine ⟨fun j hj => ?_, fun j hj => ?_, fun j hj => ?_, fun j hj => ?_⟩
  · by_cases hne : j = i
    · rw [hne, h.new]
      exact hb.registers
    · rw [h.others hne] at hj ⊢
      exact hk.registers j hj
  · by_cases hne : j = i
    · rw [hne, h.new]
      exact hb.stack
    · rw [h.others hne] at hj ⊢
      exact hk.stack j hj
  · by_cases hne : j = i
    · rw [hne, h.new]
      exact hb.eax
    · rw [h.others hne] at hj ⊢
      exact hk.eax j hj
  · by_cases hne : j = i
    · rw [hne]
      exact h.prepared hb.words
    · have hsame := h.others hne
      have hj' : (k.processTable j).state = .ready := hsame ▸ hj
      refine (hk.prepared j hj').congr (congrArg _ hsame) h.processTableAddr fun x hx => ?_
      rw [h.kstacks]
      exact pushedKstacks_outside hb.words.length (kstack_apart (Ne.symm hne) hx)

theorem Contexts.spawn {birth : Slot → Birth} {r : Option Slot × Kernel} (hk : k.Contexts)
    (h : k.Spawn birth r) (hb : ∀ i, (birth i).Regular) : r.2.Contexts := by
  cases h with
  | noSlot => exact hk
  | failed h => exact hk.failed h
  | created h => exact hk.created h (hb _)

/-- A step that changes of the process table only states, not to ready ones, and the `eax` of
processes that are not ready. -/
theorem Contexts.of_table (hk : k.Contexts) (hkstacks : k'.kstacks = k.kstacks)
    (haddr : k'.processTableAddr = k.processTableAddr)
    (hlive : ∀ j, (k'.processTable j).state ≠ .free → (k.processTable j).state ≠ .free)
    (hzero : ∀ j, ZeroRegisters (k.processTable j).context.reg →
      ZeroRegisters (k'.processTable j).context.reg)
    (hstack : ∀ j, (k'.processTable j).context.stack = (k.processTable j).context.stack)
    (hready : ∀ j, (k'.processTable j).state = .ready →
      k'.processTable j = k.processTable j) : k'.Contexts := by
  refine ⟨fun j hj => hzero j (hk.registers j (hlive j hj)), fun j hj => ?_, fun j hj => ?_,
    fun j hj => ?_⟩
  · rw [hstack]
    exact hk.stack j (hlive j hj)
  · have hsame := hready j hj
    rw [hsame] at hj ⊢
    exact hk.eax j hj
  · have hsame := hready j hj
    refine (hk.prepared j (hsame ▸ hj)).congr (congrArg _ hsame) haddr fun x _ => ?_
    rw [hkstacks]

theorem Contexts.dispatch (hk : k.Contexts) {head : Slot}
    (h : (k.processTable head).state = .ready) : (k.dispatch head).Contexts := by
  have hcases : ∀ j, j ≠ head → (k.dispatch head).processTable j = k.processTable j :=
    fun j hj => dispatch_others hj
  have hcontext : ∀ j, ((k.dispatch head).processTable j).context =
      (k.processTable j).context := fun j => by
    by_cases hj : j = head
    · rw [hj, dispatch_self]
    · rw [hcases j hj]
  refine hk.of_table rfl rfl (fun j hj => ?_) (fun j hj => ?_) (fun j => ?_) fun j hj => ?_
  · by_cases heq : j = head
    · rw [heq, h]
      exact nofun
    · rwa [hcases j heq] at hj
  · rw [hcontext]
    exact hj
  · rw [hcontext]
  · refine hcases j ?_
    rintro rfl
    rw [dispatch_self] at hj
    cases hj

/-- A `schedule` that switches to a ready process has just made it the running one; its context and
its kernel stack are those that it was prepared with. -/
theorem Contexts.schedule_prepared (hk : k.Contexts) (hready : (k.processTable i).state = .ready)
    {cpu : Cpu} {cr3 : Word} (h : k.schedule = (.switched cpu cr3, k'))
    (hcur : k'.currentProcess = some i) :
    k' = k.dispatch i ∧ k'.switchToProcess i = .switched cpu cr3 ∧ k'.Prepared i ∧
      (k'.processTable i).context = (k.processTable i).context := by
  cases hhead : k.readyQueueHead with
  | none =>
    rw [schedule_none hhead] at h
    cases h
  | some head =>
    rw [schedule_some hhead] at h
    obtain ⟨hswitch, rfl⟩ := Prod.mk.inj h
    obtain rfl : head = i := Option.some.inj hcur
    have hcontext : ((k.dispatch head).processTable head).context =
        (k.processTable head).context := by
      rw [dispatch_self]
    have hprepared : (k.dispatch head).Prepared head :=
      (hk.prepared head hready).congr hcontext rfl fun _ _ => rfl
    exact ⟨rfl, hswitch, hprepared, hcontext⟩

theorem Contexts.exited (hk : k.Contexts) {current : Slot}
    (h : (k.processTable current).state.Dispatched) (status : Word) :
    (k.exited current status).Contexts := by
  have hcases : ∀ j, j ≠ current → (k.exited current status).processTable j = k.processTable j :=
    fun j hj => exited_others status hj
  refine hk.of_table rfl rfl (fun j hj => ?_) (fun j hj => ?_) (fun j => ?_) fun j hj => ?_
  · by_cases heq : j = current
    · rw [heq]
      exact h.not_free
    · rwa [hcases j heq] at hj
  · by_cases heq : j = current
    · rw [heq] at hj
      simpa [Kernel.exited, heq, ZeroRegisters] using hj
    · rwa [hcases j heq]
  · by_cases heq : j = current
    · simp [Kernel.exited, heq]
    · rw [hcases j heq]
  · refine hcases j ?_
    rintro rfl
    rw [exited_self] at hj
    cases hj

theorem regular_process (parentPid : Word) :
    Birth.Regular ⟨parentPid, .zero, entryStack, entryStack.frame⟩ :=
  ⟨rfl, rfl, fun _ => rfl, .frame⟩

theorem regular_kernelProcess (parentPid entryPoint idle : Word) :
    Birth.Regular ⟨parentPid, .zero, ⟨entryPoint, kernelCsSelector, kernelEflags, 0, 0⟩,
      [idle, kernelEflags, kernelCsSelector, entryPoint]⟩ :=
  ⟨rfl, rfl, fun h => absurd h (by decide : kernelCsSelector ≠ userCsSelector), .kernel idle rfl⟩

theorem Contexts.regular_child (hk : k.Contexts) {current : Slot}
    (h : (k.processTable current).state ≠ .free) : (k.childBirth current).Regular :=
  ⟨hk.registers current h, rfl, hk.stack current h, .frame⟩

/-- Every new process starts with a regular context. -/
theorem Contexts.regular_birth (hk : k.Contexts) (hc : k.Consistent) {call : Call}
    {birth : Slot → Birth} (h : k.birth call = some birth) (i : Slot) : (birth i).Regular := by
  cases call with
  | createProcess =>
    obtain rfl := Option.some.inj h
    exact regular_process _
  | createKernelProcess =>
    obtain rfl := Option.some.inj h
    exact regular_kernelProcess _ _ _
  | sysFork =>
    obtain ⟨current, hcur, rfl⟩ := Option.map_eq_some_iff.mp h
    exact hk.regular_child (hc.current current hcur).not_free
  | sysExit => cases h
  | sysWait => cases h
  | schedule => cases h
  | pageFault => cases h
  | userStore => cases h

theorem Contexts.effect (hk : k.Contexts) (hc : k.Consistent) {call : Call}
    (h : k.Effect call k') : k'.Contexts := by
  cases h with
  | spawn hbirth hspawn => exact hk.spawn hspawn (hk.regular_birth hc hbirth)
  | noParent => exact hk
  | noCaller => exact hk
  | exit status hcur => exact hk.exited (hc.current _ hcur) status
  | exitTo status hcur hhead =>
    obtain ⟨l, hq⟩ := (hc.exited hcur status).queue
    exact (hk.exited (hc.current _ hcur) status).dispatch (hq.head_ready hhead)
  | wait => exact hk
  | idle => exact hk
  | dispatch hhead =>
    obtain ⟨l, hq⟩ := hc.queue
    exact hk.dispatch (hq.head_ready hhead)
  | pageFault => exact ⟨hk.registers, hk.stack, hk.eax, hk.prepared⟩
  | userStore => exact ⟨hk.registers, hk.stack, hk.eax, hk.prepared⟩

/-- A process that waits for its turn does not change. -/
theorem Consistent.ready_kept (hk : k.Consistent) {call : Call} (h : k.Effect call k')
    (hi : (k.processTable i).state = .ready) (hi' : (k'.processTable i).state = .ready) :
    k'.processTable i = k.processTable i := by
  have hdispatch : ∀ {k₁ : Kernel} {head : Slot},
      ((k₁.dispatch head).processTable i).state = .ready →
        (k₁.dispatch head).processTable i = k₁.processTable i := by
    intro k₁ head hready
    refine dispatch_others ?_
    rintro rfl
    rw [dispatch_self] at hready
    cases hready
  have hexited : ∀ {current : Slot} status, k.currentProcess = some current →
      (k.exited current status).processTable i = k.processTable i := by
    intro current status hcur
    refine exited_others status ?_
    rintro rfl
    exact (hk.current i hcur).not_ready hi
  cases h with
  | spawn _ hspawn => exact hspawn.live_kept (by rw [hi]; exact nofun)
  | noParent => rfl
  | noCaller => rfl
  | exit status hcur => exact hexited status hcur
  | exitTo status hcur => exact (hdispatch hi').trans (hexited status hcur)
  | wait => rfl
  | idle => rfl
  | dispatch => exact hdispatch hi'
  | pageFault => rfl
  | userStore => rfl

/-! ### Dispatch -/

/-- The first dispatch of a process in user mode. -/
theorem Prepared.switchToProcess (h : k.Prepared i)
    (hcs : (k.processTable i).context.stack.cs = userCsSelector) :
    k.switchToProcess i = .switched
      { reg := { (k.processTable i).context.reg with esp := (k.processTable i).context.stack.esp }
        eip := (k.processTable i).context.stack.eip
        cs := (k.processTable i).context.stack.cs
        eflags := (k.processTable i).context.stack.eflags
        ss := (k.processTable i).context.stack.ss } (k.processTable i).context.cr3 := by
  obtain ⟨words, hwords, hesp, hload⟩ := h
  have hframe : HoldsFrame k.kstacks (k.processTable i).context.reg.esp
      (k.processTable i).context.stack := by
    cases hwords with
    | kernel idle hkernel =>
      exact absurd (hcs.symm.trans hkernel) (by decide : userCsSelector ≠ kernelCsSelector)
    | frame =>
      have hlen : ∀ j < 5, j < (k.processTable i).context.stack.frame.length := fun _ hj => hj
      exact ⟨hload 0 (hlen 0 (by decide)), hload 1 (hlen 1 (by decide)),
        hload 2 (hlen 2 (by decide)), hload 3 (hlen 3 (by decide)), hload 4 (hlen 4 (by decide))⟩
  have huser : (k.processTable i).context.stack.cs &&& 3 ≠ 0 := by
    rw [hcs]
    decide
  exact congrArg (Exit.switched · _) (iret_user hframe huser)

end Steps

end Kernel

theorem KernelImage.contexts_of_reach {img : KernelImage} {k : Kernel} (h : img.system.Reach k) :
    k.Contexts := by
  refine h.invariant ?_ fun k call k' hreach hk _ hstep => ?_
  · rintro _ ⟨ram, bitmap, rfl⟩
    exact ⟨fun i hi => absurd rfl hi, fun i hi => absurd rfl hi, fun i => nofun, fun i => nofun⟩
  · have hrun := KernelImage.running_of_reach hreach
    exact hk.effect hrun.wellFormed.consistent (hrun.wellFormed.effect (hrun.step hstep).1)

end Lbos

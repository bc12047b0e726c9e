import Lbos.Arch.Interrupt

/-! Interrupts at any privilege level, with an error code or without: the two kinds of stubs of
`interrupt_asm.s`, what the processor pushes before them, and the return to the interrupted code. -/

namespace Lbos

open Lib Mem

/-- The vectors with an `ERROR_HANDLER` stub. -/
def errorVectors : List Nat := [8, 10, 11, 12, 13, 14, 17, 30]

/-- The pushes of `ERROR_HANDLER idx` and of `NO_ERROR_HANDLER idx` before the jump. -/
def stubWords (idx : Word) : List Word := if idx.toNat ∈ errorVectors then [idx] else [0, idx]

/-- The interrupted code is the kernel's. -/
def Cpu.InKernel (cpu : Cpu) : Prop := cpu.cs &&& 3 = 0

instance (cpu : Cpu) : Decidable cpu.InKernel := inferInstanceAs (Decidable (_ = _))

/-- The stack pointer and segment with which the processor begins, and the frame that it pushes there:
within the kernel it goes on with the stack that it has. -/
def Cpu.entry (cpu : Cpu) (esp0 : Word) : Word × Word × List Word :=
  if cpu.InKernel then (cpu.reg.esp, cpu.ss, [cpu.eflags, cpu.cs, cpu.eip])
  else (esp0, kernelDsSelector, cpu.exec.frame)

/-- The stack when `interrupt_handler` is called: the pushes of the processor, of the stub and of
`common_interrupt_handler`. -/
def trapStack (idx : Word) (errorCode : Option Word) (m : Mem) (esp0 : Word) (cpu : Cpu) : Word × Mem :=
  let (esp, _, frame) := cpu.entry esp0
  let (esp, m) := m.pushAll esp (frame ++ errorCode.toList)
  let (esp, m) := m.pushAll esp (stubWords idx)
  pushRegisters m { cpu.reg with esp }

/-- An interrupt, up to the `iret` at the end of its handling. -/
def interrupt {σ : Type} (handlers : InterruptTable σ) (idx : Word) (errorCode : Option Word) (m : Mem)
    (esp0 : Word) (cpu : Cpu) (s : σ) : Exit Cpu × σ :=
  let (esp, m) := trapStack idx errorCode m esp0 cpu
  let (exit, s) := interruptHandler handlers (.ofStack m esp) (.ofStack m esp) (.ofStack m esp) s
  (exit.map fun state => iret m state (cpu.entry esp0).2.1, s)

/-! ### The stack -/

section Stack

variable (m : Mem) (sp : Word) (vs : List Word)

/-- What lies above the stack pointer is not changed by pushes. -/
theorem load_pushAll_above {j : Nat} (hj : 4 * (j + 1) + 4 * vs.length ≤ 2 ^ 32) :
    (m.pushAll sp vs).2.load sp j = m.load sp j := by
  refine read32_congr fun x hx => pushAll_outside m sp x vs (by omega) ?_
  simp only [BitVec.toNat_sub, BitVec.toNat_add, BitVec.toNat_ofNat] at *
  omega

/-- Words behind the first `n` of an array. -/
theorem load_add (p : Word) (n j : Nat) : m.load (p + BitVec.ofNat 32 (4 * n)) j = m.load p (n + j) := by
  rw [load, load]
  congr 1
  bv_omega

end Stack

/-- The words that follow the frame: the error code, the vector, and the registers. -/
def trapTail (idx errorCode framePtr : Word) (reg : CpuState) : List Word :=
  [errorCode, idx, framePtr, reg.eax, reg.ebx, reg.ecx, reg.edx, reg.ebp, reg.esi, reg.edi]

/-- The two kinds of stubs leave the same stack. -/
theorem trapStack_eq {idx : Word} {errorCode : Option Word}
    (herror : errorCode.isSome = true ↔ idx.toNat ∈ errorVectors) (m : Mem) (esp0 : Word) (cpu : Cpu) :
    trapStack idx errorCode m esp0 cpu =
      let framed := m.pushAll (cpu.entry esp0).1 (cpu.entry esp0).2.2
      framed.2.pushAll framed.1 (trapTail idx (errorCode.getD 0) framed.1 cpu.reg) := by
  have hwords : errorCode.toList ++ stubWords idx = [errorCode.getD 0, idx] := by
    cases errorCode with
    | none =>
      have hidx : idx.toNat ∉ errorVectors := fun h => by cases herror.mpr h
      simp [stubWords, hidx]
    | some e => simp [stubWords, herror.mp rfl]
  have hptr : ∀ (m : Mem) (sp : Word), (m.pushAll sp [errorCode.getD 0, idx]).1 + 8 = sp := by
    intro m sp
    rw [pushAll_sp]
    simp only [List.length_cons, List.length_nil]
    bv_omega
  have htail : ∀ framePtr, trapTail idx (errorCode.getD 0) framePtr cpu.reg =
      [errorCode.getD 0, idx] ++ [framePtr, cpu.reg.eax, cpu.reg.ebx, cpu.reg.ecx, cpu.reg.edx,
        cpu.reg.ebp, cpu.reg.esi, cpu.reg.edi] := fun _ => rfl
  simp only [trapStack, pushRegisters_eq, pushAll_append, htail]
  generalize m.pushAll (cpu.entry esp0).1 (cpu.entry esp0).2.2 = framed
  have hstub : (framed.2.pushAll framed.1 errorCode.toList).2.pushAll
      (framed.2.pushAll framed.1 errorCode.toList).1 (stubWords idx) =
        framed.2.pushAll framed.1 [errorCode.getD 0, idx] := by
    rw [← pushAll_append, hwords]
  simp only [hstub, hptr]

section Trap

variable {idx : Word} {errorCode : Option Word}

/-- What `interrupt_handler` is given of the registers and of the vector, and the frame behind it. -/
theorem trapTail_read (m : Mem) (framePtr idx errorCode : Word) (reg : CpuState) :
    let pushed := m.pushAll framePtr (trapTail idx errorCode framePtr reg)
    CpuState.ofStack pushed.2 pushed.1 = { reg with esp := framePtr } ∧
      IdtInfo.ofStack pushed.2 pushed.1 = ⟨idx, errorCode⟩ ∧
      (∀ j < 5, pushed.2.load pushed.1 (10 + j) = m.load framePtr j) ∧
      ∀ j < 5, pushed.2.load framePtr j = m.load framePtr j := by
  intro pushed
  have hlen : (trapTail idx errorCode framePtr reg).length = 10 := rfl
  have hsp : pushed.1 = framePtr - BitVec.ofNat 32 (4 * 10) := pushAll_sp ..
  have hload : ∀ i (hi : i < 10), pushed.2.load pushed.1 i =
      (trapTail idx errorCode framePtr reg).get ⟨9 - i, by omega⟩ := fun i hi => by
    rw [hsp]
    exact load_pushAll m framePtr _ (by omega) hi
  have habove : ∀ j < 5, pushed.2.load framePtr j = m.load framePtr j := fun j hj =>
    load_pushAll_above m framePtr _ (by omega)
  refine ⟨?_, ?_, fun j hj => ?_, habove⟩
  · simp only [CpuState.ofStack, hload, Nat.reduceLT]
    rfl
  · simp only [IdtInfo.ofStack, hload, Nat.reduceLT]
    rfl
  · have hframe : framePtr = pushed.1 + BitVec.ofNat 32 (4 * 10) := by
      rw [hsp]
      bv_omega
    rw [← habove j hj, hframe, load_add]

/-- What the handler is given as the interrupted code's frame: of the kernel's code the two words that
are on top of its stack stand for stack pointer and segment. -/
def Cpu.trapped (cpu : Cpu) (m : Mem) : StackState :=
  if cpu.InKernel then
    ⟨cpu.eip, cpu.cs, cpu.eflags, m.load cpu.reg.esp 0, m.load cpu.reg.esp 1⟩
  else cpu.exec

/-- Where the frame is. -/
def Cpu.framePtr (cpu : Cpu) (esp0 : Word) : Word :=
  if cpu.InKernel then cpu.reg.esp - 12 else esp0 - 20

/-- The five words of memory that a `stack_state_t` covers. -/
def StackState.at (m : Mem) (p : Word) : StackState :=
  ⟨m.load p 0, m.load p 1, m.load p 2, m.load p 3, m.load p 4⟩

theorem entry_pushed (m : Mem) (esp0 : Word) (cpu : Cpu) :
    let framed := m.pushAll (cpu.entry esp0).1 (cpu.entry esp0).2.2
    framed.1 = cpu.framePtr esp0 ∧ StackState.at framed.2 framed.1 = cpu.trapped m := by
  by_cases hk : cpu.InKernel
  · have hentry : cpu.entry esp0 = (cpu.reg.esp, cpu.ss, [cpu.eflags, cpu.cs, cpu.eip]) := if_pos hk
    simp only [hentry, Cpu.framePtr, Cpu.trapped, if_pos hk]
    have hsp : (m.pushAll cpu.reg.esp [cpu.eflags, cpu.cs, cpu.eip]).1 =
        cpu.reg.esp - BitVec.ofNat 32 (4 * 3) := pushAll_sp ..
    have hload : ∀ i (hi : i < 3), (m.pushAll cpu.reg.esp [cpu.eflags, cpu.cs, cpu.eip]).2.load
        (cpu.reg.esp - BitVec.ofNat 32 (4 * 3)) i = [cpu.eflags, cpu.cs, cpu.eip].get ⟨2 - i, by
          simp only [List.length_cons, List.length_nil]; omega⟩ :=
      fun i hi => load_pushAll m cpu.reg.esp [cpu.eflags, cpu.cs, cpu.eip] (by simp) hi
    have habove : ∀ j < 2, (m.pushAll cpu.reg.esp [cpu.eflags, cpu.cs, cpu.eip]).2.load
        (cpu.reg.esp - BitVec.ofNat 32 (4 * 3)) (3 + j) = m.load cpu.reg.esp j := by
      intro j hj
      have hback : cpu.reg.esp - BitVec.ofNat 32 (4 * 3) + BitVec.ofNat 32 (4 * 3) = cpu.reg.esp := by
        bv_omega
      rw [← load_add, hback]
      refine load_pushAll_above m _ _ ?_
      simp only [List.length_cons, List.length_nil]
      omega
    refine ⟨hsp, ?_⟩
    rw [hsp, StackState.at, hload 0 (by decide), hload 1 (by decide), hload 2 (by decide),
      habove 0 (by decide), habove 1 (by decide)]
    rfl
  · have hentry : cpu.entry esp0 = (esp0, kernelDsSelector, cpu.exec.frame) := if_neg hk
    simp only [hentry, Cpu.framePtr, Cpu.trapped, if_neg hk]
    have hsp : (m.pushAll esp0 cpu.exec.frame).1 = esp0 - BitVec.ofNat 32 (4 * 5) := pushAll_sp ..
    have hload : ∀ i (hi : i < 5), (m.pushAll esp0 cpu.exec.frame).2.load
        (esp0 - BitVec.ofNat 32 (4 * 5)) i = cpu.exec.frame.get ⟨4 - i, by
          simp only [StackState.frame, List.length_cons, List.length_nil]; omega⟩ :=
      fun i hi => load_pushAll m esp0 cpu.exec.frame (by simp [StackState.frame]) hi
    refine ⟨hsp, ?_⟩
    rw [hsp, StackState.at, hload 0 (by decide), hload 1 (by decide), hload 2 (by decide),
      hload 3 (by decide), hload 4 (by decide)]
    rfl

/-- `iret` goes back to the code whose frame it finds. -/
theorem iret_trapped {m m' : Mem} {esp0 : Word} {cpu : Cpu}
    (h : StackState.at m' (cpu.framePtr esp0) = cpu.trapped m) :
    iret m' { cpu.reg with esp := cpu.framePtr esp0 } (cpu.entry esp0).2.1 = cpu := by
  by_cases hk : cpu.InKernel
  · have hentry : (cpu.entry esp0).2.1 = cpu.ss := by rw [Cpu.entry, if_pos hk]
    simp only [StackState.at, Cpu.trapped, if_pos hk, StackState.mk.injEq] at h
    obtain ⟨heip, hcs, heflags, -, -⟩ := h
    have hring : cpu.cs &&& 3 = 0 := hk
    have hesp : cpu.framePtr esp0 + 12 = cpu.reg.esp := by
      rw [Cpu.framePtr, if_pos hk]
      bv_omega
    simp only [iret, heip, hcs, heflags, hring, if_true, hesp, hentry]
  · simp only [StackState.at, Cpu.trapped, if_neg hk] at h
    have hframe : HoldsFrame m' (cpu.framePtr esp0) cpu.exec := by
      simp only [HoldsFrame, ← h, and_self]
    exact iret_user (s := cpu.exec) hframe hk

/-- Nothing above the stack that is used is written. -/
theorem trapStack_outside (herror : errorCode.isSome = true ↔ idx.toNat ∈ errorVectors) (m : Mem)
    (esp0 : Word) (cpu : Cpu) {x : Word}
    (hx : 4 * ((cpu.entry esp0).2.2.length + 10) ≤ (x - (cpu.framePtr esp0 - 40)).toNat) :
    (trapStack idx errorCode m esp0 cpu).2 x = m x := by
  obtain ⟨hptr, -⟩ := entry_pushed m esp0 cpu
  have hlen : (cpu.entry esp0).2.2.length ≤ 5 := by
    unfold Cpu.entry
    split <;> simp [StackState.frame]
  have hoff : (x - (cpu.framePtr esp0 - 40)).toNat ≤ (x - cpu.framePtr esp0).toNat + 40 := by
    bv_omega
  have hframed : (m.pushAll (cpu.entry esp0).1 (cpu.entry esp0).2.2).2 x = m x := by
    refine pushAll_outside _ _ x _ (by omega) ?_
    rw [← pushAll_sp m, hptr]
    omega
  rw [trapStack_eq herror]
  dsimp only
  rw [hptr, pushAll_outside _ _ x _ (by simp [trapTail]) ?_, hframed]
  show 4 * 10 ≤ (x - (cpu.framePtr esp0 - 40)).toNat
  omega

/-- Whatever the handler leaves in its parameters, the interrupted code goes on as it was. -/
theorem interrupt_handled {σ : Type} (handlers : InterruptTable σ)
    (herror : errorCode.isSome = true ↔ idx.toNat ∈ errorVectors) (m : Mem) (esp0 : Word) (cpu : Cpu)
    (s : σ) :
    let state := { cpu.reg with esp := cpu.framePtr esp0 }
    let handled := match registeredHandler handlers idx with
      | some handler => handler state ⟨idx, errorCode.getD 0⟩ (cpu.trapped m) s
      | none => (.ret state, s)
    interrupt handlers idx errorCode m esp0 cpu s = (handled.1.map fun _ => cpu, handled.2) := by
  intro state handled
  obtain ⟨hptr, htrapped⟩ := entry_pushed m esp0 cpu
  have hstack := trapStack_eq herror m esp0 cpu
  simp only at hstack
  generalize m.pushAll (cpu.entry esp0).1 (cpu.entry esp0).2.2 = framed at *
  obtain ⟨framePtr, framed⟩ := framed
  obtain rfl : framePtr = cpu.framePtr esp0 := hptr
  obtain ⟨hstate, hinfo, hexec, hframe⟩ :=
    trapTail_read framed (cpu.framePtr esp0) idx (errorCode.getD 0) cpu.reg
  simp only at hstack htrapped
  generalize framed.pushAll (cpu.framePtr esp0)
    (trapTail idx (errorCode.getD 0) (cpu.framePtr esp0) cpu.reg) = pushed at *
  have hexec' : StackState.ofStack pushed.2 pushed.1 = cpu.trapped m := by
    rw [← htrapped, StackState.at, ← hexec 0 (by decide), ← hexec 1 (by decide),
      ← hexec 2 (by decide), ← hexec 3 (by decide), ← hexec 4 (by decide)]
    rfl
  have hiret : iret pushed.2 state (cpu.entry esp0).2.1 = cpu := by
    refine iret_trapped (m := m) ?_
    rw [← htrapped, StackState.at, StackState.at, hframe 0 (by decide), hframe 1 (by decide),
      hframe 2 (by decide), hframe 3 (by decide), hframe 4 (by decide)]
  simp only [interrupt, hstack, hstate, hinfo, hexec', interruptHandler]
  cases hreg : registeredHandler handlers idx with
  | none =>
    simp only [handled, hreg, Exit.map]
    exact congrArg (fun c => (Exit.ret c, s)) hiret
  | some handler =>
    simp only [handled, hreg, Exit.map_map]
    exact congrArg (fun c => ((handler state _ _ s).1.map fun _ => c, _)) hiret

/-- Whatever the handler leaves in its parameters, the interrupted code goes on with the registers,
the flags and the stack that it had, at either level and for either kind of stub; the handler has seen
them, the vector and the error code, and nothing was written above the stack that was used, which is
the interrupted one in the kernel and begins at `esp0` otherwise. -/
theorem interrupt_resumes {σ : Type} (handlers : InterruptTable σ)
    (herror : errorCode.isSome = true ↔ idx.toNat ∈ errorVectors) (m : Mem) (esp0 : Word) (cpu : Cpu)
    (s : σ) :
    let state := { cpu.reg with esp := cpu.framePtr esp0 }
    let handled := match registeredHandler handlers idx with
      | some handler => handler state ⟨idx, errorCode.getD 0⟩ (cpu.trapped m) s
      | none => (.ret state, s)
    interrupt handlers idx errorCode m esp0 cpu s = (handled.1.map fun _ => cpu, handled.2) ∧
      ∀ x, 4 * ((cpu.entry esp0).2.2.length + 10) ≤ (x - (cpu.framePtr esp0 - 40)).toNat →
        (trapStack idx errorCode m esp0 cpu).2 x = m x :=
  ⟨interrupt_handled handlers herror m esp0 cpu s, fun _ => trapStack_outside herror m esp0 cpu⟩

/-- A page fault of the user's code, with a handler that counts it and clears its parameters. -/
theorem interrupt_resumes_sample :
    let cpu : Cpu := ⟨⟨1, 2, 3, 4, 5, 6, 7, userStackTop⟩, userCodeStart, userCsSelector, userEflags,
      userDsSelector⟩
    let handlers : InterruptTable Nat := fun i =>
      if i.val = 14 then some fun _ _ _ n => (.ret .zero, n + 1) else none
    interrupt handlers 14 (some 6) (fun _ => 0) 0xC0200000 cpu 0 = (.ret cpu, 1) := by
  intro cpu handlers
  have herror : (some (6 : Word)).isSome = true ↔ (14 : Word).toNat ∈ errorVectors := by decide
  exact (interrupt_resumes handlers herror (fun _ => 0) 0xC0200000 cpu 0).1

end Trap

/-! ### Interrupts of the user's code without an error code -/

section User

variable {σ : Type} {handlers : InterruptTable σ} {idx : Word} {cpu : Cpu}

theorem interruptUser_eq (hcs : ¬cpu.InKernel) (hidx : idx.toNat ∉ errorVectors) (m : Mem)
    (esp0 : Word) (s : σ) :
    interruptUser handlers idx m esp0 cpu s = interrupt handlers idx none m esp0 cpu s := by
  simp only [interrupt, trapStack, Cpu.entry, hcs, if_false, stubWords, hidx, Option.toList_none,
    List.append_nil]
  rfl

/-- The registered handler sees the user's registers and frame, and cannot change them. -/
theorem interruptUser_registered {handler : InterruptHandler σ}
    (h : registeredHandler handlers idx = some handler) (hidx : idx.toNat ∉ errorVectors) (m : Mem)
    (esp0 : Word) (hcs : cpu.cs &&& 3 ≠ 0) (s : σ) :
    interruptUser handlers idx m esp0 cpu s =
      ((handler (trapState esp0 cpu) ⟨idx, 0⟩ cpu.exec s).1.map fun _ => cpu,
        (handler (trapState esp0 cpu) ⟨idx, 0⟩ cpu.exec s).2) := by
  have hk : ¬cpu.InKernel := hcs
  have herror : (none : Option Word).isSome = true ↔ idx.toNat ∈ errorVectors :=
    iff_of_false Bool.false_ne_true hidx
  have hptr : cpu.framePtr esp0 = esp0 - 20 := if_neg hk
  have hexec : cpu.trapped m = cpu.exec := if_neg hk
  rw [interruptUser_eq hk hidx, interrupt_handled handlers herror]
  simp only [h, hptr, hexec, Option.getD_none]
  rfl

end User

end Lbos

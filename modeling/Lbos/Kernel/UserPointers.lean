import Lbos.Kernel.DemandPaging
import Lbos.Kernel.DirectMap
import Lbos.Kernel.History
import Lbos.Kernel.SyscallReturn
import Lbos.LogReads

/-! The addresses that a user process gives to system calls: `sys_printf` has `log_write` read a string
from its first byte to its end, and `sys_wait` stores a word. -/

namespace Lbos

open Lib Mem

namespace Kernel

variable (k : Kernel)

/-- The byte at an address that the kernel reads while the current process is in it, `none` where no
page is present. -/
def currentByte (v : Word) : Option Byte := k.currentProcess.bind fun c => k.userByte c v

/-- The states in which a call of `log_write` is: where it finds a page absent, the fault handler may
enter one and the call goes on. -/
inductive Logs (call : LogCall) : Kernel → Prop
  | start : Logs call k
  | fault {k' : Kernel} {a : Word} {s : Serial} : Logs call k' →
      call.write k'.currentByte s = .error (.page a) →
      (k'.pageFaultHandler a ⟨14, 0⟩).1 = .ret () → Logs call (k'.pageFaultHandler a ⟨14, 0⟩).2

/-- The call reads the byte at an address: it stops there when that byte is not present. -/
def LogReads (call : LogCall) (a : Word) : Prop :=
  ∃ k' s, k.Logs call k' ∧ call.write (Function.update k'.currentByte a none) s = .error (.page a)

/-- The state after calls of `log_write`. -/
inductive LogsLead : List LogCall → Kernel → Kernel → Prop
  | nil (k : Kernel) : LogsLead [] k k
  | cons {k k' k'' : Kernel} {call : LogCall} {calls : List LogCall} {s s' : Serial} :
      k.Logs call k' → call.write k'.currentByte s = .ok s' → LogsLead calls k' k'' →
      LogsLead (call :: calls) k k''

/-- The system call of a process with these registers, with what it logs. -/
def syscall (reg : CpuState) : Exit CpuState × WithLog :=
  syscallInterruptHandler loggedSyscalls reg ⟨syscallIntIdx, 0⟩ .zero (k, [])

/-- The system call with these registers reads or writes the byte at an address that they give, in
what it logs or as it returns. -/
inductive Touches (reg : CpuState) : Word → Prop
  | logged {call : LogCall} {a : Word} : call ∈ (k.syscall reg).2.2 → k.LogReads call a →
      Touches reg a
  | stored {addr value : Word} {state : CpuState} {i : Nat} :
      (k.syscall reg).1 = .stored addr value state → i < 4 →
      Touches reg (addr + BitVec.ofNat 32 i)

/-- Each such byte lies in user space. -/
def StaysInUserSpace (reg : CpuState) : Prop := ∀ a, k.Touches reg a → a < kernelVirtualStart

/-- The byte ends a string: it is zero, or its page is not present. -/
def EndsAt (a : Word) : Prop := ∀ b, k.currentByte a = some b → b = 0

/-- The format of `sys_printf` is null, or ends in user space. -/
def FormatEnds (reg : CpuState) : Prop :=
  reg.eax = 1 → reg.ebx ≠ 0 →
    ∃ n, reg.ebx.toNat + n < kernelVirtualStart.toNat ∧ k.EndsAt (reg.ebx + BitVec.ofNat 32 n)

/-- The current process has a child that has exited. -/
def HasZombie : Prop :=
  ∃ current child, k.currentProcess = some current ∧ (k.processTable child).state = .terminated ∧
    (k.processTable child).parentPid = (k.processTable current).pid

/-- The status of `sys_wait` is in user space, when it is stored. -/
def StatusFits (reg : CpuState) : Prop :=
  reg.eax = 4 → reg.ebx ≠ 0 → k.HasZombie → reg.ebx.toNat + 4 ≤ kernelVirtualStart.toNat

/-- The state after a system call, with the store of `sys_wait`, but for its log. -/
def afterSyscall (reg : CpuState) : Kernel :=
  match k.syscall reg with
  | (.stored addr value _, (k, _)) => k.storeWord addr value
  | (_, (k, _)) => k

/-- `k'` may follow a system call.  After a store that is not in user space any state may. -/
def SyscallLeads (reg : CpuState) (k' : Kernel) : Prop :=
  k.StatusFits reg → LogsLead (k.syscall reg).2.2 (k.afterSyscall reg) k'

end Kernel

/-- A system call of the current process, with its registers, or another event. -/
inductive Trap where
  | syscall (reg : CpuState)
  | other (event : Event)

/-- The event is no system call. -/
def Event.NoSyscall : Event → Prop
  | .call .sysFork | .call (.sysExit _) | .call (.sysWait _) => False
  | _ => True

/-- The kernel from boot on, with the registers of its system calls.  A process that was dispatched
before may get the processor back at any time. -/
def KernelImage.trapSystem (img : KernelImage) : System Kernel Trap where
  init k := ∃ ram bitmap, k = img.boot ram bitmap
  step k trap k' :=
    match trap with
    | .syscall reg => k.currentProcess ≠ none ∧ k.SyscallLeads reg k'
    | .other (.call call) => (Event.call call).NoSyscall ∧ k' = k.next call
    | .other (.resume i) => (k.processTable i).state.Dispatched ∧
        k' = { k with currentProcess := some i }

/-- Each `sys_wait` of the run that stores a status does so in user space. -/
def Kernel.StoresFit (k : Kernel) : Trap → Prop
  | .syscall reg => k.StatusFits reg
  | .other _ => True

namespace Kernel

variable {k k' : Kernel} {str addr : Word} {n : Nat} {reg : CpuState}

/-! ### The scan of a string -/

theorem toNat_add_ofNat (hn : str.toNat + n < 2 ^ 32) :
    (str + BitVec.ofNat 32 n).toNat = str.toNat + n := by
  rw [BitVec.toNat_add, BitVec.toNat_ofNat]
  omega

/-- The fault handler stops without a current process, at a kernel address and without a frame. -/
theorem pageFaultHandler_ret {info : IdtInfo} (hret : (k.pageFaultHandler addr info).1 = .ret ()) :
    ∃ c, k.currentProcess = some c ∧ addr < kernelVirtualStart ∧ k.mem.allocFrame.1 ≠ 0 := by
  unfold pageFaultHandler at hret
  cases hcur : k.currentProcess with
  | none =>
    rw [hcur] at hret
    cases hret
  | some c =>
    rw [hcur] at hret
    simp only at hret
    split at hret
    · cases hret
    · next hlow =>
      refine ⟨c, rfl, BitVec.not_le.mp hlow, fun hz => ?_⟩
      split at hret
      · cases hret
      · cases hret

/-- Where no page was present, the fault handler leaves a zero byte or none. -/
theorem Consistent.endsAt_fault (hk : k.Consistent)
    (hret : (k.pageFaultHandler addr ⟨14, 0⟩).1 = .ret ()) :
    (k.pageFaultHandler addr ⟨14, 0⟩).2.EndsAt addr := by
  obtain ⟨c, hcur, haddr, hz⟩ := pageFaultHandler_ret hret
  have hcode : (⟨14, 0⟩ : IdtInfo).errorCode &&& 0x1 = 0 := rfl
  by_cases hok : MapSucceeds k.mem.allocFrame.2 (k.cr3 c) (addr &&& ~~~0xFFF)
  · obtain ⟨mem, f, hr, hadded, hzero⟩ := pageFaultHandler_added hk hcur haddr hcode ⟨hz, hok⟩
    intro b hb
    rw [hr, currentByte] at hb
    simp only [setMem_currentProcess, hcur, Option.bind_some] at hb
    rw [zero_of_added hk hcur hadded hzero haddr rfl] at hb
    exact (Option.some.inj hb).symm
  · have hr := pageFaultHandler_eq hcur haddr hcode hz
    have hnone := hk.isolated.demandPage_fails (hk.current_dir hcur) (pdIndex_userPage haddr) hz hok
      (pagePresent ||| pageUser ||| pageRw)
    rw [pdIndex_page] at hnone
    intro b hb
    rw [hr, currentByte] at hb
    simp only [setMem_currentProcess, hcur, Option.bind_some] at hb
    have hbyte := translate_eq_none (entryAt_none hnone)
    rw [userByte] at hb
    cases (congrArg (Option.map _) hbyte).symm.trans hb

/-- The call of `log_write` that prints the string at an address. -/
def printCall (str : Word) : LogCall := LogLevel.info.log "%s" [str]

/-- A byte that is not the end of a string is present. -/
theorem not_endsAt_iff {a : Word} : ¬k.EndsAt a ↔ ∃ b, k.currentByte a = some b ∧ b ≠ 0 := by
  rw [EndsAt]
  push Not
  rfl

/-- Where the call stops, all bytes of the string before are present and none is its end. -/
theorem printCall_page {m : View} {s : Serial} {a : Word}
    (h : (printCall str).write m s = .error (.page a)) :
    ∃ n, a = str + BitVec.ofNat 32 n ∧ m a = none ∧
      ∀ i < n, ∃ b, m (str + BitVec.ofNat 32 i) = some b ∧ b ≠ 0 := by
  obtain ⟨arg, hmem, -, hstop⟩ := logWrite_page h
  obtain rfl := List.mem_singleton.mp hmem
  obtain ⟨n, -, haddr, habsent, hbefore⟩ := stringAt_page_iff.mp hstop
  exact ⟨n, haddr, habsent, hbefore⟩

/-- As long as the call has entered no page it is in the first state.  Then it stands at a zero
byte or at none. -/
theorem Logs.stands (hk : k.Consistent) (h : k.Logs (printCall str) k') :
    k'.Consistent ∧ (k' = k ∨ ∃ n, (∀ i < n, ¬k.EndsAt (str + BitVec.ofNat 32 i)) ∧
      k'.EndsAt (str + BitVec.ofNat 32 n)) := by
  induction h with
  | start => exact ⟨hk, .inl rfl⟩
  | @fault k' a s _ hstop hret ih =>
    obtain ⟨hk', hstate⟩ := ih
    obtain ⟨n, rfl, -, hbefore⟩ := printCall_page hstop
    obtain ⟨mem, hr, hiso, -⟩ := hk'.pageFault (str + BitVec.ofNat 32 n) ⟨14, 0⟩
    refine ⟨?_, .inr ⟨n, fun i hi hend => ?_, hk'.endsAt_fault hret⟩⟩
    · rw [hr]
      exact hk'.setMem hiso
    · rcases hstate with rfl | ⟨n', hfirst, hend'⟩
      · exact not_endsAt_iff.mpr (hbefore i hi) hend
      · have hle : n ≤ n' := Nat.le_of_not_lt fun hlt =>
          not_endsAt_iff.mpr (hbefore n' hlt) hend'
        exact hfirst i (Nat.lt_of_lt_of_le hi hle) hend

/-- The call reads no byte behind the first end of the string. -/
theorem LogReads.before (hk : k.Consistent) {a : Word} (h : k.LogReads (printCall str) a) {m : Nat}
    (hend : k.EndsAt (str + BitVec.ofNat 32 m)) : ∃ n ≤ m, a = str + BitVec.ofNat 32 n := by
  obtain ⟨k', s, hlogs, hstop⟩ := h
  obtain ⟨n, rfl, -, hbefore⟩ := printCall_page hstop
  have hpassed : ∀ i < n, ¬k'.EndsAt (str + BitVec.ofNat 32 i) := by
    intro i hi
    obtain ⟨b, hb, hne⟩ := hbefore i hi
    refine not_endsAt_iff.mpr ⟨b, ?_, hne⟩
    by_cases heq : str + BitVec.ofNat 32 i = str + BitVec.ofNat 32 n
    · rw [heq, Function.update_self] at hb
      cases hb
    · rwa [Function.update_of_ne heq] at hb
  refine ⟨n, Nat.le_of_not_lt fun hlt => ?_, rfl⟩
  obtain ⟨-, rfl | ⟨n', hfirst, hend'⟩⟩ := hlogs.stands hk
  · exact hpassed m hlt hend
  · have hle : n ≤ n' := Nat.le_of_not_lt fun hlt' => hpassed n' hlt' hend'
    exact hfirst m (Nat.lt_of_lt_of_le hlt hle) hend

/-- Over bytes that are present and not zero the call reads on. -/
theorem logReads_of_nonzero (hne : str ≠ 0) (hn : n < 2 ^ 32)
    (h : ∀ i < n, ¬k.EndsAt (str + BitVec.ofNat 32 i)) :
    k.LogReads (printCall str) (str + BitVec.ofNat 32 n) := by
  refine ⟨k, ⟨fun _ _ => 0, 0, []⟩, .start, logWrite_string_page hne ?_ _⟩
  refine stringAt_page_iff.mpr ⟨n, hn, rfl, Function.update_self .., fun i hi => ?_⟩
  obtain ⟨b, hb, hb0⟩ := not_endsAt_iff.mp (h i hi)
  have hapart : str + BitVec.ofNat 32 i ≠ str + BitVec.ofNat 32 n := by
    rw [Ne, BitVec.add_right_inj]
    intro heq
    have hval := congrArg BitVec.toNat heq
    rw [BitVec.toNat_ofNat, BitVec.toNat_ofNat] at hval
    omega
  exact ⟨b, by rwa [Function.update_of_ne hapart], hb0⟩

/-- A string is read in user space only exactly if it ends there. -/
theorem Consistent.reads_user_iff (hk : k.Consistent) (hne : str ≠ 0) :
    (∀ a, k.LogReads (printCall str) a → a < kernelVirtualStart) ↔
      ∃ n, str.toNat + n < kernelVirtualStart.toNat ∧ k.EndsAt (str + BitVec.ofNat 32 n) := by
  have hstart : kernelVirtualStart.toNat = 0xC0000000 := rfl
  constructor
  · intro h
    by_contra hnone
    push Not at hnone
    have hfirst : str < kernelVirtualStart := by
      have hzero := h _ (logReads_of_nonzero hne (Nat.two_pow_pos 32) fun i hi =>
        absurd hi (Nat.not_lt_zero i))
      rwa [show str + BitVec.ofNat 32 0 = str from BitVec.add_zero str] at hzero
    rw [BitVec.lt_def, hstart] at hfirst
    have hlast := h _ (logReads_of_nonzero hne (by omega : 0xC0000000 - str.toNat < 2 ^ 32)
      fun m hm => hnone m (by omega))
    rw [BitVec.lt_def, toNat_add_ofNat (by omega)] at hlast
    omega
  · rintro ⟨m, hm, hend⟩ a hread
    obtain ⟨n, hle, rfl⟩ := hread.before hk hend
    rw [BitVec.lt_def, toNat_add_ofNat (by omega)]
    omega

/-! ### The dispatch -/

/-- Registering a handler does not concern the other numbers. -/
theorem syscallHandler_register_ne {σ : Type} (handlers : SyscallTable σ) {num n : Word}
    (hne : n ≠ num) (handler : SyscallHandler σ) :
    syscallHandler (registerSyscall handlers num handler) n = syscallHandler handlers n := by
  unfold registerSyscall
  split
  · unfold syscallHandler
    split
    · refine Function.update_of_ne (fun heq => hne ?_) ..
      exact BitVec.eq_of_toNat_eq (Fin.mk.inj heq)
    · rfl
  · rfl

theorem syscallHandler_none {num : Word} (h1 : num ≠ 1) (h2 : num ≠ 2) (h3 : num ≠ 3)
    (h4 : num ≠ 4) : syscallHandler loggedSyscalls num = none := by
  rw [loggedSyscalls, syscallHandler_register_ne _ h4, syscallHandler_register_ne _ h3,
    syscallHandler_register_ne _ h2, syscallHandler_register_ne _ h1, syscallHandler]
  split
  · rfl
  · rfl

/-- The handlers of the kernel do this, and leave the log out. -/
theorem syscallTable_eq (reg : CpuState) :
    syscallInterruptHandler syscallTable reg ⟨syscallIntIdx, 0⟩ .zero k =
      ((k.syscall reg).1, (k.syscall reg).2.1) := by
  have hhandler : syscallHandler syscallTable reg.eax =
      (syscallHandler loggedSyscalls reg.eax).map withoutLog := by
    unfold syscallHandler
    split
    · rfl
    · rfl
  rw [syscall, syscallInterruptHandler, syscallInterruptHandler, hhandler]
  cases syscallHandler loggedSyscalls reg.eax <;> rfl

theorem syscall_none (h : syscallHandler loggedSyscalls reg.eax = none) :
    k.syscall reg = (.ret { reg with eax := -1 }, (k, [])) := by
  rw [syscall, syscallInterruptHandler, h]

theorem syscall_printf (h : reg.eax = 1) (hne : reg.ebx ≠ 0) :
    k.syscall reg = (.ret { reg with eax := 1 }, (k, [printCall reg.ebx])) := by
  rw [syscall, syscallInterruptHandler, h,
    show syscallHandler loggedSyscalls 1 = some sysPrintf from rfl]
  simp only [sysPrintf, if_neg hne]
  rfl

/-- Without a string a text of the kernel is logged. -/
theorem syscall_printf_null (h : reg.eax = 1) (hnull : reg.ebx = 0) :
    ∃ r logged, k.syscall reg = (.ret r, (k, [logged])) ∧ logged.args = [] := by
  rw [syscall, syscallInterruptHandler, h,
    show syscallHandler loggedSyscalls 1 = some sysPrintf from rfl]
  simp only [sysPrintf, if_pos hnull]
  exact ⟨_, _, rfl, rfl⟩

theorem syscall_fork (h : reg.eax = 2) :
    k.syscall reg = (k.sysFork.1.map fun r => { reg with eax := r }, (k.next .sysFork, [])) := by
  rw [syscall, syscallInterruptHandler, h]
  rfl

theorem syscall_exit (h : reg.eax = 3) :
    k.syscall reg = ((k.sysExit reg.ebx).1.map fun r => { reg with eax := r },
      (k.next (.sysExit reg.ebx), [])) := by
  rw [syscall, syscallInterruptHandler, h]
  rfl

theorem syscall_wait (h : reg.eax = 4) :
    k.syscall reg = ((k.sysWait reg.ebx).1.map fun r => { reg with eax := r },
      ((k.sysWait reg.ebx).2, [])) := by
  rw [syscall, syscallInterruptHandler, h]
  rfl

/-- A call that changes no memory of its caller. -/
def NotStored {α : Type} (e : Exit α) : Prop := ∀ addr value a, e ≠ .stored addr value a

theorem NotStored.ret {α : Type} (a : α) : NotStored (.ret a) := fun _ _ _ h => by cases h

theorem NotStored.map {α β : Type} {e : Exit α} (h : NotStored e) (f : α → β) :
    NotStored (e.map f) := by
  cases e with
  | stored addr value a => exact absurd rfl (h addr value a)
  | _ => exact fun _ _ _ heq => by cases heq

theorem sysFork_notStored (k : Kernel) : NotStored k.sysFork.1 := by
  unfold sysFork
  split
  · exact .ret _
  · split
    · exact .ret _
    · simp only
      split
      · exact .ret _
      · split
        · exact .ret _
        · exact .ret _

theorem sysExit_notStored (k : Kernel) (status : Word) : NotStored (k.sysExit status).1 := by
  unfold sysExit
  split
  · exact .ret _
  · refine NotStored.map ?_ _
    unfold schedule
    split
    · exact .ret _
    · exact fun _ _ _ heq => by cases heq

theorem afterSyscall_of_notStored {e : Exit CpuState} {logged : List LogCall}
    (h : k.syscall reg = (e, (k', logged))) (he : NotStored e) : k.afterSyscall reg = k' := by
  rw [afterSyscall, h]
  cases e with
  | stored addr value s => exact absurd rfl (he addr value s)
  | _ => rfl

/-- What a system call does, by its number. -/
inductive SyscallEffect (k : Kernel) (reg : CpuState) : Prop
  | prints {r : CpuState} : reg.eax = 1 → reg.ebx ≠ 0 →
      k.syscall reg = (.ret r, (k, [printCall reg.ebx])) → SyscallEffect k reg
  | waits : reg.eax = 4 → SyscallEffect k reg
  | touchesNone {e : Exit CpuState} {k' : Kernel} {logged : List LogCall} :
      (reg.eax = 1 → reg.ebx = 0) → k.syscall reg = (e, (k', logged)) → NotStored e →
      (∀ call ∈ logged, call.args = []) →
      (k' = k ∨ k' = k.next .sysFork ∨ k' = k.next (.sysExit reg.ebx)) → SyscallEffect k reg

theorem syscall_effect (k : Kernel) (reg : CpuState) : SyscallEffect k reg := by
  by_cases h1 : reg.eax = 1
  · by_cases hnull : reg.ebx = 0
    · obtain ⟨r, logged, hr, hargs⟩ := syscall_printf_null (k := k) h1 hnull
      refine .touchesNone (fun _ => hnull) hr (.ret _) (fun call hcall => ?_) (.inl rfl)
      rwa [List.mem_singleton.mp hcall]
    · exact .prints h1 hnull (syscall_printf h1 hnull)
  have hno : reg.eax = 1 → reg.ebx = 0 := fun h => absurd h h1
  by_cases h2 : reg.eax = 2
  · exact .touchesNone hno (syscall_fork h2) (k.sysFork_notStored.map _) nofun (.inr (.inl rfl))
  by_cases h3 : reg.eax = 3
  · exact .touchesNone hno (syscall_exit h3) ((k.sysExit_notStored reg.ebx).map _) nofun
      (.inr (.inr rfl))
  by_cases h4 : reg.eax = 4
  · exact .waits h4
  · exact .touchesNone hno (syscall_none (syscallHandler_none h1 h2 h3 h4)) (.ret _) nofun (.inl rfl)

theorem afterSyscall_wait (h : reg.eax = 4) : k.afterSyscall reg = k.next (.sysWait reg.ebx) := by
  rw [afterSyscall, syscall_wait h, next]
  cases k.sysWait reg.ebx with
  | mk e k' => cases e <;> rfl

/-- Only `sys_wait` of a process with an exited child stores, and where its argument points. -/
theorem syscall_stored {value : Word} {state : CpuState}
    (h : (k.syscall reg).1 = .stored addr value state) :
    reg.eax = 4 ∧ reg.ebx ≠ 0 ∧ k.HasZombie ∧ addr = reg.ebx := by
  cases k.syscall_effect reg with
  | prints _ _ hr =>
    rw [hr] at h
    cases h
  | waits h4 =>
    rw [syscall_wait h4] at h
    rcases k.sysWait_cases reg.ebx with hw | ⟨current, child, hcur, hterm, hparent, hw⟩
    · rw [hw] at h
      cases h
    · rw [hw] at h
      split at h
      · cases h
      · next hne =>
        refine ⟨h4, hne, ⟨current, child, hcur, hterm, hparent⟩, ?_⟩
        cases h
        rfl
  | touchesNone _ hr hno =>
    rw [hr] at h
    exact absurd h (hno addr value state)

/-- Such a call does store. -/
theorem HasZombie.stores (hz : k.HasZombie) (h4 : reg.eax = 4) (hne : reg.ebx ≠ 0) :
    ∃ value state, (k.syscall reg).1 = .stored reg.ebx value state := by
  obtain ⟨current, child, hcur, hterm, hparent⟩ := hz
  obtain ⟨i, -, hw⟩ := sysWait_reaps hcur hterm hparent reg.ebx
  rw [syscall_wait h4, hw, if_neg hne]
  exact ⟨_, _, rfl⟩

/-- Only `sys_printf` has a string read, at its argument. -/
theorem logged_reads {call : LogCall} {a : Word} (hcall : call ∈ (k.syscall reg).2.2)
    (h : k.LogReads call a) : reg.eax = 1 ∧ reg.ebx ≠ 0 ∧ call = printCall reg.ebx := by
  have hargs : call.args ≠ [] := by
    obtain ⟨k', s, -, hstop⟩ := h
    obtain ⟨str, hmem, -⟩ := logWrite_page hstop
    exact List.ne_nil_of_mem hmem
  cases k.syscall_effect reg with
  | prints h1 hne hr =>
    rw [hr] at hcall
    exact ⟨h1, hne, List.mem_singleton.mp hcall⟩
  | waits h4 =>
    rw [syscall_wait h4] at hcall
    cases hcall
  | touchesNone _ hr _ hquiet =>
    rw [hr] at hcall
    exact absurd (hquiet call hcall) hargs

/-- A word is in user space exactly if each of its bytes is. -/
theorem word_user_iff (addr : Word) :
    (∀ i < 4, addr + BitVec.ofNat 32 i < kernelVirtualStart) ↔
      addr.toNat + 4 ≤ kernelVirtualStart.toNat := by
  have hstart : kernelVirtualStart.toNat = 0xC0000000 := rfl
  constructor
  · intro h
    have hfirst := h 0 (by decide)
    have hlast := h 3 (by decide)
    rw [BitVec.lt_def, BitVec.toNat_add, BitVec.toNat_ofNat] at hfirst hlast
    omega
  · intro h i hi
    rw [BitVec.lt_def, toNat_add_ofNat (by omega)]
    omega

/-- A system call stays in user space exactly if the string that it prints ends there and the word
that it stores lies there. -/
theorem Consistent.staysInUserSpace_iff (hk : k.Consistent) (reg : CpuState) :
    k.StaysInUserSpace reg ↔ k.FormatEnds reg ∧ k.StatusFits reg := by
  constructor
  · intro h
    refine ⟨fun h1 hne => ?_, fun h4 hne hz => ?_⟩
    · refine (hk.reads_user_iff hne).mp fun a hread => h a (.logged ?_ hread)
      rw [syscall_printf h1 hne]
      exact List.mem_singleton_self _
    · obtain ⟨value, state, hstored⟩ := hz.stores h4 hne
      exact (word_user_iff reg.ebx).mp fun i hi => h _ (.stored hstored hi)
  · rintro ⟨hformat, hstatus⟩ a ha
    cases ha with
    | logged hcall hread =>
      obtain ⟨h1, hne, rfl⟩ := logged_reads hcall hread
      exact (hk.reads_user_iff hne).mpr (hformat h1 hne) a hread
    | stored hstored hi =>
      obtain ⟨h4, hne, hz, rfl⟩ := syscall_stored hstored
      exact (word_user_iff reg.ebx).mpr (hstatus h4 hne hz) _ hi

end Kernel

/-! ### Runs -/

namespace History

variable {img : KernelImage} {h : History}

theorem reach_call (hh : img.historySystem.Reach h) (call : Call)
    (hstatus : call.StatusInUserSpace) :
    ∃ h', img.historySystem.Reach h' ∧ h'.kernel = h.kernel.next call :=
  ⟨_, .step (a := .call call) hh trivial ⟨hstatus, rfl⟩, rfl⟩

/-- The faults of a call of `log_write` are calls of the fault handler. -/
theorem reach_logs (hh : img.historySystem.Reach h) {call : LogCall} {k' : Kernel}
    (hlogs : h.kernel.Logs call k') : ∃ h', img.historySystem.Reach h' ∧ h'.kernel = k' := by
  induction hlogs with
  | start => exact ⟨h, hh, rfl⟩
  | @fault _ a _ _ _ _ ih =>
    obtain ⟨h', hh', rfl⟩ := ih
    exact reach_call hh' (.pageFault a ⟨14, 0⟩) fun _ heq => by cases heq

theorem reach_logsLead {calls : List LogCall} {k k' : Kernel} (hlead : Kernel.LogsLead calls k k')
    {h : History} (hh : img.historySystem.Reach h) (hk : h.kernel = k) :
    ∃ h', img.historySystem.Reach h' ∧ h'.kernel = k' := by
  induction hlead generalizing h with
  | nil => exact ⟨h, hh, hk⟩
  | cons hlogs _ _ ih =>
    subst hk
    obtain ⟨h₁, hh₁, hk₁⟩ := reach_logs hh hlogs
    exact ih hh₁ hk₁

theorem reach_syscall (hh : img.historySystem.Reach h) {reg : CpuState}
    (hfit : h.kernel.StatusFits reg) :
    ∃ h', img.historySystem.Reach h' ∧ h'.kernel = h.kernel.afterSyscall reg := by
  cases h.kernel.syscall_effect reg with
  | prints _ _ hr =>
    rw [Kernel.afterSyscall_of_notStored hr (.ret _)]
    exact ⟨h, hh, rfl⟩
  | waits h4 =>
    rw [Kernel.afterSyscall_wait h4]
    rcases h.kernel.sysWait_cases reg.ebx with hw | ⟨current, child, hcur, hterm, hparent, -⟩
    · exact ⟨h, hh, by rw [Kernel.next, hw]⟩
    · refine reach_call hh _ fun p heq => ?_
      obtain rfl := Call.sysWait.inj heq
      exact or_iff_not_imp_left.mpr fun hne => hfit h4 hne ⟨current, child, hcur, hterm, hparent⟩
  | touchesNone _ hr hno _ hk' =>
    rw [Kernel.afterSyscall_of_notStored hr hno]
    rcases hk' with rfl | rfl | rfl
    · exact ⟨h, hh, rfl⟩
    · exact reach_call hh _ fun _ heq => by cases heq
    · exact reach_call hh _ fun _ heq => by cases heq

end History

/-- Runs with such system calls are runs of the kernel with its history. -/
theorem KernelImage.history_of_traps {img : KernelImage} {k : Kernel}
    (hk : img.trapSystem.ReachWhen Kernel.StoresFit k) :
    ∃ h, img.historySystem.Reach h ∧ h.kernel = k := by
  induction hk with
  | init h =>
    obtain ⟨ram, bitmap, rfl⟩ := h
    exact ⟨_, .init ⟨ram, bitmap, rfl⟩, rfl⟩
  | @step k k' trap _ hfit hstep ih =>
    obtain ⟨h, hh, rfl⟩ := ih
    cases trap with
    | syscall reg =>
      obtain ⟨-, hleads⟩ := hstep
      obtain ⟨h', hh', hk'⟩ := History.reach_syscall hh hfit
      exact History.reach_logsLead (hleads hfit) hh' hk'
    | other event =>
      cases event with
      | call call =>
        obtain ⟨hno, rfl⟩ := hstep
        refine History.reach_call hh call fun p heq => ?_
        rw [heq] at hno
        exact hno.elim
      | resume i =>
        obtain ⟨hdispatched, rfl⟩ := hstep
        exact ⟨_, .step (a := .resume i) hh trivial ⟨hdispatched, rfl⟩, rfl⟩

/-- In every state that the kernel reaches, when no status was stored outside user space before, a
system call with any registers reads and writes in user space only exactly if the format that it
prints ends there and the status that it stores fits there. -/
theorem stays_in_user_space_iff (img : KernelImage) {k : Kernel}
    (hk : img.trapSystem.ReachWhen Kernel.StoresFit k) (reg : CpuState) :
    k.StaysInUserSpace reg ↔ k.FormatEnds reg ∧ k.StatusFits reg := by
  obtain ⟨h, hh, rfl⟩ := KernelImage.history_of_traps hk
  exact (Recorded.of_reach hh).consistent.staysInUserSpace_iff reg

theorem Kernel.dispatch_pages {k k₁ : Kernel} {i : Slot} {d : Word} {birth : Kernel.Birth}
    (hnew : Kernel.Created k k₁ i d birth) (hpages : (userPages k₁.mem.ram d).card ≤ 1) :
    (userPages (k₁.dispatch i).mem.ram ((k₁.dispatch i).cr3 i)).card ≤ 1 := by
  rw [Kernel.cr3, Kernel.dispatch_self, hnew.new]
  exact hpages

/-- The sample kernel's first program runs. -/
theorem KernelImage.sample_traps :
    ∃ k i, KernelImage.sample.trapSystem.ReachWhen Kernel.StoresFit k ∧
      KernelImage.sample.system.Reach k ∧ k.currentProcess = some i ∧
      (userPages k.mem.ram (k.cr3 i)).card ≤ 1 := by
  obtain ⟨i, d, birth, hnew, -, hpages, -, hreach⟩ := KernelImage.sample_process
  have hcreate : ∀ k : Kernel, k.next (.createProcess 0xC0110000 4096) =
    (k.createProcess 0xC0110000 4096).2 := fun _ => rfl
  have htick : ∀ k : Kernel, k.next .schedule = k.schedule.2 := fun _ => rfl
  have hcall : ∀ {k : Kernel} (call : Call), KernelImage.sample.trapSystem.ReachWhen
      Kernel.StoresFit k → (Event.call call).NoSyscall →
        KernelImage.sample.trapSystem.ReachWhen Kernel.StoresFit (k.next call) :=
    fun call hk hno => .step (a := .other (.call call)) hk trivial ⟨hno, rfl⟩
  have hrun := hcall .schedule (hcall (.createProcess 0xC0110000 4096)
    (.init KernelImage.sampleBoot_init) trivial) trivial
  rw [htick, hcreate, Kernel.schedule_some hnew.readyQueueHead] at hrun
  exact ⟨_, i, hrun, hreach, rfl, Kernel.dispatch_pages hnew hpages⟩

/-- It prints a string on a page that is not there yet. -/
theorem stays_in_user_space_iff_sample :
    ∃ k addr, KernelImage.sample.trapSystem.ReachWhen Kernel.StoresFit k ∧
      k.StaysInUserSpace (Cpu.sampleTrap 1 addr).reg := by
  obtain ⟨k, i, hrun, -, hcur, hpages⟩ := KernelImage.sample_traps
  obtain ⟨addr, haddr, habsent⟩ := exists_absent hpages
  refine ⟨k, addr, hrun, (stays_in_user_space_iff .sample hrun _).mpr ⟨fun _ _ => ?_, nofun⟩⟩
  refine ⟨0, haddr, fun b hb => ?_⟩
  rw [show (Cpu.sampleTrap 1 addr).reg.ebx + BitVec.ofNat 32 0 = addr from BitVec.add_zero addr,
    Kernel.currentByte, hcur, Option.bind_some, Kernel.userByte, translate_eq_none habsent] at hb
  cases hb

/-- In the first 4 MB of the kernel half a process has the kernel's memory. -/
theorem Kernel.currentByte_kernel {img : KernelImage} {k : Kernel} (hk : img.system.Reach k) {c : Slot}
    (hcur : k.currentProcess = some c) {f : Word} (hf : PageAligned f) (hlow : f < 0x400000) :
    k.currentByte (f + kernelVirtualStart) = some (k.mem.ram f) := by
  have hrun := KernelImage.running_of_reach hk
  have hiso := hrun.wellFormed.isolated
  obtain ⟨ram, bitmap, hboot⟩ := hrun.booted
  have hlive := (hrun.wellFormed.current c hcur).not_free
  have hsmall : f.toNat < 0x400000 := hlow
  have hmapped := (KernelImage.directMapped_of_keeps hboot hiso
    (hiso.kernelHalf _ ⟨c, hlive, rfl⟩) hf (by omega)).mpr hlow 0 (by decide)
  have hzero : ∀ a : Word, a + 0 = a := BitVec.add_zero
  have haddr : k.mem.physToVirt f + 0 = f + kernelVirtualStart := by
    rw [hzero, PhysMem.physToVirt, PageFrameAllocator.physToVirt, hiso.higher_half]
  rw [haddr, hzero] at hmapped
  rw [currentByte, hcur, Option.bind_some, userByte]
  exact congrArg (Option.map _) hmapped

/-- It prints a string in the kernel's image. -/
theorem printf_reads_kernel :
    ∃ k, KernelImage.sample.trapSystem.Reach k ∧ k.currentProcess ≠ none ∧
      k.Touches (Cpu.sampleTrap 1 0xC0100000).reg 0xC0100000 ∧
      k.currentByte 0xC0100000 = some (k.mem.ram 0x100000) ∧
      ¬k.StaysInUserSpace (Cpu.sampleTrap 1 0xC0100000).reg := by
  obtain ⟨k, i, hrun, hreach, hcur, -⟩ := KernelImage.sample_traps
  have hread : k.LogReads (Kernel.printCall 0xC0100000) (0xC0100000 + BitVec.ofNat 32 0) :=
    Kernel.logReads_of_nonzero (by decide) (by decide) fun i hi => absurd hi (Nat.not_lt_zero i)
  have htouch : k.Touches (Cpu.sampleTrap 1 0xC0100000).reg 0xC0100000 := by
    refine .logged ?_ hread
    rw [Kernel.syscall_printf rfl (by decide)]
    exact List.mem_singleton_self _
  refine ⟨k, hrun.reach, by rw [hcur]; exact nofun, htouch, ?_, fun h => ?_⟩
  · exact Kernel.currentByte_kernel hreach hcur (f := 0x100000) (by decide) (by decide)
  · exact absurd (h _ htouch) (by decide)

end Lbos

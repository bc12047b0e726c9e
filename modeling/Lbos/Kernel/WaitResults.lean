import Mathlib.Data.Multiset.MapFold
import Lbos.Kernel.Reaping

/-! What `sys_wait` returns.  It clears the `pid` of the child before it reads it, so that a caller
that reaps a child is told 0 and not the pid that `sys_fork` returned for it. -/

namespace Lbos

open Lib Mem

/-- What a call returns, when it does. -/
def Exit.result {α : Type} : Exit α → Option α
  | ret a => some a
  | stored _ _ a => some a
  | switched .. => none
  | halted => none

/-- A child that was reaped: the numbers of the creations of its parent and of its own, and what
`sys_wait` returned. -/
structure WaitRecord where
  caller : Nat
  child : Nat
  result : Word

namespace History

variable (h : History)

instance (statusPtr : Word) (i : Slot) : Decidable (h.kernel.Frees statusPtr i) :=
  inferInstanceAs (Decidable (_ ∧ _))

/-- What is recorded of a `sys_wait`. -/
def waitRecords (statusPtr : Word) : List WaitRecord :=
  ((List.finRange maxProcesses).filter fun i => h.kernel.Frees statusPtr i).filterMap fun i => do
    let caller ← h.kernel.currentProcess.bind h.lives
    let child ← h.lives i
    let result ← (h.kernel.sysWait statusPtr).1.result
    pure ⟨caller.serial, child.serial, result⟩

/-- The current process has a child that has exited. -/
def HasExitedChild : Prop :=
  ∃ current parent i life, h.kernel.currentProcess = some current ∧
    h.lives current = some parent ∧ h.lives i = some life ∧ life.parent = some parent.serial ∧
    (h.kernel.processTable i).state = .terminated

end History

/-- A history with what its calls returned: for each child that was forked the number of its creation
and the result of `sys_fork`, and the children that were reaped. -/
structure WaitLog where
  history : History
  forks : List (Nat × Word)
  waits : List WaitRecord

namespace WaitLog

variable (w : WaitLog)

/-- The records after an event that led to `h'`. -/
def advance (event : Event) (h' : History) : WaitLog where
  history := h'
  forks :=
    match event with
    | .call .sysFork =>
      if w.history.created < h'.created then
        (w.history.kernel.sysFork.1.result.map (w.history.created, ·)).toList ++ w.forks
      else w.forks
    | _ => w.forks
  waits :=
    match event with
    | .call (.sysWait statusPtr) => w.history.waitRecords statusPtr ++ w.waits
    | _ => w.waits

/-- `sys_wait` does what its caller expects.  Without an exited child it fails and leaves the process
table alone; otherwise it gives the slot of one back and returns what `sys_fork` returned for it,
which is not zero. -/
structure WaitRight (statusPtr : Word) : Prop where
  failing : ¬w.history.HasExitedChild →
    (w.history.kernel.sysWait statusPtr).1 = .ret 0xFFFFFFFF ∧
      (w.history.kernel.sysWait statusPtr).2.processTable = w.history.kernel.processTable
  reaping : w.history.HasExitedChild → ∃ i life pid, w.history.kernel.Frees statusPtr i ∧
    w.history.lives i = some life ∧ (life.serial, pid) ∈ w.forks ∧
    (w.history.kernel.sysWait statusPtr).1.result = some pid ∧ pid ≠ 0

/-- The results that a process has got from `sys_wait`. -/
def results (caller : Nat) : Multiset (Option Word) :=
  ((w.waits.filter (·.caller = caller)).map fun e => some e.result : List (Option Word))

/-- The pids of the children that a process has reaped, as `sys_fork` returned them. -/
def reapedPids (caller : Nat) : Multiset (Option Word) :=
  ((w.waits.filter (·.caller = caller)).map fun e => w.forks.lookup e.child : List (Option Word))

/-- Every process has got the pids of the children that it has reaped. -/
def ResultsMatch : Prop := ∀ caller, w.results caller = w.reapedPids caller

/-- The event, if it is a `sys_wait`, does what its caller expects. -/
def EventRight (event : Event) : Prop :=
  ∀ statusPtr, event = .call (.sysWait statusPtr) → w.WaitRight statusPtr

/-- The event is no `sys_wait` of a process with an exited child. -/
def NoChildWaits (event : Event) : Prop :=
  ∀ statusPtr, event = .call (.sysWait statusPtr) → ¬w.history.HasExitedChild

end WaitLog

/-- The kernel from boot on, with its history and the results. -/
def KernelImage.waitSystem (img : KernelImage) : System WaitLog Event where
  init w := ∃ h, img.historySystem.init h ∧ w = ⟨h, [], []⟩
  step w event w' := ∃ h', img.historySystem.step w.history event h' ∧ w' = w.advance event h'

section Waits

variable {img : KernelImage} {w : WaitLog}

theorem WaitLog.reach_history (hw : img.waitSystem.Reach w) :
    img.historySystem.Reach w.history := by
  refine hw.invariant (I := fun (w : WaitLog) => img.historySystem.Reach w.history) ?_ ?_
  · rintro _ ⟨h, hinit, rfl⟩
    exact .init hinit
  · rintro w event _ _ hh _ ⟨h', hstep, rfl⟩
    exact .step hh trivial hstep

/-- Every call may be made in every state, but `sys_wait` with a null pointer or one into user
space only. -/
theorem WaitLog.call_step (img : KernelImage) (w : WaitLog) (call : Call)
    (hstatus : call.StatusInUserSpace) :
    ∃ w', img.waitSystem.step w (.call call) w' ∧ w'.history.kernel = w.history.kernel.next call :=
  ⟨_, ⟨_, ⟨hstatus, rfl⟩, rfl⟩, rfl⟩

/-- Every history has its results. -/
theorem KernelImage.waitLog_of_reach {h : History} (hh : img.historySystem.Reach h) :
    ∃ w, img.waitSystem.Reach w ∧ w.history = h := by
  refine hh.simulates (R := fun (h : History) (w : WaitLog) => w.history = h) (fun h hinit => ?_) ?_
  · exact ⟨_, ⟨h, hinit, rfl⟩, rfl⟩
  · rintro h event h' w - - hstep rfl
    exact ⟨event, _, ⟨h', hstep, rfl⟩, rfl⟩

namespace Recorded

variable {h : History}

/-- An exited child is one that `sys_wait` looks for. -/
theorem zombie (hr : Recorded h) {current i : Slot} {parent life : Life}
    (hp : h.lives current = some parent) (hl : h.lives i = some life)
    (hpar : life.parent = some parent.serial) :
    (h.kernel.processTable i).parentPid = (h.kernel.processTable current).pid := by
  have hnum := (hr.agrees i life hl).parent
  rw [hpar, Option.elim_some, ← (hr.agrees current parent hp).pid] at hnum
  exact BitVec.eq_of_toNat_eq hnum

/-- Without an exited child `sys_wait` fails. -/
theorem sysWait_fails (hr : Recorded h) (hnone : ¬h.HasExitedChild) (statusPtr : Word) :
    h.kernel.sysWait statusPtr = (.ret (-1), h.kernel) := by
  rcases h.kernel.sysWait_cases statusPtr with hw | ⟨current, i, hcur, hterm, hparent, -⟩
  · exact hw
  · obtain ⟨life, parent, hl, hp, hpar, -⟩ := hr.child hcur hterm hparent
    exact absurd ⟨current, parent, i, life, hcur, hp, hl, hpar, hterm⟩ hnone

/-- With an exited child it reaps one, and returns 0. -/
theorem sysWait_zero (hr : Recorded h) (hchild : h.HasExitedChild) (statusPtr : Word) :
    ∃ i, (h.kernel.processTable i).state = .terminated ∧
      (h.kernel.sysWait statusPtr).1.result = some 0 ∧
      (h.kernel.sysWait statusPtr).2 = h.kernel.reap i := by
  obtain ⟨current, parent, i, life, hcur, hp, hl, hpar, hterm⟩ := hchild
  obtain ⟨j, hj, hw⟩ := Kernel.sysWait_reaps hcur hterm (hr.zombie hp hl hpar) statusPtr
  refine ⟨j, hj, ?_, by rw [hw]⟩
  rw [hw]
  split <;> rfl

end Recorded

/-! ### What `sys_fork` returned -/

/-- A fork that fills a slot returns the pid of the process in it. -/
theorem Recorded.fork_result {h : History} (hr : Recorded h) {i : Slot}
    (hold : (h.kernel.processTable i).state = .free)
    (hnew : (h.kernel.sysFork.2.processTable i).state ≠ .free) :
    h.kernel.sysFork.1 = .ret (h.kernel.sysFork.2.processTable i).pid := by
  cases hcur : h.kernel.currentProcess with
  | none =>
    have hsame : h.kernel.sysFork.2 = h.kernel := by simp [Kernel.sysFork, hcur]
    rw [hsame] at hnew
    exact absurd hold hnew
  | some current =>
    have hlive := (hr.consistent.current current hcur).not_free
    obtain ⟨r, hfork, hspawn⟩ := Kernel.sysFork_spawn hr.consistent.isolated hcur hlive
    rw [hfork] at hnew ⊢
    have hother : ∀ {j : Slot} {k' : Kernel}, (∀ n ≠ j, k'.processTable n =
        h.kernel.processTable n) → (k'.processTable i).state ≠ .free → i = j :=
      fun {j k'} hothers hi => by
        by_contra hne
        rw [hothers i hne] at hi
        exact hi hold
    cases hspawn with
    | noSlot => exact absurd hold hnew
    | failed hf =>
      obtain rfl := hother hf.others hnew
      exact absurd hf.state hnew
    | created hc =>
      obtain rfl := hother (fun _ => hc.others) hnew
      have hpid : h.kernel.nextPid = _ := (congrArg Process.pid hc.new).symm
      exact congrArg Exit.ret hpid

/-- After a call, a process with a parent was there before, or is the child of a `sys_fork`. -/
theorem History.lifeAfter_parent {h : History} {call : Call} {k' : Kernel} {i : Slot} {life : Life}
    (hlife : h.lifeAfter call k' i = some life) (hparent : life.parent ≠ none) :
    (∃ old, h.lives i = some old ∧ old.serial = life.serial ∧ old.parent = life.parent) ∨
      (call = .sysFork ∧ (h.kernel.processTable i).state = .free ∧
        (k'.processTable i).state ≠ .free ∧ life.serial = h.created) := by
  unfold lifeAfter at hlife
  split at hlife
  · cases hlife
  next hnew =>
    split at hlife
    next hold =>
      split at hlife
      · obtain rfl := Option.some.inj hlife
        exact .inr ⟨rfl, hold, hnew, rfl⟩
      · obtain rfl := Option.some.inj hlife
        exact absurd rfl hparent
    next =>
      left
      split at hlife
      next status =>
        split at hlife
        · obtain ⟨old, hold, rfl⟩ := Option.map_eq_some_iff.mp hlife
          exact ⟨old, hold, rfl, rfl⟩
        · exact ⟨life, hlife, rfl, rfl⟩
      · exact ⟨life, hlife, rfl, rfl⟩

/-- The children that live are recorded with the pid that `sys_fork` returned, the number of their
creation and one. -/
def WaitLog.ForksRecorded (w : WaitLog) : Prop :=
  ∀ i life, w.history.lives i = some life → life.parent ≠ none →
    ∃ pid, (life.serial, pid) ∈ w.forks ∧ pid.toNat = life.serial + 1

theorem WaitLog.mem_advance {event : Event} {h' : History} {entry : Nat × Word}
    (hentry : entry ∈ w.forks) : entry ∈ (w.advance event h').forks := by
  unfold advance
  split
  · split
    · exact List.mem_append_right _ hentry
    · exact hentry
  · exact hentry

/-- The child of a `sys_fork` is recorded. -/
theorem WaitLog.fork_recorded (hr : Recorded w.history) {i : Slot} {life : Life}
    (hr' : Recorded (w.history.advance .sysFork (w.history.kernel.next .sysFork)))
    (hlife : w.history.lifeAfter .sysFork (w.history.kernel.next .sysFork) i = some life)
    (hold : (w.history.kernel.processTable i).state = .free)
    (hnew : ((w.history.kernel.next .sysFork).processTable i).state ≠ .free)
    (hserial : life.serial = w.history.created) :
    ∃ pid, (life.serial, pid) ∈
      (w.advance (.call .sysFork) (w.history.advance .sysFork (w.history.kernel.next .sysFork))).forks ∧
        pid.toNat = life.serial + 1 := by
  have hagrees := hr'.agrees i life hlife
  refine ⟨_, ?_, hagrees.pid⟩
  have hlt : w.history.created <
      (w.history.advance .sysFork (w.history.kernel.next .sysFork)).created :=
    hserial ▸ hagrees.serial_lt
  unfold advance
  simp only [if_pos hlt]
  rw [hr.fork_result hold hnew, hserial]
  exact List.mem_append_left _ (List.mem_singleton.mpr rfl)

theorem WaitLog.forks_recorded (hw : img.waitSystem.Reach w) : w.ForksRecorded := by
  refine hw.invariant ?_ ?_
  · rintro _ ⟨h, ⟨ram, bitmap, rfl⟩, rfl⟩ i life hlife
    cases hlife
  · rintro w event w' hreach ih - ⟨h', hstep, rfl⟩ i life hlife hparent
    have hr := Recorded.of_reach (reach_history hreach)
    have hr' := hr.step hstep
    have hkept : ∀ old, w.history.lives i = some old → old.serial = life.serial →
        old.parent = life.parent → ∃ pid, (life.serial, pid) ∈ (w.advance event h').forks ∧
          pid.toNat = life.serial + 1 := fun old hold hserial hpar => by
      obtain ⟨pid, hmem, hpid⟩ := ih i old hold (hpar ▸ hparent)
      exact ⟨pid, mem_advance (hserial ▸ hmem), hserial ▸ hpid⟩
    cases event with
    | resume j =>
      obtain ⟨-, rfl⟩ := hstep
      exact hkept life hlife rfl rfl
    | call call =>
      obtain ⟨-, rfl⟩ := hstep
      rcases History.lifeAfter_parent hlife hparent with ⟨old, hold, hserial, hpar⟩ |
        ⟨rfl, hold, hnew, hserial⟩
      · exact hkept old hold hserial hpar
      · exact fork_recorded hr hr' hlife hold hnew hserial

/-! ### Right results -/

/-- `sys_wait` does what its caller expects exactly when that has no exited child. -/
theorem WaitLog.waitRight_iff (hr : Recorded w.history) (statusPtr : Word) :
    w.WaitRight statusPtr ↔ ¬w.history.HasExitedChild := by
  constructor
  · rintro ⟨-, hreaping⟩ hchild
    obtain ⟨_, _, pid, -, -, -, hresult, hpid⟩ := hreaping hchild
    obtain ⟨_, -, hzero, -⟩ := hr.sysWait_zero hchild statusPtr
    exact hpid (Option.some.inj (hresult.symm.trans hzero))
  · intro hnone
    have hfails := hr.sysWait_fails hnone statusPtr
    refine ⟨fun _ => ?_, fun hchild => absurd hchild hnone⟩
    rw [hfails]
    exact ⟨rfl, rfl⟩

theorem WaitLog.waitRecords_nil (hr : Recorded w.history) (hnone : ¬w.history.HasExitedChild)
    (statusPtr : Word) : w.history.waitRecords statusPtr = [] := by
  have hfreed : (List.finRange maxProcesses).filter
      (fun i => w.history.kernel.Frees statusPtr i) = [] := by
    refine List.filter_eq_nil_iff.mpr fun i _ hi => ?_
    obtain ⟨hlive, hfree⟩ := of_decide_eq_true hi
    rw [hr.sysWait_fails hnone statusPtr] at hfree
    exact hlive hfree
  rw [History.waitRecords, hfreed]
  rfl

/-- As long as no caller has an exited child, nothing is reaped. -/
theorem WaitLog.waits_nil (hr : Recorded w.history) (hnil : w.waits = []) {event : Event}
    (hcond : w.NoChildWaits event) (h' : History) : (w.advance event h').waits = [] := by
  cases event with
  | resume => exact hnil
  | call call =>
    cases call with
    | sysWait statusPtr =>
      show w.history.waitRecords statusPtr ++ w.waits = []
      rw [waitRecords_nil hr (hcond statusPtr rfl), hnil]
      rfl
    | _ => exact hnil

theorem WaitLog.resultsMatch_of_nil (hnil : w.waits = []) : w.ResultsMatch := by
  intro caller
  rw [results, reapedPids, hnil]
  rfl

end Waits

/-- In a run the callers of `sys_wait` are told of their children what they expect, and have got the
pids of those that they reaped, exactly if no caller has an exited child. -/
theorem wait_results_iff (img : KernelImage) {w : WaitLog} (hw : img.waitSystem.init w)
    {run : List (Event × WaitLog)} (hrun : img.waitSystem.Run w run) :
    System.Meets WaitLog.EventRight w run ∧ System.Along WaitLog.ResultsMatch w run ↔
      System.Meets WaitLog.NoChildWaits w run := by
  have hiff : ∀ {w : WaitLog} event, img.waitSystem.Reach w →
      (w.EventRight event ↔ w.NoChildWaits event) := fun {w} event hreach => by
    have hr := Recorded.of_reach (WaitLog.reach_history hreach)
    exact forall₂_congr fun statusPtr _ => w.waitRight_iff hr statusPtr
  have hmeets : System.Meets WaitLog.EventRight w run ↔ System.Meets WaitLog.NoChildWaits w run :=
    hrun.meets_iff_meets (I := fun _ => True) (fun _ event _ hreach _ _ => hiff event hreach)
      (fun _ _ _ _ _ _ _ => trivial) (.init hw) trivial
  refine ⟨fun h => hmeets.mp h.1, fun h => ⟨hmeets.mpr h, ?_⟩⟩
  have hnil : System.Along (fun w => w.waits = []) w run := by
    refine hrun.along_of_meets (fun w event w' hreach hnil hcond hstep => ?_) (.init hw) ?_ h
    · obtain ⟨h', -, rfl⟩ := hstep
      exact WaitLog.waits_nil (Recorded.of_reach (WaitLog.reach_history hreach)) hnil hcond h'
    · obtain ⟨h, -, rfl⟩ := hw
      rfl
  exact ⟨WaitLog.resultsMatch_of_nil hnil.1, fun e he => WaitLog.resultsMatch_of_nil (hnil.2 e he)⟩

/-- A parent calls `sys_wait` while its child is ready. -/
theorem wait_results_iff_sample :
    ∃ w w₁ w₂ w₃ w₄ i j, KernelImage.sample.waitSystem.init w ∧
      KernelImage.sample.waitSystem.Run w [(.call (.createProcess 0xC0110000 4096), w₁),
        (.call .schedule, w₂), (.call .sysFork, w₃), (.call (.sysWait 0), w₄)] ∧
      w₃.history.kernel.currentProcess = some i ∧
      (w₃.history.kernel.processTable j).state = .ready ∧
      (w₃.history.kernel.processTable j).parentPid = (w₃.history.kernel.processTable i).pid ∧
      w₃.WaitRight 0 ∧ w₄.ResultsMatch := by
  obtain ⟨k₁, k₂, i, j, d, d', birth, h⟩ := KernelImage.sample_family
  obtain ⟨w, hboot, hk⟩ : ∃ w, KernelImage.sample.waitSystem.init w ∧
      w.history.kernel = KernelImage.sampleBoot :=
    ⟨⟨⟨KernelImage.sampleBoot, 0, fun _ => none, []⟩, [], []⟩, ⟨_, ⟨_, _, rfl⟩, rfl⟩, rfl⟩
  have hload : w.history.kernel.next (.createProcess 0xC0110000 4096) = k₁ := by
    have hnext : ∀ k : Kernel, k.next (.createProcess 0xC0110000 4096) =
      (k.after (.createProcess 0xC0110000 4096)).getD k := fun _ => rfl
    rw [hk, hnext, h.load]
    rfl
  have htick : k₁.next .schedule = k₂ := by
    have hnext : ∀ k : Kernel, k.next .schedule = (k.after .schedule).getD k := fun _ => rfl
    rw [hnext, h.tick]
    rfl
  obtain ⟨w₁, hstep₁, hk₁⟩ := w.call_step .sample (.createProcess 0xC0110000 4096) nofun
  obtain ⟨w₂, hstep₂, hk₂⟩ := w₁.call_step .sample .schedule nofun
  obtain ⟨w₃, hstep₃, hk₃⟩ := w₂.call_step .sample .sysFork nofun
  obtain ⟨w₄, hstep₄, -⟩ := w₃.call_step .sample (.sysWait 0)
    fun _ heq => .inl (Call.sysWait.inj heq).symm
  have hw₃ : w₃.history.kernel = k₂.sysFork.2 := by
    rw [hk₃, hk₂, hk₁, hload, htick]
    rfl
  have hrun := System.Run.cons hstep₁ (.cons hstep₂ (.cons hstep₃ (.cons hstep₄ (.nil _))))
  have hmeets := (wait_results_iff .sample hboot hrun).mpr ⟨nofun, nofun, nofun, ?_, trivial⟩
  · refine ⟨w, w₁, w₂, w₃, w₄, i, j, hboot, hrun, ?_, ?_, ?_, ?_, ?_⟩
    · rw [hw₃, h.current]
    · rw [hw₃, h.ready]
    · rw [hw₃, h.child]
    · exact hmeets.1.2.2.2.1 0 rfl
    · exact hmeets.2.2 (.call (.sysWait 0), w₄) (by simp)
  · rintro _ - ⟨_, _, x, _, -, -, -, -, hterm⟩
    rw [hw₃] at hterm
    exact h.not_terminated x hterm

/-- A child is forked and exits, and `sys_wait` returns 0 for it instead of its pid.  The parent gets
the processor back by `Event.resume`; no code of the kernel gives it back. -/
theorem wait_returns_zero :
    ∃ w i life pid, KernelImage.sample.waitSystem.Reach w ∧ w.history.kernel.Frees 0 i ∧
      w.history.lives i = some life ∧ (life.serial, pid) ∈ w.forks ∧ pid ≠ 0 ∧
      (w.history.kernel.sysWait 0).1 = .ret 0 ∧ ¬w.WaitRight 0 := by
  obtain ⟨h, h', -, i, -, -, hh, -, hh', hlive, hfree⟩ := KernelImage.sample_wait 0
  have hreach := History.reach_forked hh hh'
  obtain ⟨w, hw, rfl⟩ := KernelImage.waitLog_of_reach hreach
  have hr := Recorded.of_reach hreach
  rcases w.history.kernel.sysWait_cases 0 with hret | ⟨current, child, hcur, hterm, hparent, hret⟩
  · rw [hret] at hfree
    exact absurd hfree hlive
  · obtain ⟨life, parent, hl, hp, hpar, -⟩ := hr.child hcur hterm hparent
    obtain ⟨pid, hmem, hpid⟩ := WaitLog.forks_recorded hw child life hl (by rw [hpar]; exact nofun)
    have hi : i = child := by
      by_contra hne
      rw [hret, Kernel.reap_others hne] at hfree
      exact hlive hfree
    refine ⟨w, i, life, pid, hw, ⟨hlive, hfree⟩, hi ▸ hl, hmem, fun hzero => ?_, ?_, fun hright => ?_⟩
    · rw [hzero] at hpid
      exact absurd hpid (Nat.succ_ne_zero _).symm
    · rw [hret, if_pos rfl]
    · exact (WaitLog.waitRight_iff hr 0).mp hright ⟨current, parent, child, life, hcur, hp, hl, hpar,
        hterm⟩

end Lbos

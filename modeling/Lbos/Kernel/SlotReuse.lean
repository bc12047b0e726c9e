import Lbos.Kernel.Boot
import Lbos.Kernel.Interleaving
import Lbos.Kernel.Spawn
import Lbos.Lib.Handout

/-! Which slots of the process table are handed out, when creations are interleaved with each other
and with the other calls.  `allocate_pcb_and_pid` leaves the state of the slot `PROCESS_STATE_FREE`
until the creation's last step. -/

namespace Lbos

open Lib

/-- The kernel with the creations in progress, and the log of its slots: handed out by
`allocate_pcb_and_pid`, and set back to `PROCESS_STATE_FREE`. -/
structure Interleaved where
  kernel : Kernel
  creations : List Creation
  log : List (Handout Slot)

namespace Kernel

variable (k : Kernel)

/-- The creation that a call comes to start; `sys_fork` needs a current process for that. -/
def starts : Call → Option Origin
  | .createProcess moduleData moduleSize => some (.createProcess moduleData moduleSize)
  | .createKernelProcess entryPoint => some (.createKernelProcess entryPoint)
  | .sysFork => k.currentProcess.map fun _ => .sysFork
  | _ => none

/-- The slots whose state is set back to `PROCESS_STATE_FREE`. -/
def freed (k' : Kernel) : List Slot :=
  (List.finRange maxProcesses).filter fun i =>
    (k.processTable i).state ≠ .free ∧ (k'.processTable i).state = .free

end Kernel

namespace Interleaved

variable (s : Interleaved)

/-- The allocation that begins a creation. -/
def start (origin : Origin) : Interleaved :=
  match s.kernel.allocatePcbAndPid with
  | (none, k) => { s with kernel := k }
  | (some (newProc, _), k) =>
    { kernel := k
      creations := ⟨origin, newProc, .allocated⟩ :: s.creations
      log := .out newProc :: s.log }

/-- Before each slot that a creation is at, as long as its state is `PROCESS_STATE_FREE`, there is a
free slot that no creation is at. -/
def Clear : Prop :=
  ∀ c ∈ s.creations, (s.kernel.processTable c.newProc).state = .free →
    ∃ j < c.newProc, (s.kernel.processTable j).state = .free ∧ ∀ d ∈ s.creations, d.newProc ≠ j

end Interleaved

/-- A call, or the next step of some creation in progress. -/
inductive Action
  | call (call : Call)
  | advance

/-- Where a call leaves the state unknown, any state may follow. -/
inductive Interleaved.Step : Interleaved → Action → Interleaved → Prop
  | start {s : Interleaved} {call : Call} {origin : Origin} :
      s.kernel.starts call = some origin → Step s (.call call) (s.start origin)
  | call {s : Interleaved} {call : Call} {k' : Kernel} : s.kernel.starts call = none →
      (∀ k₁, s.kernel.after call = some k₁ → k' = k₁) →
      Step s (.call call)
        ⟨k', s.creations, (s.kernel.freed k').map Handout.back ++ s.log⟩
  | goesOn {k k' : Kernel} {before after : List Creation} {c c' : Creation}
      {log : List (Handout Slot)} : k.advance c = (.goesOn c', k') →
      Step ⟨k, before ++ c :: after, log⟩ .advance ⟨k', before ++ c' :: after, log⟩
  | ready {k k' : Kernel} {before after : List Creation} {c : Creation}
      {log : List (Handout Slot)} : k.advance c = (.ready, k') →
      Step ⟨k, before ++ c :: after, log⟩ .advance ⟨k', before ++ after, log⟩
  | failed {k k' : Kernel} {before after : List Creation} {c : Creation}
      {log : List (Handout Slot)} : k.advance c = (.failed, k') →
      Step ⟨k, before ++ c :: after, log⟩ .advance
        ⟨k', before ++ after, .back c.newProc :: log⟩

/-- The runs from any process table, with no creation in progress. -/
def interleaved : System Interleaved Action where
  init s := s.creations = [] ∧ s.log = []
  step := Interleaved.Step

namespace Interleaved

/-- A call starts a creation in a clear state only. -/
def ClearStart (s : Interleaved) : Action → Prop
  | .call call => s.kernel.starts call ≠ none → s.Clear
  | .advance => True

end Interleaved

/-! ### The states of the slots -/

namespace Kernel

variable {k : Kernel}

theorem setContext_state (i : Slot) (context : ProcessContext) (j : Slot) :
    ((k.setContext i context).processTable j).state = (k.processTable j).state := by
  by_cases h : j = i
  · subst h
    simp [setContext]
  · simp [setContext, h]

theorem setState_state_of_ne {i j : Slot} (h : j ≠ i) (state : ProcessState) :
    ((k.setState i state).processTable j).state = (k.processTable j).state := by
  simp [setState, h]

theorem takeSlot_state (i j : Slot) :
    ((k.takeSlot i).processTable j).state = (k.processTable j).state := by
  by_cases h : j = i
  · subst h
    simp
  · simp [h]

/-- What a step of a creation does to the states: it leaves those of the other slots alone, and its
own, up to the last step. -/
inductive Advanced (k : Kernel) (c : Creation) : Progress × Kernel → Prop
  | goesOn {c' : Creation} {k' : Kernel} : c'.newProc = c.newProc →
      (∀ j, (k'.processTable j).state = (k.processTable j).state) → Advanced k c (.goesOn c', k')
  | ready {k' : Kernel} : (k'.processTable c.newProc).state = .ready →
      (∀ j ≠ c.newProc, (k'.processTable j).state = (k.processTable j).state) →
      Advanced k c (.ready, k')
  | failed {k' : Kernel} : (k'.processTable c.newProc).state = .free →
      (∀ j ≠ c.newProc, (k'.processTable j).state = (k.processTable j).state) →
      Advanced k c (.failed, k')

theorem advanced_failed {c : Creation} {k' : Kernel}
    (h : ∀ j, (k'.processTable j).state = (k.processTable j).state) :
    Advanced k c (.failed, k'.setState c.newProc .free) :=
  .failed (by simp [setState]) fun j hj => (setState_state_of_ne hj _).trans (h j)

theorem complete_state (newProc : Slot) (origin : Origin) :
    ((k.complete newProc origin).processTable newProc).state = .ready ∧
      ∀ j ≠ newProc, ((k.complete newProc origin).processTable j).state =
        (k.processTable j).state := by
  cases origin <;> simp +contextual [complete, finishCreation, setContext]

theorem openDirectory_advanced (origin : Origin) (newProc : Slot) (stage : Stage) :
    Advanced k ⟨origin, newProc, stage⟩ (k.openDirectory origin newProc) := by
  rw [openDirectory]
  rcases k.mem.createPageDirectory with ⟨dir, mem⟩
  dsimp only
  split
  · exact advanced_failed (c := ⟨origin, newProc, stage⟩) fun j => rfl
  · exact .goesOn rfl fun j => setContext_state ..

theorem openFork_advanced (child : Slot) (stage : Stage) :
    Advanced k ⟨.sysFork, child, stage⟩ (k.openFork child) := by
  rw [openFork]
  cases k.currentProcess with
  | none => exact .goesOn rfl fun j => rfl
  | some current =>
    dsimp only
    generalize hparent : k.setProcess child _ = k₁
    have hstate : ∀ j, (k₁.processTable j).state = (k.processTable j).state := by
      intro j
      rw [← hparent]
      by_cases h : j = child
      · subst h
        simp
      · simp [h]
    rcases k₁.mem.createPageDirectory with ⟨dir, mem⟩
    dsimp only
    split
    · exact advanced_failed (c := ⟨.sysFork, child, stage⟩) hstate
    · exact .goesOn rfl fun j => (setContext_state ..).trans (hstate j)

theorem advance_advanced (c : Creation) : Advanced k c (k.advance c) := by
  obtain ⟨origin, newProc, stage⟩ := c
  rw [advance]
  cases stage with
  | allocated =>
    cases origin with
    | sysFork => exact openFork_advanced newProc _
    | createProcess | createKernelProcess => exact openDirectory_advanced _ newProc _
  | loading parentPageDir i =>
    dsimp only
    split
    · rcases origin.round (k.processTable newProc).context.cr3 parentPageDir i k.mem with
        ⟨_ | _, mem⟩
      · exact advanced_failed (c := ⟨origin, newProc, _⟩) fun j => rfl
      · exact .goesOn rfl fun j => rfl
    · exact .ready (complete_state newProc origin).1 (complete_state newProc origin).2

end Kernel

/-! ### Runs -/

namespace Interleaved

variable {s s' : Interleaved}

/-- A state is clear exactly if no creation is at the slot that an allocation takes. -/
theorem clear_iff : s.Clear ↔ ∀ c ∈ s.creations, s.kernel.findFree ≠ some c.newProc := by
  constructor
  · intro hclear c hc hfound
    obtain ⟨hfree, hfirst⟩ := Kernel.findFree_some hfound
    obtain ⟨j, hj, hjfree, -⟩ := hclear c hc hfree
    exact hfirst j hj hjfree
  · intro h c hc hfree
    obtain ⟨j, hfound⟩ := Kernel.findFree_exists hfree
    obtain ⟨hjfree, hfirst⟩ := Kernel.findFree_some hfound
    refine ⟨j, ?_, hjfree, fun d hd heq => h d hd (heq ▸ hfound)⟩
    obtain hlt | heq | hgt := lt_trichotomy j c.newProc
    · exact hlt
    · exact absurd (heq ▸ hfound) (h c hc)
    · exact absurd hfree (hfirst _ hgt)

/-- No slot was handed out twice, and one that is out and whose state is still free has a creation at
it. -/
structure Sound (s : Interleaved) : Prop where
  exclusive : Handout.Exclusive s.log
  creation : ∀ i, Handout.Out i s.log → (s.kernel.processTable i).state = .free →
    ∃ c ∈ s.creations, c.newProc = i

theorem Sound.start (h : s.Sound) (hclear : s.Clear) (origin : Origin) :
    (s.start origin).Sound := by
  rw [Interleaved.start]
  cases hfound : s.kernel.findFree with
  | none =>
    rw [Kernel.allocatePcbAndPid, hfound]
    exact h
  | some i =>
    rw [Kernel.allocatePcbAndPid_of_findFree hfound]
    have hfree := (Kernel.findFree_some hfound).1
    constructor
    · refine Handout.exclusive_out.mpr ⟨fun hout => ?_, h.exclusive⟩
      obtain ⟨c, hc, heq⟩ := h.creation i hout hfree
      exact clear_iff.mp hclear c hc (heq ▸ hfound)
    · rintro j (rfl | hout) hj
      · exact ⟨_, List.mem_cons_self, rfl⟩
      · obtain ⟨c, hc, heq⟩ := h.creation j hout ((Kernel.takeSlot_state i j).symm.trans hj)
        exact ⟨c, List.mem_cons_of_mem _ hc, heq⟩

/-- Whatever a call leaves, what it sets free is logged. -/
theorem Sound.call (h : s.Sound) (k' : Kernel) :
    Sound ⟨k', s.creations, (s.kernel.freed k').map Handout.back ++ s.log⟩ := by
  refine ⟨h.exclusive.backs _, fun i hout hi => ?_⟩
  obtain ⟨hkept, hout⟩ := Handout.out_backs_iff.mp hout
  refine h.creation i hout ?_
  by_contra hnot
  refine hkept (List.mem_filter.mpr ⟨List.mem_finRange i, ?_⟩)
  exact decide_eq_true ⟨hnot, hi⟩

section Advance

variable {k k' : Kernel} {before after : List Creation} {c c' : Creation}
  {log : List (Handout Slot)}

theorem Sound.goesOn (h : Sound ⟨k, before ++ c :: after, log⟩)
    (hstep : k.advance c = (.goesOn c', k')) : Sound ⟨k', before ++ c' :: after, log⟩ := by
  have hadvanced := Kernel.advance_advanced (k := k) c
  rw [hstep] at hadvanced
  cases hadvanced with
  | goesOn hslot hstate =>
    refine ⟨h.exclusive, fun i hout hi => ?_⟩
    obtain ⟨d, hd, heq⟩ := h.creation i hout ((hstate i).symm.trans hi)
    obtain hd | hd := List.mem_append.mp hd
    · exact ⟨d, List.mem_append_left _ hd, heq⟩
    · obtain rfl | hd := List.mem_cons.mp hd
      · exact ⟨c', by simp, hslot.trans heq⟩
      · exact ⟨d, by simp [hd], heq⟩

/-- A creation that ends leaves no other slot without the creation at it. -/
theorem Sound.ended (h : Sound ⟨k, before ++ c :: after, log⟩)
    (hstate : ∀ j ≠ c.newProc, (k'.processTable j).state = (k.processTable j).state) {i : Slot}
    (hne : i ≠ c.newProc) (hout : Handout.Out i log) (hi : (k'.processTable i).state = .free) :
    ∃ d ∈ before ++ after, d.newProc = i := by
  obtain ⟨d, hd, heq⟩ := h.creation i hout ((hstate i hne).symm.trans hi)
  obtain hd | hd := List.mem_append.mp hd
  · exact ⟨d, List.mem_append_left _ hd, heq⟩
  · obtain rfl | hd := List.mem_cons.mp hd
    · exact absurd heq.symm hne
    · exact ⟨d, List.mem_append_right _ hd, heq⟩

theorem Sound.ready (h : Sound ⟨k, before ++ c :: after, log⟩)
    (hstep : k.advance c = (.ready, k')) : Sound ⟨k', before ++ after, log⟩ := by
  have hadvanced := Kernel.advance_advanced (k := k) c
  rw [hstep] at hadvanced
  cases hadvanced with
  | ready hready hstate =>
    refine ⟨h.exclusive, fun i hout hi => h.ended hstate ?_ hout hi⟩
    rintro rfl
    cases hready.symm.trans hi

theorem Sound.failed (h : Sound ⟨k, before ++ c :: after, log⟩)
    (hstep : k.advance c = (.failed, k')) :
    Sound ⟨k', before ++ after, .back c.newProc :: log⟩ := by
  have hadvanced := Kernel.advance_advanced (k := k) c
  rw [hstep] at hadvanced
  cases hadvanced with
  | failed _ hstate =>
    exact ⟨h.exclusive.back _, fun i hout hi => h.ended hstate hout.1 hout.2 hi⟩

end Advance

theorem Sound.step (h : s.Sound) {a : Action} (hclear : s.ClearStart a) (hstep : s.Step a s') :
    s'.Sound := by
  cases hstep with
  | start hstarts => exact h.start (hclear (by rw [hstarts]; exact Option.some_ne_none _)) _
  | call => exact h.call _
  | goesOn hadvance => exact h.goesOn hadvance
  | ready hadvance => exact h.ready hadvance
  | failed hadvance => exact h.failed hadvance

theorem sound_of_reach (h : interleaved.ReachWhen ClearStart s) : s.Sound := by
  refine h.invariant (fun s hs => ?_) fun s a s' _ hs hclear hstep => hs.step hclear hstep
  obtain ⟨hnone, hlog⟩ := hs
  exact ⟨hlog ▸ Handout.exclusive_nil, fun i hout => by rw [hlog] at hout; cases hout⟩

end Interleaved

/-- When creations start in clear states only, a slot is handed out again only after it was set free,
and an allocation fails only when no slot is free.  In a state that is not clear, an allocation takes
the slot of a creation in progress. -/
theorem slots_exclusive {s : Interleaved}
    (h : interleaved.ReachWhen Interleaved.ClearStart s) :
    Handout.Exclusive s.log ∧
      (s.kernel.allocatePcbAndPid.1 = none → ∀ i, (s.kernel.processTable i).state ≠ .free) ∧
      (¬s.Clear → ∃ c ∈ s.creations, ∃ pid,
        s.kernel.allocatePcbAndPid.1 = some (c.newProc, pid)) := by
  refine ⟨(Interleaved.sound_of_reach h).exclusive, fun hnone => ?_, fun hnot => ?_⟩
  · cases hfound : s.kernel.findFree with
    | none => exact Kernel.findFree_none hfound
    | some i =>
      rw [Kernel.allocatePcbAndPid_of_findFree hfound] at hnone
      cases hnone
  · rw [Interleaved.clear_iff] at hnot
    simp only [ne_eq, not_forall, not_not] at hnot
    obtain ⟨c, hc, hfound⟩ := hnot
    exact ⟨c, hc, _, by rw [Kernel.allocatePcbAndPid_of_findFree hfound]⟩

/-- A process in slot 0 runs, and one in slot 1 is ready. -/
def twoProcesses : Kernel :=
  { KernelImage.sample.boot (fun _ => 0) (fun _ => 0) with
    processTable := fun i =>
      if i.val = 0 then { Process.zero with pid := 1, state := .running }
      else if i.val = 1 then { Process.zero with pid := 2, state := .ready }
      else .zero
    nextPid := 3
    currentProcess := some ⟨0, by decide⟩
    readyQueueHead := some ⟨1, by decide⟩ }

/-- The process in slot 0 has begun to fork. -/
def forkBegun : Interleaved := Interleaved.start ⟨twoProcesses, [], []⟩ .sysFork

/-- Here the ready process is in slot 2, and has a terminated child in slot 1. -/
def exitedChild : Kernel :=
  { twoProcesses with
    processTable := fun i =>
      if i.val = 0 then { Process.zero with pid := 1, state := .running }
      else if i.val = 1 then { Process.zero with pid := 3, parentPid := 2, state := .terminated }
      else if i.val = 2 then { Process.zero with pid := 2, state := .ready }
      else .zero
    nextPid := 4
    readyQueueHead := some ⟨2, by decide⟩ }

/-- A call that starts no creation and whose outcome is known. -/
def Interleaved.called (s : Interleaved) (k' : Kernel) : Interleaved :=
  ⟨k', s.creations, (s.kernel.freed k').map Handout.back ++ s.log⟩

theorem Interleaved.reach_called {s : Interleaved} {k' : Kernel}
    (h : interleaved.ReachWhen ClearStart s) (call : Call) (hstarts : s.kernel.starts call = none)
    (hafter : s.kernel.after call = some k') : interleaved.ReachWhen ClearStart (s.called k') :=
  .step (a := .call call) h (fun hc => absurd hstarts hc)
    (.call hstarts fun _ heq => Option.some.inj (hafter.symm.trans heq))

/-- The first process has begun to fork when the timer gives the processor to the other, which waits
for its child. -/
def forkWaited : Interleaved :=
  let begun := Interleaved.start ⟨exitedChild, [], []⟩ .sysFork
  let preempted := begun.called begun.kernel.schedule.2
  preempted.called (preempted.kernel.sysWait 0).2

/-- When it forks then, it gets the slot of that child. -/
theorem slots_exclusive_sample :
    (forkWaited.start .sysFork).log =
        [.out ⟨1, by decide⟩, .back ⟨1, by decide⟩, .out ⟨3, by decide⟩] ∧
      interleaved.ReachWhen Interleaved.ClearStart (forkWaited.start .sysFork) ∧
      Handout.Exclusive (forkWaited.start .sysFork).log := by
  have hbegun : interleaved.ReachWhen Interleaved.ClearStart
      (Interleaved.start ⟨exitedChild, [], []⟩ .sysFork) :=
    .step (a := .call .sysFork) (.init ⟨rfl, rfl⟩) (fun _ _ hc => absurd hc List.not_mem_nil)
      (.start rfl)
  have hpreempted := Interleaved.reach_called hbegun .schedule rfl rfl
  have hwaited : interleaved.ReachWhen Interleaved.ClearStart forkWaited :=
    Interleaved.reach_called hpreempted (.sysWait 0) rfl rfl
  have hclear : forkWaited.Clear := by
    intro c hc _
    obtain rfl := List.mem_singleton.mp hc
    refine ⟨⟨1, by decide⟩, by decide, by decide, fun d hd => ?_⟩
    obtain rfl := List.mem_singleton.mp hd
    decide
  have hreach : interleaved.ReachWhen Interleaved.ClearStart (forkWaited.start .sysFork) :=
    .step (a := .call .sysFork) hwaited (fun _ => hclear) (.start rfl)
  exact ⟨by decide, hreach, (slots_exclusive hreach).1⟩

/-- The timer gives the processor to the other process before the child is ready. -/
def forkPreempted : Interleaved :=
  ⟨forkBegun.kernel.schedule.2, forkBegun.creations,
    (forkBegun.kernel.freed forkBegun.kernel.schedule.2).map Handout.back ++ forkBegun.log⟩

/-- When the other process forks too, it gets the same slot. -/
theorem slot_handed_out_twice :
    interleaved.Reach (forkPreempted.start .sysFork) ∧
      ¬Handout.Exclusive (forkPreempted.start .sysFork).log := by
  have hbegun : interleaved.Reach forkBegun :=
    .step (a := .call .sysFork) (.init ⟨rfl, rfl⟩) trivial (.start rfl)
  have hpreempted : interleaved.Reach forkPreempted :=
    .step (a := .call .schedule) hbegun trivial
      (.call rfl fun k₁ hafter => Option.some.inj hafter)
  have hlog : (forkPreempted.start .sysFork).log =
      [.out ⟨2, by decide⟩, .out ⟨2, by decide⟩] := by decide
  refine ⟨.step (a := .call .sysFork) hpreempted trivial (.start rfl), ?_⟩
  rw [hlog, Handout.exclusive_out]
  exact fun h => h.1 (.inl rfl)

end Lbos

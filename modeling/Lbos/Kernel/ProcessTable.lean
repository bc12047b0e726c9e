import Lbos.Kernel.SpawnSupply

/-! The ready queue and the pids in every reachable state. -/

namespace Lbos

open Lib Mem

namespace Kernel

variable {k : Kernel}

/-- The queue from `ready_queue_head` on ends, visits exactly the ready processes, none of them
twice, and does not visit the current process, whose slot is in use. -/
def ReadyQueueExact (k : Kernel) : Prop :=
  ∃ l : List Slot, Linked (fun i => (k.processTable i).nextInReadyQueue) k.readyQueueHead l ∧
    l.Nodup ∧ (∀ i, i ∈ l ↔ (k.processTable i).state = .ready) ∧
    ∀ c, k.currentProcess = some c → c ∉ l ∧ (k.processTable c).state ≠ .free

/-- Processes have a pid, and no two have the same. -/
structure LivePids (k : Kernel) : Prop where
  ne_zero : ∀ i, (k.processTable i).state ≠ .free → (k.processTable i).pid ≠ 0
  unique : ∀ i j, (k.processTable i).state ≠ .free → (k.processTable j).state ≠ .free → i ≠ j →
    (k.processTable i).pid ≠ (k.processTable j).pid

theorem WellFormed.readyQueueExact (hk : k.WellFormed) : k.ReadyQueueExact := by
  obtain ⟨l, hq⟩ := hk.queue
  refine ⟨l, hq.linked, hq.linked.nodup, hq.mem_iff, fun c hc => ?_⟩
  have hcur := hk.current c hc
  refine ⟨fun hmem => ?_, hcur.not_free⟩
  exact hcur.not_ready ((hq.mem_iff c).mp hmem)

/-- A process in slot `i` has pid `i + 1`. -/
theorem WellFormed.livePids (hk : k.WellFormed) : k.LivePids := by
  obtain ⟨n, hc⟩ := hk.census
  have hpid : ∀ i, (k.processTable i).state ≠ .free →
      (k.processTable i).pid.toNat = i.val + 1 := by
    intro i hi
    exact hc.pid i ((hc.live_iff i).mp hi)
  refine ⟨fun i hi hzero => ?_, fun i j hi hj hne heq => ?_⟩
  · have h := hpid i hi
    rw [hzero] at h
    simp at h
  · have hi' := hpid i hi
    have hj' := hpid j hj
    rw [heq] at hi'
    apply hne
    apply Fin.ext
    omega

end Kernel

/-- In every reachable state the ready queue is exactly the ready processes. -/
theorem ready_queue_exact (img : KernelImage) {k : Kernel} (hk : img.system.Reach k) :
    k.ReadyQueueExact :=
  (KernelImage.running_of_reach hk).wellFormed.readyQueueExact

/-- In every reachable state the pids of the processes are distinct and not zero. -/
theorem live_pids_unique (img : KernelImage) {k : Kernel} (hk : img.system.Reach k) : k.LivePids :=
  (KernelImage.running_of_reach hk).wellFormed.livePids

theorem ready_queue_exact_sample :
    ∃ k i j, KernelImage.sample.system.Reach k ∧ k.currentProcess = some i ∧
      (k.processTable j).state = .ready ∧ k.ReadyQueueExact := by
  obtain ⟨k₁, k₂, i, j, d, d', birth, h⟩ := KernelImage.sample_family
  exact ⟨_, i, j, h.reach, h.current, h.ready, ready_queue_exact .sample h.reach⟩

theorem live_pids_unique_sample :
    ∃ k i j, KernelImage.sample.system.Reach k ∧ i ≠ j ∧ (k.processTable i).state = .running ∧
      (k.processTable j).state = .ready ∧ k.LivePids := by
  obtain ⟨k₁, k₂, i, j, d, d', birth, h⟩ := KernelImage.sample_family
  exact ⟨_, i, j, h.reach, h.ne, h.running, h.ready, live_pids_unique .sample h.reach⟩

end Lbos

import Mathlib.Data.List.Nodup
import Mathlib.Order.Fin.Basic
import Lbos.Lib.Pool
import Lbos.Mem.FrameBitmap

/-! The frame allocator as a finite set with first fit: sequences of calls of `alloc_frame`,
`free_frame` and `is_frame_allocated`, with any addresses, on a bitmap that nothing else writes; the
outstanding allocations; and what becomes of the frames that `init_page_frame_allocator`
reserves. -/

namespace Lbos

open Lib

/-- The functions that the allocator's callers use, with their arguments. -/
inductive FrameCall
  | allocFrame
  | freeFrame (frameAddr : Word)
  | isFrameAllocated (frameAddr : Word)

inductive FrameReply
  | frame (addr : Word)
  | done
  | allocated (b : Bool)

namespace PageFrameAllocator

variable (g : PageFrameAllocator)

def call : Machine Mem FrameCall FrameReply
  | .allocFrame, m =>
    let (frame, m) := g.allocFrame m
    (.frame frame, m)
  | .freeFrame frameAddr, m => (.done, g.freeFrame m frameAddr)
  | .isFrameAllocated frameAddr, m => (.allocated (g.isFrameAllocated m frameAddr), m)

/-- The frame indices for which `test_bit` holds. -/
def takenFrames (m : Mem) : Set (Fin g.totalFrames.toNat) :=
  {i | g.testBit m (BitVec.ofNat 32 i) = true}

/-- The frame of an address, when it is in range. -/
def frameOf (frameAddr : Word) : Option (Fin g.totalFrames.toNat) :=
  if h : (frameAddr / frameSize).toNat < g.totalFrames.toNat then some ⟨_, h⟩ else none

/-- What a call asks of the set of frames. -/
def request : FrameCall → Pool.Request (Fin g.totalFrames.toNat)
  | .allocFrame => .take
  | .freeFrame frameAddr => .give (g.frameOf frameAddr)
  | .isFrameAllocated frameAddr => .ask (g.frameOf frameAddr)

variable {g} in
/-- How the set's answer reads as a call's result. -/
def reply : Pool.Answer (Fin g.totalFrames.toNat) → FrameReply
  | .item (some i) => .frame (frameAddr i)
  | .item none => .frame 0
  | .done => .done
  | .held b => .allocated b

/-! ### One call -/

theorem mem_takenFrames (m : Mem) (i : Fin g.totalFrames.toNat) :
    i ∈ g.takenFrames m ↔ g.marked m i = true := by
  have hi : i.val % 2 ^ 32 = i.val :=
    Nat.mod_eq_of_lt (Nat.lt_of_lt_of_le i.isLt (g.totalFrames_le.trans (by decide)))
  show g.testBit m (BitVec.ofNat 32 i) = true ↔ _
  rw [testBit_eq, BitVec.toNat_ofNat, hi]

theorem notMem_takenFrames (m : Mem) (i : Fin g.totalFrames.toNat) :
    i ∉ g.takenFrames m ↔ g.Free m i := by
  rw [mem_takenFrames, Bool.not_eq_true]
  exact (and_iff_right i.isLt).symm

theorem frameOf_of_lt {frameAddr : Word} (h : frameAddr / frameSize < g.totalFrames) :
    g.frameOf frameAddr = some ⟨(frameAddr / frameSize).toNat, h⟩ := dif_pos h

theorem frameOf_of_not_lt {frameAddr : Word} (h : ¬frameAddr / frameSize < g.totalFrames) :
    g.frameOf frameAddr = none := dif_neg h

/-- `alloc_frame` takes the least index that is not in the set, or fails when the set is full. -/
theorem allocFrame_firstFree (m : Mem) :
    (∃ i, Pool.firstFree (g.takenFrames m) = some i ∧
      (g.allocFrame m).1 = frameAddr i ∧
      g.takenFrames (g.allocFrame m).2 = insert i (g.takenFrames m)) ∨
    (g.takenFrames m = Set.univ ∧ g.allocFrame m = (0, m)) := by
  rcases g.allocFrame_cases m with ⟨k, hfree, hleast, hr⟩ | ⟨hnone, hr⟩
  · refine .inl ⟨⟨k, hfree.1⟩, ?_, ?_, ?_⟩
    · refine Pool.firstFree_eq_some ((g.notMem_takenFrames m _).mpr hfree) fun b hb => ?_
      by_contra hnot
      exact hleast b hb ((g.notMem_takenFrames m b).mp hnot)
    · rw [hr]
    · apply Set.ext
      intro i
      rw [Set.mem_insert_iff, ← not_iff_not, notMem_takenFrames, hr, free_setBit _ _ hfree.lt,
        not_or, notMem_takenFrames, and_comm, Fin.ext_iff]
  · refine .inr ⟨Set.eq_univ_of_forall fun i => ?_, hr⟩
    by_contra hnot
    exact hnone i ((g.notMem_takenFrames m i).mp hnot)

/-- `free_frame` removes the frame of its address. -/
theorem takenFrames_freeFrame (m : Mem) (frameAddr : Word) :
    g.takenFrames (g.freeFrame m frameAddr) =
      (Pool.serve (.give (g.frameOf frameAddr)) (g.takenFrames m)).2 := by
  by_cases h : frameAddr / frameSize < g.totalFrames
  · rw [freeFrame, if_pos h, frameOf_of_lt _ h]
    apply Set.ext
    intro i
    have hi : i.val < 2 ^ 32 := Nat.lt_of_lt_of_le i.isLt (g.totalFrames_le.trans (by decide))
    rw [mem_takenFrames, marked_clearBit _ _ _ hi, Bool.and_eq_true, decide_eq_true_iff, and_comm,
      ← mem_takenFrames]
    exact and_congr_right' (not_congr (Fin.ext_iff (b := ⟨_, h⟩)).symm)
  · rw [freeFrame, if_neg h, frameOf_of_not_lt _ h]
    rfl

open Classical in
theorem isFrameAllocated_eq (m : Mem) (frameAddr : Word) :
    Pool.Answer.held (g.isFrameAllocated m frameAddr) =
      (Pool.serve (.ask (g.frameOf frameAddr)) (g.takenFrames m)).1 := by
  by_cases h : frameAddr / frameSize < g.totalFrames
  · rw [isFrameAllocated, if_pos h, frameOf_of_lt _ h, testBit_eq]
    refine congrArg Pool.Answer.held (Bool.eq_iff_iff.mpr ?_)
    exact (g.mem_takenFrames m ⟨_, h⟩).symm.trans decide_eq_true_iff.symm
  · rw [isFrameAllocated, if_neg h, frameOf_of_not_lt _ h]
    rfl

/-- Every call of the allocator is answered as the set with first fit answers. -/
theorem call_refines :
    Machine.Refines g.call Pool.serve g.takenFrames g.request reply where
  reply c m := by
    cases c with
    | allocFrame =>
      rcases g.allocFrame_firstFree m with ⟨i, hi, hframe, -⟩ | ⟨hfull, hr⟩
      · rw [call, request, Pool.serve, hi]
        exact congrArg FrameReply.frame hframe
      · rw [call, request, Pool.serve, hfull, Pool.firstFree_univ, hr]
        rfl
    | freeFrame a =>
      rw [call, request]
      cases g.frameOf a <;> rfl
    | isFrameAllocated a =>
      rw [request, ← g.isFrameAllocated_eq m a]
      rfl
  state c m := by
    cases c with
    | allocFrame =>
      rcases g.allocFrame_firstFree m with ⟨i, hi, -, htaken⟩ | ⟨hfull, hr⟩
      · rw [request, Pool.serve, hi]
        exact htaken
      · rw [call, request, Pool.serve, hfull, Pool.firstFree_univ, hr]
        exact hfull
    | freeFrame a => exact g.takenFrames_freeFrame m a
    | isFrameAllocated a =>
      rw [call, request]
      cases g.frameOf a <;> rfl

/-! ### Outstanding allocations -/

/-- The memory, and the addresses that `alloc_frame` returned and that were not freed since. -/
structure FrameLedger where
  mem : Mem
  outstanding : List Word

/-- The calls when only outstanding addresses are freed. -/
inductive FrameLedger.Step : FrameLedger → FrameCall → FrameLedger → Prop
  | allocFrame {s : FrameLedger} : (g.allocFrame s.mem).1 ≠ 0 →
      Step s .allocFrame ⟨(g.allocFrame s.mem).2, (g.allocFrame s.mem).1 :: s.outstanding⟩
  | allocFails {s : FrameLedger} : (g.allocFrame s.mem).1 = 0 →
      Step s .allocFrame { s with mem := (g.allocFrame s.mem).2 }
  | freeFrame {s : FrameLedger} {frameAddr : Word} : frameAddr ∈ s.outstanding →
      Step s (.freeFrame frameAddr) ⟨g.freeFrame s.mem frameAddr, s.outstanding.erase frameAddr⟩
  | isFrameAllocated {s : FrameLedger} {frameAddr : Word} : Step s (.isFrameAllocated frameAddr) s

/-- Runs from a bitmap in which frame 0 is marked, with nothing outstanding yet. -/
def ledgers : System FrameLedger FrameCall where
  init s := g.testBit s.mem 0 = true ∧ s.outstanding = []
  step := FrameLedger.Step g

/-- Frame 0, whose address is the failure value of `alloc_frame`. -/
def zeroFrame : Set (Fin g.totalFrames.toNat) := {i | i.val = 0}

theorem frameAddr_div {k : Nat} (h : k < 2 ^ 20) : (frameAddr k / frameSize).toNat = k := by
  have hsize : frameSize.toNat = 4096 := rfl
  rw [frameAddr, BitVec.toNat_udiv, BitVec.toNat_ofNat, hsize]
  omega

theorem frameOf_frameAddr (i : Fin g.totalFrames.toNat) : g.frameOf (frameAddr i) = some i := by
  have hi := frameAddr_div (Nat.lt_of_lt_of_le i.isLt g.totalFrames_le)
  have hlt : frameAddr i / frameSize < g.totalFrames := by
    rw [BitVec.lt_def, hi]
    exact i.isLt
  rw [frameOf_of_lt _ hlt]
  exact congrArg some (Fin.ext hi)

theorem frameAddr_injective : Function.Injective fun i : Fin g.totalFrames.toNat => frameAddr i :=
  fun i j h => Option.some.inj <|
    (g.frameOf_frameAddr i).symm.trans ((congrArg g.frameOf h).trans (g.frameOf_frameAddr j))

/-- The taken frames are those of a ledger of frames, and the outstanding addresses those of its
loans. -/
def Records (s : FrameLedger) (l : Pool.Ledger (Fin g.totalFrames.toNat)) : Prop :=
  g.takenFrames s.mem = l.taken ∧
    s.outstanding = l.loans.map fun i : Fin g.totalFrames.toNat => frameAddr i

variable {g} in
/-- A run with freed outstanding addresses is a run of a ledger of frames. -/
theorem ledgers_simulated {s : FrameLedger} (h : g.ledgers.Reach s) :
    ∃ l, (Pool.ledgers g.zeroFrame).Reach l ∧ g.Records s l := by
  refine h.simulates (fun s hs => ?_) fun s c s' l hl _ hstep hR => ?_
  · obtain ⟨hzero, hnone⟩ := hs
    refine ⟨⟨g.takenFrames s.mem, []⟩, ⟨rfl, fun i hi => ?_⟩, rfl, hnone⟩
    obtain ⟨i, hlt⟩ := i
    obtain rfl : i = 0 := hi
    exact hzero
  · obtain ⟨htaken, hout⟩ := hR
    have hsound := Pool.Ledger.sound_of_reach hl
    cases hstep with
    | allocFrame hne =>
      rcases g.allocFrame_firstFree s.mem with ⟨i, hi, hframe, hinsert⟩ | ⟨-, hr⟩
      · rw [htaken] at hi hinsert
        refine ⟨.take, _, .take hi, hinsert, ?_⟩
        rw [List.map_cons, hframe, hout]
      · rw [hr] at hne
        exact absurd rfl hne
    | allocFails heq =>
      rcases g.allocFrame_firstFree s.mem with ⟨i, hi, hframe, -⟩ | ⟨hfull, hr⟩
      · have hzero : i ∈ g.zeroFrame := by
          by_contra hpos
          exact frameAddr_ne_zero hpos (Nat.lt_of_lt_of_le i.isLt g.totalFrames_le)
            (hframe.symm.trans heq)
        rw [htaken] at hi
        exact absurd (hsound.kept i hzero).1 (Pool.notMem_of_firstFree hi)
      · rw [hr]
        refine ⟨.take, l, .full ?_, htaken, hout⟩
        rw [← htaken, hfull, Pool.firstFree_univ]
    | @freeFrame a ha =>
      obtain ⟨i, hi, rfl⟩ := List.mem_map.mp (hout ▸ ha)
      refine ⟨.give (some i), _, .give hi, ?_, ?_⟩
      · rw [takenFrames_freeFrame, frameOf_frameAddr, ← htaken]
        rfl
      · rw [List.map_erase g.frameAddr_injective, hout]
    | @isFrameAllocated a => exact ⟨.ask (g.frameOf a), l, .ask, htaken, hout⟩

/-- The allocator refines the set of taken frames with first fit, over every sequence of calls; and
in the runs from a bitmap with frame 0 taken in which only outstanding addresses are freed, no two
outstanding allocations name one frame, and 0 is returned only when every frame is taken. -/
theorem call_refines_firstFit :
    (∀ (m : Mem) (calls : List FrameCall),
      (g.call.run calls m).1 =
          (Pool.serve.run (calls.map g.request) (g.takenFrames m)).1.map reply ∧
        g.takenFrames (g.call.run calls m).2 =
          (Pool.serve.run (calls.map g.request) (g.takenFrames m)).2) ∧
    ∀ s, g.ledgers.Reach s →
      (s.outstanding.map (· / frameSize)).Nodup ∧
        ((g.allocFrame s.mem).1 = 0 → g.takenFrames s.mem = Set.univ) := by
  refine ⟨fun m calls => g.call_refines.run calls m, fun s hs => ?_⟩
  obtain ⟨l, hl, htaken, hout⟩ := ledgers_simulated hs
  have hsound := Pool.Ledger.sound_of_reach hl
  constructor
  · rw [hout, List.map_map]
    refine hsound.nodup.map fun i j heq => Fin.ext ?_
    have hlt : ∀ k : Fin g.totalFrames.toNat, k.val < 2 ^ 20 := fun k =>
      Nat.lt_of_lt_of_le k.isLt g.totalFrames_le
    rw [← frameAddr_div (hlt i), ← frameAddr_div (hlt j)]
    exact congrArg BitVec.toNat heq
  · intro hzero
    rcases g.allocFrame_firstFree s.mem with ⟨i, hi, hframe, -⟩ | ⟨hfull, -⟩
    · rw [htaken] at hi
      refine absurd (hsound.kept i ?_).1 (Pool.notMem_of_firstFree hi)
      by_contra hpos
      exact frameAddr_ne_zero hpos (Nat.lt_of_lt_of_le i.isLt g.totalFrames_le)
        (hframe.symm.trans hzero)
    · exact hfull

end PageFrameAllocator

/-! ### The reserved frames -/

namespace KernelLayout

variable (L : KernelLayout)

/-- The sequences of calls after `init_page_frame_allocator`, with any addresses. -/
def frameCalls : System Mem FrameCall where
  init m := ∃ prior, m = L.initMem prior
  step m c m' := m' = (L.allocator.call c m).2

/-- The frames below the end of the bitmap region are marked, `alloc_frame` returns none of them, and
its failure value means that no frame is free. -/
structure Reserves (m : Mem) : Prop where
  marked : ∀ i < L.allocator.kernelEndFrame, L.allocator.testBit m i = true
  alloc : (L.allocator.allocFrame m).1 ≠ 0 →
    L.allocator.kernelEndFrame ≤ (L.allocator.allocFrame m).1 / frameSize
  full : (L.allocator.allocFrame m).1 = 0 →
    ∀ i < L.allocator.totalFrames, L.allocator.testBit m i = true

/-- The call does not free an address in a reserved frame. -/
def SparesReserved (c : FrameCall) : Prop :=
  ∀ a, c = .freeFrame a → L.allocator.kernelEndFrame ≤ a / frameSize

theorem kernelEndFrame_lt : L.allocator.kernelEndFrame.toNat < 32768 + 1 := by
  have hle := L.end_le
  rw [toNat_kernelEndFrame]
  omega

/-- The marks of the reserved frames carry the rest. -/
theorem reserves_iff (m : Mem) :
    L.Reserves m ↔ ∀ k < L.allocator.kernelEndFrame.toNat, L.allocator.marked m k = true := by
  have hend := L.kernelEndFrame_lt
  constructor
  · intro h k hk
    have hk' : (BitVec.ofNat 32 k).toNat = k := by rw [BitVec.toNat_ofNat]; omega
    have hmarked := h.marked (BitVec.ofNat 32 k) (by rw [BitVec.lt_def, hk']; exact hk)
    rwa [PageFrameAllocator.testBit_eq, hk'] at hmarked
  · intro h
    have hpos : 0 < L.allocator.kernelEndFrame.toNat := by
      rw [toNat_kernelEndFrame]
      exact Nat.succ_pos _
    refine ⟨fun i hi => ?_, fun hne => ?_, fun hzero i hi => ?_⟩
    · rw [PageFrameAllocator.testBit_eq]
      exact h _ hi
    · rcases L.allocator.allocFrame_cases m with ⟨k, hfree, -, hr⟩ | ⟨-, hr⟩
      · rw [hr, BitVec.le_def, PageFrameAllocator.frameAddr_div hfree.lt]
        by_contra hlt
        exact L.allocator.not_free_of_marked m (h k (Nat.not_le.mp hlt)) hfree
      · rw [hr] at hne
        exact absurd rfl hne
    · rw [PageFrameAllocator.testBit_eq]
      rcases L.allocator.allocFrame_cases m with ⟨k, hfree, -, hr⟩ | ⟨hnone, -⟩
      · rw [hr] at hzero
        refine absurd hzero (PageFrameAllocator.frameAddr_ne_zero ?_ hfree.lt)
        rintro rfl
        exact L.allocator.not_free_of_marked m (h 0 hpos) hfree
      · by_contra hmarked
        exact hnone i.toNat ⟨hi, Bool.not_eq_true _ ▸ hmarked⟩

theorem reserves_initMem (m : Mem) : L.Reserves (L.initMem m) := by
  have hend := L.kernelEndFrame_lt
  refine (L.reserves_iff _).mpr fun k hk => ?_
  rw [marked_initMem _ _ (by omega), decide_eq_true hk, Bool.true_or]

/-- One call keeps the reserved frames exactly when it spares them. -/
theorem reserves_call {m : Mem} (h : L.Reserves m) (c : FrameCall) :
    L.Reserves (L.allocator.call c m).2 ↔ L.SparesReserved c := by
  have hend := L.kernelEndFrame_lt
  have hmarked := (L.reserves_iff m).mp h
  rw [reserves_iff]
  cases c with
  | allocFrame =>
    refine iff_of_true (fun k hk => ?_) fun a ha => FrameCall.noConfusion ha
    rcases L.allocator.allocFrame_cases m with ⟨j, -, -, hr⟩ | ⟨-, hr⟩
    · rw [PageFrameAllocator.call, hr, PageFrameAllocator.marked_setBit _ _ _ (by omega),
        hmarked k hk, Bool.or_true]
    · rw [PageFrameAllocator.call, hr]
      exact hmarked k hk
  | freeFrame a =>
    have hspares : L.SparesReserved (.freeFrame a) ↔
        L.allocator.kernelEndFrame.toNat ≤ (a / frameSize).toNat :=
      ⟨fun hs => hs a rfl, fun hs b hb => FrameCall.freeFrame.inj hb ▸ hs⟩
    rw [hspares, PageFrameAllocator.call, PageFrameAllocator.freeFrame]
    by_cases hrange : a / frameSize < L.allocator.totalFrames
    · rw [if_pos hrange]
      constructor
      · intro hkept
        by_contra hlt
        have hcleared := hkept _ (Nat.not_le.mp hlt)
        rw [PageFrameAllocator.marked_clearBit _ _ _ (a / frameSize).isLt] at hcleared
        simp at hcleared
      · intro hle k hk
        rw [PageFrameAllocator.marked_clearBit _ _ _ (by omega), hmarked k hk,
          decide_eq_true (Nat.ne_of_lt (Nat.lt_of_lt_of_le hk hle)), Bool.true_and]
    · rw [if_neg hrange]
      have hge : 32768 ≤ (a / frameSize).toNat := Nat.not_lt.mp hrange
      have hle := L.end_le
      rw [toNat_kernelEndFrame] at hmarked ⊢
      exact iff_of_true hmarked (by omega)
  | isFrameAllocated a => exact iff_of_true hmarked fun b hb => FrameCall.noConfusion hb

/-- Along a run of the allocator the reserved frames stay reserved exactly when no call of
`free_frame` names an address in one of them. -/
theorem reserves_along_iff (prior : Mem) {run : List (FrameCall × Mem)}
    (h : L.frameCalls.Run (L.initMem prior) run) :
    System.Along L.Reserves (L.initMem prior) run ↔
      System.Meets (fun _ c => L.SparesReserved c) (L.initMem prior) run := by
  have hinit : L.frameCalls.init (L.initMem prior) := ⟨prior, rfl⟩
  refine System.Run.along_iff_meets (fun m c m' _ hm hstep => ?_) (.init hinit)
    (L.reserves_initMem prior) h
  rw [hstep]
  exact L.reserves_call hm c

/-- A frame is allocated and freed, and an address beyond the frames that are managed is freed. -/
theorem sample_reserves_along : ∃ run, run.map Prod.fst =
      [FrameCall.allocFrame, .freeFrame 0x121000, .freeFrame 0x2000000] ∧
    sample.frameCalls.Run (sample.initMem fun _ => 0) run ∧
      System.Along sample.Reserves (sample.initMem fun _ => 0) run := by
  have hspares : ∀ a : Word, sample.allocator.kernelEndFrame ≤ a / frameSize →
      sample.SparesReserved (.freeFrame a) := fun a hle b hb => FrameCall.freeFrame.inj hb ▸ hle
  have hrun : sample.frameCalls.Run (sample.initMem fun _ => 0) _ :=
    .cons (a := .allocFrame) rfl (.cons (a := .freeFrame 0x121000) rfl
      (.cons (a := .freeFrame 0x2000000) rfl (.nil _)))
  refine ⟨_, rfl, hrun, (sample.reserves_along_iff _ hrun).mpr ⟨?_, ?_, ?_, trivial⟩⟩
  · exact fun a ha => FrameCall.noConfusion ha
  · exact hspares 0x121000 (by decide)
  · exact hspares 0x2000000 (by decide)

/-- Freeing 0, the failure value, takes frame 0 out of the reserved frames. -/
theorem sample_free_failure :
    ¬∀ (L : KernelLayout) (prior : Mem) (run : List (FrameCall × Mem)),
      L.frameCalls.Run (L.initMem prior) run →
        System.Along L.Reserves (L.initMem prior) run := by
  intro h
  have halong := h sample (fun _ => 0) _ (.cons (a := .freeFrame 0) rfl (.nil _))
  have hkept := halong.2 _ (List.mem_cons_self ..)
  have hspares := (sample.reserves_call (sample.reserves_initMem _) _).mp hkept 0 rfl
  exact absurd hspares (by decide)

end KernelLayout

end Lbos

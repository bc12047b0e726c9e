import Mathlib.Data.Nat.Count
import Lbos.Mem.AddressSpace

/-! Which frames a number of calls of `alloc_frame` takes: the first ones that are free.  The
functions on memory change the bitmap by such calls only. -/

namespace Lbos

open Lib Mem

/-- Counting without the least. -/
theorem count_eq_succ {p q : Nat → Prop} [DecidablePred p] [DecidablePred q] {k : Nat} (hk : p k)
    (hleast : ∀ j < k, ¬p j) (hq : ∀ j, q j ↔ p j ∧ j ≠ k) {n : Nat} (hn : k < n) :
    Nat.count p n = Nat.count q n + 1 := by
  induction n with
  | zero => exact absurd hn (Nat.not_lt_zero k)
  | succ n ih =>
    rw [Nat.count_succ, Nat.count_succ]
    by_cases heq : n = k
    · subst heq
      have hzero : ∀ r : Nat → Prop, ∀ [DecidablePred r], (∀ j < n, ¬r j) → Nat.count r n = 0 := by
        intro r _ hr
        rw [Nat.count_eq_card_filter_range, Finset.card_eq_zero, Finset.filter_eq_empty_iff]
        exact fun j hj => hr j (Finset.mem_range.mp hj)
      rw [hzero p hleast, hzero q fun j hj hqj => hleast j hj ((hq j).mp hqj).1, if_pos hk,
        if_neg fun hqn => ((hq n).mp hqn).2 rfl]
    · rw [ih (by omega)]
      have hsame : q n ↔ p n := (hq n).trans (and_iff_left heq)
      simp only [hsame]
      omega

/-- Counting without the first `c`. -/
theorem count_and_le_count (p : Nat → Prop) [DecidablePred p] (c n : Nat) :
    Nat.count (fun k => p k ∧ c ≤ Nat.count p k) n = Nat.count p n - c := by
  induction n with
  | zero => exact (Nat.zero_sub c).symm
  | succ n ih =>
    rw [Nat.count_succ, Nat.count_succ, ih]
    split <;> split <;> grind

namespace PageFrameAllocator

variable (g : PageFrameAllocator)

instance (m : Mem) : DecidablePred (g.Free m) := fun _ => inferInstanceAs (Decidable (_ ∧ _))

/-- After `n` calls the first `n` free frames are taken. -/
theorem free_allocRun_iff (m : Mem) (n k : Nat) :
    g.Free (g.allocRun m n) k ↔ g.Free m k ∧ n ≤ Nat.count (g.Free m) k := by
  induction n generalizing m with
  | zero => exact (and_iff_left (Nat.zero_le _)).symm
  | succ n ih =>
    rw [allocRun, ih]
    rcases g.allocFrame_cases m with ⟨j, hj, hleast, hr⟩ | ⟨hnone, hr⟩
    · have hfree : ∀ i, g.Free (g.allocFrame m).2 i ↔ g.Free m i ∧ i ≠ j := fun i => by
        rw [hr]
        exact g.free_setBit m hj.lt
      rw [hfree]
      constructor
      · rintro ⟨⟨hk, hne⟩, hcount⟩
        have hlt : j < k := by
          have hle : ¬k < j := fun hlt => hleast k hlt hk
          omega
        exact ⟨hk, by rw [count_eq_succ hj hleast hfree hlt]; omega⟩
      · rintro ⟨hk, hcount⟩
        have hlt : j < k := by
          by_contra hle
          have hzero : Nat.count (g.Free m) k = 0 := by
            rw [Nat.count_eq_card_filter_range, Finset.card_eq_zero, Finset.filter_eq_empty_iff]
            exact fun i hi => hleast i (Nat.lt_of_lt_of_le (Finset.mem_range.mp hi) (by omega))
          omega
        rw [count_eq_succ hj hleast hfree hlt] at hcount
        exact ⟨⟨hk, by omega⟩, by omega⟩
    · rw [hr]
      exact iff_of_false (fun hc => hnone k hc.1) fun hc => hnone k hc.1

theorem allocRun_add (m : Mem) (a b : Nat) :
    g.allocRun (g.allocRun m a) b = g.allocRun m (a + b) := by
  induction a generalizing m with
  | zero => rw [Nat.zero_add]; rfl
  | succ a ih =>
    rw [show a + 1 + b = a + b + 1 by omega, allocRun, allocRun, ih]

end PageFrameAllocator

/-- The bitmap has changed by `n` calls of `alloc_frame`. -/
def PhysMem.Allocates (pm : PhysMem) (n : Nat) (pm' : PhysMem) : Prop :=
  pm'.pfa = pm.pfa ∧ pm'.bitmap = pm.pfa.allocRun pm.bitmap n

namespace PhysMem

variable {pm pm' pm'' : PhysMem} {n n' : Nat}

theorem Allocates.refl (pm : PhysMem) : pm.Allocates 0 pm := ⟨rfl, rfl⟩

theorem Allocates.trans (h : pm.Allocates n pm') (h' : pm'.Allocates n' pm'') :
    pm.Allocates (n + n') pm'' := by
  refine ⟨h'.1.trans h.1, ?_⟩
  rw [h'.2, h.1, h.2, PageFrameAllocator.allocRun_add]

theorem allocates_allocFrame (pm : PhysMem) : pm.Allocates 1 pm.allocFrame.2 := ⟨rfl, rfl⟩

theorem allocates_clear (pm : PhysMem) (ptr : Word) (count : Nat) :
    pm.Allocates 0 (pm.clear ptr count) := ⟨rfl, rfl⟩

theorem allocates_copy (pm : PhysMem) (dest src : Word) (count : Nat) :
    pm.Allocates 0 (pm.copy dest src count) := ⟨rfl, rfl⟩

theorem allocates_store (pm : PhysMem) (ptr : Word) (i : Nat) (v : Word) :
    pm.Allocates 0 (pm.store ptr i v) := ⟨rfl, rfl⟩

theorem allocates_copyKernelEntries (pm : PhysMem) (d : Word) :
    pm.Allocates 0 (pm.copyKernelEntries d) :=
  loop_invariant _ (fun _ => pm.Allocates 0) (.refl pm) fun _ s _ _ h =>
    h.trans (s.allocates_store ..)

theorem allocates_createPageDirectory (pm : PhysMem) :
    pm.Allocates 1 pm.createPageDirectory.2 := by
  have halloc := pm.allocates_allocFrame
  unfold createPageDirectory
  generalize pm.allocFrame = r at halloc ⊢
  obtain ⟨f, pm₁⟩ := r
  simp only
  split
  · exact halloc
  · have hcleared := pm₁.allocates_clear (pm₁.physToVirt f) (pageDirectorySize * 4)
    have hcopied := (pm₁.clear (pm₁.physToVirt f) (pageDirectorySize * 4)).allocates_copyKernelEntries
      (pm₁.physToVirt f)
    simpa only [Nat.add_zero] using (halloc.trans hcleared).trans hcopied

theorem allocates_mapPage (pm : PhysMem) (d va pa flags : Word) :
    ∃ n, pm.Allocates n (pm.mapPage d va pa flags) := by
  have halloc := pm.allocates_allocFrame
  unfold mapPage
  generalize pm.allocFrame = r at halloc ⊢
  obtain ⟨f, pm₁⟩ := r
  simp only
  split
  · exact ⟨0, pm.allocates_store ..⟩
  · split
    · exact ⟨1, halloc⟩
    · exact ⟨_, ((halloc.trans (pm₁.allocates_clear ..)).trans (allocates_store ..)).trans
        (allocates_store ..)⟩

theorem allocates_loadPage (pm : PhysMem) (d data size : Word) (i : Nat) :
    ∃ n, pm.Allocates n (loadPage d data size i pm).2 := by
  have halloc := pm.allocates_allocFrame
  unfold loadPage
  generalize pm.allocFrame = r at halloc ⊢
  obtain ⟨f, pm₁⟩ := r
  simp only
  split
  · exact ⟨1, halloc⟩
  · obtain ⟨n, hmap⟩ := pm₁.allocates_mapPage d (userCodeStart + BitVec.ofNat 32 i * frameSize) f
      (pagePresent ||| pageUser ||| pageRw)
    generalize pm₁.mapPage d _ f _ = pm₂ at hmap ⊢
    have hcopied : ∀ dest src count, pm.Allocates (1 + n + 0) (pm₂.copy dest src count) :=
      fun _ _ _ => (halloc.trans hmap).trans (pm₂.allocates_copy ..)
    generalize (if _ > size then size - _ else frameSize) = copySize
    split
    · exact ⟨_, (hcopied ..).trans (allocates_clear ..)⟩
    · exact ⟨_, hcopied ..⟩

theorem allocates_loadLoop (pm : PhysMem) (d data size : Word) (count : Nat) :
    ∃ n, pm.Allocates n (loopWhile (loadPage d data size) count 0 pm).2 := by
  have hinv := loopWhile_invariant (loadPage d data size) (fun _ s => ∃ n, pm.Allocates n s)
    (fun s => ∃ n, pm.Allocates n s) (n := count) (i := 0) (s := pm) ⟨0, .refl pm⟩
    fun i s _ _ ⟨n, h⟩ => by
      obtain ⟨n', h'⟩ := s.allocates_loadPage d data size i
      split
      · exact ⟨_, h.trans h'⟩
      · exact ⟨_, h.trans h'⟩
  split at hinv
  · exact hinv
  · exact hinv

/-- The frames that are free after `n` calls. -/
theorem Allocates.free_iff (h : pm.Allocates n pm') (k : Nat) :
    pm'.FreeFrame k ↔ pm.FreeFrame k ∧ n ≤ Nat.count (pm.pfa.Free pm.bitmap) k := by
  rw [FreeFrame, h.1, h.2, PageFrameAllocator.free_allocRun_iff, FreeFrame]

theorem freeCount_eq_count (pm : PhysMem) :
    pm.freeCount = Nat.count (pm.pfa.Free pm.bitmap) pm.pfa.totalFrames.toNat := by
  have hset : {k | pm.FreeFrame k} = ↑((Finset.range pm.pfa.totalFrames.toNat).filter
      (pm.pfa.Free pm.bitmap)) := by
    ext k
    rw [Finset.mem_coe, Finset.mem_filter, Finset.mem_range]
    exact (and_iff_right_of_imp fun hk => hk.1).symm
  rw [freeCount, hset, Set.ncard_coe_finset, Nat.count_eq_card_filter_range]

theorem Allocates.freeCount (h : pm.Allocates n pm') : pm'.freeCount = pm.freeCount - n := by
  have hfree : ∀ k, pm'.pfa.Free pm'.bitmap k ↔ pm.pfa.Free pm.bitmap k ∧
      n ≤ Nat.count (pm.pfa.Free pm.bitmap) k := h.free_iff
  rw [h.1] at hfree
  rw [freeCount_eq_count, freeCount_eq_count, h.1, ← count_and_le_count,
    Nat.count_eq_card_filter_range, Nat.count_eq_card_filter_range (fun k => _ ∧ _)]
  exact congrArg Finset.card (Finset.filter_congr fun k _ => hfree k)

/-- The frames that the calls take are the first free ones, as many as are missing afterwards. -/
theorem Allocates.taken_iff (h : pm.Allocates n pm') {b : Nat}
    (hb : pm'.freeCount = pm.freeCount - b) (k : Nat) :
    pm.FreeFrame k ∧ ¬pm'.FreeFrame k ↔
      pm.FreeFrame k ∧ Nat.count (pm.pfa.Free pm.bitmap) k < b := by
  have hn := h.freeCount
  refine and_congr_right fun hk => ?_
  have hrank : Nat.count (pm.pfa.Free pm.bitmap) k < pm.freeCount := by
    rw [freeCount_eq_count]
    exact Nat.count_strict_mono hk hk.1
  rw [h.free_iff, and_iff_right hk]
  omega

end PhysMem

end Lbos

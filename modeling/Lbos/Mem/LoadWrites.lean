import Lbos.Mem.FrameSupply

/-! What the load of a process writes to: only frames that it was handed since its beginning. -/

namespace Lbos

open Lib Mem

/-- Frame `n` has been handed out between two states of memory: `alloc_frame` has marked it. -/
def PhysMem.HandedOut (pm pm' : PhysMem) (n : Nat) : Prop := pm.FreeFrame n ∧ ¬pm'.FreeFrame n

theorem PhysMem.HandedOut.mono {pm pm' pm'' : PhysMem} {n : Nat} (h : pm.HandedOut pm' n)
    (hfree : ∀ n, pm''.FreeFrame n → pm'.FreeFrame n) : pm.HandedOut pm'' n :=
  ⟨h.1, fun hn => h.2 (hfree n hn)⟩

/-- Memory has changed in frames only that were handed out. -/
structure PhysMem.WritesHandedOut (pm pm' : PhysMem) : Prop where
  free : ∀ n, pm'.FreeFrame n → pm.FreeFrame n
  ram : ∀ x, ¬pm.HandedOut pm' (pageOf x) → pm'.ram x = pm.ram x

theorem PhysMem.WritesHandedOut.refl (pm : PhysMem) : pm.WritesHandedOut pm :=
  ⟨fun _ h => h, fun _ _ => rfl⟩

/-- Since `pm₀` memory has changed in frames only that were handed out, and so were directory `d`
and its page tables. -/
structure Loaded (pm₀ pm : PhysMem) (d : Word) : Prop extends pm₀.WritesHandedOut pm where
  dir : pm₀.HandedOut pm (pageOf d)
  table : ∀ i < 768, ∀ t, tableAt pm.ram d i = some t → pm₀.HandedOut pm (pageOf t)

namespace Loaded

variable {pm₀ pm pm' : PhysMem} {dirs : Set Word} {d f va flags : Word}

/-- The step in which a frame is taken. -/
theorem takes (h : Loaded pm₀ pm d) (hf : pm.Takes f pm') (hram : pm'.ram = pm.ram) :
    Loaded pm₀ pm' d ∧ pm₀.HandedOut pm' (pageOf f) := by
  have hfree := (hf.keeps hram).free
  refine ⟨⟨⟨fun n hn => h.free n (hfree n hn), fun x hx => ?_⟩, h.dir.mono hfree,
    fun i hi t ht => ?_⟩, h.free _ hf.free, fun hc => ((hf.free_iff _).mp hc).2 rfl⟩
  · rw [hram]
    exact h.ram x fun hc => hx (hc.mono hfree)
  · rw [hram] at ht
    exact (h.table i hi t ht).mono hfree

/-- The step in which memory is written in a frame that was handed out. -/
theorem write (h : Loaded pm₀ pm d) (hf : pm₀.HandedOut pm (pageOf f)) {ram : Mem}
    (hram : ∀ x, pageOf x ≠ pageOf f → ram x = pm.ram x)
    (htable : ∀ i < 768, tableAt ram d i = tableAt pm.ram d i) :
    Loaded pm₀ { pm with ram } d := by
  refine ⟨⟨h.free, fun x hx => ?_⟩, h.dir, fun i hi t ht => ?_⟩
  · have hne : pageOf x ≠ pageOf f := fun heq => hx (heq ▸ hf)
    exact (hram x hne).trans (h.ram x hx)
  · rw [htable i hi] at ht
    exact h.table i hi t ht

/-- The step in which a page is entered. -/
theorem entered {i j : Nat} {t e : Word} (h : Loaded pm₀ pm d) (hd : d ∈ dirs) (hi : i < 768)
    (he : Entered pm pm' dirs d i j t e) : Loaded pm₀ pm' d := by
  have hfree : ∀ n, pm'.FreeFrame n → pm.FreeFrame n := fun n hn => by
    rcases he.old_or_new with ⟨-, hsame⟩ | ⟨-, htake⟩
    · exact (hsame n).mp hn
    · exact ((htake.free_iff n).mp hn).1
  have ht : pm₀.HandedOut pm' (pageOf t) := by
    rcases he.old_or_new with ⟨hold, -⟩ | ⟨-, htake⟩
    · exact (h.table i hi t hold).mono hfree
    · exact ⟨h.free _ htake.free, fun hc => ((htake.free_iff _).mp hc).2 rfl⟩
  have hdir := h.dir.mono hfree
  refine ⟨⟨fun n hn => h.free n (hfree n hn), fun x hx => ?_⟩, hdir, fun i' hi' t' ht' => ?_⟩
  · rw [he.ram x (fun heq => hx (heq ▸ ht)) fun heq => hx (heq ▸ hdir)]
    exact h.ram x fun hc => hx (hc.mono hfree)
  · rw [he.table d hd i' (by omega)] at ht'
    split at ht'
    · obtain rfl := Option.some.inj ht'
      exact ht
    · exact (h.table i' hi' t' ht').mono hfree

theorem mapPage (h : Loaded pm₀ pm d) (hiso : Isolated pm dirs) (hd : d ∈ dirs)
    (hva : pdIndex va < 768) (pa flags : Word) : Loaded pm₀ (pm.mapPage d va pa flags) d := by
  by_cases hok : tableAt pm.ram d (pdIndex va) ≠ none ∨ pm.allocFrame.1 ≠ 0
  · obtain ⟨t, he⟩ := hiso.forest.mapPage_entered pa flags hd hva hok
    exact h.entered hd hva he
  · obtain ⟨-, -, hsame⟩ := hiso.mapPage_fails hok pa flags
    rwa [hsame]

/-- One page of the module. -/
theorem loadPage (h : Loaded pm₀ pm d) (hiso : Isolated pm dirs) (hd : d ∈ dirs)
    (data size : Word) {i : Nat} (hi : i + pm.freeCount ≤ 32768) (hsize : i * 4096 < size.toNat) :
    Loaded pm₀ (loadPage d data size i pm).2 d := by
  by_cases hz : pm.allocFrame.1 = 0
  · have hr : Lbos.loadPage d data size i pm = (false, pm) := by
      simp only [Lbos.loadPage, hz, if_true, (pm.allocFrame_fails hiso.not_free_zero hz).2]
    rw [hr]
    exact h
  · have hf := pm.allocFrame_takes hz
    have hcount := hf.freeCount
    have hva := pdIndex_moduleUser (i := i) (by omega)
    obtain ⟨hiso₁, hheld⟩ := hiso.of_takes hf rfl
    obtain ⟨h₁, hout₁⟩ := h.takes hf rfl
    obtain ⟨hiso₂, hkeep, hdata⟩ :=
      hiso₁.of_mapPage hd hva (show (7 : Word).toNat < 4096 by decide) hheld
    have h₂ := h₁.mapPage hiso₁ hd hva pm.allocFrame.1 7
    obtain ⟨ram, hr, hout, -⟩ := Isolated.loadPage_eq (d := d) data size (by omega) hsize hf hz rfl
    rw [hr]
    exact h₂.write (hout₁.mono hkeep.free) hout (hiso₂.write_sameUserHalf hdata hout hd).table

/-- All pages of the module. -/
theorem loadLoop (h : Loaded pm₀ pm d) (hiso : Isolated pm dirs) (hd : d ∈ dirs)
    (data size : Word) {n : Nat} (hn : n = ((size + frameSize - 1) / frameSize).toNat) :
    Loaded pm₀ (loopWhile (Lbos.loadPage d data size) n 0 pm).2 d := by
  have hcount := hiso.freeCount_le
  have hinv := loopWhile_invariant (Lbos.loadPage d data size)
    (fun i s => (Isolated s dirs ∧ i + s.freeCount ≤ 32768) ∧ Loaded pm₀ s d)
    (fun s => Loaded pm₀ s d) (n := n) (i := 0) (s := pm) ⟨⟨hiso, by omega⟩, h⟩
    fun i s _ hi hs => ?_
  · split at hinv
    · exact hinv.2
    · exact hinv
  · obtain ⟨⟨hiso, hfree⟩, hs⟩ := hs
    have hsize : i * 4096 < size.toNat := Isolated.lt_of_lt_pagesNeeded (by omega)
    have hs' := hs.loadPage hiso hd data size hfree hsize
    obtain ⟨hiso', -, hend⟩ := hiso.of_loadPage hd data size hfree hsize
    split
    · next htrue =>
      rw [if_pos htrue] at hend
      exact ⟨⟨hiso', hend⟩, hs'⟩
    · exact hs'

end Loaded

/-- The new directory has no tables yet. -/
theorem Isolated.NewDirectory.loaded {pm pm' : PhysMem} {dirs : Set Word} {d : Word}
    (h : NewDirectory pm pm' dirs d) : Loaded pm pm' d := by
  have htaken : pm.HandedOut pm' (pageOf d) :=
    ⟨h.takes.free, fun hc => ((h.takes.free_iff _).mp hc).2 rfl⟩
  refine ⟨⟨h.keeps.free, fun x hx => h.ram x fun heq => hx (heq ▸ htaken)⟩, htaken,
    fun i hi t ht => ?_⟩
  rw [h.empty i hi] at ht
  cases ht

theorem Isolated.createPageDirectory_loaded {pm : PhysMem} {dirs : Set Word}
    (h : Isolated pm dirs) :
    (pm.Exhausted ∧ pm.createPageDirectory = (0, pm)) ∨
    ∃ d pm', pm.createPageDirectory = (pm.physToVirt d, pm') ∧ pm.physToVirt d ≠ 0 ∧
      pm'.virtToPhys (pm.physToVirt d) = d ∧ Isolated pm' (insert d dirs) ∧ Loaded pm pm' d := by
  refine h.createPageDirectory_new.imp_right ?_
  rintro ⟨d, pm', hr, hne, hphys, hnew⟩
  exact ⟨d, pm', hr, hne, hphys, hnew.isolated, hnew.loaded⟩

end Lbos

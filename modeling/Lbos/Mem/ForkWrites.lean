import Lbos.Mem.LoadWrites

/-! What the copy of an address space writes to: only frames that it was handed since its beginning,
and so no page that any process had changes. -/

namespace Lbos

open Lib Mem

namespace Loaded

variable {pm₀ pm : PhysMem} {dirs : Set Word} {d : Word}

/-- One entry of the parent. -/
theorem forkPage (h : Loaded pm₀ pm d) (hiso : Isolated pm dirs) (hd : d ∈ dirs) (table : Word)
    {p q : Nat} (hp : p < 768) (hq : q < 1024) :
    Loaded pm₀ (Lbos.forkPage d table p q pm).2 d := by
  unfold Lbos.forkPage
  split
  · by_cases hz : pm.allocFrame.1 = 0
    · simp only [hz, if_true, (pm.allocFrame_fails hiso.not_free_zero hz).2]
      exact h
    · have hf := pm.allocFrame_takes hz
      have hcopied := hiso.copied_of_alloc hz
        (pm.allocFrame.2.physToVirt (pm.load table q &&& ~~~0xFFF))
      obtain ⟨h₁, hout₁⟩ := h.takes hf rfl
      have hout : ∀ x, pageOf x ≠ pageOf pm.allocFrame.1 →
          (pm.allocFrame.2.copy (pm.allocFrame.2.physToVirt pm.allocFrame.1)
            (pm.allocFrame.2.physToVirt (pm.load table q &&& ~~~0xFFF)) frameSize.toNat).ram x =
              pm.allocFrame.2.ram x := fun x hx =>
        Isolated.copy_outside _ hf.aligned _ (Nat.le_refl _) hx
      have h₂ := h₁.write hout₁ hout (hcopied.same d hd).table
      have hva : pdIndex ((BitVec.ofNat 32 p <<< 22) ||| (BitVec.ofNat 32 q <<< 12)) < 768 := by
        rwa [Isolated.pdIndex_forkPage (by omega) hq]
      simp only [hz, if_false]
      exact h₂.mapPage hcopied.isolated hd hva _ _
  · exact h

/-- A loop whose rounds keep the directories isolated, and write to new frames only. -/
theorem loopWhile {body : Nat → PhysMem → Bool × PhysMem} {n : Nat} (h : Loaded pm₀ pm d)
    (hiso : Isolated pm dirs)
    (hBody : ∀ j s, j < n → Isolated s dirs → Loaded pm₀ s d →
      Isolated (body j s).2 dirs ∧ Loaded pm₀ (body j s).2 d) :
    Loaded pm₀ (Lib.loopWhile body n 0 pm).2 d := by
  have hinv := loopWhile_keeps body (fun s => Isolated s dirs ∧ Loaded pm₀ s d) (n := n) (i := 0)
    (s := pm) ⟨hiso, h⟩ fun j s _ hj hs => hBody j s (by omega) hs.1 hs.2
  exact hinv.2

theorem forkTable (h : Loaded pm₀ pm d) (hiso : Isolated pm dirs) (hd : d ∈ dirs) (dir : Word)
    {p : Nat} (hp : p < 768) : Loaded pm₀ (Lbos.forkTable d dir p pm).2 d := by
  unfold Lbos.forkTable
  split
  · refine h.loopWhile hiso fun q s hq hs hl => ?_
    obtain ⟨hs', -⟩ := hs.of_forkPage hd hp hq
    exact ⟨hs', hl.forkPage hs hd _ hp hq⟩
  · exact h

/-- The copy of the parent's address space. -/
theorem forkLoop (h : Loaded pm₀ pm d) (hiso : Isolated pm dirs) (hd : d ∈ dirs) (dir : Word) :
    Loaded pm₀ (Lib.loopWhile (Lbos.forkTable d dir) 768 0 pm).2 d := by
  refine h.loopWhile hiso fun p s hp hs hl => ?_
  obtain ⟨hs', -⟩ := hs.of_forkTable hd hp
  exact ⟨hs', hl.forkTable hs hd dir hp⟩

end Loaded

namespace PhysMem.WritesHandedOut

variable {pm pm' : PhysMem} {dirs : Set Word} {d v : Word}

/-- A frame that was in use is not written to. -/
theorem ram_allocated (h : pm.WritesHandedOut pm') {f : Word} (hf : pm.Allocated f) {x : Word}
    (hx : pageOf x = pageOf f) : pm'.ram x = pm.ram x := by
  refine h.ram x fun hout => ?_
  rw [hx] at hout
  exact (pm.isFrameAllocated_iff f).mp hf.marked hout.1

/-- The user half of a directory that was there is as it was. -/
theorem sameUserHalf (h : pm.WritesHandedOut pm') (hiso : Isolated pm dirs) (hd : d ∈ dirs) :
    SameUserHalf pm.ram pm'.ram d := by
  have hdir := hiso.dir_allocated hd
  have htable : ∀ i < 768, tableAt pm'.ram d i = tableAt pm.ram d i := fun i hi =>
    tableAt_congr (load_congr hdir.aligned (by omega) fun x hx => h.ram_allocated hdir hx)
  refine ⟨htable, fun i hi j hj => entryAt_congr (htable i hi) fun t ht => ?_⟩
  exact load_congr (tableAt_aligned ht) hj fun x hx =>
    h.ram_allocated (hiso.allocated _ (.table hd hi) t ht) hx

/-- What user addresses read through a directory that was there is as it was. -/
theorem byte (h : pm.WritesHandedOut pm') (hiso : Isolated pm dirs) (hd : d ∈ dirs)
    (hv : pdIndex v < 768) :
    (translate pm'.ram d v).map pm'.ram = (translate pm.ram d v).map pm.ram := by
  rw [translate, (h.sameUserHalf hiso hd).entry _ hv _ (ptIndex_lt v), ← translate]
  refine Option.map_congr fun pa hpa => ?_
  obtain ⟨e, he, hpage⟩ := translate_page hpa
  exact h.ram_allocated (hiso.dataFrame_of_entry hd hv (ptIndex_lt v) he).allocated hpage

end PhysMem.WritesHandedOut

end Lbos

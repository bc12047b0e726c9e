import Lbos.Fs.Initrd
import Lbos.Lib.Transition

/-! The static pointers of `initrd.c` over the calls of `init_initrd` that the kernel makes, one for
each further module: whether header and data area always belong together. -/

namespace Lbos

open Lib

namespace Initrd

section Loads

variable (s : Initrd) (loc : Word)

/-- The module begins with the signature. -/
def Signed : Prop := strncmp (cstr s.mem loc) initrdSignature 6 = some 0

instance : Decidable (s.Signed loc) := inferInstanceAs (Decidable (_ = _))

/-- Where the magic number is found otherwise. -/
def scan : Option Nat :=
  search (fun i => s.mem.read32 (loc + BitVec.ofNat 32 i) = initrdMagic) 64 0

/-- `initrd_header` after the search of a module. -/
def located : Initrd :=
  if s.Signed loc then { s with header := loc + 8 }
  else
    match s.scan loc with
    | some i => { s with header := loc + BitVec.ofNat 32 i }
    | none => s

/-- A call ends at the test of the magic number. -/
def Rejects : Prop := (s.located loc).header ≠ 0 ∧ (s.located loc).magic ≠ initrdMagic

/-- There is no image, or the header has the magic number and the data area is its own: the bytes
behind a header in a module, the text of the image that is built in. -/
def Consistent : Prop :=
  s.header = 0 ∨ s.magic = initrdMagic ∧
    s.data = if s.header = s.tempHeader then s.tempData
      else s.header + BitVec.ofNat 32 initrdHeaderSize

/-- A call leaves an image and its data, and a rejected one changes nothing. -/
def LoadsWell : Prop :=
  (s.initInitrd loc).Consistent ∧
    (s.Rejects loc → (s.initInitrd loc).header = s.header ∧ (s.initInitrd loc).data = s.data)

/-- A module with the signature has the magic number behind it, and one without any image does not
come after the image that is built in. -/
def Loadable : Prop :=
  (s.Signed loc → s.mem.read32 (loc + 8) = initrdMagic) ∧
    (s.header = s.tempHeader → s.tempData ≠ s.tempHeader + BitVec.ofNat 32 initrdHeaderSize →
      s.Signed loc ∨ (s.scan loc).isSome)

/-- `temp_header` and `temp_files` are two objects. -/
structure Statics : Prop where
  header_ne : s.tempHeader ≠ 0
  apart : ∀ x, (x - s.tempHeader).toNat < initrdHeaderSize →
    initrdFileHeaderSize ≤ (x - s.tempFiles).toNat

/-- The part of a module that is searched lies in the address space, and not around
`temp_header`. -/
structure ModuleAt : Prop where
  ne : loc ≠ 0
  fits : loc.toNat + 72 ≤ 2 ^ 32
  apart : ∀ i < 72, loc + BitVec.ofNat 32 i ≠ s.tempHeader

/-- The outcomes of a call. -/
inductive Load : Initrd → Prop
  | image {header : Word} : header ≠ 0 → header ≠ s.tempHeader →
      s.mem.read32 header = initrdMagic → (s.Signed loc → header = loc + 8) →
      (s.Signed loc ∨ (s.scan loc).isSome) → ¬s.Rejects loc →
      Load { s with header, data := header + BitVec.ofNat 32 initrdHeaderSize }
  | rejected : s.Signed loc → loc + 8 ≠ 0 → s.mem.read32 (loc + 8) ≠ initrdMagic →
      Load { s with header := loc + 8 }
  | builtIn : ¬s.Signed loc → s.scan loc = none → s.header = 0 → ¬s.Rejects loc → Load s.initTemp
  | again : ¬s.Signed loc → s.scan loc = none → s.header ≠ 0 → ¬s.Rejects loc →
      Load { s with data := s.header + BitVec.ofNat 32 initrdHeaderSize }

end Loads

variable {s : Initrd} {loc : Word}

theorem ModuleAt.add_ne (h : s.ModuleAt loc) {i : Nat} (hi : i < 72) : loc + BitVec.ofNat 32 i ≠ 0 := by
  have hne := h.ne
  have hfits := h.fits
  intro hz
  have hval := congrArg BitVec.toNat hz
  rw [BitVec.toNat_add, BitVec.toNat_ofNat] at hval
  have hpos : loc.toNat ≠ 0 := fun hc => hne (BitVec.eq_of_toNat_eq hc)
  simp at hval
  omega

theorem initInitrd_eq (s : Initrd) (loc : Word) :
    s.initInitrd loc =
      if (s.located loc).header = 0 then (s.located loc).initTemp
      else if (s.located loc).magic ≠ initrdMagic then s.located loc
      else { s.located loc with
        data := (s.located loc).header + BitVec.ofNat 32 initrdHeaderSize } := rfl

theorem initInitrd_magic {t : Initrd} (h : s.located loc = t) (hne : t.header ≠ 0)
    (hmagic : t.magic = initrdMagic) :
    s.initInitrd loc = { t with data := t.header + BitVec.ofNat 32 initrdHeaderSize } := by
  rw [initInitrd_eq, h, if_neg hne, if_neg (not_not.mpr hmagic)]

theorem initInitrd_rejected {t : Initrd} (h : s.located loc = t) (hne : t.header ≠ 0)
    (hmagic : t.magic ≠ initrdMagic) : s.initInitrd loc = t := by
  rw [initInitrd_eq, h, if_neg hne, if_pos hmagic]

theorem located_signed (h : s.Signed loc) : s.located loc = { s with header := loc + 8 } := by
  rw [located, if_pos h]

theorem located_unsigned (h : ¬s.Signed loc) {r : Option Nat} (hscan : s.scan loc = r) :
    s.located loc = r.elim s fun i => { s with header := loc + BitVec.ofNat 32 i } := by
  rw [located, if_neg h, hscan]
  cases r <;> rfl

theorem load (hc : s.Consistent) (h : s.ModuleAt loc) : s.Load loc (s.initInitrd loc) := by
  by_cases hsigned : s.Signed loc
  · have hne : loc + 8 ≠ 0 := h.add_ne (show 8 < 72 by decide)
    have hlocated := located_signed hsigned
    by_cases hmagic : s.mem.read32 (loc + 8) = initrdMagic
    · rw [initInitrd_magic hlocated hne hmagic]
      exact .image hne (h.apart 8 (by decide)) hmagic (fun _ => rfl) (.inl hsigned) fun hr =>
        (hlocated ▸ hr.2) hmagic
    · rw [initInitrd_rejected hlocated hne hmagic]
      exact .rejected hsigned hne hmagic
  · cases hscan : s.scan loc with
    | some i =>
      obtain ⟨hi, hfound⟩ := search_some hscan
      have hmagic := of_decide_eq_true hfound
      have hne := h.add_ne (show i < 72 by omega)
      have hlocated := located_unsigned hsigned hscan
      rw [initInitrd_magic hlocated hne hmagic]
      exact .image hne (h.apart i (by omega)) hmagic (fun hc => absurd hc hsigned)
        (.inr (by rw [hscan]; rfl)) fun hr => (hlocated ▸ hr.2) hmagic
    | none =>
      have hlocated : s.located loc = s := located_unsigned hsigned hscan
      by_cases hzero : s.header = 0
      · rw [initInitrd_eq, hlocated, if_pos hzero]
        exact .builtIn hsigned hscan hzero fun hr => (hlocated ▸ hr.1) hzero
      · obtain ⟨hmagic, -⟩ := hc.resolve_left hzero
        rw [initInitrd_magic hlocated hzero hmagic]
        exact .again hsigned hscan hzero fun hr => (hlocated ▸ hr.2) hmagic

/-- The writes to the built-in image leave its magic number. -/
theorem initTemp_magic (h : s.Statics) : s.initTemp.magic = initrdMagic := by
  refine Eq.trans (Mem.read32_congr fun x hx => ?_)
    (Mem.read32_write32_same s.mem s.tempHeader initrdMagic)
  change (x - s.tempHeader).toNat < 4 at hx
  have hfiles : 48 ≤ (x - s.tempFiles).toNat := h.apart x (Nat.lt_trans hx (by decide))
  have hcount : 4 ≤ (x - (s.tempHeader + 4)).toNat := by bv_omega
  have hentry : 48 ≤ (x - (s.tempHeader + 8)).toNat := by bv_omega
  have hfield : ∀ k : Word, k.toNat ≤ 44 → 4 ≤ (x - (s.tempFiles + k)).toNat := fun k hk => by
    bv_omega
  unfold initTemp
  simp only
  rw [Mem.writeBytes_outside _ _ _ _ (by rw [Mem.length_bytes]; decide) (by rwa [Mem.length_bytes]),
    Mem.write32_outside _ _ (hfield 44 (by decide)), Mem.write32_outside _ _ (hfield 40 (by decide)),
    Mem.write32_outside _ _ (hfield 36 (by decide)), Mem.write32_outside _ _ (hfield 32 (by decide)),
    Mem.writeBytes_outside _ _ _ _ (by decide) (Nat.le_trans (by decide) hfiles),
    Mem.write32_outside _ _ hcount]

theorem Statics.initInitrd (h : s.Statics) (hc : s.Consistent) (hloc : s.ModuleAt loc) :
    (s.initInitrd loc).Statics := by
  have hload := load hc hloc
  generalize s.initInitrd loc = s' at hload
  cases hload <;> exact ⟨h.header_ne, h.apart⟩

/-- A call in a consistent state leaves one exactly when the module is loadable there. -/
theorem loadsWell_iff (h : s.Statics) (hc : s.Consistent) (hloc : s.ModuleAt loc) :
    s.LoadsWell loc ↔ s.Loadable loc := by
  have hload := load hc hloc
  unfold LoadsWell
  generalize s.initInitrd loc = s' at hload
  cases hload with
  | @image header hne hapart hmagic hsigned hfound hrejects =>
    refine iff_of_true ⟨.inr ⟨hmagic, (if_neg hapart).symm⟩, fun hr => absurd hr hrejects⟩
      ⟨fun hs => ?_, fun _ _ => hfound⟩
    rw [← hsigned hs]
    exact hmagic
  | rejected hsigned hne hmagic =>
    refine iff_of_false (fun hgood => ?_) fun hok => hmagic (hok.1 hsigned)
    exact hmagic (hgood.1.resolve_left hne).1
  | builtIn hsigned hscan hzero hrejects =>
    refine iff_of_true ⟨.inr ⟨initTemp_magic h, (if_pos rfl).symm⟩, fun hr => absurd hr hrejects⟩
      ⟨fun hs => absurd hs hsigned, fun hheader => ?_⟩
    exact absurd (hheader.symm.trans hzero) h.header_ne
  | again hsigned hscan hne hrejects =>
    obtain ⟨hword, hdata⟩ := hc.resolve_left hne
    have hmagic : s.mem.read32 s.header = initrdMagic := hword
    have hfound : ¬(s.Signed loc ∨ (s.scan loc).isSome) := by
      rw [hscan]
      exact fun hor => hor.elim hsigned nofun
    constructor
    · intro hgood
      refine ⟨fun hs => absurd hs hsigned, fun hheader hapart => ?_⟩
      have hbelongs : s.header + BitVec.ofNat 32 initrdHeaderSize = _ :=
        (hgood.1.resolve_left hne).2
      rw [if_pos hheader, hheader] at hbelongs
      exact absurd hbelongs.symm hapart
    · rintro ⟨-, hok⟩
      refine ⟨.inr ⟨hmagic, ?_⟩, fun hr => absurd hr hrejects⟩
      by_cases hheader : s.header = s.tempHeader
      · rw [if_pos hheader]
        show s.header + BitVec.ofNat 32 initrdHeaderSize = s.tempData
        rw [hheader]
        by_contra hapart
        exact hfound (hok hheader (Ne.symm hapart))
      · exact (if_neg hheader).symm

/-- Nothing is loaded at first; then come modules with any contents. -/
def system : System Initrd Word where
  init s := s.Statics ∧ s.header = 0 ∧ s.data = 0
  step s loc s' := s.ModuleAt loc ∧ s' = s.initInitrd loc

/-- All calls of a sequence do well exactly when each module is loadable after those before it. -/
theorem loads_well_iff {s : Initrd} (h : system.init s) {run : List (Word × Initrd)}
    (hrun : system.Run s run) : System.Meets LoadsWell s run ↔ System.Meets Loadable s run := by
  have hI : s.Statics ∧ s.Consistent := ⟨h.1, .inl h.2.1⟩
  refine hrun.meets_iff_meets (I := fun s => s.Statics ∧ s.Consistent) (fun s loc s' _ hI hstep => ?_)
    (fun s loc s' _ hI hstep hok => ?_) (.init h) hI
  · exact loadsWell_iff hI.1 hI.2 hstep.1
  · obtain ⟨hloc, rfl⟩ := hstep
    exact ⟨hI.1.initInitrd hI.2 hloc, ((loadsWell_iff hI.1 hI.2 hloc).mpr hok).1⟩

/-- The statics of a kernel that has loaded nothing. -/
def unloaded (m : Mem) : Initrd := ⟨m, 0, 0, 0x110000, 0x111000, 0x112000, 0⟩

theorem unloaded_init (m : Mem) : system.init (unloaded m) := by
  refine ⟨⟨show (0x110000 : Word) ≠ 0 by decide, fun x hx => ?_⟩, rfl, rfl⟩
  have hx : (x - 0x110000).toNat < 3080 := hx
  show 48 ≤ (x - 0x111000).toNat
  bv_omega

theorem unloaded_moduleAt (m : Mem) : (unloaded m).ModuleAt 0x200000 := by
  refine ⟨by decide, by decide, fun i hi => ?_⟩
  show 0x200000 + BitVec.ofNat 32 i ≠ 0x110000
  bv_omega

/-- A module without an image, after which there is the one that is built in, an image, and another
module without one. -/
theorem loads_well_iff_sample :
    let s := unloaded ((Mem.writeBytes (fun _ => 0) 0x300000 initrdSignature).write32 0x300008
      initrdMagic)
    let s₁ := s.initInitrd 0x200000
    let s₂ := s₁.initInitrd 0x300000
    let s₃ := s₂.initInitrd 0x400000
    System.Meets LoadsWell s [(0x200000, s₁), (0x300000, s₂), (0x400000, s₃)] := by
  intro s s₁ s₂ s₃
  have hmodule₁ : s₁.ModuleAt 0x300000 := ⟨by decide, by decide, by decide +kernel⟩
  have hmodule₂ : s₂.ModuleAt 0x400000 := ⟨by decide, by decide, by decide +kernel⟩
  refine (loads_well_iff (unloaded_init _) (.cons ⟨unloaded_moduleAt _, rfl⟩
    (.cons ⟨hmodule₁, rfl⟩ (.cons ⟨hmodule₂, rfl⟩ (.nil _))))).mpr ⟨⟨?_, ?_⟩, ⟨?_, ?_⟩, ⟨?_, ?_⟩, trivial⟩
  all_goals decide +kernel

/-- A module with the signature, and zeros behind it. -/
theorem signed_module_misleads :
    ∃ s run, system.init s ∧ system.Run s run ∧ ¬System.Meets LoadsWell s run := by
  let s := unloaded (Mem.writeBytes (fun _ => 0) 0x200000 (initrdSignature.take 6))
  refine ⟨s, [(0x200000, s.initInitrd 0x200000)], unloaded_init _,
    .cons ⟨unloaded_moduleAt _, rfl⟩ (.nil _), fun h => ?_⟩
  have hsigned : s.Signed 0x200000 := by decide
  have hmagic : s.mem.read32 (0x200000 + 8) ≠ initrdMagic := by decide
  have hgood := h.1.1
  rw [initInitrd_rejected (located_signed hsigned) (show (0x200000 + 8 : Word) ≠ 0 by decide) hmagic]
    at hgood
  exact hmagic (hgood.resolve_left (show (0x200000 + 8 : Word) ≠ 0 by decide)).1

end Initrd

end Lbos

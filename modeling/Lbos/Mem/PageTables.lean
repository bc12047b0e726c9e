import Mathlib.Data.Set.Basic
import Lbos.Mem.FrameBitmap
import Lbos.Mem.Paging

/-! The page tables as two partial functions, a directory's tables and their entries, and what one
store of the paging code does to them.  Everything that is proved about address spaces goes through
these. -/

namespace Lbos

open Lib Mem

/-! ### Entries -/

theorem present_eq (e : Word) : present e = e.getLsbD 0 := by
  have hone : pagePresent = BitVec.twoPow 32 0 := rfl
  rw [present, hone, BitVec.and_twoPow]
  cases e.getLsbD 0 <;> decide

theorem present_or {a f : Word} (h : present f = true) : present (a ||| f) = true := by
  rw [present_eq] at h ⊢
  rw [BitVec.getLsbD_or, h, Bool.or_true]

@[simp] theorem present_zero : present 0#32 = false := by decide

theorem pageAligned_shift {a : Word} (h : PageAligned a) : a.toNat = (a.toNat / 4096) <<< 12 := by
  rw [Nat.shiftLeft_eq]
  simp only [PageAligned] at h
  omega

/-- An entry holds its frame and its flags apart. -/
theorem pageBase_or {a f : Word} (ha : PageAligned a) (hf : f.toNat < 4096) :
    pageBase (a ||| f) = a := by
  apply BitVec.eq_of_toNat_eq
  rw [toNat_pageBase, BitVec.toNat_or]
  have hsplit := pageAligned_shift ha
  rw [hsplit, ← Nat.shiftLeft_add_eq_or_of_lt (by omega), Nat.shiftLeft_eq]
  omega

/-- The flags of a directory entry that `map_page` writes. -/
theorem tableEntry_eq (a : Word) : a ||| pagePresent ||| pageRw ||| pageUser = a ||| 7 := by
  rw [BitVec.or_assoc, BitVec.or_assoc]
  rfl

/-! ### Addresses -/

/-- The directory index of an address. -/
def pdIndex (va : Word) : Nat := (va >>> 22).toNat

/-- The table index of an address. -/
def ptIndex (va : Word) : Nat := ((va >>> 12) &&& 0x3FF).toNat

theorem pdIndex_eq (va : Word) : pdIndex va = va.toNat / 2 ^ 22 := by
  simp [pdIndex, Nat.shiftRight_eq_div_pow]

theorem ptIndex_eq (va : Word) : ptIndex va = va.toNat / 4096 % 1024 := by
  have hmask : (0x3FF : Word).toNat = 2 ^ 10 - 1 := rfl
  rw [ptIndex, BitVec.toNat_and, hmask, Nat.and_two_pow_sub_one_eq_mod, BitVec.toNat_ushiftRight,
    Nat.shiftRight_eq_div_pow]

theorem pdIndex_lt (va : Word) : pdIndex va < 1024 := by
  rw [pdIndex_eq]
  omega

theorem ptIndex_lt (va : Word) : ptIndex va < 1024 := by
  rw [ptIndex_eq]
  omega

/-- The two indices of an address tell its page. -/
theorem pageOf_eq_iff_index {v va : Word} :
    pageOf v = pageOf va ↔ pdIndex v = pdIndex va ∧ ptIndex v = ptIndex va := by
  simp only [pageOf, pdIndex_eq, ptIndex_eq]
  omega

theorem pdIndex_user {va : Word} (h : va < kernelVirtualStart) : pdIndex va < 768 := by
  rw [pdIndex_eq]
  have : va.toNat < 0xC0000000 := h
  omega

theorem user_of_pageOf {v addr : Word} (haddr : addr < kernelVirtualStart)
    (h : pageOf v = pageOf addr) : v < kernelVirtualStart := by
  have hlt : addr.toNat < 0xC0000000 := haddr
  simp only [pageOf] at h
  show v.toNat < 0xC0000000
  omega

theorem pdIndex_page (addr : Word) : pdIndex (addr &&& ~~~0xFFF) = pdIndex addr := by
  have hpage : (addr &&& ~~~0xFFF).toNat = addr.toNat / 4096 * 4096 := toNat_pageBase addr
  rw [pdIndex_eq, pdIndex_eq, hpage]
  omega

theorem ptIndex_page (addr : Word) : ptIndex (addr &&& ~~~0xFFF) = ptIndex addr := by
  have hpage : (addr &&& ~~~0xFFF).toNat = addr.toNat / 4096 * 4096 := toNat_pageBase addr
  rw [ptIndex_eq, ptIndex_eq, hpage]
  omega

theorem pdIndex_userPage {addr : Word} (h : addr < kernelVirtualStart) :
    pdIndex (addr &&& ~~~0xFFF) < 768 := by
  rw [pdIndex_page]
  exact pdIndex_user h

/-! ### Tables and entries of a directory -/

/-- The page-table frame behind entry `i` of the directory at `d`. -/
def tableAt (ram : Mem) (d : Word) (i : Nat) : Option Word :=
  if present (ram.load d i) then some (pageBase (ram.load d i)) else none

/-- Entry `j` of that table. -/
def entryAt (ram : Mem) (d : Word) (i j : Nat) : Option Word :=
  (tableAt ram d i).bind fun t => if present (ram.load t j) then some (ram.load t j) else none

theorem tableAt_aligned {ram : Mem} {d t : Word} {i : Nat} (h : tableAt ram d i = some t) :
    PageAligned t := by
  unfold tableAt at h
  split at h
  · exact Option.some.inj h ▸ pageAligned_pageBase _
  · cases h

theorem tableAt_congr {ram ram' : Mem} {d : Word} {i : Nat}
    (h : ram'.load d i = ram.load d i) : tableAt ram' d i = tableAt ram d i := by
  rw [tableAt, tableAt, h]

theorem entryAt_congr {ram ram' : Mem} {d : Word} {i j : Nat}
    (hd : tableAt ram' d i = tableAt ram d i)
    (ht : ∀ t, tableAt ram d i = some t → ram'.load t j = ram.load t j) :
    entryAt ram' d i j = entryAt ram d i j := by
  rw [entryAt, entryAt, hd]
  cases h : tableAt ram d i with
  | none => rfl
  | some t => simp only [Option.bind_some, ht t h]

theorem entryAt_none {ram : Mem} {d : Word} {i j : Nat} (h : tableAt ram d i = none) :
    entryAt ram d i j = none := by
  rw [entryAt, h, Option.bind_none]

section Store

variable {ram : Mem} {d d' t : Word} {i i' j j' : Nat} {e : Word}

theorem tableAt_store_ne (ht : PageAligned t) (hd' : PageAligned d') (hne : d' ≠ t) (hj : j < 1024)
    (hi' : i' < 1024) : tableAt (ram.store t j e) d' i' = tableAt ram d' i' :=
  tableAt_congr (load_store_page_ne ram e ht hd' hj hi' hne)

/-- A store to entry `j` of the table at `t` changes that entry of the directories' slots that
hold this table, and nothing else. -/
theorem entryAt_store (ht : PageAligned t) (hd' : PageAligned d') (hne : d' ≠ t) (hj : j < 1024)
    (hi' : i' < 1024) (hj' : j' < 1024) :
    entryAt (ram.store t j e) d' i' j' =
      if tableAt ram d' i' = some t ∧ j' = j then (if present e then some e else none)
      else entryAt ram d' i' j' := by
  have htable : tableAt (ram.store t j e) d' i' = tableAt ram d' i' :=
    tableAt_store_ne ht hd' hne hj hi'
  split
  · next h =>
    obtain ⟨h, rfl⟩ := h
    rw [entryAt, htable, h, Option.bind_some, load_store_same]
  · next h =>
    refine entryAt_congr htable fun t' ht' => ?_
    by_cases hte : t' = t
    · subst hte
      exact load_store_ne ram t' e (by omega) (by omega) fun hjj => h ⟨ht', hjj.symm⟩
    · exact load_store_page_ne ram e ht (tableAt_aligned ht') hj hj' hte

/-- A cleared table at `f`, entered as entry `i` of the directory at `d`. -/
def newTable (ram : Mem) (d : Word) (i : Nat) (f : Word) : Mem :=
  (memset ram f 0 4096).store d i (f ||| 7)

theorem newTable_eq (ram : Mem) (d : Word) (i : Nat) (f : Word) :
    newTable ram d i f =
      Mem.store (fun x => if (x - f).toNat < 4096 then 0 else ram x) d i (f ||| 7) := by
  have hclear : memset ram f 0 4096 = fun x => if (x - f).toNat < 4096 then 0 else ram x := by
    funext x
    exact memset_apply ram f x 0 (by decide)
  rw [newTable, hclear]

variable {f : Word}

theorem load_newTable_ne (hf : PageAligned f) (hd : PageAligned d) (ht : PageAligned t)
    (hi : i < 1024) (hj : j < 1024) (htf : t ≠ f) (htd : t ≠ d) :
    (newTable ram d i f).load t j = ram.load t j := by
  rw [newTable, load_store_page_ne _ _ hd ht hi hj htd]
  refine load_congr ht hj fun x hx => memset_page_outside ram 0 hf (Nat.le_refl _) ?_
  rw [hx]
  exact fun h => htf (ht.pageOf_inj hf h)

theorem load_newTable_self (hf : PageAligned f) (hd : PageAligned d) (hi : i < 1024)
    (hj : j < 1024) (hdf : d ≠ f) : (newTable ram d i f).load f j = 0 := by
  rw [newTable, load_store_page_ne _ _ hd hf hi hj (Ne.symm hdf), load_memset_zero ram hf hj]

/-- The new entry is the only word of another page that changes. -/
theorem load_newTable (hf : PageAligned f) (hd : PageAligned d) (hd' : PageAligned d')
    (hi : i < 1024) (hi' : i' < 1024) (hd'f : d' ≠ f) (hne : ¬(d' = d ∧ i' = i)) :
    (newTable ram d i f).load d' i' = ram.load d' i' := by
  by_cases hdd : d' = d
  · subst hdd
    rw [newTable, load_store_ne _ _ _ (by omega) (by omega) fun hii => hne ⟨rfl, hii.symm⟩]
    refine load_congr hd' hi' fun x hx => memset_page_outside ram 0 hf (Nat.le_refl _) ?_
    rw [hx]
    exact fun hp => hd'f (hd'.pageOf_inj hf hp)
  · exact load_newTable_ne hf hd hd' hi hi' hd'f hdd

theorem tableAt_newTable (hf : PageAligned f) (hd : PageAligned d) (hd' : PageAligned d')
    (hi : i < 1024) (hi' : i' < 1024) (hd'f : d' ≠ f) :
    tableAt (newTable ram d i f) d' i' =
      if d' = d ∧ i' = i then some f else tableAt ram d' i' := by
  split
  · next h =>
    obtain ⟨rfl, rfl⟩ := h
    have hpresent : present (f ||| 7) = true := present_or (by decide)
    rw [tableAt, newTable, load_store_same, if_pos hpresent, pageBase_or hf (by decide)]
  · next h => exact tableAt_congr (load_newTable hf hd hd' hi hi' hd'f h)

theorem entryAt_newTable (hf : PageAligned f) (hd : PageAligned d) (hd' : PageAligned d')
    (hi : i < 1024) (hi' : i' < 1024) (hj' : j' < 1024) (hdf : d ≠ f) (hd'f : d' ≠ f)
    (htf : tableAt ram d' i' ≠ some f) (htd : tableAt ram d' i' ≠ some d) :
    entryAt (newTable ram d i f) d' i' j' =
      if d' = d ∧ i' = i then none else entryAt ram d' i' j' := by
  have htable : tableAt (newTable ram d i f) d' i' =
      if d' = d ∧ i' = i then some f else tableAt ram d' i' :=
    tableAt_newTable hf hd hd' hi hi' hd'f
  split
  · next h =>
    rw [if_pos h] at htable
    rw [entryAt, htable, Option.bind_some, load_newTable_self hf hd hi hj' hdf]
    simp
  · next h =>
    rw [if_neg h] at htable
    refine entryAt_congr htable fun t ht => load_newTable_ne hf hd (tableAt_aligned ht) hi hj' ?_ ?_
    · rintro rfl
      exact htf ht
    · rintro rfl
      exact htd ht

end Store

/-! ### Translation -/

theorem toNat_pageOffset (v : Word) : (v &&& 0xFFF).toNat = v.toNat % 4096 := by
  have hmask : (0xFFF : Word).toNat = 2 ^ 12 - 1 := rfl
  rw [BitVec.toNat_and, hmask, Nat.and_two_pow_sub_one_eq_mod]

theorem or_offset {f x : Word} (hf : PageAligned f) (hx : x.toNat < 4096) : f ||| x = f + x := by
  apply BitVec.eq_of_toNat_eq
  have hsplit := pageAligned_shift hf
  have hlt := f.isLt
  rw [BitVec.toNat_or, BitVec.toNat_add]
  rw [hsplit, ← Nat.shiftLeft_add_eq_or_of_lt (by omega), ← hsplit]
  simp only [PageAligned] at hf
  omega

/-- The two-level translation of an address, `none` where an entry is not present. -/
def translate (ram : Mem) (d v : Word) : Option Word :=
  (entryAt ram d (pdIndex v) (ptIndex v)).map fun e => pageBase e ||| (v &&& 0xFFF)

/-- An address translates into the frame that its entry maps. -/
theorem translate_page {ram : Mem} {d v pa : Word} (h : translate ram d v = some pa) :
    ∃ e, entryAt ram d (pdIndex v) (ptIndex v) = some e ∧ pageOf pa = pageOf (pageBase e) := by
  obtain ⟨e, he, rfl⟩ := Option.map_eq_some_iff.mp h
  refine ⟨e, he, ?_⟩
  have hoff := toNat_pageOffset v
  have hbase := pageAligned_pageBase e
  rw [or_offset hbase (by omega)]
  exact pageOf_add hbase (by omega)

end Lbos

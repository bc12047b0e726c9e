import Lbos.Lib.Memory

/-! Ranges of memory as lists of bytes: what a list that memory holds says about its parts, and the
little-endian words in it. -/

namespace Lbos.Lib

/-- The bytes of a word, the lowest first. -/
def wordBytes (v : Word) : List Byte :=
  [v.extractLsb' 0 8, v.extractLsb' 8 8, v.extractLsb' 16 8, v.extractLsb' 24 8]

@[simp] theorem length_wordBytes (v : Word) : (wordBytes v).length = 4 := rfl

namespace Mem

/-- The `n` bytes from an address on. -/
def bytes (m : Mem) (p : Word) : Nat → List Byte
  | 0 => []
  | n + 1 => m p :: bytes m (p + 1) n

/-- A list of bytes lies in memory from an address on. -/
def Holds (m : Mem) (p : Word) (bs : List Byte) : Prop := m.bytes p bs.length = bs

/-- Writes bytes from an address on. -/
def writeBytes (m : Mem) (p : Word) : List Byte → Mem
  | [] => m
  | b :: bs => writeBytes (m.write p b) (p + 1) bs

variable {m : Mem} {p : Word} {a b : List Byte}

@[simp] theorem length_bytes (m : Mem) (p : Word) (n : Nat) : (m.bytes p n).length = n := by
  induction n generalizing p with
  | zero => rfl
  | succ n ih => rw [bytes, List.length_cons, ih]

theorem add_ofNat_succ (p : Word) (n : Nat) :
    p + 1 + BitVec.ofNat 32 n = p + BitVec.ofNat 32 (n + 1) := by
  rw [BitVec.add_assoc, BitVec.ofNat_add, BitVec.add_comm (BitVec.ofNat 32 n)]
  rfl

theorem add_ofNat_zero (p : Word) : p + BitVec.ofNat 32 0 = p := BitVec.add_zero p

theorem add_ofNat_add (p : Word) (n k : Nat) :
    p + BitVec.ofNat 32 n + BitVec.ofNat 32 k = p + BitVec.ofNat 32 (n + k) := by
  rw [BitVec.add_assoc, BitVec.ofNat_add]

theorem bytes_add (m : Mem) (p : Word) (n k : Nat) :
    m.bytes p (n + k) = m.bytes p n ++ m.bytes (p + BitVec.ofNat 32 n) k := by
  induction n generalizing p with
  | zero => simp [bytes]
  | succ n ih => rw [Nat.succ_add, bytes, bytes, ih, add_ofNat_succ, List.cons_append]

theorem mem_bytes {i n : Nat} (h : i < n) :
    m (p + BitVec.ofNat 32 i) ∈ m.bytes p n := by
  induction n generalizing p i with
  | zero => omega
  | succ n ih =>
    cases i with
    | zero =>
      rw [add_ofNat_zero]
      exact List.mem_cons_self
    | succ i =>
      rw [← add_ofNat_succ]
      exact List.mem_cons_of_mem _ (ih (Nat.lt_of_succ_lt_succ h))

theorem writeBytes_outside (m : Mem) (p x : Word) (bs : List Byte) (hlen : bs.length < 2 ^ 32)
    (h : bs.length ≤ (x - p).toNat) : m.writeBytes p bs x = m x := by
  induction bs generalizing m p with
  | nil => rfl
  | cons b bs ih =>
    rw [List.length_cons] at hlen h
    have hne : x ≠ p := by
      rintro rfl
      rw [BitVec.sub_self] at h
      exact absurd h (Nat.not_succ_le_zero _)
    have hnext : (x - (p + 1)).toNat = (x - p).toNat - 1 := by bv_omega
    rw [writeBytes, ih _ _ (by omega) (by omega), write_ne _ _ hne]

@[simp] theorem holds_nil (m : Mem) (p : Word) : m.Holds p [] := rfl

theorem holds_append : m.Holds p (a ++ b) ↔
    m.Holds p a ∧ m.Holds (p + BitVec.ofNat 32 a.length) b := by
  rw [Holds, List.length_append, bytes_add]
  constructor
  · exact fun h => List.append_inj h (length_bytes ..)
  · rintro ⟨ha, hb⟩
    rw [ha, hb]

theorem Holds.bytes_eq {n : Nat} (h : m.Holds p a) (hn : n = a.length) : m.bytes p n = a := hn ▸ h

/-- Element `i` of an array of elements of `k` bytes. -/
theorem Holds.flatMap {α : Type*} {f : α → List Byte} {k : Nat} (hf : ∀ x, (f x).length = k)
    {l : List α} (h : m.Holds p (l.flatMap f)) {i : Nat} {x : α} (hx : l[i]? = some x) :
    m.Holds (p + BitVec.ofNat 32 (k * i)) (f x) := by
  induction l generalizing p i with
  | nil => cases hx
  | cons y l ih =>
    rw [List.flatMap_cons, holds_append, hf] at h
    cases i with
    | zero =>
      rw [List.getElem?_cons_zero] at hx
      obtain rfl := Option.some.inj hx
      rw [Nat.mul_zero, add_ofNat_zero]
      exact h.1
    | succ i =>
      rw [List.getElem?_cons_succ] at hx
      have hrest := ih h.2 hx
      rwa [add_ofNat_add, show k + k * i = k * (i + 1) by rw [Nat.mul_succ, Nat.add_comm]] at hrest

/-- Element `i` of a sequence of lists. -/
theorem Holds.flatten {l : List (List Byte)} (h : m.Holds p l.flatten) {i : Nat} {x : List Byte}
    (hx : l[i]? = some x) :
    m.Holds (p + BitVec.ofNat 32 ((l.take i).map List.length).sum) x := by
  induction l generalizing p i with
  | nil => cases hx
  | cons y l ih =>
    rw [List.flatten_cons, holds_append] at h
    cases i with
    | zero =>
      rw [List.getElem?_cons_zero] at hx
      obtain rfl := Option.some.inj hx
      rw [List.take_zero, List.map_nil, List.sum_nil, add_ofNat_zero]
      exact h.1
    | succ i =>
      rw [List.getElem?_cons_succ] at hx
      have hrest := ih h.2 hx
      rwa [add_ofNat_add] at hrest

/-- A part of a list. -/
theorem Holds.drop_take (h : m.Holds p a) {i n : Nat} (hle : i + n ≤ a.length) :
    m.bytes (p + BitVec.ofNat 32 i) n = (a.drop i).take n := by
  obtain ⟨k, hk⟩ := Nat.exists_eq_add_of_le hle
  have hsplit : a = a.take i ++ ((a.drop i).take n ++ (a.drop i).drop n) := by
    rw [List.take_append_drop, List.take_append_drop]
  rw [hsplit] at h
  have hlen : (a.take i).length = i := List.length_take_of_le (by omega)
  have hpart := (holds_append.mp (holds_append.mp h).2).1
  rw [hlen] at hpart
  refine hpart.bytes_eq ?_
  rw [List.length_take, List.length_drop]
  omega

/-- Some memory holds a list at an address. -/
theorem exists_holds (p : Word) (bs : List Byte) (hlen : bs.length ≤ 2 ^ 32) :
    ∃ m : Mem, m.Holds p bs := by
  refine ⟨fun a => bs[(a - p).toNat]?.getD 0, ?_⟩
  have hrest : ∀ n k, k + n = bs.length →
      bytes (fun a => bs[(a - p).toNat]?.getD 0) (p + BitVec.ofNat 32 k) n = bs.drop k := by
    intro n
    induction n with
    | zero => exact fun k hk => (List.drop_eq_nil_of_le (Nat.le_of_eq hk.symm)).symm
    | succ n ih =>
      intro k hk
      have hlt : k < bs.length := by omega
      have hoffset : (p + BitVec.ofNat 32 k - p).toNat = k := by
        rw [BitVec.add_comm p, BitVec.add_sub_cancel, BitVec.toNat_ofNat, Nat.mod_eq_of_lt (by omega)]
      have hnext : p + BitVec.ofNat 32 k + 1 = p + BitVec.ofNat 32 (k + 1) := add_ofNat_add p k 1
      rw [bytes, hnext, ih (k + 1) (by omega), hoffset, List.getElem?_eq_getElem hlt, Option.getD_some,
        ← List.drop_eq_getElem_cons hlt]
  have hall := hrest bs.length 0 (Nat.zero_add _)
  rwa [add_ofNat_zero, List.drop_zero] at hall

theorem read32_of_holds {v : Word} (h : m.Holds p (wordBytes v)) : m.read32 p = v := by
  have hbytes : [m p, m (p + 1), m (p + 1 + 1), m (p + 1 + 1 + 1)] = wordBytes v := h
  have h2 : p + 1 + 1 = p + 2 := by bv_omega
  have h3 : p + 1 + 1 + 1 = p + 3 := by bv_omega
  rw [h2, show p + 2 + 1 = p + 3 by bv_omega, wordBytes] at hbytes
  simp only [List.cons.injEq, and_true] at hbytes
  obtain ⟨hb0, hb1, hb2, hb3⟩ := hbytes
  rw [read32, hb0, hb1, hb2, hb3]
  exact word_of_bytes v

end Mem

end Lbos.Lib

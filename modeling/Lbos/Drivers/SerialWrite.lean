import Mathlib.Tactic.Ring
import Lbos.Drivers.Serial
import Lbos.FormatReading

/-! What `serial_write` sends: a beginning of its string, as long as the line gets ready in time for
each byte, and how often it reads the line's status for that. -/

namespace Lbos

open Lib

namespace Serial

variable (s : Serial)

/-- The line is not ready at any of `count` readings from the one with number `first` on. -/
def Stalled (first count : Nat) : Prop :=
  ∀ j < count, s.input (serialLineStatusPort serialCom1Base) (first + j) &&& 0x20 = 0

/-- After so many more readings, with these bytes sent to the data port of COM1. -/
def after (readings : Nat) (sent : List Byte) : Serial :=
  { s with
    readings := s.readings + readings
    ports := s.ports ++ sent.map fun c => (serialDataPort serialCom1Base, c) }

variable {s}

@[simp] theorem after_zero : s.after 0 [] = s := by simp [after]

@[simp] theorem after_after (m n : Nat) (a b : List Byte) :
    (s.after m a).after n b = s.after (m + n) (a ++ b) := by
  simp [after, Nat.add_assoc]

@[simp] theorem after_readings (n : Nat) (a : List Byte) :
    (s.after n a).readings = s.readings + n := rfl

end Serial

variable (s : Serial)

theorem serialIsTransmitFifoEmpty_eq :
    serialIsTransmitFifoEmpty serialCom1Base s =
      (s.input (serialLineStatusPort serialCom1Base) s.readings &&& 0x20, s.after 1 []) := by
  simp [serialIsTransmitFifoEmpty, inb, Serial.after]

/-- A wait makes some of the readings it may make, and all of them where it is in vain. -/
theorem serialWait_eq (attempts : Nat) :
    ∃ n ≤ attempts, serialWait serialCom1Base attempts s = (true, s.after n []) ∨
      n = attempts ∧ s.Stalled s.readings attempts ∧
        serialWait serialCom1Base attempts s = (false, s.after attempts []) := by
  induction attempts generalizing s with
  | zero =>
    refine ⟨0, Nat.le_refl 0, .inr ⟨rfl, ?_, ?_⟩⟩
    · intro j hj
      cases hj
    · rw [Serial.after_zero]
      rfl
  | succ attempts ih =>
    rw [serialWait, serialIsTransmitFifoEmpty_eq]
    by_cases hempty : s.input (serialLineStatusPort serialCom1Base) s.readings &&& 0x20 = 0
    · simp only [if_pos hempty]
      obtain ⟨n, hn, hready | ⟨-, hstalled, hwait⟩⟩ := ih (s.after 1 [])
      · refine ⟨n + 1, by omega, .inl ?_⟩
        rw [hready, Serial.after_after, Nat.add_comm]
        rfl
      · refine ⟨attempts + 1, Nat.le_refl _, .inr ⟨rfl, ?_, ?_⟩⟩
        · intro j hj
          cases j with
          | zero => exact hempty
          | succ j =>
            have hlater := hstalled j (by omega)
            rwa [Serial.after_readings, Nat.add_assoc, Nat.add_comm 1] at hlater
        · rw [hwait, Serial.after_after, Nat.add_comm]
          rfl
    · refine ⟨1, by omega, .inl ?_⟩
      simp only [if_neg hempty]

theorem serialWriteByte_eq (c : Byte) :
    ∃ n ≤ serialMaxWaitAttempts, serialWriteByte serialCom1Base c s = (0, s.after n [c]) ∨
      n = serialMaxWaitAttempts ∧ s.Stalled s.readings serialMaxWaitAttempts ∧
        serialWriteByte serialCom1Base c s = (-1, s.after serialMaxWaitAttempts []) := by
  obtain ⟨n, hn, hready | ⟨hall, hstalled, hwait⟩⟩ := serialWait_eq s serialMaxWaitAttempts
  · refine ⟨n, hn, .inl ?_⟩
    rw [serialWriteByte, hready]
    have hsent : (s.after n []).outb (serialDataPort serialCom1Base) c = s.after n [c] := by
      simp [Serial.outb, outb, Serial.after]
    exact congrArg (Prod.mk 0) hsent
  · refine ⟨n, hn, .inr ⟨hall, hstalled, ?_⟩⟩
    rw [serialWriteByte, hwait]
    rfl

/-- The loop sends a beginning of its bytes, and all of them unless a byte waits in vain. -/
theorem serialWriteLoop_eq {str : List Byte} {left : Nat} (h : left ≤ str.length) (i : Int) :
    ∃ n ≤ left, ∃ r ≤ serialMaxWaitAttempts * left,
      serialWriteLoop str left i s =
          some (if n < left then some (i + n) else none, s.after r (str.take n)) ∧
        (n < left → ∃ first, s.readings ≤ first ∧
          first + serialMaxWaitAttempts = s.readings + r ∧
          s.Stalled first serialMaxWaitAttempts) := by
  induction str generalizing left i s with
  | nil =>
    obtain rfl := Nat.le_zero.mp h
    refine ⟨0, Nat.le_refl 0, 0, Nat.le_refl 0, ?_, fun hlt => absurd hlt (Nat.not_lt_zero _)⟩
    rw [List.take_nil, Serial.after_zero]
    rfl
  | cons c str ih =>
    cases left with
    | zero =>
      refine ⟨0, Nat.le_refl 0, 0, Nat.le_refl 0, ?_, fun hlt => absurd hlt (Nat.not_lt_zero _)⟩
      rw [List.take_zero, Serial.after_zero]
      rfl
    | succ left =>
      rw [serialWriteLoop]
      obtain ⟨r, hr, hsent | ⟨-, hstalled, hwait⟩⟩ := serialWriteByte_eq s c
      · obtain ⟨n, hn, r', hr', hloop, hstop⟩ :=
          ih (s.after r [c]) (Nat.le_of_succ_le_succ h) (i + 1)
        refine ⟨n + 1, Nat.succ_le_succ hn, r + r', ?_, ?_, ?_⟩
        · rw [Nat.mul_succ]
          omega
        · have hindex : i + 1 + (n : Int) = i + ((n + 1 : Nat) : Int) := by push_cast; ring
          rw [hsent]
          simp only [lt_irrefl, if_false, hloop, Serial.after_after, List.take_succ_cons,
            List.singleton_append, hindex, Nat.add_lt_add_iff_right]
        · intro hlt
          obtain ⟨first, hfirst, hend, hstall⟩ := hstop (Nat.lt_of_succ_lt_succ hlt)
          rw [Serial.after_readings] at hfirst hend
          exact ⟨first, by omega, by omega, hstall⟩
      · refine ⟨0, Nat.zero_le _, serialMaxWaitAttempts, ?_, ?_, ?_⟩
        · exact Nat.le_mul_of_pos_right _ (Nat.succ_pos _)
        · rw [hwait]
          simp
        · exact fun _ => ⟨s.readings, Nat.le_refl _, rfl, hstalled⟩

theorem take_bytes (str : CString) {n : Nat} (h : n ≤ str.text.length) :
    str.bytes.take n = str.text.take n := by
  obtain ⟨rest, hbytes⟩ := eq_text_append str.terminated
  have hlist : str.bytes = str.text ++ 0 :: rest := hbytes
  rw [hlist, List.take_append_of_le_length h]

/-- The call sends its bytes, waits once more, and returns how many it sent. -/
theorem serialWriteBytes_eq (str : CString) {count : Nat} (hcount : count ≤ str.text.length)
    {len : Word} (hlen : len.toInt = count) :
    ∃ r ≤ count, ∃ n ≤ serialMaxWaitAttempts * count + serialMaxWaitAttempts,
      serialWriteBytes str.bytes len s = some ((r : Int), s.after n (str.text.take r)) ∧
        (r < count → ∃ first, s.readings ≤ first ∧
          first + serialMaxWaitAttempts ≤ s.readings + n ∧
          s.Stalled first serialMaxWaitAttempts) := by
  have hbytes : count ≤ str.bytes.length := hcount.trans (length_text_lt str.terminated).le
  obtain ⟨r, hr, n, hn, hloop, hstop⟩ := serialWriteLoop_eq s hbytes 0
  have hcast : len.toInt.toNat = count := by rw [hlen]; rfl
  rw [take_bytes str (hr.trans hcount)] at hloop
  by_cases hlt : r < count
  · refine ⟨r, hr, n, by omega, ?_, ?_⟩
    · rw [serialWriteBytes, hcast, hloop, if_pos hlt, Int.zero_add]
    · intro _
      obtain ⟨first, hfirst, hend, hstalled⟩ := hstop hlt
      exact ⟨first, hfirst, hend.le, hstalled⟩
  · obtain rfl : r = count := le_antisymm hr (not_lt.mp hlt)
    have hwait : ∃ k ≤ serialMaxWaitAttempts,
        (serialWait serialCom1Base serialMaxWaitAttempts (s.after n (str.text.take r))).2 =
          s.after (n + k) (str.text.take r) := by
      obtain ⟨k, hk, hready | ⟨-, -, hvain⟩⟩ :=
        serialWait_eq (s.after n (str.text.take r)) serialMaxWaitAttempts
      · exact ⟨k, hk, by rw [hready, Serial.after_after, List.append_nil]⟩
      · exact ⟨_, Nat.le_refl _, by rw [hvain, Serial.after_after, List.append_nil]⟩
    obtain ⟨k, hk, hlast⟩ := hwait
    refine ⟨r, hr, n + k, by omega, ?_, fun h => absurd h hlt⟩
    rw [serialWriteBytes, hcast, hloop, if_neg hlt]
    exact congrArg some (Prod.ext hlen hlast)

/-- How many bytes a call is asked to send. -/
def requested (str : CString) (len : Word) : Nat :=
  if len.toInt ≤ 0 then str.text.length else len.toInt.toNat

/-- The call sends exactly the first `r` bytes of the string, where `r` is its result; that is less
than it was asked for only if the line was not ready at as many consecutive readings as a wait makes
at most; and it makes at most so many readings for each byte and for the last wait. -/
def SendsPrefix (str : CString) (len : Word) : Prop :=
  ∃ r ≤ requested str len,
    ∃ n ≤ serialMaxWaitAttempts * requested str len + serialMaxWaitAttempts,
      serialWrite (some str.bytes) len s = some ((r : Int), s.after n (str.text.take r)) ∧
        (r < requested str len → ∃ first, s.readings ≤ first ∧
          first + serialMaxWaitAttempts ≤ s.readings + n ∧
          s.Stalled first serialMaxWaitAttempts)

theorem serial_write_sends_prefix (str : CString) (len : Word)
    (hlen : len.toInt ≤ str.text.length) (hint : len.toInt ≤ 0 → str.text.length < 2 ^ 31) :
    SendsPrefix s str len := by
  rw [SendsPrefix, requested, serialWrite]
  split
  · next hnonpos =>
    have hlength := hint hnonpos
    have hstrlen : strlen str.bytes = some str.text.length := strlen_eq str.terminated
    rw [hstrlen, Option.bind_some]
    exact serialWriteBytes_eq s str (Nat.le_refl _)
      ((toInt_ofNat_length (by omega)).mpr hlength)
  · next hpos =>
    have hcast : (len.toInt.toNat : Int) = len.toInt := Int.toNat_of_nonneg (by omega)
    exact serialWriteBytes_eq s str (by omega) hcast.symm

/-- `"ok"`. -/
def sampleString : CString := .ofText [charByte 'o', charByte 'k']

/-- On a line that gets ready at the second reading only, both bytes are sent. -/
theorem serial_write_sends_prefix_sample :
    SendsPrefix ⟨fun _ n => if n = 0 then 0 else 0x20, 0, []⟩ sampleString (-1) :=
  serial_write_sends_prefix _ _ _ (by decide) (by decide)

/-- A length that is negative as an `int` makes the loop send nothing, and is returned. -/
theorem serialWriteBytes_of_neg (str : List Byte) {len : Word} (h : len.toInt ≤ 0) :
    ∃ s', serialWriteBytes str len s = some (len.toInt, s') := by
  have hloop : serialWriteLoop str len.toInt.toNat 0 s = some (none, s) := by
    rw [Int.toNat_of_nonpos h, serialWriteLoop]
  rw [serialWriteBytes, hloop]
  exact ⟨_, rfl⟩

theorem not_sendsPrefix_of_long {str : CString} (h : str.text.length = 2 ^ 31) :
    ¬SendsPrefix s str 0 := by
  rintro ⟨r, -, n, -, hcall, -⟩
  have hstrlen : strlen str.bytes = some str.text.length := strlen_eq str.terminated
  obtain ⟨s', hnegative⟩ := serialWriteBytes_of_neg s str.bytes
    (by decide : (BitVec.ofNat 32 (2 ^ 31)).toInt ≤ 0)
  rw [serialWrite, if_pos (by decide), hstrlen, Option.bind_some, h, hnegative] at hcall
  have hresult : (BitVec.ofNat 32 (2 ^ 31)).toInt = (r : Int) :=
    congrArg Prod.fst (Option.some.inj hcall)
  have hleast : (BitVec.ofNat 32 (2 ^ 31)).toInt = -2 ^ 31 := by decide
  omega

/-- Of a string of `2 ^ 31` characters nothing is sent, and the result is negative. -/
theorem long_string_not_sent :
    ¬SendsPrefix ⟨fun _ _ => 0x20, 0, []⟩ (.ofText (List.replicate (2 ^ 31) (charByte 'a'))) 0 := by
  have hzero : 0 ∉ List.replicate (2 ^ 31) (charByte 'a') := by
    rw [List.mem_replicate]
    exact fun h => absurd h.2 (by decide)
  exact not_sendsPrefix_of_long _ (by rw [text_ofText hzero, List.length_replicate])

end Lbos

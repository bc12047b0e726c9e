import Lbos.FormatEnd

/-! Where the scan of `log_write` ends, and both scans together. -/

namespace Lbos

open Lib

open LogLevel (escape)

theorem serialWriteBytes_ok {str : List Byte} {len : Word} (h : len.toInt ≤ str.length)
    (s : Serial) : ∃ result, serialWriteBytes str len s = some result := by
  obtain ⟨n, -, r, -, hloop, -⟩ := serialWriteLoop_eq s (by omega : len.toInt.toNat ≤ str.length) 0
  rw [serialWriteBytes, hloop]
  by_cases hlt : n < len.toInt.toNat
  · rw [if_pos hlt]
    exact ⟨_, rfl⟩
  · rw [if_neg hlt]
    exact ⟨_, rfl⟩

/-- A length that does not fit an `int` becomes a smaller one. -/
theorem toInt_ofNat_le (n : Nat) : (BitVec.ofNat 32 n).toInt ≤ n := by
  have hle : (BitVec.ofNat 32 n).toInt ≤ (BitVec.ofNat 32 n).toNat := by
    rw [BitVec.toInt_eq_toNat_cond]
    split <;> omega
  have hmod : (BitVec.ofNat 32 n).toNat ≤ n := Nat.mod_le _ _
  omega

/-- A write stays in a string that is terminated, or whose bytes are counted. -/
theorem logSend_ok {str : List Byte} {len : Word} (h : 0 ∈ str ∨ 0 < len.toInt)
    (hlen : len.toInt ≤ str.length) (s : Serial) : ∃ s', logSend str len s = .ok s' := by
  have hwrite : ∃ result, serialWrite (some str) len s = some result := by
    rw [serialWrite]
    split
    · next hnonpos =>
      have hzero := h.resolve_right (by omega)
      rw [strlen_eq hzero, Option.bind_some]
      refine serialWriteBytes_ok ?_ s
      have hlt := length_text_lt hzero
      have hle := toInt_ofNat_le (text str).length
      omega
    · exact serialWriteBytes_ok hlen s
  obtain ⟨⟨r, s'⟩, hresult⟩ := hwrite
  exact ⟨s', by rw [logSend, hresult]; rfl⟩

theorem neg_one_le_length (str : List Byte) : (-1 : Word).toInt ≤ str.length := by
  have h : (-1 : Word).toInt = -1 := rfl
  omega

/-- One character is sent from wherever it stands. -/
theorem logSend_one (c : Byte) (p : List Byte) (s : Serial) :
    ∃ s', logSend (c :: p) 1 s = .ok s' :=
  logSend_ok (.inr (by decide)) (by simp) s

theorem numToDecimal_ok (num : Word) : ∃ text, numToDecimal num = .ok (text ++ [0]) := by
  by_cases hleast : num = 0x80000000
  · subst hleast
    exact ⟨[charByte '-'], by decide⟩
  · by_cases hneg : num.toInt < 0
    · exact ⟨_, numToDecimal_of_neg hneg hleast⟩
    · exact ⟨_, numToDecimal_of_nonneg hneg⟩

/-- The conversions of `log_write`. -/
def TakesArg (c : Byte) : Prop :=
  c = charByte 'd' ∨ c = charByte 'x' ∨ c = charByte 's' ∨ c = charByte 'c'

instance (c : Byte) : Decidable (TakesArg c) :=
  inferInstanceAs (Decidable (c = charByte 'd' ∨ c = charByte 'x' ∨ c = charByte 's' ∨
    c = charByte 'c'))

section Directive

variable (m : Mem) {c : Byte} (p : List Byte) (args : List Word) (s : Serial)

end Directive

/-- Where the scan of `log_write` stands in a format. -/
inductive LogPlace where
  | text | percent | escape

/-- The place behind a character, where the loop tests the format again. -/
def LogPlace.next (c : Byte) : LogPlace :=
  if c = charByte '%' then .percent else if c = LogLevel.escape then .escape else .text

section Run

variable (m : View) (level : LogLevel) {c : Byte} {p : List Byte} {args : List Word}
  {s s' : Serial}

theorem logScanner_escape {rest : List Byte} (h : logEscape level (escape :: p) s = .ok (rest, s')) :
    (logScanner m level).run (escape :: p) (args, s) =
      (logScanner m level).run rest (args, s') := by
  have hturn : logTurn m level (escape :: p) (args, s) =
      (logEscape level (escape :: p) s).map fun next => some (next.1, (args, next.2)) := by
    rw [logTurn.eq_def]
    exact (if_pos (by decide)).trans ((if_neg (by decide)).trans (if_pos rfl))
  refine Scanner.run_of_turn (hturn.trans ?_)
  rw [h]
  rfl

theorem logScanner_percent :
    (logScanner m level).run (charByte '%' :: c :: p) (args, s) =
      (logDirective m (c :: p) args s).bind fun next => (logScanner m level).run p next := by
  have hturn : logTurn m level (charByte '%' :: c :: p) (args, s) =
      (logDirective m (c :: p) args s).map fun next => some (p, next) := by
    rw [logTurn.eq_def]
    exact (if_pos (by decide)).trans (if_pos rfl)
  exact Scanner.run_map hturn

end Run

theorem level_string_ok (level : LogLevel) (s : Serial) :
    ∃ s', logSend level.string (-1) s = .ok s' :=
  logSend_ok (.inl (by cases level <;> decide)) (neg_one_le_length _) s

theorem logSpaces_ok (spaces : List Nat) (s : Serial) :
    ∃ s', spaces.foldlM (fun s _ => logSend [charByte ' ', 0] 1 s) s = .ok s' := by
  induction spaces generalizing s with
  | nil => exact ⟨s, rfl⟩
  | cons i spaces ih =>
    obtain ⟨s₁, hsent⟩ := logSend_one (charByte ' ') [0] s
    obtain ⟨s', hrest⟩ := ih s₁
    refine ⟨s', ?_⟩
    rw [List.foldlM_cons, hsent]
    exact hrest

/-- A line that is always ready. -/
def readyLine : Serial := ⟨fun _ _ => 0x20, 0, []⟩

end Lbos

import Lbos.Drivers.Serial
import Lbos.Lib.Scan
import Lbos.LogCall

/-! The log of `lib/log.c`: `log_write` scans its format and sends what it asks for to the serial
port.  The arguments are the words that `va_arg` takes, and the strings they point to are read from
memory, where it is present. -/

namespace Lbos

open Lib

namespace LogLevel

def name : LogLevel → List Byte
  | debug => ['D', 'E', 'B', 'U', 'G'].map charByte
  | info => ['I', 'N', 'F', 'O'].map charByte
  | warn => ['W', 'A', 'R', 'N'].map charByte
  | error => ['E', 'R', 'R', 'O', 'R'].map charByte
  | fatal => ['F', 'A', 'T', 'A', 'L'].map charByte

/-- `level_strings`. -/
def string (level : LogLevel) : List Byte :=
  level.color ++ charByte '[' :: level.name ++ charByte ']' :: escape ::
    ['[', '0', 'm'].map charByte ++ [0]

/-- `level_lengths`. -/
def length : LogLevel → Nat
  | debug => 7
  | info => 6
  | warn => 6
  | error => 7
  | fatal => 7

end LogLevel

open LogLevel (escape)

/-- The result of a write is not looked at. -/
def logSent : Option (Int × Serial) → Except Fault Serial
  | none => .error .format
  | some (_, s) => .ok s

def logSend (str : List Byte) (len : Word) (s : Serial) : Except Fault Serial :=
  logSent (serialWrite (some str) len s)

/-- A conversion of `log_write` that takes an argument. -/
def logArg (print : Word → Except Fault Serial) : List Word → Except Fault (List Word × Serial)
  | [] => .error .argument
  | arg :: args => (print arg).map fun s => (args, s)

/-- What lies at each address, `none` where no page is present. -/
abbrev View := Word → Option Byte

/-- A memory that is present as a whole. -/
def Lib.Mem.view (m : Mem) : View := fun a => some (m a)

/-- The characters that `strlen` counts from `str` on, up to the terminator and at most `room`. -/
def stringAt (m : View) : Nat → Word → Except Fault (List Byte)
  | 0, _ => .ok []
  | room + 1, str =>
    match m str with
    | none => .error (.page str)
    | some c => if c ≠ 0 then (stringAt m room (str + 1)).map (c :: ·) else .ok []

/-- A string, at an address that is not null. -/
def logString (m : View) (str : Word) (s : Serial) : Except Fault Serial :=
  if str ≠ 0 then (stringAt m (2 ^ 32) str).bind fun chars => logSend (chars ++ [0]) (-1) s
  else logSend (nullText ++ [0]) 6 s

/-- `switch (*p)`, with `p` at the first of these characters. -/
def logDirective (m : View) (p : List Byte) (args : List Word) (s : Serial) :
    Except Fault (List Word × Serial) :=
  if p.head? = some (charByte 'd') then logArg (fun val => (serialWriteDecimal val s).bind logSent) args
  else if p.head? = some (charByte 'x') then logArg (fun val => logSent (serialWriteHex val s)) args
  else if p.head? = some (charByte 's') then logArg (fun str => logString m str s) args
  else if p.head? = some (charByte 'c') then logArg (fun c => logSend [c.setWidth 8] 1 s) args
  else (logSend p 1 s).map fun s => (args, s)

/-- `while (*p != 'm' && *p != '\\0') p++`. -/
def skipEscape : List Byte → Except Fault (List Byte)
  | [] => .error .format
  | c :: p => if c ≠ charByte 'm' ∧ c ≠ 0 then skipEscape p else .ok (c :: p)

/-- An escape sequence, which `LOG_LEVEL_INFO` leaves out. -/
def logEscape (level : LogLevel) (colorStart : List Byte) (s : Serial) :
    Except Fault (List Byte × Serial) :=
  match skipEscape colorStart with
  | .error fault => .error fault
  | .ok [] => .error .format
  | .ok (c :: p) =>
    if c = charByte 'm' then
      if level ≠ .info then
        (logSend colorStart (BitVec.ofNat 32 (colorStart.length - p.length)) s).map fun s => (p, s)
      else .ok (p, s)
    else .ok (c :: p, s)

/-- One turn of the loop of `log_write`. -/
def logTurn (m : View) (level : LogLevel) :
    List Byte → List Word × Serial → Except Fault (Option (List Byte × (List Word × Serial)))
  | [], _ => .error .format
  | c :: p, (args, s) =>
    if c ≠ 0 then
      if c = charByte '%' then
        match p with
        | [] => .error .format
        | d :: rest => (logDirective m (d :: rest) args s).map fun next => some (rest, next)
      else if c = escape then
        (logEscape level (c :: p) s).map fun next => some (next.1, (args, next.2))
      else (logSend (c :: p) 1 s).map fun s => some (p, (args, s))
    else .ok none

theorem stringAt_view (m : Mem) (room : Nat) (str : Word) :
    stringAt m.view room str = .ok (charsAt m room str) := by
  induction room generalizing str with
  | zero => rfl
  | succ room ih =>
    rw [stringAt, charsAt, Mem.view]
    simp only
    split
    · rw [ih]
      rfl
    · rfl

theorem skipEscape_suffix {p rest : List Byte} (h : skipEscape p = .ok rest) :
    ∃ skipped, p = skipped ++ rest := by
  induction p with
  | nil => cases h
  | cons c p ih =>
    rw [skipEscape] at h
    split at h
    · obtain ⟨skipped, hp⟩ := ih h
      exact ⟨c :: skipped, congrArg (c :: ·) hp⟩
    · cases h
      exact ⟨[], rfl⟩

/-- The escape character itself is skipped. -/
theorem skipEscape_escape (p : List Byte) : skipEscape (escape :: p) = skipEscape p := by
  rw [skipEscape]
  exact if_pos (by decide)

theorem logEscape_forward {level : LogLevel} {p rest : List Byte} {s s' : Serial}
    (h : logEscape level (escape :: p) s = .ok (rest, s')) :
    ∃ skipped, skipped ≠ [] ∧ escape :: p = skipped ++ rest := by
  rw [logEscape, skipEscape_escape] at h
  split at h
  · cases h
  · cases h
  · next c q hq =>
    obtain ⟨skipped, rfl⟩ := skipEscape_suffix hq
    have hrest : rest = q ∨ rest = c :: q := by
      split at h
      · split at h
        · obtain ⟨sent, -, hnext⟩ := map_eq_ok h
          cases hnext
          exact .inl rfl
        · cases h
          exact .inl rfl
      · cases h
        exact .inr rfl
    obtain rfl | rfl := hrest
    · exact ⟨escape :: skipped ++ [c], by simp, by simp⟩
    · exact ⟨escape :: skipped, by simp, by simp⟩

theorem logTurn_forward {m : View} {level : LogLevel} {p rest : List Byte}
    {st st' : List Word × Serial} (h : logTurn m level p st = .ok (some (rest, st'))) :
    ∃ skipped, skipped ≠ [] ∧ p = skipped ++ rest := by
  obtain ⟨args, s⟩ := st
  cases p with
  | nil => cases h
  | cons c p =>
    rw [logTurn.eq_def] at h
    dsimp only at h
    split at h
    · split at h
      · cases p with
        | nil => cases h
        | cons d p =>
          obtain ⟨next, -, hnext⟩ := map_eq_ok h
          cases hnext
          exact ⟨[c, d], by simp, rfl⟩
      · split at h
        · next hescape =>
          subst hescape
          obtain ⟨next, hescape, hnext⟩ := map_eq_ok h
          cases hnext
          exact logEscape_forward hescape
        · obtain ⟨next, -, hnext⟩ := map_eq_ok h
          cases hnext
          exact ⟨[c], by simp, rfl⟩
    · cases h

def logScanner (m : View) (level : LogLevel) : Scanner Byte (List Word × Serial) Fault :=
  ⟨logTurn m level, logTurn_forward⟩

/-- The serial ports after the call, where `current` is `current_log_level`. -/
def logWrite (m : View) (current level : LogLevel) (format : List Byte) (args : List Word)
    (s : Serial) : Except Fault Serial :=
  if level.value < current.value then .ok s
  else do
    let s ← logSend level.string (-1) s
    let s ← (List.range (10 - level.length)).foldlM (fun s _ => logSend [charByte ' ', 0] 1 s) s
    let (_, s) ← (logScanner m level).run format (args, s)
    logSend [0x0A, 0] 1 s

end Lbos

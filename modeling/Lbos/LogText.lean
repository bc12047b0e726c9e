import Lbos.Drivers.SerialWrite
import Lbos.LogEnd
import Lbos.Numerals

/-! What `log_write` sends to the serial port for a format and its arguments: the text that the
format stands for, and where the line keeps a wait waiting, that text with bytes left out. -/

namespace Lbos

open Lib LogLevel

/-! ### Sending -/

/-- From the first state on, some of these bytes went out in order, and all of them if no wait was in
vain. -/
def Sends (s : Serial) (bytes : List Byte) (s' : Serial) : Prop :=
  ∃ n sent, s' = s.after n sent ∧ sent.Sublist bytes ∧
    ((∀ first, ¬s.Stalled first serialMaxWaitAttempts) → sent = bytes)

section Sends

variable {s s' s'' : Serial} {bytes bytes' : List Byte}

theorem Sends.refl (s : Serial) : Sends s [] s :=
  ⟨0, [], Serial.after_zero.symm, .slnil, fun _ => rfl⟩

theorem Sends.append (h : Sends s bytes s') (h' : Sends s' bytes' s'') :
    Sends s (bytes ++ bytes') s'' := by
  obtain ⟨n, sent, rfl, hsub, hall⟩ := h
  obtain ⟨n', sent', rfl, hsub', hall'⟩ := h'
  refine ⟨n + n', sent ++ sent', Serial.after_after .., hsub.append hsub', fun hready => ?_⟩
  rw [hall hready, hall' hready]

/-- The result of a call that sends bytes. -/
def SendsOk (s : Serial) (bytes : List Byte) (result : Except Fault Serial) : Prop :=
  ∃ s', result = .ok s' ∧ Sends s bytes s'

/-- A wait sends nothing. -/
theorem serialWait_sends (s : Serial) (attempts : Nat) :
    Sends s [] (serialWait serialCom1Base attempts s).2 := by
  obtain ⟨n, -, hready | ⟨-, -, hvain⟩⟩ := serialWait_eq s attempts
  · exact ⟨n, [], by rw [hready], .slnil, fun _ => rfl⟩
  · exact ⟨attempts, [], by rw [hvain], .slnil, fun _ => rfl⟩

theorem serialWriteBytes_sends {str : List Byte} {count : Nat} (hcount : count ≤ str.length)
    {len : Word} (hlen : len.toInt = count) (s : Serial) :
    SendsOk s (str.take count) (logSent (serialWriteBytes str len s)) := by
  obtain ⟨r, hr, n, -, hloop, hstop⟩ := serialWriteLoop_eq s hcount 0
  have hcast : len.toInt.toNat = count := by rw [hlen]; rfl
  rw [serialWriteBytes, hcast, hloop]
  by_cases hlt : r < count
  · refine ⟨_, by rw [if_pos hlt]; rfl, n, str.take r, rfl, ?_, fun hready => ?_⟩
    · exact List.take_sublist_take_left hr
    · obtain ⟨first, -, -, hstalled⟩ := hstop hlt
      exact absurd hstalled (hready first)
  · obtain rfl : r = count := le_antisymm hr (not_lt.mp hlt)
    have hsent : Sends s (str.take r) (s.after n (str.take r)) :=
      ⟨n, _, rfl, .refl _, fun _ => rfl⟩
    refine ⟨_, by rw [if_neg hlt]; rfl, ?_⟩
    simpa using hsent.append (serialWait_sends _ serialMaxWaitAttempts)

/-- As many bytes as are asked for. -/
theorem logSend_sends {str : List Byte} {count : Nat} (hcount : count ≤ str.length) (hpos : 0 < count)
    {len : Word} (hlen : len.toInt = count) (s : Serial) :
    SendsOk s (str.take count) (logSend str len s) := by
  rw [logSend, serialWrite, if_neg (by omega)]
  exact serialWriteBytes_sends hcount hlen s

/-- A string to its terminator. -/
theorem logSend_string {t : List Byte} (hterm : 0 ∉ t) (hlength : t.length < 2 ^ 31) (s : Serial) :
    SendsOk s t (logSend (t ++ [0]) (-1) s) := by
  have hstrlen : strlen (t ++ [0]) = some t.length := by
    rw [strlen_eq (zero_mem_terminated t), text_append hterm]
  have hint : (BitVec.ofNat 32 t.length).toInt = (t.length : Int) := by
    rw [BitVec.toInt_eq_toNat_of_lt (by rw [BitVec.toNat_ofNat]; omega), BitVec.toNat_ofNat,
      Nat.mod_eq_of_lt (by omega)]
  rw [logSend, serialWrite, if_pos (by decide), hstrlen, Option.bind_some]
  have hcount : t.length ≤ (t ++ [0]).length := by simp
  have hsent := serialWriteBytes_sends hcount hint s
  rwa [List.take_left] at hsent

theorem logSend_byte (c : Byte) (p : List Byte) (s : Serial) :
    SendsOk s [c] (logSend (c :: p) 1 s) := by
  have hcount : 1 ≤ (c :: p).length := by simp
  have hlen : (1 : Word).toInt = (1 : Nat) := by decide
  simpa using logSend_sends hcount Nat.one_pos hlen s

end Sends

/-! ### Numbers -/

/-- The text that `num_to_decimal` stores: of the least number, whose negation is negative, the sign
only. -/
def loggedDecimal (num : Word) : List Byte :=
  if num = 0x80000000 then [charByte '-'] else signedDecimal num.toInt

theorem numToDecimal_eq (num : Word) : numToDecimal num = .ok (loggedDecimal num ++ [0]) := by
  rw [loggedDecimal]
  split
  · next hleast =>
    rw [hleast]
    exact numToDecimal_least
  · next hleast =>
    by_cases hneg : num.toInt < 0
    · exact numToDecimal_of_neg hneg hleast
    · exact numToDecimal_of_nonneg hneg

theorem length_loggedDecimal_le (num : Word) : (loggedDecimal num).length ≤ 11 := by
  rw [loggedDecimal]
  split
  · decide
  · exact length_signedDecimal_le num

theorem zero_notMem_decimal (n : Nat) : 0 ∉ decimal n := by
  intro hzero
  obtain ⟨d, -, hd⟩ := (canonicalNat_decimal n).digit 0 hzero
  have hnone : digitValue 0 = none := rfl
  rw [hnone] at hd
  cases hd

theorem zero_notMem_loggedDecimal (num : Word) : 0 ∉ loggedDecimal num := by
  have hminus : (0 : Byte) ≠ charByte '-' := by decide
  rw [loggedDecimal, signedDecimal]
  split
  · exact fun h => hminus (List.mem_singleton.mp h)
  · split
    · exact List.not_mem_cons_of_ne_of_not_mem hminus (zero_notMem_decimal _)
    · exact zero_notMem_decimal _

/-- Eight hexadecimal digits in upper case. -/
def fixedHex (num : Word) : List Byte :=
  (List.range 8).reverse.map fun i => hexChars.getD (num.toNat / 16 ^ i % 16) 0

theorem numToHex_eq (num : Word) : numToHex num = fixedHex num ++ [0] := by
  have hdigit : ∀ i, ((num >>> (i * 4)) &&& 0xF).toNat = num.toNat / 16 ^ i % 16 := fun i => by
    rw [BitVec.toNat_and, BitVec.toNat_ushiftRight, Nat.shiftRight_eq_div_pow, Nat.mul_comm,
      Nat.pow_mul]
    exact Nat.and_two_pow_sub_one_eq_mod _ 4
  simp only [numToHex, hdigit, fixedHex]

theorem length_fixedHex (num : Word) : (fixedHex num).length = 8 := by simp [fixedHex]

/-! ### Formats -/

/-- A part of a format of `log_write`, with its argument. -/
inductive LogItem where
  | char (c : { c : Byte // c ≠ 0 ∧ c ≠ charByte '%' ∧ c ≠ escape })
  | decimal (num : Word)
  | hex (num : Word)
  | string (str : Word)
  | character (c : Word)
  | other (c : { c : Byte // c ≠ 0 ∧ ¬TakesArg c })
  | color (body : { body : List Byte // 0 ∉ body ∧ charByte 'm' ∉ body })

namespace LogItem

def spelled : LogItem → List Byte
  | char c => [c.val]
  | decimal _ => [charByte '%', charByte 'd']
  | hex _ => [charByte '%', charByte 'x']
  | string _ => [charByte '%', charByte 's']
  | character _ => [charByte '%', charByte 'c']
  | other c => [charByte '%', c.val]
  | color body => escape :: (body.val ++ [charByte 'm'])

def args : LogItem → List Word
  | decimal arg | hex arg | string arg | character arg => [arg]
  | _ => []

/-- What is to be sent: escape sequences are for all levels but `LOG_LEVEL_INFO`. -/
def text (m : Mem) (level : LogLevel) : LogItem → List Byte
  | char c => [c.val]
  | decimal num => loggedDecimal num
  | hex num => fixedHex num
  | string str => if str = 0 then nullText else charsAt m (2 ^ 32) str
  | character c => [c.setWidth 8]
  | other c => [c.val]
  | color body => if level = .info then [] else escape :: (body.val ++ [charByte 'm'])

/-- The lengths are in the range of an `int`. -/
def Fits (m : Mem) : LogItem → Prop
  | string str => (charsAt m (2 ^ 32) str).length < 2 ^ 31
  | color body => body.val.length + 2 < 2 ^ 31
  | _ => True

end LogItem

theorem zero_notMem_charsAt (m : Mem) (room : Nat) (str : Word) : 0 ∉ charsAt m room str := by
  induction room generalizing str with
  | zero => exact List.not_mem_nil
  | succ room ih =>
    rw [charsAt]
    split
    · next hne => exact List.not_mem_cons_of_ne_of_not_mem (Ne.symm hne) (ih _)
    · exact List.not_mem_nil

section Run

variable {m : Mem} {level : LogLevel}

theorem logString_sends {str : Word} (hfits : (LogItem.string str).Fits m) (s : Serial) :
    SendsOk s ((LogItem.string str).text m level) (logString m.view str s) := by
  rw [logString, stringAt_view, LogItem.text]
  by_cases hnull : str = 0
  · rw [if_neg (not_not.mpr hnull), if_pos hnull]
    have hcount : 6 ≤ (nullText ++ [0]).length := by decide
    exact logSend_sends hcount (by decide) (by decide) s
  · rw [if_pos hnull, if_neg hnull]
    exact logSend_string (zero_notMem_charsAt m _ str) hfits s

theorem serialWriteDecimal_sends (num : Word) (s : Serial) :
    SendsOk s (loggedDecimal num) ((serialWriteDecimal num s).bind logSent) := by
  have hcall : (serialWriteDecimal num s).bind logSent =
      logSend (loggedDecimal num ++ [0]) (-1) s := by
    rw [serialWriteDecimal, numToDecimal_eq]
    rfl
  rw [hcall]
  exact logSend_string (zero_notMem_loggedDecimal num)
    (Nat.lt_of_le_of_lt (length_loggedDecimal_le num) (by decide)) s

theorem serialWriteHex_sends (num : Word) (s : Serial) :
    SendsOk s (fixedHex num) (logSent (serialWriteHex num s)) := by
  have hlength := length_fixedHex num
  have hcount : 8 ≤ (numToHex num).length := by
    rw [numToHex_eq, List.length_append, hlength]
    decide
  have hlen : (8 : Word).toInt = (8 : Nat) := by decide
  have hsent := logSend_sends hcount (by decide) hlen s
  rwa [numToHex_eq, List.take_append_of_le_length hlength.ge, List.take_of_length_le hlength.le,
    ← numToHex_eq] at hsent

/-- A conversion takes its argument. -/
theorem logDirective_sends {c : Byte} (print : Word → Except Fault Serial) {arg : Word}
    {bytes p : List Byte} {args : List Word} {s : Serial}
    (hcall : logDirective m.view (c :: p) (arg :: args) s = logArg print (arg :: args))
    (h : SendsOk s bytes (print arg)) :
    ∃ s', Sends s bytes s' ∧ (logScanner m.view level).run (charByte '%' :: c :: p) (arg :: args, s) =
      (logScanner m.view level).run p (args, s') := by
  obtain ⟨s', hprint, hsends⟩ := h
  refine ⟨s', hsends, ?_⟩
  rw [logScanner_percent, hcall, logArg, hprint]
  rfl

/-- Any other letter is sent itself. -/
theorem logDirective_letter {c : Byte} (h : ¬TakesArg c) (p : List Byte) (args : List Word)
    (s : Serial) :
    logDirective m.view (c :: p) args s = (logSend (c :: p) 1 s).map fun s => (args, s) := by
  obtain ⟨hd, hx, hs, hc⟩ := by simpa only [TakesArg, not_or] using h
  rw [logDirective, List.head?_cons, if_neg (by simpa using hd), if_neg (by simpa using hx),
    if_neg (by simpa using hs), if_neg (by simpa using hc)]

/-- An escape sequence is passed over, and sent at the other levels. -/
theorem logEscape_sends (level : LogLevel) {body p : List Byte}
    (hbody : 0 ∉ body ∧ charByte 'm' ∉ body) (hlength : body.length + 2 < 2 ^ 31) (s : Serial) :
    ∃ s', Sends s (if level = .info then [] else escape :: (body ++ [charByte 'm'])) s' ∧
      logEscape level (escape :: (body ++ charByte 'm' :: p)) s = .ok (p, s') := by
  have hskip : skipEscape (body ++ charByte 'm' :: p) = .ok (charByte 'm' :: p) := by
    obtain ⟨hzero, hm⟩ := hbody
    induction body with
    | nil => exact if_neg (by simp)
    | cons c body ih =>
      simp only [List.mem_cons, not_or] at hzero hm
      rw [List.cons_append, skipEscape, if_pos ⟨Ne.symm hm.1, Ne.symm hzero.1⟩]
      exact ih (by rw [List.length_cons] at hlength; omega) hzero.2 hm.2
  rw [logEscape, skipEscape_escape, hskip]
  by_cases hlevel : level = .info
  · rw [if_pos hlevel]
    exact ⟨s, .refl s, by simp [hlevel]⟩
  · have hcount : (escape :: (body ++ charByte 'm' :: p)).length - p.length = body.length + 2 := by
      simp only [List.length_cons, List.length_append]
      omega
    have hint : (BitVec.ofNat 32 (body.length + 2)).toInt = ((body.length + 2 : Nat) : Int) := by
      rw [BitVec.toInt_eq_toNat_of_lt (by rw [BitVec.toNat_ofNat]; omega), BitVec.toNat_ofNat,
        Nat.mod_eq_of_lt (by omega)]
    have hwithin : body.length + 2 ≤ (escape :: (body ++ charByte 'm' :: p)).length := by simp
    obtain ⟨s', hsent, hsends⟩ := logSend_sends hwithin (Nat.succ_pos _) hint s
    have htake : (escape :: (body ++ charByte 'm' :: p)).take (body.length + 2) =
        escape :: (body ++ [charByte 'm']) := by
      rw [List.take_succ_cons, List.take_append, List.take_of_length_le (Nat.le_succ _),
        Nat.add_sub_cancel_left]
      rfl
    rw [if_neg hlevel, ← htake]
    refine ⟨s', hsends, ?_⟩
    simp only [if_true, if_pos hlevel, hcount, hsent]
    rfl

/-- Each part of a format sends its text, and leaves the scan behind it. -/
theorem LogItem.sends (level : LogLevel) {item : LogItem} (hfits : item.Fits m) (p : List Byte)
    (args : List Word) (s : Serial) :
    ∃ s', Sends s (item.text m level) s' ∧
      (logScanner m.view level).run (item.spelled ++ p) (item.args ++ args, s) =
        (logScanner m.view level).run p (args, s') := by
  cases item with
  | char c =>
    obtain ⟨c, h0, hpercent, hescape⟩ := c
    have hturn : logTurn m.view level (c :: p) (args, s) =
        (logSend (c :: p) 1 s).map fun s => some (p, (args, s)) := by
      rw [logTurn.eq_def]
      exact (if_pos h0).trans ((if_neg hpercent).trans (if_neg hescape))
    obtain ⟨s', hsent, hsends⟩ := logSend_byte c p s
    refine ⟨s', hsends, Scanner.run_of_turn (hturn.trans ?_)⟩
    rw [hsent]
    rfl
  | decimal num =>
    exact logDirective_sends (fun val => (serialWriteDecimal val s).bind logSent) rfl
      (serialWriteDecimal_sends num s)
  | hex num =>
    exact logDirective_sends (fun val => logSent (serialWriteHex val s)) rfl
      (serialWriteHex_sends num s)
  | string str =>
    exact logDirective_sends (fun str => logString m.view str s) rfl (logString_sends hfits s)
  | character c =>
    exact logDirective_sends (fun c => logSend [c.setWidth 8] 1 s) rfl
      (logSend_byte (c.setWidth 8) [] s)
  | other c =>
    obtain ⟨c, h0, hother⟩ := c
    obtain ⟨s', hsent, hsends⟩ := logSend_byte c p s
    refine ⟨s', hsends, ?_⟩
    show (logScanner m.view level).run (charByte '%' :: c :: p) (args, s) = _
    rw [logScanner_percent, logDirective_letter hother, hsent]
    rfl
  | color body =>
    obtain ⟨s', hsends, hescape⟩ := logEscape_sends level (p := p) body.property hfits s
    refine ⟨s', hsends, ?_⟩
    have hspelled : (color body).spelled ++ p = escape :: (body.val ++ charByte 'm' :: p) := by
      simp [spelled]
    rw [hspelled]
    exact logScanner_escape m.view level hescape

/-- The whole format. -/
theorem LogItem.sends_all (level : LogLevel) {items : List LogItem}
    (hfits : ∀ item ∈ items, item.Fits m) (args : List Word) (s : Serial) :
    ∃ s', Sends s (items.flatMap (LogItem.text m level)) s' ∧
      (logScanner m.view level).run (items.flatMap LogItem.spelled ++ [0])
        (items.flatMap LogItem.args ++ args, s) = .ok (args, s') := by
  induction items generalizing s with
  | nil =>
    have hend : (logScanner m.view level).turn [0] (args, s) = .ok none := rfl
    exact ⟨s, .refl s, Scanner.run_of_end hend⟩
  | cons item items ih =>
    obtain ⟨s₁, hsends₁, hrun₁⟩ := LogItem.sends level (hfits item List.mem_cons_self)
      (items.flatMap spelled ++ [0]) (items.flatMap LogItem.args ++ args) s
    obtain ⟨s₂, hsends₂, hrun₂⟩ := ih (fun i hi => hfits i (List.mem_cons_of_mem _ hi)) s₁
    refine ⟨s₂, hsends₁.append hsends₂, ?_⟩
    rw [List.flatMap_cons, List.flatMap_cons, List.append_assoc, List.append_assoc, hrun₁, hrun₂]

theorem level_string_sends (level : LogLevel) (s : Serial) :
    SendsOk s (text level.string) (logSend level.string (-1) s) := by
  have hstring : level.string = text level.string ++ [0] := by cases level <;> decide
  have hlength : (text level.string).length < 2 ^ 31 := by cases level <;> decide
  have hsent := logSend_string (zero_notMem_text level.string) hlength s
  rwa [← hstring] at hsent

/-- The spaces behind the level. -/
theorem logSpaces_sends (count : Nat) (s : Serial) :
    SendsOk s (List.replicate count (charByte ' '))
      ((List.range count).foldlM (fun s _ => logSend [charByte ' ', 0] 1 s) s) := by
  induction count with
  | zero => exact ⟨s, rfl, .refl s⟩
  | succ count ih =>
    obtain ⟨s₁, hrun, hsends₁⟩ := ih
    obtain ⟨s₂, hsent, hsends₂⟩ := logSend_byte (charByte ' ') [0] s₁
    refine ⟨s₂, ?_, ?_⟩
    · rw [List.range_succ, List.foldlM_append, hrun]
      simp only [List.foldlM_cons, List.foldlM_nil, bind, Except.bind, hsent]
      rfl
    · rw [List.replicate_succ']
      exact hsends₁.append hsends₂

end Run

/-- The bytes of a format. -/
def logFormatOf (items : List LogItem) : List Byte := items.flatMap LogItem.spelled ++ [0]

def logArgsOf (items : List LogItem) : List Word := items.flatMap LogItem.args

/-- The line of the log: the level, in a field of its own, the text and a newline; nothing for a
level below the current one. -/
def logLine (m : Mem) (current level : LogLevel) (items : List LogItem) : List Byte :=
  if level.value < current.value then []
  else text level.string ++ List.replicate (10 - level.length) (charByte ' ') ++
    items.flatMap (LogItem.text m level) ++ [0x0A]

/-- For every format and its arguments, and more arguments behind them, `log_write` sends its line,
with bytes left out only where a wait for the serial port is in vain. -/
theorem log_write_sends (m : Mem) (current level : LogLevel) {items : List LogItem}
    (hfits : ∀ item ∈ items, item.Fits m) (args : List Word) (s : Serial) :
    ∃ n sent, logWrite m.view current level (logFormatOf items) (logArgsOf items ++ args) s =
        .ok (s.after n sent) ∧ sent.Sublist (logLine m current level items) ∧
      ((∀ first, ¬s.Stalled first serialMaxWaitAttempts) →
        sent = logLine m current level items) := by
  suffices SendsOk s (logLine m current level items)
      (logWrite m.view current level (logFormatOf items) (logArgsOf items ++ args) s) by
    obtain ⟨s', hrun, n, sent, rfl, hsent⟩ := this
    exact ⟨n, sent, hrun, hsent⟩
  rw [logWrite, logLine]
  by_cases hlevel : level.value < current.value
  · rw [if_pos hlevel, if_pos hlevel]
    exact ⟨s, rfl, .refl s⟩
  · rw [if_neg hlevel, if_neg hlevel]
    obtain ⟨s₁, hname, hsends₁⟩ := level_string_sends level s
    obtain ⟨s₂, hspaces, hsends₂⟩ := logSpaces_sends (10 - level.length) s₁
    obtain ⟨s₃, hsends₃, hscan⟩ := LogItem.sends_all level hfits args s₂
    obtain ⟨s₄, hend, hsends₄⟩ := logSend_byte 0x0A [0] s₃
    refine ⟨s₄, ?_, ((hsends₁.append hsends₂).append hsends₃).append hsends₄⟩
    simp only [hname, hspaces, hscan, logFormatOf, logArgsOf, bind, Except.bind]
    exact hend

/-- `n=%d`, in the colour of the level. -/
def sampleLogItems : List LogItem :=
  [.color ⟨['[', '3', '3'].map charByte, by decide⟩, .char ⟨charByte 'n', by decide⟩,
    .char ⟨charByte '=', by decide⟩, .decimal 42]

theorem log_write_sends_sample :
    ∃ n, logWrite (Mem.view fun _ => 0) .debug .warn (logFormatOf sampleLogItems) [42, 7] readyLine =
      .ok (readyLine.after n (logLine (fun _ => 0) .debug .warn sampleLogItems)) := by
  obtain ⟨n, sent, hrun, -, hall⟩ := log_write_sends (fun _ => 0) .debug .warn
    (show ∀ item ∈ sampleLogItems, item.Fits _ by simp [sampleLogItems, LogItem.Fits]) [7]
    readyLine
  have hready : ∀ first, ¬readyLine.Stalled first serialMaxWaitAttempts := fun first h =>
    absurd (h 0 (by decide)) (show ¬(0x20 &&& 0x20 : Byte) = 0 by decide)
  exact ⟨n, hall hready ▸ hrun⟩

end Lbos

import Lbos.LogEnd

/-! What `log_write` reads of memory: the strings that its arguments point to.  Where a page is not
present it stops with the address of the byte that it was to read. -/

namespace Lbos

open Lib

open LogLevel (escape)

/-! ### The characters of a string -/

/-- `strlen` faults at the first byte that is not present, if no terminator comes before it. -/
theorem stringAt_page_iff {m : View} {room : Nat} {str a : Word} :
    stringAt m room str = .error (.page a) ↔
      ∃ n < room, a = str + BitVec.ofNat 32 n ∧ m a = none ∧
        ∀ i < n, ∃ c, m (str + BitVec.ofNat 32 i) = some c ∧ c ≠ 0 := by
  induction room generalizing str with
  | zero => exact iff_of_false (fun h => by cases h) fun ⟨n, hn, _⟩ => Nat.not_lt_zero n hn
  | succ room ih =>
    have hzero : str + BitVec.ofNat 32 0 = str := BitVec.add_zero str
    have hnext : ∀ i, str + 1 + BitVec.ofNat 32 i = str + BitVec.ofNat 32 (i + 1) := fun i => by
      rw [BitVec.ofNat_add, BitVec.add_comm (BitVec.ofNat 32 i), ← BitVec.add_assoc]
      rfl
    rw [stringAt]
    cases hstr : m str with
    | none =>
      simp only [Except.error.injEq, Fault.page.injEq]
      constructor
      · rintro rfl
        exact ⟨0, Nat.succ_pos _, hzero.symm, hstr, fun i hi => absurd hi (Nat.not_lt_zero i)⟩
      · rintro ⟨n, -, rfl, -, hbefore⟩
        cases n with
        | zero => exact hzero.symm
        | succ n =>
          obtain ⟨c, hc, -⟩ := hbefore 0 (Nat.succ_pos n)
          rw [hzero, hstr] at hc
          cases hc
    | some c =>
      by_cases hc : c ≠ 0
      · simp only [if_pos hc, map_eq_error_iff, ih, hnext]
        constructor
        · rintro ⟨n, hn, rfl, habsent, hbefore⟩
          refine ⟨n + 1, Nat.succ_lt_succ hn, rfl, habsent, fun i hi => ?_⟩
          cases i with
          | zero => exact ⟨c, by rw [hzero, hstr], hc⟩
          | succ i => exact hbefore i (Nat.lt_of_succ_lt_succ hi)
        · rintro ⟨n, hn, rfl, habsent, hbefore⟩
          cases n with
          | zero =>
            rw [hzero, hstr] at habsent
            cases habsent
          | succ n =>
            exact ⟨n, Nat.lt_of_succ_lt_succ hn, rfl, habsent,
              fun i hi => hbefore (i + 1) (Nat.succ_lt_succ hi)⟩
      · simp only [if_neg hc]
        refine iff_of_false (fun h => by cases h) ?_
        rintro ⟨n, -, rfl, habsent, hbefore⟩
        cases n with
        | zero =>
          rw [hzero, hstr] at habsent
          cases habsent
        | succ n =>
          obtain ⟨d, hd, hne⟩ := hbefore 0 (Nat.succ_pos n)
          rw [hzero, hstr] at hd
          exact hc (Option.some.inj hd ▸ hne)

/-! ### The calls of `log_write` -/

theorem logSent_ne_page (result : Option (Int × Serial)) (a : Word) :
    logSent result ≠ .error (.page a) := by
  cases result with
  | none => exact fun h => by cases h
  | some => exact fun h => by cases h

theorem logSend_ne_page (str : List Byte) (len : Word) (s : Serial) (a : Word) :
    logSend str len s ≠ .error (.page a) := logSent_ne_page _ a

theorem serialWriteDecimal_ne_page (num : Word) (s : Serial) (a : Word) :
    (serialWriteDecimal num s).bind logSent ≠ .error (.page a) := by
  obtain ⟨text, hstored⟩ := numToDecimal_ok num
  rw [serialWriteDecimal, hstored]
  exact logSend_ne_page _ _ s a

theorem skipEscape_ne_page (p : List Byte) (a : Word) : skipEscape p ≠ .error (.page a) := by
  induction p with
  | nil => exact fun h => by cases h
  | cons c p ih =>
    rw [skipEscape]
    split
    · exact ih
    · exact fun h => by cases h

theorem logEscape_ne_page (level : LogLevel) (p : List Byte) (s : Serial) (a : Word) :
    logEscape level p s ≠ .error (.page a) := by
  have hskip := skipEscape_ne_page p a
  rw [logEscape]
  split
  · next hfault => exact fun h => hskip (hfault.trans (congrArg _ (Except.error.inj h)))
  · exact fun h => by cases h
  · split
    · split
      · exact fun h => logSend_ne_page _ _ s a (map_eq_error_iff.mp h)
      · exact fun h => by cases h
    · exact fun h => by cases h

/-- The call, at `LOG_LEVEL_DEBUG`, which nothing sets otherwise. -/
def LogCall.write (call : LogCall) (m : View) (s : Serial) : Except Fault Serial :=
  logWrite m .debug call.level call.format call.args s

/-- The fault is in the string of an argument. -/
def FaultsAt (m : View) (args : List Word) (a : Word) : Prop :=
  ∃ str ∈ args, str ≠ 0 ∧ stringAt m (2 ^ 32) str = .error (.page a)

section Faults

variable {m : View} {level : LogLevel} {args : List Word} {s : Serial} {a : Word}

theorem logString_page {str : Word} (h : logString m str s = .error (.page a)) :
    str ≠ 0 ∧ stringAt m (2 ^ 32) str = .error (.page a) := by
  rw [logString] at h
  split at h
  · next hne =>
    refine ⟨hne, ?_⟩
    cases hchars : stringAt m (2 ^ 32) str with
    | error fault =>
      rw [hchars] at h
      exact congrArg _ (Except.error.inj h)
    | ok chars =>
      rw [hchars] at h
      exact absurd h (logSend_ne_page _ _ s a)
  · exact absurd h (logSend_ne_page _ _ s a)

theorem logArg_page {print : Word → Except Fault Serial} (h : logArg print args = .error (.page a)) :
    ∃ arg ∈ args, print arg = .error (.page a) := by
  cases args with
  | nil => cases h
  | cons arg args => exact ⟨arg, List.mem_cons_self, map_eq_error_iff.mp h⟩

theorem logDirective_page {p : List Byte} (h : logDirective m p args s = .error (.page a)) :
    FaultsAt m args a := by
  rw [logDirective] at h
  split at h
  · obtain ⟨num, -, hnum⟩ := logArg_page h
    exact absurd hnum (serialWriteDecimal_ne_page num s a)
  split at h
  · obtain ⟨num, -, hnum⟩ := logArg_page h
    exact absurd hnum (logSent_ne_page _ a)
  split at h
  · obtain ⟨str, hmem, hstr⟩ := logArg_page h
    exact ⟨str, hmem, logString_page hstr⟩
  split at h
  · obtain ⟨c, -, hc⟩ := logArg_page h
    exact absurd hc (logSend_ne_page _ _ s a)
  · exact absurd (map_eq_error_iff.mp h) (logSend_ne_page _ _ s a)

theorem logTurn_page {p : List Byte} (h : logTurn m level p (args, s) = .error (.page a)) :
    FaultsAt m args a := by
  cases p with
  | nil => cases h
  | cons c p =>
    rw [logTurn.eq_def] at h
    dsimp only at h
    split at h
    · split at h
      · cases p with
        | nil => cases h
        | cons d p => exact logDirective_page (map_eq_error_iff.mp h)
      · split at h
        · exact absurd (map_eq_error_iff.mp h) (logEscape_ne_page level _ s a)
        · exact absurd (map_eq_error_iff.mp h) (logSend_ne_page _ _ s a)
    · cases h

/-- No turn adds arguments. -/
theorem logTurn_args {p rest : List Byte} {args' : List Word} {s' : Serial}
    (h : logTurn m level p (args, s) = .ok (some (rest, (args', s')))) : args' ⊆ args := by
  have harg : ∀ {print : Word → Except Fault Serial} {next : List Word × Serial},
      logArg print args = .ok next → next.1 ⊆ args := by
    intro print next hnext
    cases args with
    | nil => cases hnext
    | cons arg args =>
      obtain ⟨_, -, rfl⟩ := map_eq_ok hnext
      exact List.subset_cons_self arg args
  have hdirective : ∀ {p : List Byte} {next : List Word × Serial},
      logDirective m p args s = .ok next → next.1 ⊆ args := by
    intro p next hnext
    rw [logDirective] at hnext
    split at hnext
    · exact harg hnext
    split at hnext
    · exact harg hnext
    split at hnext
    · exact harg hnext
    split at hnext
    · exact harg hnext
    · obtain ⟨_, -, rfl⟩ := map_eq_ok hnext
      exact List.Subset.refl args
  cases p with
  | nil => cases h
  | cons c p =>
    rw [logTurn.eq_def] at h
    dsimp only at h
    split at h
    · split at h
      · cases p with
        | nil => cases h
        | cons d p =>
          obtain ⟨next, hnext, hsame⟩ := map_eq_ok h
          cases hsame
          exact hdirective hnext
      · split at h
        · obtain ⟨next, -, hsame⟩ := map_eq_ok h
          cases hsame
          exact List.Subset.refl args
        · obtain ⟨_, -, hsame⟩ := map_eq_ok h
          cases hsame
          exact List.Subset.refl args
    · cases h

end Faults

/-- A page that `log_write` finds absent is one of a string that an argument points to. -/
theorem logWrite_page {m : View} {current level : LogLevel} {format : List Byte} {args : List Word}
    {s : Serial} {a : Word} (h : logWrite m current level format args s = .error (.page a)) :
    FaultsAt m args a := by
  rw [logWrite] at h
  split at h
  · cases h
  · obtain ⟨s₁, hname⟩ := level_string_ok level s
    obtain ⟨s₂, hspaces⟩ := logSpaces_ok (List.range (10 - level.length)) s₁
    rw [hname] at h
    change Except.bind (List.foldlM _ s₁ (List.range (10 - level.length))) _ = _ at h
    rw [hspaces] at h
    change Except.bind ((logScanner m level).run format (args, s₂)) _ = _ at h
    cases hrun : (logScanner m level).run format (args, s₂) with
    | error fault =>
      rw [hrun] at h
      obtain rfl : fault = .page a := Except.error.inj h
      obtain ⟨p, st, hsub, hturn⟩ := Scanner.run_faults (I := fun st => st.1 ⊆ args)
        (fun hturn hsub => List.Subset.trans (logTurn_args hturn) hsub) (List.Subset.refl args) hrun
      obtain ⟨str, hmem, hstr⟩ := logTurn_page hturn
      exact ⟨str, hsub hmem, hstr⟩
    | ok next =>
      rw [hrun] at h
      exact absurd h (logSend_ne_page _ _ _ a)

/-- `LOG_INFO("%s", str)` stops where the string does. -/
theorem logWrite_string_page {m : View} {str a : Word} (hne : str ≠ 0)
    (h : stringAt m (2 ^ 32) str = .error (.page a)) (s : Serial) :
    (LogLevel.info.log "%s" [str]).write m s = .error (.page a) := by
  obtain ⟨s₁, hname⟩ := level_string_ok .info s
  obtain ⟨s₂, hspaces⟩ := logSpaces_ok (List.range (10 - LogLevel.info.length)) s₁
  have hformat : (LogLevel.info.log "%s" [str]).format =
      escape :: (['[', '3', '2', 'm'].map charByte ++ charByte '%' :: charByte 's' ::
        (LogLevel.colorReset ++ [0])) := rfl
  have hescape : logEscape .info (escape :: (['[', '3', '2', 'm'].map charByte ++
      charByte '%' :: charByte 's' :: (LogLevel.colorReset ++ [0]))) s₂ =
        .ok (charByte '%' :: charByte 's' :: (LogLevel.colorReset ++ [0]), s₂) := rfl
  have hstring : logDirective m (charByte 's' :: (LogLevel.colorReset ++ [0])) [str] s₂ =
      .error (.page a) := by
    have hdirective : logDirective m (charByte 's' :: (LogLevel.colorReset ++ [0])) [str] s₂ =
        logArg (fun str => logString m str s₂) [str] := rfl
    rw [hdirective, logArg, logString, if_pos hne, h]
    rfl
  have hlevel : ¬LogLevel.info.value < LogLevel.debug.value := by decide
  rw [LogCall.write, hformat, logWrite]
  refine (if_neg hlevel).trans ?_
  change Except.bind (logSend LogLevel.info.string (-1) s) _ = _
  rw [hname]
  change Except.bind (List.foldlM _ s₁ (List.range (10 - LogLevel.info.length))) _ = _
  rw [hspaces]
  change Except.bind ((logScanner m .info).run _ ([str], s₂)) _ = _
  rw [logScanner_escape m .info hescape, logScanner_percent, hstring]
  rfl

end Lbos

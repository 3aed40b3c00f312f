import Mathlib.Data.List.Induction
import WordLisp.Log.Logger

/-!
# What a log writes and how it exits

`Logger.Call` are the calls of a log. What a call has to write is a matter of the call alone
(`Call.offer?`), and what becomes of the outputs a matter of the calls alone (`outputOf`): neither
looks at the buffer or at the exit code. The main statement is `calls_logged`: after any calls, to
any outputs, a log has offered just this, keeps nothing of it, and exits as the worst of the calls
asks for.

One line goes through the buffer in `write_cases`, the calls are gone through in `call_cases`, and
`Follows` is what a whole run keeps.
-/

namespace WordLisp

/-- A write that failed, or that took too little. -/
def WriteResult.Fails (result : WriteResult) (bytes : ByteArray) : Prop :=
  result.error?.isSome ∨ result.count ≠ bytes.size

namespace Logger

/-- A call of a log. Messages are what formats and arguments come to. -/
inductive Call where
  | setOutput (output? : Option Device)
  | print (level message : ByteArray)
  | leveled (level message : ByteArray)
  | error (message : ByteArray)
  | unexpectedIf (message? : Option ByteArray)

/-- What a log becomes by a call. -/
def call (logger : Logger) : Call → Logger
  | .setOutput output? => logger.setOutput output?
  | .print level message => logger.print level message
  | .leveled level message => leveled level logger message
  | .error message => logger.printError message
  | .unexpectedIf message? => logger.printUnexpectedIf message?

/-- What a log becomes by calls, one after the other. -/
def callEach (logger : Logger) (calls : List Call) : Logger :=
  calls.foldl call logger

/-- A message behind its level. The empty level is left out. -/
def labelled (level message : ByteArray) : ByteArray :=
  if level.isEmpty then message else level ++ separator ++ message

/-- A text as a line: if it is not empty, it ends in a line feed. -/
def line (text : ByteArray) : ByteArray :=
  if text.isEmpty ∨ text.data.back? = some LineLog.lineFeed then text
  else text ++ ⟨#[LineLog.lineFeed]⟩

/-- What there is to write of a text: its line, unless this is empty. -/
def offerOf (text : ByteArray) : Option ByteArray :=
  if (line text).isEmpty then none else some (line text)

/-- An output after a single write of the bytes that there are for it, if there are any. -/
def offered (output? : Option Device) (bytes? : Option ByteArray) : Option Device :=
  match output?, bytes? with
  | some device, some bytes => some (device.write bytes).1
  | output?, _ => output?

namespace Call

/-- The text that a call logs. -/
def text? : Call → Option ByteArray
  | .setOutput _ | .unexpectedIf none => none
  | .print level message | .leveled level message => some (labelled level message)
  | .error message | .unexpectedIf (some message) => some (labelled errorLevel message)

/-- The bytes that a call has to write: its own line, unless it is empty. -/
def offer? (call : Call) : Option ByteArray :=
  call.text?.bind offerOf

/-- What a call leaves of the output that there was before: another one, if it sets it, and
otherwise the same one, after a single write if the call has something to write. -/
def outputAfter (call : Call) (output? : Option Device) : Option Device :=
  match call with
  | .setOutput output? => output?
  | call => offered output? call.offer?

/-- The write of a call fails. -/
def Fails (call : Call) (output? : Option Device) : Prop :=
  ∃ device bytes, output? = some device ∧ call.offer? = some bytes ∧
    (device.write bytes).2.Fails bytes

end Call

/-- The output after some calls of a log that has none at first. -/
def outputOf (calls : List Call) : Option Device :=
  calls.foldl (fun output? call ↦ call.outputAfter output?) none

/-- One of the writes failed, or an unexpected error was logged. -/
def Broken (calls : List Call) : Prop :=
  (∃ before call behind, calls = before ++ call :: behind ∧ call.Fails (outputOf before)) ∨
    ∃ message, .unexpectedIf (some message) ∈ calls

/-- An expected error was logged. -/
def Erred (calls : List Call) : Prop :=
  ∃ message, .error message ∈ calls

open scoped Classical in
/-- The exit code that calls ask for. -/
noncomputable def exitCodeOf (calls : List Call) : Nat :=
  if Broken calls then 2 else if Erred calls then 1 else 0

/-! ## One line -/

section Line

variable {logger : Logger}

/-- The level and the message are put together. -/
theorem put_putLevel (cleared : logger.buffer = .empty) (level message : ByteArray) :
    (logger.putLevel level).put message = { logger with buffer := labelled level message } := by
  unfold putLevel labelled
  split <;> simp [put, cleared, ByteArray.append_assoc]

/-- The line in the buffer is ended. -/
theorem endLine_eq (logger : Logger) :
    logger.endLine = { logger with buffer := line logger.buffer } := by
  unfold endLine line
  cases hback : logger.buffer.data.back? with
  | none =>
      have hempty : logger.buffer.isEmpty := by
        rw [Array.back?_eq_none_iff] at hback
        simp [ByteArray.isEmpty, ByteArray.size, hback]
      simp only [hempty, true_or, if_true]
  | some last =>
      have hfilled : ¬logger.buffer.isEmpty := by
        intro hempty
        have hdata : logger.buffer.data = #[] := Array.size_eq_zero_iff.mp (beq_iff_eq.mp hempty)
        rw [hdata] at hback
        cases hback
      have hend : (logger.buffer.isEmpty ∨ some last = some LineLog.lineFeed) ↔
          last = LineLog.lineFeed := by
        rw [Option.some.injEq, or_iff_right hfilled]
      simp only [hend]
      split <;> rfl

/-- A failure is told apart from what a device took whole. -/
theorem isSome_failure? (result : WriteResult) (bytes : ByteArray) :
    (failure? result bytes).isSome ↔ result.Fails bytes := by
  unfold failure? WriteResult.Fails
  rw [Option.orElse_eq_orElse, Option.orElse_eq_or, Option.isSome_or]
  split <;> simp [*]

/-- A line that is put together in an empty buffer either does not reach an output, or it is
offered to it once, as a whole. Nothing of it is left in the buffer. -/
theorem write_cases (cleared : logger.buffer = .empty) (level message : ByteArray) :
    ((logger.output? = none ∨ offerOf (labelled level message) = none) ∧
      logger.write level message = (logger, none)) ∨
    ∃ device bytes error?, logger.output? = some device ∧
      offerOf (labelled level message) = some bytes ∧
      logger.write level message =
        ({ logger with output? := some (device.write bytes).1 }, error?) ∧
      (error?.isSome ↔ (device.write bytes).2.Fails bytes) := by
  have hline : ((logger.putLevel level).put message).endLine =
      { logger with buffer := line (labelled level message) } := by
    rw [put_putLevel cleared, endLine_eq]
  unfold write
  rw [hline]
  generalize labelled level message = text
  obtain ⟨output?, buffer, exitCode⟩ := logger
  obtain rfl : buffer = .empty := cleared
  cases output? with
  | none => exact .inl ⟨.inl rfl, rfl⟩
  | some device =>
      by_cases hempty : (line text).isEmpty
      · refine .inl ⟨.inr (if_pos hempty), ?_⟩
        simp only [flush, hempty, if_true]
        rfl
      · have hflush : Logger.flush ⟨some device, line text, exitCode⟩ =
            (⟨some (device.write (line text)).1,
              (line text).extract (device.write (line text)).2.count (line text).size, exitCode⟩,
              failure? (device.write (line text)).2 (line text)) := if_neg hempty
        rw [hflush]
        exact .inr ⟨device, line text, _, rfl, if_neg hempty, rfl, isSome_failure? _ _⟩

end Line

/-! ## One call -/

/-- A call that breaks the log: its write fails, or it logs an unexpected error. -/
def Call.Breaks (call : Call) (output? : Option Device) : Prop :=
  call.Fails output? ∨ ∃ message, call = .unexpectedIf (some message)

/-- What a call does to a log with an empty buffer. -/
structure Answers (logger : Logger) (call : Call) (next : Logger) : Prop where
  output_eq : next.output? = call.outputAfter logger.output?
  cleared : next.buffer = .empty
  exitCode_of_breaks : call.Breaks logger.output? → next.exitCode = 2
  exitCode_of_error : ¬call.Breaks logger.output? → (∃ message, call = .error message) →
    next.exitCode = max logger.exitCode 1
  exitCode_of_other : ¬call.Breaks logger.output? → (¬∃ message, call = .error message) →
    next.exitCode = logger.exitCode

section Step

variable {logger : Logger} {call : Call} {level message : ByteArray}

/-- A call that logs a text does not set the output. -/
theorem Call.outputAfter_of_logs {text : ByteArray} (logs : call.text? = some text)
    (output? : Option Device) : call.outputAfter output? = offered output? (offerOf text) := by
  have hoffer : call.offer? = offerOf text := by rw [offer?, logs, Option.bind_some]
  rw [← hoffer]
  cases call with
  | setOutput _ => cases logs
  | _ => rfl

/-- A call that logs a text writes it, and fails if this write does. -/
theorem write_call (cleared : logger.buffer = .empty)
    (logs : call.text? = some (labelled level message)) :
    ∃ error?, logger.write level message =
        ({ logger with output? := call.outputAfter logger.output? }, error?) ∧
      (error?.isSome ↔ call.Fails logger.output?) := by
  have hoffer : call.offer? = offerOf (labelled level message) := by
    rw [Call.offer?, logs, Option.bind_some]
  rw [Call.outputAfter_of_logs logs, Call.Fails, hoffer]
  rcases write_cases cleared level message with ⟨hsilent, hwrite⟩ |
    ⟨device, bytes, error?, houtput, hbytes, hwrite, herror⟩
  · refine ⟨none, ?_, by simp, ?_⟩
    · have hsame : offered logger.output? (offerOf (labelled level message)) = logger.output? := by
        rcases hsilent with hnone | hnone
        · rw [hnone]
          rfl
        · rw [hnone]
          cases logger.output? <;> rfl
      rw [hwrite, hsame]
    · rintro ⟨device, bytes, houtput, hbytes, -⟩
      rcases hsilent with hnone | hnone
      · cases houtput.symm.trans hnone
      · cases hbytes.symm.trans hnone
  · refine ⟨error?, ?_, ?_⟩
    · rw [hwrite, houtput, hbytes]
      rfl
    · rw [herror, houtput, hbytes]
      constructor
      · exact fun hfails ↦ ⟨device, bytes, rfl, rfl, hfails⟩
      · rintro ⟨_, _, ⟨⟩, ⟨⟩, hfails⟩
        exact hfails

/-- A message at a level. -/
theorem answers_print (cleared : logger.buffer = .empty)
    (logs : call.text? = some (labelled level message))
    (plain : ∀ message, call ≠ .error message ∧ call ≠ .unexpectedIf (some message)) :
    Answers logger call (logger.print level message) := by
  obtain ⟨error?, hwrite, herror⟩ := write_call cleared logs
  have hbreaks : call.Breaks logger.output? ↔ error?.isSome := by
    rw [herror, Call.Breaks, or_iff_left]
    exact fun ⟨message, h⟩ ↦ (plain message).2 h
  have herr : ¬∃ message, call = .error message := fun ⟨message, h⟩ ↦ (plain message).1 h
  unfold print
  rw [hwrite]
  cases error? with
  | none =>
      have hkept : ¬call.Breaks logger.output? := fun h ↦ nomatch hbreaks.mp h
      exact ⟨rfl, cleared, fun h ↦ absurd h hkept, fun _ h ↦ absurd h herr, fun _ _ ↦ rfl⟩
  | some error =>
      have hbroken : call.Breaks logger.output? := hbreaks.mpr rfl
      exact ⟨rfl, cleared, fun _ ↦ rfl, fun h ↦ absurd hbroken h, fun h ↦ absurd hbroken h⟩

/-- An expected error. -/
theorem answers_printError (cleared : logger.buffer = .empty) (message : ByteArray) :
    Answers logger (.error message) (logger.printError message) := by
  have hlogs : (Call.error message).text? = some (labelled errorLevel message) := rfl
  obtain ⟨error?, hwrite, herror⟩ := write_call cleared hlogs
  have hbreaks : (Call.error message).Breaks logger.output? ↔ error?.isSome := by
    rw [herror, Call.Breaks, or_iff_left]
    exact fun ⟨_, h⟩ ↦ nomatch h
  have herr : ∃ other, Call.error message = .error other := ⟨message, rfl⟩
  unfold printError
  rw [hwrite]
  cases error? with
  | none =>
      have hkept : ¬(Call.error message).Breaks logger.output? := fun h ↦ nomatch hbreaks.mp h
      dsimp only
      split
      · next hzero =>
          refine ⟨rfl, cleared, fun h ↦ absurd h hkept, fun _ _ ↦ ?_, fun _ h ↦ absurd herr h⟩
          rw [hzero]
          rfl
      · next hpos =>
          refine ⟨rfl, cleared, fun h ↦ absurd h hkept, fun _ _ ↦ ?_, fun _ h ↦ absurd herr h⟩
          exact (Nat.max_eq_left (Nat.one_le_iff_ne_zero.mpr hpos)).symm
  | some error =>
      have hbroken : (Call.error message).Breaks logger.output? := hbreaks.mpr rfl
      exact ⟨rfl, cleared, fun _ ↦ rfl, fun h ↦ absurd hbroken h, fun h ↦ absurd hbroken h⟩

/-- An unexpected error. -/
theorem answers_printUnexpected (cleared : logger.buffer = .empty) (message : ByteArray) :
    Answers logger (.unexpectedIf (some message)) (logger.printUnexpected message) := by
  have hlogs : (Call.unexpectedIf (some message)).text? = some (labelled errorLevel message) := rfl
  obtain ⟨error?, hwrite, -⟩ := write_call cleared hlogs
  have hbroken : (Call.unexpectedIf (some message)).Breaks logger.output? :=
    .inr ⟨message, rfl⟩
  unfold printUnexpected
  rw [hwrite]
  exact ⟨rfl, cleared, fun _ ↦ rfl, fun h ↦ absurd hbroken h, fun h ↦ absurd hbroken h⟩

/-- A call without a text writes nothing, so that it does not break the log. -/
theorem Call.not_breaks_of_silent (silent : call.text? = none) (output? : Option Device) :
    ¬call.Breaks output? := by
  rintro (⟨device, bytes, -, hbytes, -⟩ | ⟨message, rfl⟩)
  · rw [offer?, silent] at hbytes
    cases hbytes
  · cases silent

/-- Every call answers so. -/
theorem answers_call (cleared : logger.buffer = .empty) (call : Call) :
    Answers logger call (logger.call call) := by
  cases call with
  | setOutput output? =>
      have hkept : ¬(Call.setOutput output?).Breaks logger.output? :=
        Call.not_breaks_of_silent rfl _
      exact ⟨rfl, cleared, fun h ↦ absurd h hkept, fun _ ↦ nofun, fun _ _ ↦ rfl⟩
  | print level message => exact answers_print cleared rfl fun _ ↦ ⟨nofun, nofun⟩
  | leveled level message => exact answers_print cleared rfl fun _ ↦ ⟨nofun, nofun⟩
  | error message => exact answers_printError cleared message
  | unexpectedIf message? =>
      cases message? with
      | some message => exact answers_printUnexpected cleared message
      | none =>
          have hkept : ¬(Call.unexpectedIf none).Breaks logger.output? :=
            Call.not_breaks_of_silent rfl _
          refine ⟨?_, cleared, fun h ↦ absurd h hkept, fun _ ↦ nofun, fun _ _ ↦ rfl⟩
          show logger.output? = offered logger.output? none
          cases logger.output? <;> rfl

end Step

/-! ## Many calls -/

section History

variable {calls : List Call} {call : Call}

/-- One more call at the end of a history. -/
theorem outputOf_concat (calls : List Call) (call : Call) :
    outputOf (calls ++ [call]) = call.outputAfter (outputOf calls) := by
  rw [outputOf, List.foldl_append]
  rfl

theorem callEach_concat (logger : Logger) (calls : List Call) (call : Call) :
    logger.callEach (calls ++ [call]) = (logger.callEach calls).call call := by
  rw [callEach, List.foldl_append]
  rfl

/-- A history is broken by its last call, or it was before. -/
theorem broken_concat_iff :
    Broken (calls ++ [call]) ↔ Broken calls ∨ call.Breaks (outputOf calls) := by
  have hfails : (∃ before failing behind, calls ++ [call] = before ++ failing :: behind ∧
        failing.Fails (outputOf before)) ↔
      (∃ before failing behind, calls = before ++ failing :: behind ∧
        failing.Fails (outputOf before)) ∨ call.Fails (outputOf calls) := by
    constructor
    · rintro ⟨before, failing, behind, hcalls, h⟩
      rcases List.eq_nil_or_concat behind with rfl | ⟨behind, last, rfl⟩
      · obtain ⟨rfl, hlast⟩ := List.append_inj' hcalls rfl
        cases hlast
        exact .inr h
      · rw [List.concat_eq_append, ← List.cons_append, ← List.append_assoc] at hcalls
        obtain ⟨rfl, -⟩ := List.append_inj' hcalls rfl
        exact .inl ⟨before, failing, behind, rfl, h⟩
    · rintro (⟨before, failing, behind, rfl, h⟩ | h)
      · exact ⟨before, failing, behind ++ [call], by simp, h⟩
      · exact ⟨calls, call, [], rfl, h⟩
  have hlogged : (∃ message, .unexpectedIf (some message) ∈ calls ++ [call]) ↔
      (∃ message, .unexpectedIf (some message) ∈ calls) ∨
        ∃ message, call = .unexpectedIf (some message) := by
    simp only [List.mem_append, List.mem_singleton, exists_or, eq_comm]
  rw [Broken, hfails, hlogged, Broken, Call.Breaks, or_or_or_comm]

/-- An expected error was the last call, or there was one before. -/
theorem erred_concat_iff :
    Erred (calls ++ [call]) ↔ Erred calls ∨ ∃ message, call = .error message := by
  simp only [Erred, List.mem_append, List.mem_singleton, exists_or, eq_comm]

theorem exitCodeOf_broken (broken : Broken calls) : exitCodeOf calls = 2 :=
  if_pos broken

/-- A last call that does not break a history counts as an error if it is one. -/
theorem exitCodeOf_concat_error (kept : ¬call.Breaks (outputOf calls))
    (error : ∃ message, call = .error message) :
    exitCodeOf (calls ++ [call]) = max (exitCodeOf calls) 1 := by
  unfold exitCodeOf
  rw [propext (broken_concat_iff.trans (or_iff_left kept)),
    if_pos (erred_concat_iff.mpr (.inr error))]
  split
  · rfl
  · split <;> rfl

/-- Any other last call that does not break a history leaves its exit code. -/
theorem exitCodeOf_concat_other (kept : ¬call.Breaks (outputOf calls))
    (other : ¬∃ message, call = .error message) :
    exitCodeOf (calls ++ [call]) = exitCodeOf calls := by
  unfold exitCodeOf
  rw [propext (broken_concat_iff.trans (or_iff_left kept)),
    propext (erred_concat_iff.trans (or_iff_left other))]

/-- A last call does not lower the exit code. -/
theorem exitCodeOf_le_concat (calls : List Call) (call : Call) :
    exitCodeOf calls ≤ exitCodeOf (calls ++ [call]) := by
  by_cases hbreaks : call.Breaks (outputOf calls)
  · rw [exitCodeOf_broken (broken_concat_iff.mpr (.inr hbreaks)), exitCodeOf]
    split
    · exact Nat.le_refl 2
    · split <;> omega
  · by_cases herror : ∃ message, call = .error message
    · rw [exitCodeOf_concat_error hbreaks herror]
      exact Nat.le_max_left _ _
    · exact Nat.le_of_eq (exitCodeOf_concat_other hbreaks herror).symm

end History

/-- What a log is after some calls. -/
structure Follows (calls : List Call) (logger : Logger) : Prop where
  output_eq : logger.output? = outputOf calls
  cleared : logger.buffer = .empty
  exitCode_eq : logger.exitCode = exitCodeOf calls

/-- A call keeps this. -/
theorem Follows.call {calls : List Call} {logger : Logger} (h : Follows calls logger)
    (call : Call) : Follows (calls ++ [call]) (logger.call call) := by
  obtain ⟨houtput, hcleared, hbreaks, herror, hother⟩ := answers_call h.cleared call
  rw [h.output_eq] at houtput hbreaks herror hother
  refine ⟨houtput.trans (outputOf_concat calls call).symm, hcleared, ?_⟩
  by_cases hlast : call.Breaks (outputOf calls)
  · rw [hbreaks hlast, exitCodeOf_broken (broken_concat_iff.mpr (.inr hlast))]
  · by_cases herr : ∃ message, call = .error message
    · rw [herror hlast herr, h.exitCode_eq, exitCodeOf_concat_error hlast herr]
    · rw [hother hlast herr, h.exitCode_eq, exitCodeOf_concat_other hlast herr]

/-- So do any calls of a new log. -/
theorem follows_callEach (calls : List Call) : Follows calls (({} : Logger).callEach calls) := by
  induction calls using List.reverseRecOn with
  | nil =>
      have hbroken : ¬Broken [] := by simp [Broken]
      have herred : ¬Erred [] := by simp [Erred]
      exact ⟨rfl, rfl, ((if_neg hbroken).trans (if_neg herred)).symm⟩
  | append_singleton calls call ih =>
      rw [callEach_concat]
      exact ih.call call

/-- An output has been offered what it was offered before, and the bytes of the write. -/
theorem offered_some (device : Device) (bytes? : Option ByteArray) :
    ∃ next, offered (some device) bytes? = some next ∧
      next.offered.toList = device.offered.toList ++ bytes?.toList := by
  cases bytes? with
  | none => exact ⟨device, rfl, (List.append_nil _).symm⟩
  | some bytes => exact ⟨(device.write bytes).1, rfl, by simp [Device.write]⟩

/-- What a log writes and how it exits is a matter of its calls. After any calls, to any outputs
that may fail or take too little at any write, nothing is left over in the buffer. The next call, if
it does not set the output, offers it just the line of its own, once, or nothing. The exit code is 2
if a write failed or an unexpected error was logged, otherwise 1 if an expected error was, and
otherwise 0, so that no call lowers it. -/
theorem calls_logged (calls : List Call) (call : Call) :
    let logger := ({} : Logger).callEach calls
    let next := ({} : Logger).callEach (calls ++ [call])
    logger.output? = outputOf calls ∧ logger.buffer = .empty ∧
      next.output? = call.outputAfter logger.output? ∧
      (∀ device, logger.output? = some device → (∀ output?, call ≠ .setOutput output?) →
        ∃ device', next.output? = some device' ∧
          device'.offered.toList = device.offered.toList ++ call.offer?.toList) ∧
      logger.exitCode = exitCodeOf calls ∧
      logger.exitCode ≤ next.exitCode := by
  intro logger next
  have hlogger : Follows calls logger := follows_callEach calls
  have hnext : Follows (calls ++ [call]) next := follows_callEach (calls ++ [call])
  have houtput : next.output? = call.outputAfter logger.output? := by
    rw [hnext.output_eq, hlogger.output_eq, outputOf_concat]
  refine ⟨hlogger.output_eq, hlogger.cleared, houtput, fun device hdevice hkept ↦ ?_,
    hlogger.exitCode_eq, ?_⟩
  · have hoffered : next.output? = offered (some device) call.offer? := by
      rw [houtput, hdevice]
      cases call with
      | setOutput output? => exact absurd rfl (hkept output?)
      | _ => rfl
    rw [hoffered]
    exact offered_some device call.offer?
  · rw [hlogger.exitCode_eq, hnext.exitCode_eq]
    exact exitCodeOf_le_concat calls call

/-- A line that is cut leaves nothing in front of the next one. -/
example :
    let logger := ({} : Logger).callEach [.setOutput (some (.limited 3 none)),
      .print "INFO".toUTF8 "lost".toUTF8, .setOutput (some .unlimited), .error "bad".toUTF8]
    logger.exitCode = 2 ∧ logger.output?.map (·.taken) = some "ERROR: bad\n".toUTF8 := by
  decide +kernel

end Logger

end WordLisp

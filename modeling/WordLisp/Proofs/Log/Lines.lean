import WordLisp.Log.Lines

/-!
# How output is cut does not matter

`SplitsInto` says what the lines of some bytes are, all at once and without a buffer: every line is
ended by a line feed, and neither a line nor the rest behind the last one holds any. The buffer of a
log is drained into just these (`LineLog.drain_eq_iff`), so that what a log is told in pieces is
logged as the lines of the whole (`LineLog.logs_lines`).
-/

namespace WordLisp.LineLog

/-- Some bytes are these lines, each with a line feed behind it, and then the rest. -/
structure SplitsInto (bytes : List UInt8) (lines : List (List UInt8)) (rest : List UInt8) :
    Prop where
  joined : bytes = lines.flatMap (· ++ [lineFeed]) ++ rest
  whole : ∀ line ∈ lines, lineFeed ∉ line
  unended : lineFeed ∉ rest

/-- Write some pieces one after the other. The lines that they complete come back. -/
def writeEach (log : LineLog) : List (List UInt8) → LineLog × List (List UInt8)
  | [] => (log, [])
  | piece :: pieces =>
      let (log, lines) := log.write piece
      let (log, more) := log.writeEach pieces
      (log, lines ++ more)

variable {bytes piece rest left : List UInt8} {lines more : List (List UInt8)}

namespace SplitsInto

/-- One more line in front. -/
theorem cons {line : List UInt8} (whole : lineFeed ∉ line) (h : SplitsInto bytes lines rest) :
    SplitsInto (line ++ lineFeed :: bytes) (line :: lines) rest where
  joined := by simp [h.joined]
  whole := List.forall_mem_cons.mpr ⟨whole, h.whole⟩
  unended := h.unended

/-- Bytes behind others complete the lines that the rest of these begins. -/
theorem append (h : SplitsInto bytes lines rest) (next : SplitsInto (rest ++ piece) more left) :
    SplitsInto (bytes ++ piece) (lines ++ more) left where
  joined := by
    rw [h.joined, List.append_assoc, next.joined, List.flatMap_append, List.append_assoc]
  whole := List.forall_mem_append.mpr ⟨h.whole, next.whole⟩
  unended := next.unended

end SplitsInto

/-! ## The buffer -/

/-- A line feed that no other one stands before ends the first line. -/
theorem idxOf?_lineFeed_eq_some_iff {i : Nat} :
    bytes.idxOf? lineFeed = some i ↔ ∃ line rest, line.length = i ∧ lineFeed ∉ line ∧
      bytes = line ++ lineFeed :: rest := by
  rw [List.idxOf?_eq_some_iff]
  constructor
  · rintro ⟨hlt, hfound, hbefore⟩
    refine ⟨bytes.take i, bytes.drop (i + 1), List.length_take_of_le (Nat.le_of_lt hlt), ?_, ?_⟩
    · intro hmem
      obtain ⟨j, hj, hfeed⟩ := List.mem_take_iff_getElem.mp hmem
      exact hbefore j (by omega) hfeed
    · rw [← hfound, List.getElem_cons_drop, List.take_append_drop]
  · rintro ⟨line, rest, rfl, hline, rfl⟩
    refine ⟨by simp, by simp, fun j hj hfeed ↦ hline ?_⟩
    rw [List.getElem_append_left hj] at hfeed
    exact hfeed ▸ List.getElem_mem hj

/-- A buffer without a line feed is left as it is. -/
theorem drain_unended (unended : lineFeed ∉ rest) : drain rest = ([], rest) := by
  have hnone : rest.idxOf? lineFeed = none := List.idxOf?_eq_none_iff.mpr unended
  rw [drain]
  split
  · rfl
  · next hsome => cases hnone.symm.trans hsome

/-- The line at the front of a buffer is taken off. -/
theorem drain_line {line : List UInt8} (whole : lineFeed ∉ line) (bytes : List UInt8) :
    drain (line ++ lineFeed :: bytes) = (line :: (drain bytes).1, (drain bytes).2) := by
  have hfound : (line ++ lineFeed :: bytes).idxOf? lineFeed = some line.length :=
    idxOf?_lineFeed_eq_some_iff.mpr ⟨line, bytes, rfl, whole, rfl⟩
  rw [drain]
  split
  · next hnone => cases hfound.symm.trans hnone
  · next hsome =>
      cases hfound.symm.trans hsome
      simp

/-- What is drained off a buffer, and what is left of it, are the lines and the rest of its
bytes. -/
theorem drain_eq_iff : drain bytes = (lines, rest) ↔ SplitsInto bytes lines rest := by
  constructor
  · intro hdrain
    fun_induction drain bytes generalizing lines rest with
    | case1 buffer hnone =>
        cases hdrain
        exact ⟨rfl, List.forall_mem_nil _, List.idxOf?_eq_none_iff.mp hnone⟩
    | case2 buffer i hsome _ others left hrest ih =>
        cases hdrain
        obtain ⟨line, behind, rfl, hline, rfl⟩ := idxOf?_lineFeed_eq_some_iff.mp hsome
        have hbehind : (line ++ lineFeed :: behind).drop (line.length + 1) = behind := by simp
        rw [hbehind] at hrest ih
        rw [List.take_left]
        exact (ih hrest).cons hline
  · rintro ⟨rfl, hwhole, hunended⟩
    induction lines with
    | nil => exact drain_unended hunended
    | cons line lines ih =>
        obtain ⟨hline, hlines⟩ := List.forall_mem_cons.mp hwhole
        have hdrain := drain_line hline (lines.flatMap (· ++ [lineFeed]) ++ rest)
        rw [ih hlines] at hdrain
        simpa using hdrain

/-! ## The log -/

/-- What a log keeps and what it has logged under its label, once these bytes have been written. -/
structure Holds (label : List UInt8) (bytes : List UInt8) (log : LineLog)
    (logged : List (List UInt8)) : Prop where
  label_eq : log.label = label
  exists_lines : ∃ lines, SplitsInto bytes lines log.pending ∧ logged = lines.map (label ++ ·)

variable {label : List UInt8} {log : LineLog} {logged : List (List UInt8)}

/-- A write logs the lines that it completes. -/
theorem Holds.write (h : Holds label bytes log logged) (piece : List UInt8) :
    Holds label (bytes ++ piece) (log.write piece).1 (logged ++ (log.write piece).2) := by
  obtain ⟨rfl, lines, hsplit, rfl⟩ := h
  have hnext := drain_eq_iff.mp (Prod.eta (drain (log.pending ++ piece)))
  exact ⟨rfl, _, hsplit.append hnext, List.map_append.symm⟩

/-- So do any writes. -/
theorem Holds.writeEach (h : Holds label bytes log logged) (pieces : List (List UInt8)) :
    Holds label (bytes ++ pieces.flatten) (log.writeEach pieces).1
      (logged ++ (log.writeEach pieces).2) := by
  induction pieces generalizing bytes log logged with
  | nil => simpa [LineLog.writeEach] using h
  | cons piece pieces ih =>
      have hlater := ih (h.write piece)
      rw [List.append_assoc, List.append_assoc] at hlater
      exact hlater

/-- What has been logged, and what is kept, depends on the bytes only. -/
theorem Holds.unique {other : LineLog} {logged' : List (List UInt8)}
    (h : Holds label bytes log logged) (h' : Holds label bytes other logged') :
    log = other ∧ logged = logged' := by
  obtain ⟨rfl, lines, hsplit, rfl⟩ := h
  obtain ⟨hlabel, lines', hsplit', rfl⟩ := h'
  have hsame := (drain_eq_iff.mpr hsplit).symm.trans (drain_eq_iff.mpr hsplit')
  obtain ⟨rfl, hpending⟩ := Prod.mk.inj hsame
  refine ⟨?_, rfl⟩
  obtain ⟨own, pending⟩ := other
  cases hlabel
  cases hpending
  rfl

/-- A new log holds nothing. -/
theorem holds_nil (label : List UInt8) : Holds label [] { label } [] :=
  ⟨rfl, [], ⟨rfl, List.forall_mem_nil _, List.not_mem_nil⟩, rfl⟩

/-- Output is logged line by line, however it is cut. After any pieces, those lines have been
logged, in order and each once, that the bytes of all pieces split into, each behind the label and
without its line feed. To finish logs the rest behind them if there is one, and to finish again logs
nothing. Other pieces that make up the same bytes come to the same. -/
theorem logs_lines (label : List UInt8) (pieces : List (List UInt8)) :
    let told := writeEach { label } pieces
    (∃ lines rest, SplitsInto pieces.flatten lines rest ∧ told.2 = lines.map (label ++ ·) ∧
        told.1.finish.2 = if rest = [] then [] else [label ++ rest]) ∧
      told.1.finish.1.finish.2 = [] ∧
      ∀ other : List (List UInt8), other.flatten = pieces.flatten →
        writeEach { label } other = told := by
  intro told
  have htold : Holds label pieces.flatten told.1 told.2 := (holds_nil label).writeEach pieces
  refine ⟨?_, rfl, fun other hsame ↦ ?_⟩
  · obtain ⟨hlabel, lines, hsplit, hlogged⟩ := htold
    refine ⟨lines, told.1.pending, hsplit, hlogged, ?_⟩
    simp only [finish, hlabel, List.isEmpty_iff]
  · have hother := (holds_nil label).writeEach other
    rw [List.nil_append, hsame] at hother
    obtain ⟨hlog, hlines⟩ := hother.unique htold
    exact Prod.ext hlog hlines

/-- A line that is cut in two, an empty line and a rest, cut in another way. -/
theorem logs_lines_halves :
    let pieces : List (List UInt8) := ["ab".toUTF8.toList, [], "\n\nc".toUTF8.toList]
    let other : List (List UInt8) := ["a".toUTF8.toList, "b\n".toUTF8.toList, "\nc".toUTF8.toList]
    let told := writeEach { label := "> ".toUTF8.toList } other
    other.flatten = pieces.flatten ∧
      told.2 = ["> ab".toUTF8.toList, "> ".toUTF8.toList] ∧
      told.1.finish.2 = ["> c".toUTF8.toList] := by
  intro pieces other told
  have hsame : other.flatten = pieces.flatten := by
    decide +kernel
  obtain ⟨-, -, hother⟩ := logs_lines "> ".toUTF8.toList pieces
  have htold : told = writeEach { label := "> ".toUTF8.toList } pieces := hother other hsame
  refine ⟨hsame, ?_, ?_⟩
  · rw [htold]
    decide +kernel
  · rw [htold]
    decide +kernel

end WordLisp.LineLog

import WordLisp.Proofs.Source.Queued

/-!
# Where the runes of queued sources stand

`Source.layout` says what a queue gives, reading by reading, and where it stands after each: the
runes of one source after the other, with a boundary between two of them. It is said without a
queue. A position in a source counts the line feeds before it, and the runes behind the last of
these.

The readings of a queue follow the layout of its sources and then report the end, again and again:
`reads_in_order`. The invariant is `Queue.Stands`: which runes of which source have been read, and
that the line being read tells how many lines and runes these are.
-/

namespace WordLisp

open Text (Rune)

/-- What a reading gives, and where the queue stands after it. -/
structure Report where
  char : Char
  size : Nat
  position : Position
  deriving DecidableEq

namespace Source

/-- The line behind some runes of a source. -/
def lineAfter (passed : List Rune) : Nat :=
  1 + passed.count (.char '\n')

/-- The number of runes behind the last line feed. -/
def columnAfter (passed : List Rune) : Nat :=
  (passed.reverse.takeWhile (· ≠ .char '\n')).length

/-- The position behind some runes of a source. At the start of a line there is no column. -/
def positionAfter (source : Source) (passed : List Rune) : Position where
  source? := some source.title
  line := lineAfter passed
  column? := if columnAfter passed = 0 then none else some (columnAfter passed)

/-- The reports of the runes that follow those that have been passed. -/
def reportsFrom (source : Source) (passed : List Rune) : List Rune → List Report
  | [] => []
  | rune :: rest =>
      ⟨rune.toChar, rune.size, source.positionAfter (passed ++ [rune])⟩ ::
        source.reportsFrom (passed ++ [rune]) rest

/-- The report of the boundary in front of a source: a NUL of no bytes. -/
def boundary (source : Source) : Report :=
  ⟨'\x00', 0, source.positionAfter []⟩

/-- The reports of the rest of a source, and of the sources behind it. -/
def layoutFrom (source : Source) (passed rest : List Rune) : List Source → List Report
  | [] => source.reportsFrom passed rest
  | next :: pending =>
      source.reportsFrom passed rest ++ next.boundary :: next.layoutFrom [] next.text pending

/-- The reports of queued sources: the runes of each in order, and one boundary between two
sources. -/
def layout : List Source → List Report
  | [] => []
  | source :: pending => source.layoutFrom [] source.text pending

/-- Only a line feed shows as one. -/
theorem toChar_eq_lineFeed (rune : Rune) : rune.toChar = '\n' ↔ rune = .char '\n' := by
  cases rune with
  | char c => simp
  | stray byte => exact ⟨nofun, nofun⟩

/-- A line feed starts a line. -/
theorem after_lineFeed (passed : List Rune) :
    lineAfter (passed ++ [.char '\n']) = lineAfter passed + 1 ∧
      columnAfter (passed ++ [.char '\n']) = 0 := by
  simp [lineAfter, columnAfter, Nat.add_assoc]

/-- Any other rune is one more on its line. -/
theorem after_rune (passed : List Rune) {rune : Rune} (inside : rune ≠ .char '\n') :
    lineAfter (passed ++ [rune]) = lineAfter passed ∧
      columnAfter (passed ++ [rune]) = columnAfter passed + 1 := by
  simp [lineAfter, columnAfter, inside]

/-- The next rune of a source is the first of its layout. -/
theorem layoutFrom_cons (source : Source) (passed : List Rune) (rune : Rune) (rest : List Rune)
    (pending : List Source) :
    source.layoutFrom passed (rune :: rest) pending =
      ⟨rune.toChar, rune.size, source.positionAfter (passed ++ [rune])⟩ ::
        source.layoutFrom (passed ++ [rune]) rest pending := by
  cases pending <;> rfl

end Source

namespace Queue

/-- The queue after some readings. -/
def after (queue : Queue) : Nat → Queue
  | 0 => queue
  | count + 1 => queue.next.2.after count

/-- The queue has read some runes of a source and is on the line behind them. -/
structure Stands (queue : Queue) (source : Source) (passed rest : List Rune)
    (pending : List Source) : Prop where
  current_eq : queue.current? = some ⟨rest, none⟩
  pending_eq : queue.pending = pending
  source_eq : queue.scan.source = source.title
  number_eq : queue.scan.number = Source.lineAfter passed
  size_eq : queue.scan.text.size = Source.columnAfter passed

section Stands

variable {queue : Queue} {source next : Source} {passed rest : List Rune} {rune : Rune}
  {pending : List Source}

/-- The position of a queue is the one behind the runes that it has read. -/
theorem Stands.position_eq (h : queue.Stands source passed rest pending) :
    queue.position = source.positionAfter passed := by
  simp only [position, Line.position, Source.positionAfter, h.source_eq, h.number_eq,
    Array.isEmpty_iff_size_eq_zero, h.size_eq]

/-- A rune is read. -/
theorem Stands.next_rune (h : queue.Stands source passed (rune :: rest) pending) :
    queue.next.1 = .rune rune ∧
      queue.next.2.Stands source (passed ++ [rune]) rest pending := by
  simp only [Queue.next, h.current_eq, readOpen, true_and]
  by_cases hfeed : rune = .char '\n'
  · subst hfeed
    obtain ⟨hline, hcolumn⟩ := Source.after_lineFeed passed
    refine ⟨rfl, h.pending_eq, h.source_eq, ?_, ?_⟩
    · rw [hline, ← h.number_eq]
      rfl
    · rw [hcolumn]
      rfl
  · obtain ⟨hline, hcolumn⟩ := Source.after_rune passed hfeed
    rw [pass, if_neg (mt (Source.toChar_eq_lineFeed rune).mp hfeed)]
    refine ⟨rfl, h.pending_eq, h.source_eq, ?_, ?_⟩
    · rw [hline, ← h.number_eq]
      rfl
    · rw [hcolumn, ← h.size_eq]
      exact Array.size_push _

/-- Opening the next source puts the queue before its first rune. -/
theorem stands_advance (queued : queue.pending = next :: pending)
    (readable : next.failure? = none) :
    queue.advance.Stands next [] next.text pending := by
  simp only [advance, queued, readable]
  exact ⟨rfl, rfl, rfl, rfl, rfl⟩

/-- Behind the last rune of a source comes the boundary. -/
theorem Stands.next_boundary (h : queue.Stands source passed [] (next :: pending))
    (readable : next.failure? = none) :
    queue.next.1 = .boundary ∧ queue.next.2.Stands next [] next.text pending := by
  have hstands := stands_advance h.pending_eq readable
  simp only [Queue.next, h.current_eq, readOpen, hstands.current_eq]
  exact ⟨rfl, hstands⟩

/-- Behind the last rune of the last source comes the end, on a line of its own. -/
theorem Stands.next_ended (h : queue.Stands source passed [] []) :
    queue.next.1 = .ended ∧ queue.next.2.current? = none ∧ queue.next.2.pending = [] ∧
      queue.next.2.position = ⟨some source.title, Source.lineAfter passed + 1, none⟩ := by
  have hadvance : queue.advance = { queue.endLine with current? := none } := by
    rw [advance, h.pending_eq]
  simp only [Queue.next, h.current_eq, readOpen, hadvance]
  refine ⟨rfl, trivial, h.pending_eq, ?_⟩
  rw [← h.source_eq, ← h.number_eq]
  rfl

end Stands

/-! ## All readings -/

/-- The readings that a queue has yet to give before its end. -/
inductive Due (queue : Queue) : List Report → Prop where
  | closed : queue.current? = none → (∀ source ∈ queue.pending, source.failure? = none) →
      Due queue (Source.layout queue.pending)
  | stands {source : Source} {passed rest : List Rune} {pending : List Source} :
      queue.Stands source passed rest pending → (∀ source ∈ pending, source.failure? = none) →
      Due queue (source.layoutFrom passed rest pending)

/-- A reading gives the first of some reports and leaves the others, or the end if there are
none. -/
def Meets (reading : Reading) (rest : Queue) : List Report → Prop
  | [] => reading = .ended ∧ rest.Due []
  | report :: reports => reading.unit? = some (report.char, report.size) ∧
      rest.position = report.position ∧ rest.Due reports

variable {queue : Queue} {reports : List Report}

/-- A queue that stands in a source reads on from there. -/
theorem Stands.meets {source : Source} {passed rest : List Rune} {pending : List Source}
    (h : queue.Stands source passed rest pending)
    (readable : ∀ source ∈ pending, source.failure? = none) :
    Meets queue.next.1 queue.next.2 (source.layoutFrom passed rest pending) := by
  cases rest with
  | cons rune rest =>
      obtain ⟨hreading, hstands⟩ := h.next_rune
      rw [Source.layoutFrom_cons]
      exact ⟨congrArg Reading.unit? hreading, hstands.position_eq, .stands hstands readable⟩
  | nil =>
      cases pending with
      | nil =>
          obtain ⟨hreading, hcurrent, hpending, -⟩ := h.next_ended
          have hdue := Due.closed hcurrent (by rw [hpending]; exact List.forall_mem_nil _)
          rw [hpending] at hdue
          exact ⟨hreading, hdue⟩
      | cons next pending =>
          obtain ⟨hnext, hothers⟩ := List.forall_mem_cons.mp readable
          obtain ⟨hreading, hstands⟩ := h.next_boundary hnext
          exact ⟨congrArg Reading.unit? hreading, hstands.position_eq, .stands hstands hothers⟩

/-- Reading from a queue that has no source open is to open the next one and to read from that. -/
theorem next_eq_advance (closed : queue.current? = none) {source : OpenSource}
    (opened : queue.advance.current? = some source) : queue.next = queue.advance.next := by
  simp only [Queue.next, closed, opened]

/-- Every reading gives what is due. -/
theorem Due.meets (due : queue.Due reports) : Meets queue.next.1 queue.next.2 reports := by
  cases due with
  | stands h readable => exact h.meets readable
  | closed hclosed readable =>
      cases hpending : queue.pending with
      | nil =>
          have hadvance : queue.advance.current? = none ∧ queue.advance.pending = [] := by
            rw [advance, hpending]
            exact ⟨rfl, hpending⟩
          have hnext : queue.next = (.ended, queue.advance) := by
            simp only [Queue.next, hclosed, hadvance.1]
          have hdue := Due.closed hadvance.1 (by rw [hadvance.2]; exact List.forall_mem_nil _)
          rw [hadvance.2] at hdue
          refine ⟨?_, ?_⟩ <;> rw [hnext]
          exact hdue
      | cons source pending =>
          rw [hpending] at readable
          obtain ⟨hsource, hothers⟩ := List.forall_mem_cons.mp readable
          have hstands := stands_advance hpending hsource
          -- The first source is opened by the reading that gives its first rune.
          rw [next_eq_advance hclosed hstands.current_eq]
          exact hstands.meets hothers

/-- The readings of a queue, one by one, are those that are due, and then the end. -/
theorem Due.next_after (due : queue.Due reports) (i : Nat) :
    match reports[i]? with
    | some report => (queue.after i).next.1.unit? = some (report.char, report.size) ∧
        (queue.after i).next.2.position = report.position
    | none => (queue.after i).next.1 = .ended := by
  induction i generalizing queue reports with
  | zero =>
      have hmeets := due.meets
      cases reports with
      | nil => exact hmeets.1
      | cons report reports => exact ⟨hmeets.1, hmeets.2.1⟩
  | succ i ih =>
      have hmeets := due.meets
      cases reports with
      | nil => exact ih hmeets.2
      | cons report reports => exact ih hmeets.2.2

end Queue

/-- Queued input is the sources in order. Reading a queue of sources that do not fail gives the
runes of each in order and one boundary between two of them, as their layout has it, with the
position that the layout gives; and each reading after that reports the end. -/
theorem reads_in_order {sources : List Source}
    (readable : ∀ source ∈ sources, source.failure? = none) (i : Nat) :
    let call := ((Queue.ofSources sources).after i).next
    match (Source.layout sources)[i]? with
    | some report => call.1.unit? = some (report.char, report.size) ∧
        call.2.position = report.position
    | none => call.1 = .ended := by
  have hdue : (Queue.ofSources sources).Due (Source.layout sources) := .closed rfl readable
  exact hdue.next_after i

/-- A line feed, a NUL and an empty source: there is a boundary on either side of the empty source,
and a NUL of the text is told from it by its size. -/
theorem reads_in_order_empty :
    let sources : List Source :=
      [.named "a" [.char 'x', .char '\n', .char '\x00'], .named "e" [], .named "b" [.stray 255]]
    let call := fun i ↦ ((Queue.ofSources sources).after i).next
    Source.layout sources =
        [⟨'x', 1, ⟨some "a", 1, some 1⟩⟩, ⟨'\n', 1, ⟨some "a", 2, none⟩⟩,
          ⟨'\x00', 1, ⟨some "a", 2, some 1⟩⟩, ⟨'\x00', 0, ⟨some "e", 1, none⟩⟩,
          ⟨'\x00', 0, ⟨some "b", 1, none⟩⟩, ⟨'\ufffd', 1, ⟨some "b", 1, some 1⟩⟩] ∧
      (call 2).1.unit? = some ('\x00', 1) ∧ (call 4).1.unit? = some ('\x00', 0) ∧
      (call 5).2.position = ⟨some "b", 1, some 1⟩ ∧ (call 7).1 = .ended := by
  intro sources call
  have hreadable : ∀ source ∈ sources, source.failure? = none := by
    simp [sources, Source.named]
  have hlayout : Source.layout sources =
      [⟨'x', 1, ⟨some "a", 1, some 1⟩⟩, ⟨'\n', 1, ⟨some "a", 2, none⟩⟩,
        ⟨'\x00', 1, ⟨some "a", 2, some 1⟩⟩, ⟨'\x00', 0, ⟨some "e", 1, none⟩⟩,
        ⟨'\x00', 0, ⟨some "b", 1, none⟩⟩, ⟨'\ufffd', 1, ⟨some "b", 1, some 1⟩⟩] := by
    decide +kernel
  have hcall := reads_in_order hreadable
  rw [hlayout] at hcall
  exact ⟨hlayout, (hcall 2).1, (hcall 4).1, (hcall 5).2, hcall 7⟩

/-! ## The stream of a queue -/

/-- What a reader sees of a report: a NUL reads as a blank. -/
def Report.cell (report : Report) : Cell :=
  ⟨if report.char = '\x00' then ' ' else report.char, report.position⟩

/-- The position of the end behind a text of a source, and the sources behind it: on the line that
would follow the last one. -/
def Source.endFrom (source : Source) (text : List Rune) : List Source → Position
  | [] => ⟨some source.title, lineAfter text + 1, none⟩
  | next :: pending => next.endFrom next.text pending

theorem Source.endFrom_eq {source last : Source} {pending : List Source}
    (ends : (source :: pending).getLast? = some last) :
    source.endFrom source.text pending =
      ⟨some last.title, lineAfter last.text + 1, none⟩ := by
  induction pending generalizing source with
  | nil =>
      cases ends
      rfl
  | cons next pending ih =>
      rw [List.getLast?_cons_cons] at ends
      exact ih ends

namespace Queue

/-- The stream of a queue shows the reports of its layout. -/
theorem Stands.stream_eq {queue : Queue} {source : Source} {passed rest : List Rune}
    {pending : List Source} (h : queue.Stands source passed rest pending)
    (readable : ∀ source ∈ pending, source.failure? = none) :
    queue.stream = ⟨(source.layoutFrom passed rest pending).map Report.cell,
      source.endFrom (passed ++ rest) pending, none⟩ := by
  induction hreports : source.layoutFrom passed rest pending
    generalizing queue source passed rest pending with
  | nil =>
      cases rest with
      | cons rune rest =>
          rw [Source.layoutFrom_cons] at hreports
          cases hreports
      | nil =>
          cases pending with
          | cons next pending => cases hreports
          | nil =>
              obtain ⟨hreading, -, -, hposition⟩ := h.next_ended
              rw [Queue.stream_eq, ← Prod.eta queue.next, hreading]
              simp only [hposition, List.append_nil]
              rfl
  | cons report reports ih =>
      cases rest with
      | cons rune rest =>
          rw [Source.layoutFrom_cons] at hreports
          obtain ⟨rfl, hrest⟩ := List.cons.inj hreports
          obtain ⟨hreading, hstands⟩ := h.next_rune
          have hstream := ih hstands readable hrest
          rw [Queue.stream_eq, ← Prod.eta queue.next, hreading]
          simp only [hstream, Stream.cons, hstands.position_eq, List.append_assoc]
          rfl
      | nil =>
          cases pending with
          | nil => cases hreports
          | cons next pending =>
              obtain ⟨rfl, hrest⟩ := List.cons.inj hreports
              obtain ⟨hnext, hothers⟩ := List.forall_mem_cons.mp readable
              obtain ⟨hreading, hstands⟩ := h.next_boundary hnext
              have hstream := ih hstands hothers hrest
              rw [Queue.stream_eq, ← Prod.eta queue.next, hreading]
              simp only [hstream, Stream.cons, hstands.position_eq]
              rfl

/-- It ends on the line that would follow the last line of the last source. -/
theorem stream_ofSources {sources : List Source} {last : Source}
    (ends : sources.getLast? = some last)
    (readable : ∀ source ∈ sources, source.failure? = none) :
    (ofSources sources).stream = ⟨(Source.layout sources).map Report.cell,
      ⟨some last.title, Source.lineAfter last.text + 1, none⟩, none⟩ := by
  cases sources with
  | nil => cases ends
  | cons source pending =>
      obtain ⟨hsource, hothers⟩ := List.forall_mem_cons.mp readable
      have hstands : (ofSources (source :: pending)).advance.Stands source [] source.text pending :=
        stands_advance rfl hsource
      rw [Queue.stream_eq, next_eq_advance rfl hstands.current_eq, ← Queue.stream_eq,
        hstands.stream_eq hothers, List.nil_append, Source.endFrom_eq ends]
      rfl

end Queue

end WordLisp

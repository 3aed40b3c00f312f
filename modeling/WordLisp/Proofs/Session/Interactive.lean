import WordLisp.Proofs.Node.Continuation
import WordLisp.Proofs.Session.Incremental
import WordLisp.Session.Repl

/-!
# Interactive sessions line by line

An interactive session reads its pending lines anew after each line, and keeps them as long as they
leave a list open. How an entry is cut into lines does not matter for it: `play_enters` says that
the nodes of all lines, read as one text, are entered one by one, whatever has been given up in
between.

The lines that count are `remaining`, and those of the entry that is pending are what `after` makes
of a script, answer by answer. Both are said without a session; `Holds` ties a session to them.
-/

namespace WordLisp

open Text (Rune)

/-! ## Output that does not fail -/

namespace Writer

/-- What may become of a writer that is written to and flushed. -/
inductive Later (writer : Writer) : Writer → Prop where
  | refl : Later writer writer
  | write {later : Writer} (bytes : ByteArray) :
      Later writer later → Later writer (later.write bytes).1
  | flush {later : Writer} : Later writer later → Later writer later.flush.1

/-- A writer that does not fail: no flush reports an error, now or later. -/
def Reliable (writer : Writer) : Prop :=
  ∀ later, writer.Later later → later.flush.2 = none

variable {writer last : Writer}

theorem Later.trans {next : Writer} (h : writer.Later next) (h' : next.Later last) :
    writer.Later last := by
  induction h' with
  | refl => exact h
  | write bytes _ ih => exact .write bytes ih
  | flush _ ih => exact .flush ih

/-- A reliable writer stays so. -/
theorem Reliable.later (h : writer.Reliable) (later : writer.Later last) : last.Reliable :=
  fun _ hlast ↦ h _ (later.trans hlast)

theorem Reliable.write (h : writer.Reliable) (bytes : ByteArray) :
    (writer.write bytes).1.Reliable :=
  h.later (.write bytes .refl)

theorem Reliable.print (h : writer.Reliable) (text : String) : (writer.print text).Reliable :=
  h.write text.toUTF8

theorem Reliable.printAll (h : writer.Reliable) (texts : List String) :
    (writer.printAll texts).Reliable := by
  unfold Writer.printAll
  induction texts generalizing writer with
  | nil => exact h
  | cons text rest ih => exact ih (h.print text)

theorem Reliable.printThrough (h : writer.Reliable) (pending : ByteArray) (texts : List String) :
    (writer.printThrough pending texts).Reliable := by
  induction texts generalizing writer pending with
  | nil => exact h
  | cons text rest ih => exact ih (h.write (pending ++ text.toUTF8)) _

theorem Reliable.flush (h : writer.Reliable) : writer.flush.1.Reliable :=
  h.later (.flush .refl)

end Writer

namespace Session

/-- To enter a node prints nothing. -/
@[simp] theorem writer_enter (session : Session) (watch : Watch) (node : Node) :
    (session.enter watch node).1.writer = session.writer := by
  unfold enter
  dsimp only
  split
  · simp
  · split <;> simp [runAt]

end Session

namespace Repl

/-! ## Scripts -/

/-- An answer to a prompt, before the lines come to their end. -/
inductive Answer where
  | line (bytes : ByteArray)
  /-- The pending entry is given up. -/
  | abort

/-- What an interactive session makes of an answer. -/
def Answer.input : Answer → ReplInput
  | .line bytes => .line (Rune.decode bytes)
  | .abort => .abort

/-- The text of lines, each with a line feed behind it. -/
def joined : List ByteArray → ByteArray
  | [] => .empty
  | line :: rest => line ++ "\n".toUTF8 ++ joined rest

/-- A line that would be a command if no entry were pending: its first rune is a colon, once it is
trimmed. -/
def IsCommand (line : ByteArray) : Prop :=
  (Text.trim (Rune.decode line)).head? = some (.char ':')

instance (line : ByteArray) : Decidable (IsCommand line) :=
  inferInstanceAs (Decidable (_ = _))

instance (text : List Rune) : Decidable (LeavesOpen text) :=
  decidable_of_iff _ (Reader.isIncomplete_iff text)

/-- Whether lines leave a list open. -/
def OpenAfter (lines : List ByteArray) : Prop :=
  LeavesOpen (Rune.decode (joined lines))

instance (lines : List ByteArray) : Decidable (OpenAfter lines) :=
  inferInstanceAs (Decidable (LeavesOpen _))

/-- The lines of the pending entry behind an answer. A line that leaves no list open completes the
entry; a command belongs to none. -/
def after (pending : List ByteArray) : Answer → List ByteArray
  | .abort => []
  | .line line =>
      if pending = [] ∧ IsCommand line then []
      else if OpenAfter (pending ++ [line]) then pending ++ [line]
      else []

/-- The lines that are left of a script when, for each abort, those of the entry that is pending at
that moment are deleted. -/
def remaining (pending : List ByteArray) : List Answer → List ByteArray
  | [] => pending
  | .abort :: rest => remaining [] rest
  | .line line :: rest =>
      if after pending (.line line) = [] then pending ++ line :: remaining [] rest
      else remaining (pending ++ [line]) rest

/-- Answer one prompt after the other, each answer under its own watch, up to one that ends the
session. -/
def play (repl : Repl) : List (Watch × Answer) → Repl × Option (Option Failure)
  | [] => (repl, none)
  | (watch, answer) :: rest =>
      match repl.feed watch answer.input with
      | (next, none) => next.play rest
      | ended => ended

/-- Enter the nodes of one entry after those of the other, and flush the output after each entry. -/
def enterEntries (session : Session) : List (Watch × List Node) → Session
  | [] => session
  | (watch, nodes) :: rest => enterEntries (nodes.foldl (enter watch) session).flush.1 rest

/-! ## Texts of lines -/

/-- The runes of lines. -/
theorem decode_joined (lines : List ByteArray) :
    Rune.decode (joined lines) = lines.flatMap fun line ↦ Rune.decode line ++ [.char '\n'] := by
  induction lines with
  | nil =>
      rw [joined, Rune.decode, Rune.decodeFrom, dif_neg (by simp)]
      rfl
  | cons line rest ih =>
      rw [joined, Rune.decode_line, ih, List.flatMap_cons, List.append_assoc]
      rfl

theorem decode_joined_append (lines others : List ByteArray) :
    Rune.decode (joined (lines ++ others)) =
      Rune.decode (joined lines) ++ Rune.decode (joined others) := by
  rw [decode_joined, decode_joined, decode_joined, List.flatMap_append]

/-- Only no lines at all have no text. -/
theorem decode_joined_eq_nil {lines : List ByteArray} :
    Rune.decode (joined lines) = [] ↔ lines = [] := by
  cases lines <;> simp [decode_joined]

theorem wholeLines_joined (lines : List ByteArray) : WholeLines (Rune.decode (joined lines)) := by
  induction lines with
  | nil =>
      rw [decode_joined_eq_nil.mpr rfl]
      exact nofun
  | cons line rest ih =>
      rw [decode_joined, List.flatMap_cons, ← decode_joined]
      exact (wholeLines_append _).append ih

/-- No lines leave no list open. -/
theorem not_openAfter_nil : ¬OpenAfter [] := by
  rintro ⟨lexemes, nodes, depth, hlexes, hpending⟩
  rw [decode_joined_eq_nil.mpr rfl] at hlexes
  cases hlexes.unique .nil
  generalize hnil : ([] : List Lexeme) = lexemes at hpending
  cases hpending with
  | opened _ _ => exact absurd hnil.symm (List.append_ne_nil_of_right_ne_nil _ nofun)

/-- Bytes are read without an error exactly if their lexemes denote expressions. -/
theorem readBytes_iff {bytes : ByteArray} {lexemes : List Lexeme} {nodes : List Node}
    (h : Lexes (Rune.decode bytes) lexemes) :
    Reader.readBytes bytes = (nodes, none) ↔ Forest lexemes nodes :=
  Reader.readAll_eq_none_iff h.map_tokens_ofSource (Reader.failure?_ofSource rfl)

/-- If lines that leave no list open are read without an error together with others behind them,
then so are both, and the nodes of the first come first. -/
theorem readBytes_split {lines others : List ByteArray} {nodes : List Node}
    (complete : ¬OpenAfter lines)
    (reads : Reader.readBytes (joined (lines ++ others)) = (nodes, none)) :
    ∃ first rest, Reader.readBytes (joined lines) = (first, none) ∧
      Reader.readBytes (joined others) = (rest, none) ∧ nodes = first ++ rest := by
  obtain ⟨lexemes, hlexes⟩ := exists_lexes (Rune.decode (joined lines))
  obtain ⟨behind, hbehind⟩ := exists_lexes (Rune.decode (joined others))
  have hall : Lexes (Rune.decode (joined (lines ++ others))) (lexemes ++ behind) := by
    rw [decode_joined_append]
    exact hlexes.append_line (wholeLines_joined lines) hbehind
  have hforest := (readBytes_iff hall).mp reads
  rcases pending_or_offends lexemes with
    ⟨first, depth, hpending⟩ | ⟨first, offence, hinside, hoffends⟩
  · cases depth with
    | zero =>
        obtain ⟨rest, hnodes, hrest⟩ := hpending.forest.of_append hforest
        exact ⟨first, rest, (readBytes_iff hlexes).mpr hpending.forest,
          (readBytes_iff hbehind).mpr hrest, hnodes⟩
    | succ depth => exact absurd ⟨lexemes, first, depth, hlexes, hpending⟩ complete
  · exact absurd (hoffends.append hinside behind) hforest.not_offends

/-- Lines that are read without an error leave no list open. -/
theorem not_openAfter_of_reads {lines : List ByteArray} {nodes : List Node}
    (reads : Reader.readBytes (joined lines) = (nodes, none)) : ¬OpenAfter lines := by
  intro hopen
  have hincomplete := (Reader.isIncomplete_iff _).mpr hopen
  rw [Reader.readBytes] at reads
  rw [reads] at hincomplete
  cases hincomplete

/-! ## A session and the script it was given -/

/-- A session whose pending entry is these lines, with output that does not fail. -/
structure Holds (repl : Repl) (pending : List ByteArray) : Prop where
  entry : repl.entry = Rune.decode (joined pending)
  opened : pending ≠ [] → OpenAfter pending
  reliable : repl.session.writer.Reliable

section Step

variable {repl : Repl} {pending : List ByteArray}

theorem Holds.isEmpty_iff (holds : repl.Holds pending) : repl.entry.isEmpty ↔ pending = [] := by
  rw [List.isEmpty_iff, holds.entry, decode_joined_eq_nil]

/-- The prompt says whether the pending lines leave a list open. -/
theorem Holds.prompt_eq (holds : repl.Holds pending) :
    repl.prompt = if OpenAfter pending then "     ... " else "intlisp> " := by
  unfold prompt
  by_cases hpending : pending = []
  · rw [if_pos (holds.isEmpty_iff.mpr hpending), hpending, if_neg not_openAfter_nil]
  · rw [if_neg fun hempty ↦ hpending (holds.isEmpty_iff.mp hempty),
      if_pos (holds.opened hpending)]

/-- What a line does: it is a command, it goes to the pending entry, or it completes this. -/
theorem Holds.feed_line (holds : repl.Holds pending) (watch : Watch) (line : ByteArray) :
    repl.feed watch (Answer.line line).input =
      if pending = [] ∧ IsCommand line then
        flushed { repl with
          session := command repl.session (Text.trim (Rune.decode line))
          history := repl.history.push (Text.trim (Rune.decode line)) }
      else if OpenAfter (pending ++ [line]) then
        ({ repl with entry := Rune.decode (joined (pending ++ [line])) }, none)
      else
        repl.complete watch (Rune.decode (joined (pending ++ [line])))
          (Reader.readBytes (joined (pending ++ [line]))).1
          (Reader.readBytes (joined (pending ++ [line]))).2 := by
  have htext : repl.entry ++ Rune.decode line ++ [.char '\n'] =
      Rune.decode (joined (pending ++ [line])) := by
    rw [holds.entry, decode_joined_append, decode_joined [line], List.flatMap_singleton,
      List.append_assoc]
  rw [Answer.input, feed, feedLine, htext]
  by_cases hcommand : pending = [] ∧ IsCommand line
  · rw [if_pos hcommand, if_pos ⟨holds.isEmpty_iff.mpr hcommand.1, hcommand.2⟩]
  · rw [if_neg hcommand, if_neg fun h ↦ hcommand ⟨holds.isEmpty_iff.mp h.1, h.2⟩]
    by_cases hopen : OpenAfter (pending ++ [line])
    · rw [if_pos hopen]
      exact if_pos ((Reader.isIncomplete_iff _).mpr hopen)
    · rw [if_neg hopen]
      exact if_neg fun h ↦ hopen ((Reader.isIncomplete_iff _).mp h)

variable {session : Session} (reliable : session.writer.Reliable)

include reliable

/-- To enter a node prints what it gave. -/
theorem reliable_enter (watch : Watch) (node : Node) :
    (enter watch session node).writer.Reliable := by
  have hentered : (session.enter watch node).1.writer.Reliable := by
    rwa [Session.writer_enter]
  unfold enter
  dsimp only
  split
  · exact hentered.print _
  · exact hentered.print _
  · exact hentered.print _

theorem reliable_foldl_enter (watch : Watch) (nodes : List Node) :
    (nodes.foldl (enter watch) session).writer.Reliable := by
  induction nodes generalizing session with
  | nil => exact reliable
  | cons node rest ih => exact ih (reliable_enter reliable watch node)

theorem reliable_command (text : List Rune) : (command session text).writer.Reliable := by
  unfold command
  split
  · exact (reliable.print _).printThrough _ _
  · exact reliable.printAll _
  · exact reliable.printAll _
  · exact reliable.print _

/-- To flush the output does not end the session. -/
theorem flushed_eq (entry : List Rune) (history : Array (List Rune)) :
    flushed { session, entry, history } =
      ({ session := session.flush.1, entry, history }, none) := by
  have hflush : session.flush.2 = none := by
    show session.writer.flush.2.map Failure.other = none
    rw [reliable _ .refl]
    rfl
  show (_, session.flush.2.map some) = _
  rw [hflush]
  rfl

omit reliable

/-- A complete entry leaves nothing pending. If there was no error, its nodes are entered, and
nothing else is done. -/
theorem exists_complete (reliable : repl.session.writer.Reliable) (watch : Watch)
    (text : List Rune) (nodes : List Node) (error? : Option ReadError) :
    ∃ next, repl.complete watch text nodes error? = (next, none) ∧ next.Holds [] ∧
      (error? = none → next.session = enterEntries repl.session [(watch, nodes)]) := by
  have hentered := reliable_foldl_enter reliable watch nodes
  have hnone : [] = Rune.decode (joined []) := (decode_joined []).symm
  unfold complete
  cases error? with
  | none =>
      rw [flushed_eq hentered]
      exact ⟨_, rfl, ⟨hnone, nofun, hentered.flush⟩, fun _ ↦ rfl⟩
  | some error =>
      have hreported := hentered.print ("! " ++ error.message ++ "\n")
      rw [flushed_eq hreported]
      exact ⟨_, rfl, ⟨hnone, nofun, hreported.flush⟩, nofun⟩

/-- A session goes on after every answer, and its pending entry is what it should be. -/
theorem Holds.feed (holds : repl.Holds pending) (watch : Watch) (answer : Answer) :
    ∃ next, repl.feed watch answer.input = (next, none) ∧ next.Holds (after pending answer) := by
  cases answer with
  | abort => exact ⟨_, rfl, (decode_joined []).symm, nofun, holds.reliable⟩
  | line line =>
      rw [holds.feed_line, after]
      by_cases hcommand : pending = [] ∧ IsCommand line
      · have hcarried := reliable_command holds.reliable (Text.trim (Rune.decode line))
        rw [if_pos hcommand, if_pos hcommand, flushed_eq hcarried]
        exact ⟨_, rfl, hcommand.1 ▸ holds.entry, nofun, hcarried.flush⟩
      · rw [if_neg hcommand, if_neg hcommand]
        by_cases hopen : OpenAfter (pending ++ [line])
        · rw [if_pos hopen, if_pos hopen]
          exact ⟨_, rfl, rfl, fun _ ↦ hopen, holds.reliable⟩
        · rw [if_neg hopen, if_neg hopen]
          obtain ⟨next, hnext, hholds, -⟩ := exists_complete holds.reliable watch
            (Rune.decode (joined (pending ++ [line])))
            (Reader.readBytes (joined (pending ++ [line]))).1
            (Reader.readBytes (joined (pending ++ [line]))).2
          exact ⟨next, hnext, hholds⟩

/-- A session goes on to the end of any script. -/
theorem Holds.play (holds : repl.Holds pending) (script : List (Watch × Answer)) :
    ∃ last, repl.play script = (last, none) ∧
      last.Holds ((script.map Prod.snd).foldl after pending) := by
  induction script generalizing repl pending with
  | nil => exact ⟨repl, rfl, holds⟩
  | cons first rest ih =>
      obtain ⟨next, hnext, hholds⟩ := holds.feed first.1 first.2
      obtain ⟨last, hlast, hholds⟩ := ih hholds
      refine ⟨last, ?_, hholds⟩
      rw [Repl.play, hnext]
      exact hlast

/-- If the lines that are left of a script are read without an error and are no commands, their
nodes are entered, entry by entry, and nothing else is done. -/
theorem Holds.session_play (holds : repl.Holds pending) {script : List (Watch × Answer)}
    {nodes : List Node}
    (plain : ∀ line ∈ remaining pending (script.map Prod.snd), ¬IsCommand line)
    (reads : Reader.readBytes (joined (remaining pending (script.map Prod.snd))) =
      (nodes, none)) :
    ∃ entries, entries.flatMap Prod.snd = nodes ∧
      (repl.play script).1.session = enterEntries repl.session entries := by
  induction script generalizing repl pending nodes with
  | nil =>
      have hnil : pending = [] := by
        by_contra hpending
        exact not_openAfter_of_reads reads (holds.opened hpending)
      subst hnil
      have hlexes : Lexes (Rune.decode (joined [])) [] := by
        rw [decode_joined]
        exact .nil
      cases (readBytes_iff hlexes).mp reads
      exact ⟨[], rfl, rfl⟩
  | cons first rest ih =>
      obtain ⟨watch, answer⟩ := first
      cases answer with
      | abort =>
          have hholds : Holds { repl with entry := [] } [] :=
            ⟨(decode_joined []).symm, nofun, holds.reliable⟩
          exact ih hholds plain reads
      | line line =>
          rw [List.map_cons, remaining, after] at plain reads
          have hcommand : ¬(pending = [] ∧ IsCommand line) := by
            intro h
            rw [if_pos h, if_pos rfl] at plain
            exact plain line (by simp) h.2
          have hfeed := holds.feed_line watch line
          rw [if_neg hcommand] at plain reads hfeed
          rw [Repl.play]
          by_cases hopen : OpenAfter (pending ++ [line])
          · rw [if_pos hopen, if_neg (by simp)] at plain reads
            rw [if_pos hopen] at hfeed
            rw [hfeed]
            have hholds : Holds
                { repl with entry := Rune.decode (joined (pending ++ [line])) }
                (pending ++ [line]) := ⟨rfl, fun _ ↦ hopen, holds.reliable⟩
            exact ih hholds plain reads
          · rw [if_neg hopen, if_pos rfl, ← List.singleton_append,
              ← List.append_assoc] at plain reads
            obtain ⟨nodes, others, hnodes, hothers, rfl⟩ := readBytes_split hopen reads
            rw [if_neg hopen, hnodes] at hfeed
            obtain ⟨next, hnext, hholds, hsession⟩ := exists_complete holds.reliable watch
              (Rune.decode (joined (pending ++ [line]))) nodes none
            obtain ⟨entries, hentries, hlast⟩ :=
              ih hholds (fun line hline ↦ plain line (List.mem_append_right _ hline)) hothers
            refine ⟨(watch, nodes) :: entries, ?_, ?_⟩
            · rw [List.flatMap_cons, hentries]
            · rw [hfeed, hnext]
              exact hlast.trans (by rw [hsession rfl]; rfl)

end Step

/-! ## Program and functions -/

/-- To enter a node is to compile it, whatever is printed. -/
theorem compiler_enter (watch : Watch) (session : Session) (node : Node) :
    (enter watch session node).compiler = (session.compiler.compile node).1 := by
  rw [← session.compiler_enter watch]
  unfold enter
  dsimp only
  split <;> rfl

theorem compiler_foldl_enter (watch : Watch) (session : Session) (environment : Environment)
    (nodes : List Node) :
    (nodes.foldl (enter watch) session).compiler =
      (session.compiler.compileEach environment nodes).1 := by
  induction nodes generalizing session environment with
  | nil => rfl
  | cons node rest ih =>
      rw [List.foldl_cons, ih _ (environment.after node (session.compiler.compile node).2),
        compiler_enter]
      rfl

/-- To enter entries is to compile their nodes one by one. -/
theorem compiler_enterEntries (session : Session) (environment : Environment)
    (entries : List (Watch × List Node)) :
    (enterEntries session entries).compiler =
      (session.compiler.compileEach environment (entries.flatMap Prod.snd)).1 := by
  induction entries generalizing session environment with
  | nil => rfl
  | cons first rest ih =>
      obtain ⟨watch, nodes⟩ := first
      rw [List.flatMap_cons, Compiler.compileEach_append,
        ← compiler_foldl_enter watch session environment]
      exact ih _ _

/-- Line breaks do not matter. A session with output that does not fail is given a script of lines
and aborts, of which some lines remain once those of every entry that is given up are deleted. If
none of these is a command, and as one text they are read without an error, then:

* their nodes are entered, each once and in order, and nothing else is done;
* behind every part of the script, the prompt asks for more exactly if the lines since the last
  complete entry or abort leave a list open;
* the lines come to their end without a failure, and the program and the functions are those of
  entering the nodes directly. -/
theorem play_enters {session : Session} {script : List (Watch × Answer)} {nodes : List Node}
    (reliable : session.writer.Reliable)
    (plain : ∀ line ∈ remaining [] (script.map Prod.snd), ¬IsCommand line)
    (reads : Reader.readBytes (joined (remaining [] (script.map Prod.snd))) = (nodes, none)) :
    ∃ last : Repl, play { session } script = (last, none) ∧
      (∃ entries, entries.flatMap Prod.snd = nodes ∧
        last.session = enterEntries session entries) ∧
      (∀ before behind, script = before ++ behind → ∃ repl,
        play { session } before = (repl, none) ∧
        repl.prompt = if OpenAfter ((before.map Prod.snd).foldl after []) then "     ... "
          else "intlisp> ") ∧
      ∀ watch, ∃ final, last.feed watch .ended = (final, some none) ∧
        ∀ entered, entered.map Prod.snd = nodes →
          final.session.compiler = (session.enterEach entered).compiler := by
  have hholds : Holds { session } [] := ⟨(decode_joined []).symm, nofun, reliable⟩
  obtain ⟨last, hlast, hend⟩ := hholds.play script
  obtain ⟨entries, hentries, hsession⟩ := hholds.session_play plain reads
  rw [hlast] at hsession
  refine ⟨last, hlast, ⟨entries, hentries, hsession⟩, ?_, ?_⟩
  · intro before behind _
    obtain ⟨repl, hrepl, hbefore⟩ := hholds.play before
    exact ⟨repl, hrepl, hbefore.prompt_eq⟩
  · intro watch
    refine ⟨{ last with session := last.session.flush.1 }, ?_, ?_⟩
    · show (_, some (last.session.writer.flush.2.map Failure.other)) = _
      rw [hend.reliable _ .refl]
      rfl
    · intro entered hentered
      show last.session.compiler = _
      rw [hsession, compiler_enterEntries session [], session.compiler_enterEach [], hentered,
        hentries]

/-- A memory does not fail. -/
theorem reliable_memory (taken : ByteArray) : Writer.Reliable ⟨[.memory taken]⟩ := by
  have hmemory : ∀ later, Writer.Later ⟨[.memory taken]⟩ later →
      ∃ bytes, later = ⟨[.memory bytes]⟩ := by
    intro later hlater
    induction hlater with
    | refl => exact ⟨taken, rfl⟩
    | write more _ ih =>
        obtain ⟨bytes, rfl⟩ := ih
        exact ⟨_, rfl⟩
    | flush _ ih =>
        obtain ⟨bytes, rfl⟩ := ih
        exact ⟨bytes, rfl⟩
  intro later hlater
  obtain ⟨bytes, rfl⟩ := hmemory later hlater
  rfl

/-- An entry is given up; then a sum goes over two lines, with a comment at the end of the first,
and another number follows it. -/
theorem play_enters_sum :
    let script : List (Watch × Answer) := [(.never, .line "(+ 9".toUTF8), (.canceled, .abort),
      (.never, .line "(+ 2 ; )".toUTF8), (.canceled, .line "3) 4".toUTF8)]
    let session := Session.new 8 ⟨[.memory .empty]⟩
    let sum := Node.ofList [.symbol "+", .int 2, .int 3]
    ∃ last : Repl, play { session } script = (last, none) ∧
      (∃ entries, entries.flatMap Prod.snd = [sum, .int 4] ∧
        last.session = enterEntries session entries) ∧
      (∃ repl, play { session } (script.take 3) = (repl, none) ∧ repl.prompt = "     ... ") ∧
      last.session.compiler = (session.enterEach [(.never, sum), (.never, .int 4)]).compiler := by
  intro script session sum
  have hremaining : remaining [] (script.map Prod.snd) =
      ["(+ 2 ; )".toUTF8, "3) 4".toUTF8] := by
    decide +kernel
  have hopen : OpenAfter (((script.take 3).map Prod.snd).foldl after []) := by
    decide +kernel
  obtain ⟨last, hlast, hentries, hprompt, hended⟩ := @play_enters session script [sum, .int 4]
    (reliable_memory .empty) (by rw [hremaining]; decide +kernel)
    (by rw [hremaining]; decide +kernel)
  obtain ⟨repl, hrepl, hshown⟩ := hprompt (script.take 3) (script.drop 3) rfl
  obtain ⟨final, hfinal, hcompiler⟩ := hended .never
  rw [if_pos hopen] at hshown
  refine ⟨last, hlast, hentries, ⟨repl, hrepl, hshown⟩, ?_⟩
  have hflushed : last.session.compiler = final.session.compiler :=
    congrArg (·.1.session.compiler) hfinal
  exact hflushed.trans (hcompiler [(.never, sum), (.never, .int 4)] rfl)

end Repl

end WordLisp

import WordLisp.Session.Basic

/-!
# Independent programs

Sources may also be run as programs of their own, side by side, each in a fresh session. If all of
them succeed, their listings and values are written in the order of the sources; otherwise nothing
is written, and the first failure is reported under the name of its source.

The programs take turns: a turn compiles a source, or runs its program up to the next check. Once
one of them has failed, each of the others is stopped at its next check. `Batch.turn` is one turn,
in whatever order they are taken; `Batch.rounds` takes them in the order of the sources, round after
round. `Session.report` writes the results.
-/

namespace WordLisp

/-- The result of a source that ran on its own. -/
structure Solo where
  title : String
  /-- What it printed. -/
  printed : ByteArray
  value : Word

/-- A source on its way through a session of its own. -/
inductive Job where
  /-- The source has not been looked at. -/
  | waiting (source : Source)
  /-- Its program is running. The next check comes after `allowance` steps, and the program passes
  `checks` of them. -/
  | running (title : String) (session : Session) (checks allowance : Nat)
  /-- It has come to its end. -/
  | ended (result : Except Failure Solo)

namespace Job

/-- Whether the job has come to its end. -/
def isEnded : Job → Bool
  | .ended _ => true
  | _ => false

/-- The failure of a job, if it has failed. -/
def failure? : Job → Option Failure
  | .ended (.error failure) => some failure
  | _ => none

/-- The result of a job, if it has succeeded. -/
def solo? : Job → Option Solo
  | .ended (.ok solo) => some solo
  | _ => none

/-- The end of the job whose program has come so far, after the lines of its trace. -/
def conclude (title : String) (session : Session) (reason : Interrupt)
    (reached : Machine × Machine.Progress) : Array String × Job :=
  let session := session.note fun _ ↦ (Machine.lastLine reason reached).map ("vm " ++ ·)
  let printed := (session.writer.leaves.head?.bind Leaf.taken?).getD .empty
  (session.log, .ended <| match (Machine.conclude reason reached).2 with
    | .ok value => .ok ⟨title, printed, value⟩
    | .error stop => .error (.named title (.ofStop stop)))

/-- One turn of a job, after the lines of its trace. A source is compiled in the session `blank`;
when `stopping`, the program is stopped at its next check. -/
def turn (blank : Session) (watch : Watch) (stopping : Bool) : Job → Array String × Job
  | .waiting source =>
      match blank.compile [source] with
      | (session, some failure) => (session.log, .ended (.error (.named source.title failure)))
      | (session, none) =>
          let allowance := Watch.canceled.allowance session.machine.steps
          let begun := { session with machine := session.machine.begin 0, log := #[] }
          (session.log, .running source.title begun watch.checks allowance)
  | .running title session checks allowance =>
      let program := session.compiler.program
      let session := session.note fun _ ↦
        (session.machine.stepLines program allowance #[]).toList.map ("vm " ++ ·)
      match session.machine.loop program allowance with
      | (machine, .paused) =>
          if stopping ∨ checks = 0 then
            conclude title session watch.reason (machine, .paused)
          else
            let paused := { session with machine, log := #[] }
            (session.log, .running title paused (checks - 1) Watch.interval)
      | reached => conclude title session watch.reason reached
  | .ended result => (#[], .ended result)

end Job

/-- Programs that run side by side. -/
structure Batch where
  jobs : List Job
  /-- The first failure so far. -/
  failure? : Option Failure := none
  /-- The trace of all of them. -/
  log : Array String := #[]

namespace Batch

/-- The batch of these sources before any turn. -/
def ofSources (sources : List Source) : Batch where
  jobs := sources.map .waiting

/-- A turn of the job with this index; when `stopping`, it is stopped at its next check. -/
def advance (blank : Session) (watch : Watch) (stopping : Bool) (batch : Batch) (index : Nat) :
    Batch :=
  match batch.jobs[index]? with
  | none => batch
  | some job =>
      let (log, next) := job.turn blank watch stopping
      { jobs := batch.jobs.set index next
        failure? := batch.failure? <|> next.failure?
        log := batch.log ++ log }

/-- A turn of the job with this index, which is stopped if there has been a failure. -/
def turn (blank : Session) (watch : Watch) (batch : Batch) (index : Nat) : Batch :=
  batch.advance blank watch batch.failure?.isSome index

/-- Whether every job has come to its end. -/
def isEnded (batch : Batch) : Bool :=
  batch.jobs.all Job.isEnded

/-- At most `bound` rounds, in each of which every job has a turn, until all have ended. -/
def rounds (blank : Session) (watch : Watch) : Nat → Batch → Batch
  | 0, batch => batch
  | bound + 1, batch =>
      if batch.isEnded then batch
      else rounds blank watch bound
        ((List.range batch.jobs.length).foldl (turn blank watch) batch)

/-- Give the jobs turns until all have ended. A job needs one turn to be compiled, one for every
check that it passes, and one for the rest of its program. -/
def play (blank : Session) (watch : Watch) (batch : Batch) : Batch :=
  batch.rounds blank watch (watch.checks + 2)

/-- The results of the jobs that have succeeded, in the order of the sources. -/
def solos (batch : Batch) : List Solo :=
  batch.jobs.filterMap Job.solo?

end Batch

/-- Write what a program printed. Nothing is not written at all. -/
def Writer.writePrinted (writer : Writer) (printed : ByteArray) : Writer × Option String :=
  if printed.isEmpty then
    (writer, none)
  else
    let (writer, result) := writer.write printed
    (writer, result.error? <|> if result.count ≠ printed.size then some shortWrite else none)

/-- Write results in order, up to the first error. -/
def Writer.writeSolos (writer : Writer) : List Solo → Writer × Option String
  | [] => (writer, none)
  | solo :: rest =>
      match writer.writePrinted solo.printed with
      | (writer, some error) => (writer, some error)
      | (writer, none) =>
          let line := solo.title ++ ": " ++ Word.render solo.value ++ "\n"
          match writer.write line.toUTF8 with
          | (writer, ⟨_, some error⟩) => (writer, some error)
          | (writer, ⟨_, none⟩) => writer.writeSolos rest

namespace Session

/-- A session like this one that prints to a memory of its own. -/
def apart (session : Session) : Session :=
  { session with writer := ⟨[.memory .empty]⟩, log := #[] }

/-- Write the results of programs that have ended to the output, unless one has failed. -/
def report (session : Session) (batch : Batch) : Session × Option Failure :=
  let session := { session with log := session.log ++ batch.log }
  match batch.failure? with
  | some failure => (session, some failure)
  | none =>
      let (writer, error?) := session.writer.writeSolos batch.solos
      ({ session with writer }, error?.map .other)

/-- Run every source on its own in a session like this one, and write the results to its output. -/
def runEach (session : Session) (watch : Watch) (sources : List Source) :
    Session × Option Failure :=
  session.report ((Batch.ofSources sources).play session.apart watch)

end Session

end WordLisp

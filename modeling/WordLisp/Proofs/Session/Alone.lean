import WordLisp.Proofs.Output.Printing
import WordLisp.Proofs.Session.Lasting
import WordLisp.Session.Each

/-!
# A job that nothing stops

A job compiles its source in one turn and runs the program in the others, from check to check. If
nothing stops it, this comes to the same as loading the source in one go: a job that has ended has
the result of the load (`Job.gives_of_alone`), and if the load comes to a result, the job ends
(`Job.exists_turns`).
-/

namespace WordLisp

/-! ## Loading sources alone -/

/-- Every program can be started at its first instruction. -/
theorem Machine.startAddress?_zero (program : Program) : startAddress? program 0 = some 0 := by
  have hzero : Int64.toNatClampNeg 0 = 0 := rfl
  rw [startAddress?, Program.index?, hzero, if_pos ⟨Int64.le_refl 0, Nat.succ_pos program.size⟩]

namespace Session

variable {session : Session} {sources : List Source} {source : Source}

/-- Loading these sources comes to `outcome` if nothing interrupts the program: it does so under
every watch that lasts long enough. -/
def LoadsTo (session : Session) (sources : List Source) (outcome : Except Failure Word) : Prop :=
  ∃ checks, ∀ watch : Watch, checks ≤ watch.checks → (session.load watch sources).2 = outcome

/-- A load comes to at most one outcome. -/
theorem LoadsTo.unique {outcome outcome' : Except Failure Word}
    (h : session.LoadsTo sources outcome) (h' : session.LoadsTo sources outcome') :
    outcome = outcome' := by
  obtain ⟨checks, hchecks⟩ := h
  obtain ⟨checks', hchecks'⟩ := h'
  rw [← hchecks ⟨max checks checks', .canceled⟩ (Nat.le_max_left _ _)]
  exact hchecks' ⟨max checks checks', .canceled⟩ (Nat.le_max_right _ _)

/-- What is printed when a source is compiled. -/
def listingOf (session : Session) (source : Source) : ByteArray :=
  if session.listsCode then
    (String.join (session.compile [source]).1.compiler.listing).toUTF8
  else
    .empty

/-- The result of a source that has this value. -/
def soloOf (session : Session) (source : Source) (value : Word) : Solo :=
  ⟨source.title, session.listingOf source, value⟩

/-- The result of a source that is loaded in this session: its value, with its listing, or its
failure under its name. -/
def Gives (session : Session) (source : Source) : Except Failure Solo → Prop
  | .ok solo => session.LoadsTo [source] (.ok solo.value) ∧
      solo = session.soloOf source solo.value
  | .error failure => ∃ cause, failure = .named source.title cause ∧
      session.LoadsTo [source] (.error cause)

/-- To compile sources prints the listing, if the session does so and nothing is refused. -/
theorem writer_compile (accepted : (session.compile sources).2 = none) :
    (session.compile sources).1.writer =
      if session.listsCode then
        (session.writer.print Compiler.listingTitle).printThrough .empty
          (session.compile sources).1.compiler.texts
      else session.writer := by
  have hlists : ∀ lines, (session.note lines).listsCode = session.listsCode := fun lines ↦ by
    unfold note
    split <;> rfl
  unfold compile at accepted ⊢
  dsimp only at accepted ⊢
  split
  · next herror =>
      simp only [herror] at accepted
      cases accepted
  · rw [hlists]
    by_cases hlisted : session.listsCode
    · simp only [hlisted, if_true, dump, print, writer_note]
    · simp only [hlisted, Bool.false_eq_true, if_false, writer_note]

/-- A memory then holds the listing. -/
theorem writer_compile_apart (accepted : (session.apart.compile [source]).2 = none) :
    (session.apart.compile [source]).1.writer = ⟨[.memory (session.apart.listingOf source)]⟩ := by
  rw [writer_compile accepted, listingOf]
  by_cases hlisted : session.apart.listsCode
  · -- The title and the lines make up the listing, and nothing stands in the memory before it.
    have htakes := Writer.takes_memory (.empty ++ Compiler.listingTitle.toUTF8)
      (session.apart.compile [source]).1.compiler.texts
    have hlisting := Writer.printAll_memory .empty
      (session.apart.compile [source]).1.compiler.listing
    rw [ByteArray.empty_append] at hlisting
    rw [if_pos hlisted, if_pos hlisted, ← hlisting]
    exact htakes.printThrough_eq
  · rw [if_neg hlisted, if_neg hlisted]
    rfl

/-! ### The outcome of a load -/

/-- A source that is refused comes to that. -/
theorem loadsTo_of_refused {failure : Failure}
    (refused : (session.compile sources).2 = some failure) :
    session.LoadsTo sources (.error failure) := by
  refine ⟨0, fun watch _ ↦ ?_⟩
  rw [load, ← Prod.eta (session.compile sources), refused]

/-- To load sources that are accepted is to run their program. -/
theorem load_of_accepted (accepted : (session.compile sources).2 = none) (watch : Watch) :
    (session.load watch sources).2 = ((session.compile sources).1.run watch).2 := by
  rw [load, ← Prod.eta (session.compile sources), accepted]

/-- A run gives what its program gives, if the output can be flushed. -/
theorem result_run (flushes : session.writer.flush.2 = none) (watch : Watch) :
    (session.run watch).2 =
      (session.machine.runAt session.compiler.program watch 0).2.mapError .ofStop := by
  have hwriter : (session.runAt watch 0).1.writer = session.writer := by simp [runAt]
  have hflush : (session.runAt watch 0).1.flush.2 = none := by
    show (session.runAt watch 0).1.writer.flush.2.map Failure.other = none
    rw [hwriter, flushes]
    rfl
  rw [← result_runAt, run]
  simp only [hflush]
  cases (session.runAt watch 0).2 <;> rfl

/-- The outcome of a load, if the source is accepted, is what some number of steps of its program
come to. -/
theorem loadsTo_apart_iff (accepted : (session.apart.compile [source]).2 = none)
    {outcome : Except Failure Word} :
    session.apart.LoadsTo [source] outcome ↔ ∃ steps final progress result,
      ((session.apart.compile [source]).1.machine.begin 0).loop
          (session.apart.compile [source]).1.compiler.program steps = (final, progress) ∧
        Machine.Progress.outcome? progress final = some result ∧
        result.mapError .fault = outcome := by
  have hflush : (session.apart.compile [source]).1.writer.flush.2 = none := by
    rw [writer_compile_apart accepted]
    rfl
  have hload : ∀ watch, (session.apart.load watch [source]).2 =
      ((session.apart.compile [source]).1.machine.runAt
        (session.apart.compile [source]).1.compiler.program watch 0).2.mapError .ofStop :=
    fun watch ↦ (load_of_accepted accepted watch).trans (result_run hflush watch)
  have hfault : ∀ result : Except Fault Word,
      (result.mapError Stop.fault).mapError Failure.ofStop = result.mapError Failure.fault := by
    rintro (fault | value) <;> rfl
  simp only [LoadsTo, hload]
  generalize (session.apart.compile [source]).1.machine = machine
  generalize (session.apart.compile [source]).1.compiler.program = program
  have hstart := Machine.startAddress?_zero program
  constructor
  · rintro ⟨checks, hchecks⟩
    -- The outcome is the same for both reasons to interrupt, so the program was not interrupted.
    have hcanceled := hchecks ⟨checks, .canceled⟩ (Nat.le_refl _)
    have hdeadline := hchecks ⟨checks, .deadline⟩ (Nat.le_refl _)
    simp only [Machine.runAt, hstart] at hcanceled hdeadline
    have hallowance : Watch.allowance ⟨checks, .deadline⟩ machine.steps =
      Watch.allowance ⟨checks, .canceled⟩ machine.steps := rfl
    rw [hallowance] at hdeadline
    generalize Watch.allowance _ _ = allowance at hcanceled hdeadline
    rcases hloop : (machine.begin 0).loop program allowance with ⟨final, progress⟩
    rw [hloop, Machine.conclude_eq] at hcanceled hdeadline
    cases hprogress : progress.outcome? final with
    | none =>
        rw [hprogress] at hcanceled hdeadline
        cases hcanceled.trans hdeadline.symm
    | some result =>
        rw [hprogress] at hcanceled
        exact ⟨allowance, final, progress, result, hloop, hprogress,
          (hfault result).symm.trans hcanceled⟩
  · rintro ⟨steps, final, progress, result, hloop, hprogress, rfl⟩
    obtain ⟨checks, hchecks⟩ :=
      (Machine.runsTo_iff_loop hstart).mpr ⟨steps, progress, hloop, hprogress⟩
    refine ⟨checks, fun watch hwatch ↦ ?_⟩
    rw [hchecks watch hwatch, hfault]

end Session

/-! ## Turns of a job -/

namespace Job

variable {blank session : Session} {watch : Watch} {stopping : Bool} {source : Source}
  {title : String} {checks allowance : Nat} {machine : Machine} {outcome : Except Fault Word}

/-- What a memory at the front of a writer holds. -/
def kept (writer : Writer) : ByteArray :=
  (writer.leaves.head?.bind Leaf.taken?).getD .empty

/-- The result of a job whose program has come to this. -/
def resultOf (title : String) (writer : Writer) : Except Fault Word → Except Failure Solo
  | .ok value => .ok ⟨title, kept writer, value⟩
  | .error fault => .error (.named title (.fault fault))

/-- Only a run that has paused has not come to anything. -/
theorem outcome?_cases (progress : Machine.Progress) (machine : Machine) :
    progress = .paused ∨ ∃ outcome, progress.outcome? machine = some outcome := by
  cases progress with
  | ended => exact .inr ⟨_, rfl⟩
  | faulted cause => exact .inr ⟨_, rfl⟩
  | paused => exact .inl rfl

/-- The end of a job depends on what its program has come to and printed. -/
theorem conclude_of_outcome? {progress : Machine.Progress} {reason : Interrupt}
    (come : progress.outcome? machine = some outcome) :
    (conclude title session reason (machine, progress)).2 =
      .ended (resultOf title session.writer outcome) := by
  simp only [conclude, Machine.conclude_eq, come, Session.writer_note]
  cases outcome <;> rfl

/-- In a turn, a program comes to something; or it pauses, and is stopped or goes on from there in
the next turn. -/
theorem turn_running_cases (blank : Session) (watch : Watch) (stopping : Bool) (title : String)
    (session : Session) (checks allowance : Nat) :
    let next := ((running title session checks allowance).turn blank watch stopping).2
    (∃ machine progress outcome,
      session.machine.loop session.compiler.program allowance = (machine, progress) ∧
        progress.outcome? machine = some outcome ∧
        next = .ended (resultOf title session.writer outcome)) ∨
    ∃ machine, session.machine.loop session.compiler.program allowance = (machine, .paused) ∧
      (if stopping ∨ checks = 0 then
        next = .ended (.error (.named title (.interrupted watch.reason)))
      else ∃ paused : Session, next = .running title paused (checks - 1) Watch.interval ∧
        paused.machine = machine ∧ paused.compiler = session.compiler ∧
        paused.writer = session.writer) := by
  rcases hloop : session.machine.loop session.compiler.program allowance with ⟨machine, progress⟩
  simp only [turn, Session.machine_note, hloop]
  generalize hnoted : session.note _ = noted
  have hcompiler : noted.compiler = session.compiler := hnoted ▸ session.compiler_note _
  have hwriter : noted.writer = session.writer := hnoted ▸ session.writer_note _
  rcases outcome?_cases progress machine with rfl | ⟨outcome, houtcome⟩
  · refine .inr ⟨machine, rfl, ?_⟩
    by_cases hstop : stopping = true ∨ checks = 0
    · simp only [if_pos hstop]
      rfl
    · simp only [if_neg hstop]
      exact ⟨_, rfl, rfl, hcompiler, hwriter⟩
  · refine .inl ⟨machine, progress, outcome, rfl, houtcome, ?_⟩
    have hconclude : (conclude title noted watch.reason (machine, progress)).2 =
        .ended (resultOf title session.writer outcome) := by
      rw [conclude_of_outcome? houtcome, hwriter]
    cases progress with
    | paused => cases houtcome
    | ended => exact hconclude
    | faulted cause => exact hconclude

/-- A source that is refused ends its job. -/
theorem turn_waiting_refused {failure : Failure}
    (refused : (blank.compile [source]).2 = some failure) :
    ((waiting source).turn blank watch stopping).2 =
      .ended (.error (.named source.title failure)) := by
  rw [turn, ← Prod.eta (blank.compile [source]), refused]

/-- One that is accepted is run from the start of its program. -/
theorem turn_waiting_accepted (accepted : (blank.compile [source]).2 = none) (watch : Watch)
    (stopping : Bool) :
    ∃ begun : Session, ((waiting source).turn blank watch stopping).2 =
        .running source.title begun watch.checks
          (Watch.canceled.allowance (blank.compile [source]).1.machine.steps) ∧
      begun.machine = (blank.compile [source]).1.machine.begin 0 ∧
      begun.compiler = (blank.compile [source]).1.compiler ∧
      begun.writer = (blank.compile [source]).1.writer := by
  rw [turn, ← Prod.eta (blank.compile [source]), accepted]
  exact ⟨_, rfl, rfl, rfl, rfl⟩

/-- A job after some turns in which nothing stops it. -/
def alone (blank : Session) (watch : Watch) : Nat → Job → Job
  | 0, job => job
  | count + 1, job => alone blank watch count (job.turn blank watch false).2

theorem alone_succ (count : Nat) (job : Job) :
    alone blank watch (count + 1) job =
      ((alone blank watch count job).turn blank watch false).2 := by
  induction count generalizing job with
  | zero => rfl
  | succ count ih => exact ih _

/-- A job that has ended stays as it is. -/
theorem alone_ended (count : Nat) (result : Except Failure Solo) :
    alone blank watch count (.ended result) = .ended result := by
  induction count with
  | zero => rfl
  | succ count ih => exact ih

/-- A program that has ended has come to something, if it had checks left. -/
theorem exists_outcome_of_alone {result : Except Failure Solo} {count : Nat}
    (ended : alone blank watch count (.running title session checks allowance) = .ended result)
    (left : count ≤ checks) :
    ∃ steps machine progress outcome,
      session.machine.loop session.compiler.program steps = (machine, progress) ∧
        progress.outcome? machine = some outcome ∧
        result = resultOf title session.writer outcome := by
  induction count generalizing session checks allowance with
  | zero => cases ended
  | succ count ih =>
      rw [alone] at ended
      rcases turn_running_cases blank watch false title session checks allowance with
        ⟨machine, progress, outcome, hloop, houtcome, hnext⟩ | ⟨machine, hloop, hnext⟩
      · rw [hnext, alone_ended] at ended
        cases ended
        exact ⟨allowance, machine, progress, outcome, hloop, houtcome, rfl⟩
      · have hgoes : ¬(false = true ∨ checks = 0) := by
          simp only [Bool.false_eq_true, false_or]
          omega
        rw [if_neg hgoes] at hnext
        obtain ⟨paused, hnext, rfl, hcompiler, hwriter⟩ := hnext
        rw [hnext] at ended
        obtain ⟨steps, last, progress, outcome, hsteps, houtcome, hresult⟩ := ih ended (by omega)
        rw [hcompiler] at hsteps
        rw [hwriter] at hresult
        refine ⟨allowance + steps, last, progress, outcome, ?_, houtcome, hresult⟩
        rw [Machine.loop_add, hloop]
        exact hsteps

/-- A program that comes to something ends, check by check. -/
theorem isEnded_alone {machine : Machine} {progress : Machine.Progress} {count : Nat}
    (come : session.machine.loop session.compiler.program (allowance + count * Watch.interval) =
      (machine, progress))
    (ended : progress.outcome? machine = some outcome) (left : count ≤ checks) :
    (alone blank watch (count + 1) (.running title session checks allowance)).isEnded := by
  induction count generalizing session checks allowance with
  | zero =>
      rw [Nat.zero_mul, Nat.add_zero] at come
      rcases turn_running_cases blank watch false title session checks allowance with
        ⟨_, _, _, _, _, hnext⟩ | ⟨paused, hloop, _⟩
      · rw [alone, hnext, alone_ended]
        rfl
      · rw [come] at hloop
        cases hloop
        cases ended
  | succ count ih =>
      rw [alone]
      rcases turn_running_cases blank watch false title session checks allowance with
        ⟨_, _, _, _, _, hnext⟩ | ⟨paused, hloop, hnext⟩
      · rw [hnext, alone_ended]
        rfl
      · have hgoes : ¬(false = true ∨ checks = 0) := by
          simp only [Bool.false_eq_true, false_or]
          omega
        rw [if_neg hgoes] at hnext
        obtain ⟨next, hnext, rfl, hcompiler, -⟩ := hnext
        rw [hnext]
        refine ih ?_ (by omega)
        rw [Machine.loop_add, hloop, Nat.succ_mul, Nat.add_comm] at come
        rw [hcompiler]
        exact come

/-! ### Jobs of sources -/

/-- A job that has ended has the result of its source. -/
theorem gives_of_alone {result : Except Failure Solo} {count : Nat}
    (ended : alone session.apart watch count (.waiting source) = .ended result)
    (left : count ≤ watch.checks) : session.apart.Gives source result := by
  cases count with
  | zero => cases ended
  | succ count =>
      rw [alone] at ended
      cases hcompile : (session.apart.compile [source]).2 with
      | some failure =>
          rw [turn_waiting_refused hcompile, alone_ended] at ended
          cases ended
          exact ⟨failure, rfl, Session.loadsTo_of_refused hcompile⟩
      | none =>
          obtain ⟨begun, hnext, hmachine, hcompiler, hwriter⟩ :=
            turn_waiting_accepted hcompile watch false
          rw [hnext] at ended
          obtain ⟨steps, final, progress, outcome, hsteps, houtcome, rfl⟩ :=
            exists_outcome_of_alone ended (by omega)
          rw [hmachine, hcompiler] at hsteps
          have hloads : session.apart.LoadsTo [source] (outcome.mapError .fault) :=
            (Session.loadsTo_apart_iff hcompile).mpr
              ⟨steps, final, progress, outcome, hsteps, houtcome, rfl⟩
          rw [hwriter, Session.writer_compile_apart hcompile]
          cases outcome with
          | ok value => exact ⟨hloads, rfl⟩
          | error fault => exact ⟨.fault fault, rfl, hloads⟩

/-- A job whose source comes to something ends. -/
theorem exists_turns {outcome : Except Failure Word}
    (loads : session.apart.LoadsTo [source] outcome) :
    ∃ count, ∀ watch : Watch, count ≤ watch.checks →
      (alone session.apart watch count (.waiting source)).isEnded := by
  cases hcompile : (session.apart.compile [source]).2 with
  | some failure =>
      refine ⟨1, fun watch _ ↦ ?_⟩
      rw [alone, turn_waiting_refused hcompile]
      rfl
  | none =>
      obtain ⟨steps, final, progress, result, hsteps, hprogress, -⟩ :=
        (Session.loadsTo_apart_iff hcompile).mp loads
      refine ⟨steps + 2, fun watch hwatch ↦ ?_⟩
      obtain ⟨begun, hnext, hmachine, hcompiler, -⟩ := turn_waiting_accepted hcompile watch false
      rw [alone, hnext]
      generalize Watch.canceled.allowance _ = allowance
      -- So many turns are enough, as a check comes after one step or more.
      have hcome : begun.machine.loop begun.compiler.program
          (allowance + steps * Watch.interval) = (final, progress) := by
        obtain ⟨more, hmore⟩ : ∃ more, allowance + steps * Watch.interval = steps + more := by
          refine Nat.exists_eq_add_of_le ?_
          rw [Watch.interval]
          omega
        rw [hmachine, hcompiler, hmore]
        exact Machine.loop_of_outcome? hsteps hprogress more
      exact isEnded_alone hcome hprogress (by omega)

end Job

end WordLisp

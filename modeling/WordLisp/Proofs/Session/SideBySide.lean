import Mathlib.Data.List.Induction
import WordLisp.Proofs.Session.Alone

/-!
# Programs side by side

Programs that run side by side share nothing but the failure that stops them. In whatever order they
take their turns, every job is where it would be alone after as many turns, or has ended once there
was a failure; and the failure on record is one that a job comes to alone. This is the invariant
`Batch.Tracks`.

So when all have ended, they are told of as if each source had been loaded alone
(`Session.AsAlone`). If each of them succeeds, their results are written in the order of the
sources; if one of them fails and no other does, its failure is reported, whatever the programs that
it stops would say.
-/

namespace WordLisp

/-! ## Orders of turns -/

/-- A turn that one of the programs takes. -/
structure Turn where
  index : Nat
  /-- Whether its check sees that there has been a failure. A failure is recorded first, and stops
  the other programs later; a check in between does not see it. -/
  notices : Bool
  deriving DecidableEq

namespace Batch

/-- The batch after a turn. -/
def take (blank : Session) (watch : Watch) (batch : Batch) (turn : Turn) : Batch :=
  batch.advance blank watch (turn.notices && batch.failure?.isSome) turn.index

/-- The batch after turns in this order. -/
def follow (blank : Session) (watch : Watch) (batch : Batch) (turns : List Turn) : Batch :=
  turns.foldl (take blank watch) batch

end Batch

/-- How many of the turns are those of the program with this index. -/
def turnsOf (index : Nat) (turns : List Turn) : Nat :=
  (turns.map Turn.index).count index

/-- No program reaches a check at which this watch would end it. -/
def Watch.Outlasts (watch : Watch) (turns : List Turn) : Prop :=
  ∀ index, turnsOf index turns ≤ watch.checks

/-! ## What is written -/

/-- The writer after these writes. -/
def Writer.writeEach (writer : Writer) (pieces : List ByteArray) : Writer :=
  pieces.foldl (fun writer bytes ↦ (writer.write bytes).1) writer

/-- A writer that takes every write, now and later. -/
def Writer.Accepts (writer : Writer) : Prop :=
  ∀ pieces bytes, ((writer.writeEach pieces).write bytes).2 = ⟨bytes.size, none⟩

/-- The writes of a result: what was printed, if anything, and the line with the value. -/
def Solo.pieces (solo : Solo) : List ByteArray :=
  (if solo.printed.isEmpty then [] else [solo.printed]) ++
    [(solo.title ++ ": " ++ Word.render solo.value ++ "\n").toUTF8]

namespace Writer

variable {writer : Writer}

theorem writeEach_append (writer : Writer) (pieces others : List ByteArray) :
    writer.writeEach (pieces ++ others) = (writer.writeEach pieces).writeEach others :=
  List.foldl_append

theorem Accepts.writeEach (accepts : writer.Accepts) (pieces : List ByteArray) :
    (writer.writeEach pieces).Accepts := by
  intro others bytes
  rw [← writeEach_append]
  exact accepts (pieces ++ others) bytes

/-- Results are written whole, in order. -/
theorem Accepts.writeSolos_eq (accepts : writer.Accepts) (solos : List Solo) :
    writer.writeSolos solos = (writer.writeEach (solos.flatMap Solo.pieces), none) := by
  induction solos generalizing writer with
  | nil => rfl
  | cons solo rest ih =>
      rw [List.flatMap_cons, Solo.pieces, List.append_assoc]
      generalize hpieces : (if solo.printed.isEmpty then [] else [solo.printed]) = pieces
      have hprinted : writer.writePrinted solo.printed = (writer.writeEach pieces, none) := by
        rw [← hpieces, writePrinted]
        by_cases hempty : solo.printed.isEmpty
        · rw [if_pos hempty, if_pos hempty]
          rfl
        · rw [if_neg hempty, if_neg hempty]
          have hwrite : (writer.write solo.printed).2 = ⟨solo.printed.size, none⟩ :=
            accepts [] solo.printed
          simp only [hwrite, ne_eq, not_true, if_false]
          rfl
      have haccepts := accepts.writeEach pieces
      rw [writeSolos]
      simp only [hprinted]
      generalize String.toUTF8 _ = line
      have hline : ((writer.writeEach pieces).write line).2 = ⟨line.size, none⟩ :=
        haccepts [] line
      rw [← Prod.eta ((writer.writeEach pieces).write line), hline, writeEach_append,
        writeEach_append]
      exact ih (haccepts.writeEach [line])

end Writer

/-! ## One turn -/

namespace Job

variable {blank : Session} {watch : Watch} {stopping : Bool}

/-- How many turns a job that is stopped has left at most. -/
def stage : Job → Nat
  | .waiting _ => 2
  | .running .. => 1
  | .ended _ => 0

theorem isEnded_iff_stage (job : Job) : job.isEnded ↔ job.stage = 0 := by
  cases job <;> simp [isEnded, stage]

theorem stage_le_two (job : Job) : job.stage ≤ 2 := by
  cases job <;> simp [stage]

/-- A job never falls back, and one that is stopped goes on to its end. -/
theorem stage_turn_le (job : Job) :
    (job.turn blank watch stopping).2.stage ≤ job.stage - stopping.toNat := by
  cases job with
  | waiting source =>
      have hnext : ((waiting source).turn blank watch stopping).2.stage ≤ 1 := by
        cases hcompile : (blank.compile [source]).2 with
        | some failure =>
            rw [turn_waiting_refused hcompile]
            exact Nat.zero_le 1
        | none =>
            obtain ⟨begun, hbegun, -⟩ := turn_waiting_accepted hcompile watch stopping
            rw [hbegun]
            exact Nat.le_refl 1
      have hstopping := stopping.toNat_le
      show _ ≤ 2 - stopping.toNat
      omega
  | running title session checks allowance =>
      rcases turn_running_cases blank watch stopping title session checks allowance with
        ⟨_, _, _, _, _, hnext⟩ | ⟨machine, _, hnext⟩
      · rw [hnext]
        exact Nat.zero_le _
      · split at hnext
        · rw [hnext]
          exact Nat.zero_le _
        · next hgoes =>
            obtain ⟨paused, hnext, -⟩ := hnext
            obtain rfl : stopping = false := by simpa using fun h ↦ hgoes (.inl h)
            rw [hnext]
            exact Nat.le_refl 1
  | ended result => exact Nat.zero_le _

/-- To be stopped makes no difference to a job, or ends it. -/
theorem turn_stopping (job : Job) :
    (job.turn blank watch true).2 = (job.turn blank watch false).2 ∨
      (job.turn blank watch true).2.isEnded := by
  cases job with
  | waiting source => exact .inl rfl
  | running title session checks allowance =>
      refine .inr ((isEnded_iff_stage _).mpr (Nat.le_zero.mp ?_))
      exact stage_turn_le (running title session checks allowance)
  | ended result => exact .inl rfl

/-- A job that has ended has no more to do. -/
theorem turn_of_isEnded {job : Job} (ended : job.isEnded) :
    (job.turn blank watch stopping).2 = job := by
  cases job with
  | ended result => rfl
  | waiting source => cases ended
  | running title session checks allowance => cases ended

/-- A job that has failed has ended with that failure. -/
theorem eq_ended_of_failure? {job : Job} {failure : Failure}
    (failed : job.failure? = some failure) : job = .ended (.error failure) := by
  cases job with
  | waiting source => cases failed
  | running title session checks allowance => cases failed
  | ended result =>
      cases result with
      | ok solo => cases failed
      | error other =>
          cases failed
          rfl

/-- A job that is where it would be alone, or has ended after a failure, is so after a turn in which
it is only stopped after a failure. -/
theorem turn_of_alone {failed : Prop} {count : Nat} {start job : Job}
    (there : job = alone blank watch count start ∨ failed ∧ job.isEnded)
    (stops : stopping = true → failed) :
    (job.turn blank watch stopping).2 = alone blank watch (count + 1) start ∨
      failed ∧ (job.turn blank watch stopping).2.isEnded := by
  rcases there with rfl | ⟨hfailed, hended⟩
  · rw [alone_succ]
    cases stopping with
    | false => exact .inl rfl
    | true => exact (turn_stopping _).imp_right fun hended ↦ ⟨stops rfl, hended⟩
  · rw [turn_of_isEnded hended]
    exact .inr ⟨hfailed, hended⟩

end Job

section TurnsOf

variable {index : Nat} {turn : Turn}

theorem turnsOf_append (index : Nat) (turns others : List Turn) :
    turnsOf index (turns ++ others) = turnsOf index turns + turnsOf index others := by
  rw [turnsOf, List.map_append, List.count_append]
  rfl

theorem turnsOf_snoc_self (turns : List Turn) (turn : Turn) :
    turnsOf turn.index (turns ++ [turn]) = turnsOf turn.index turns + 1 := by
  simp [turnsOf]

theorem turnsOf_snoc_of_ne (turns : List Turn) (other : index ≠ turn.index) :
    turnsOf index (turns ++ [turn]) = turnsOf index turns := by
  simp [turnsOf, other.symm]

theorem count_le_turnsOf (turn : Turn) (turns : List Turn) :
    turns.count turn ≤ turnsOf turn.index turns :=
  List.count_le_count_map

end TurnsOf

namespace Batch

variable {blank session : Session} {watch : Watch} {sources : List Source} {turns : List Turn}
  {batch : Batch} {index : Nat} {failure : Failure}

/-! ### The batch after a turn -/

/-- A turn changes only the job that takes it. -/
theorem jobs_take (batch : Batch) (turn : Turn) (index : Nat) :
    (batch.take blank watch turn).jobs[index]? =
      if index = turn.index then
        batch.jobs[index]?.map fun job ↦
          (job.turn blank watch (turn.notices && batch.failure?.isSome)).2
      else batch.jobs[index]? := by
  rw [take, advance]
  split
  · next hnone =>
      split
      · next hindex =>
          rw [hindex, hnone]
          rfl
      · rfl
  · next job hsome =>
      have hlt := (List.getElem?_eq_some_iff.mp hsome).1
      dsimp only
      split
      · next hindex => rw [hindex, hsome, List.getElem?_set_self hlt, Option.map_some]
      · next hindex => rw [List.getElem?_set_ne (Ne.symm hindex)]

theorem length_jobs_take (batch : Batch) (turn : Turn) :
    (batch.take blank watch turn).jobs.length = batch.jobs.length := by
  rw [take, advance]
  split
  · rfl
  · exact List.length_set

/-- The first failure stays on record; the failure of the job is recorded if there is none. -/
theorem failure?_take (batch : Batch) (turn : Turn) :
    (batch.take blank watch turn).failure? =
      (batch.failure? <|>
        (batch.take blank watch turn).jobs[turn.index]?.bind Job.failure?) := by
  rw [jobs_take, if_pos rfl, take, advance]
  split
  · next hnone =>
      rw [hnone]
      cases batch.failure? <;> rfl
  · next job hsome =>
      rw [hsome]
      rfl

theorem isSome_failure?_take (failed : batch.failure?.isSome) (turn : Turn) :
    (batch.take blank watch turn).failure?.isSome := by
  obtain ⟨failure, hfailure⟩ := Option.isSome_iff_exists.mp failed
  rw [failure?_take, hfailure]
  rfl

/-! ### The invariant -/

/-- Some source comes to this failure alone, after no more turns than it has had. -/
def FailsAlone (session : Session) (watch : Watch) (sources : List Source) (turns : List Turn)
    (failure : Failure) : Prop :=
  ∃ index source count, sources[index]? = some source ∧ count ≤ turnsOf index turns ∧
    Job.alone session.apart watch count (.waiting source) = .ended (.error failure)

/-- After these turns, every job is where it would be alone, or has ended once there was a failure;
and the failure on record, which there is if any job has failed, is what a job comes to alone. -/
structure Tracks (session : Session) (watch : Watch) (sources : List Source) (turns : List Turn)
    (batch : Batch) : Prop where
  length_eq : batch.jobs.length = sources.length
  exists_job : ∀ index source, sources[index]? = some source →
    ∃ job, batch.jobs[index]? = some job ∧
      (job = Job.alone session.apart watch (turnsOf index turns) (.waiting source) ∨
        batch.failure?.isSome ∧ job.isEnded)
  recorded : ∀ (index : Nat) (job : Job), batch.jobs[index]? = some job → job.failure?.isSome →
    batch.failure?.isSome
  failsAlone : ∀ failure, batch.failure? = some failure →
    FailsAlone session watch sources turns failure

/-- No turns have been taken. -/
theorem tracks_ofSources : Tracks session watch sources [] (ofSources sources) where
  length_eq := List.length_map _
  exists_job index source found := by
    refine ⟨.waiting source, ?_, .inl rfl⟩
    rw [ofSources, List.getElem?_map, found]
    rfl
  recorded index job found failed := by
    rw [ofSources, List.getElem?_map] at found
    obtain ⟨source, -, rfl⟩ := Option.map_eq_some_iff.mp found
    cases failed
  failsAlone _ recorded := by cases recorded

/-- The job that takes a turn. -/
theorem Tracks.turn (tracks : Tracks session watch sources turns batch) {turn : Turn}
    {source : Source} (found : sources[turn.index]? = some source) :
    ∃ next, (batch.take session.apart watch turn).jobs[turn.index]? = some next ∧
      (next = Job.alone session.apart watch (turnsOf turn.index turns + 1) (.waiting source) ∨
        batch.failure?.isSome ∧ next.isEnded) := by
  obtain ⟨job, hjob, hthere⟩ := tracks.exists_job turn.index source found
  refine ⟨_, by rw [jobs_take, if_pos rfl, hjob]; rfl, ?_⟩
  exact Job.turn_of_alone hthere fun hstopping ↦ (Bool.and_eq_true_iff.mp hstopping).2

/-- One turn. -/
theorem Tracks.take (tracks : Tracks session watch sources turns batch) (turn : Turn) :
    Tracks session watch sources (turns ++ [turn]) (batch.take session.apart watch turn) where
  length_eq := (batch.length_jobs_take turn).trans tracks.length_eq
  exists_job index source found := by
    by_cases hindex : index = turn.index
    · subst hindex
      obtain ⟨next, hnext, hthere⟩ := tracks.turn found
      rw [turnsOf_snoc_self]
      exact ⟨next, hnext, hthere.imp_right fun h ↦ ⟨isSome_failure?_take h.1 turn, h.2⟩⟩
    · obtain ⟨job, hjob, hthere⟩ := tracks.exists_job index source found
      rw [turnsOf_snoc_of_ne turns hindex]
      refine ⟨job, ?_, hthere.imp_right fun h ↦ ⟨isSome_failure?_take h.1 turn, h.2⟩⟩
      rw [jobs_take, if_neg hindex, hjob]
  recorded index job found failed := by
    by_cases hindex : index = turn.index
    · subst hindex
      rw [failure?_take, found]
      cases batch.failure? with
      | none => exact failed
      | some failure => rfl
    · rw [jobs_take, if_neg hindex] at found
      exact isSome_failure?_take (tracks.recorded index job found failed) turn
  failsAlone failure recorded := by
    cases hbefore : batch.failure? with
    | some first =>
        rw [failure?_take, hbefore] at recorded
        cases recorded
        obtain ⟨index, source, count, hsource, hcount, halone⟩ := tracks.failsAlone _ hbefore
        refine ⟨index, source, count, hsource, ?_, halone⟩
        rw [turnsOf_append]
        exact Nat.le_add_right_of_le hcount
    | none =>
        -- The job has not been stopped, so this is its own failure.
        rw [failure?_take, hbefore] at recorded
        obtain ⟨next, hnext, hfailed⟩ := Option.bind_eq_some_iff.mp recorded
        have hlt : turn.index < sources.length := by
          rw [← tracks.length_eq, ← batch.length_jobs_take turn]
          exact (List.getElem?_eq_some_iff.mp hnext).1
        obtain ⟨source, hsource⟩ : ∃ source, sources[turn.index]? = some source :=
          ⟨_, List.getElem?_eq_getElem hlt⟩
        obtain ⟨other, hother, hthere⟩ := tracks.turn hsource
        rw [hnext] at hother
        cases hother
        rcases hthere with rfl | ⟨hsome, -⟩
        · exact ⟨turn.index, source, _, hsource, Nat.le_of_eq (turnsOf_snoc_self turns turn).symm,
            Job.eq_ended_of_failure? hfailed⟩
        · rw [hbefore] at hsome
          cases hsome

/-- All turns. -/
theorem tracks_follow (session : Session) (watch : Watch) (sources : List Source)
    (turns : List Turn) :
    Tracks session watch sources turns ((ofSources sources).follow session.apart watch turns) := by
  induction turns using List.reverseRecOn with
  | nil => exact tracks_ofSources
  | append_singleton turns turn ih =>
      rw [follow, List.foldl_append]
      exact ih.take turn

/-! ### The end of a batch -/

/-- The failure on record is that of a source alone. -/
theorem Tracks.gives_error (tracks : Tracks session watch sources turns batch)
    (outlasts : watch.Outlasts turns) (recorded : batch.failure? = some failure) :
    ∃ source ∈ sources, session.apart.Gives source (.error failure) := by
  obtain ⟨index, source, count, hsource, hcount, halone⟩ := tracks.failsAlone failure recorded
  exact ⟨source, List.mem_of_getElem? hsource,
    Job.gives_of_alone halone (Nat.le_trans hcount (outlasts index))⟩

/-- Without a failure, a job that has ended has the result of its source alone. -/
theorem Tracks.gives_ok (tracks : Tracks session watch sources turns batch)
    (outlasts : watch.Outlasts turns) (ended : batch.isEnded) (succeeded : batch.failure? = none)
    {source : Source} (found : sources[index]? = some source) :
    ∃ solo, batch.jobs[index]? = some (.ended (.ok solo)) ∧
      session.apart.Gives source (.ok solo) := by
  obtain ⟨job, hjob, hthere⟩ := tracks.exists_job index source found
  have hnone : ¬batch.failure?.isSome := by simp [succeeded]
  have halone := hthere.resolve_right fun h ↦ hnone h.1
  have hended := List.all_eq_true.mp ended job (List.mem_of_getElem? hjob)
  cases job with
  | waiting source => cases hended
  | running title session checks allowance => cases hended
  | ended result =>
      have hgives := Job.gives_of_alone halone.symm (outlasts index)
      cases result with
      | ok solo => exact ⟨solo, hjob, hgives⟩
      | error failure => exact absurd (tracks.recorded index _ hjob rfl) hnone

end Batch

namespace Session

/-- Sources that run on their own are told of as if each had been loaded alone. -/
structure AsAlone (session : Session) (sources : List Source)
    (told : Session × Option Failure) : Prop where
  /-- If each of them succeeds, the listings and values are written in the order of the sources. -/
  succeeds : ∀ values : Source → Word,
    (∀ source ∈ sources, session.apart.LoadsTo [source] (.ok (values source))) →
    told.2 = none ∧ told.1.writer = session.writer.writeEach
      (sources.flatMap fun source ↦ (session.apart.soloOf source (values source)).pieces)
  /-- If exactly one of them fails, its failure is reported under its name, and nothing is
  written. -/
  fails : ∀ before source after cause, sources = before ++ source :: after →
    session.apart.LoadsTo [source] (.error cause) →
    (∀ other ∈ before ++ after, ∀ cause, ¬session.apart.LoadsTo [other] (.error cause)) →
    told.2 = some (.named source.title cause) ∧
      told.2.map Failure.message = some (source.title ++ ": " ++ cause.message) ∧
      told.1.writer = session.writer

end Session

namespace Batch

variable {session : Session} {watch : Watch} {sources : List Source} {turns : List Turn}
  {batch : Batch}

/-- The results of jobs that have all succeeded. -/
theorem Tracks.solos_eq (tracks : Tracks session watch sources turns batch)
    (outlasts : watch.Outlasts turns) (ended : batch.isEnded) (succeeded : batch.failure? = none)
    {values : Source → Word}
    (loads : ∀ source ∈ sources, session.apart.LoadsTo [source] (.ok (values source))) :
    batch.solos = sources.map fun source ↦ session.apart.soloOf source (values source) := by
  have hjobs : batch.jobs =
      sources.map fun source ↦ .ended (.ok (session.apart.soloOf source (values source))) := by
    refine List.ext_getElem? fun index ↦ ?_
    rw [List.getElem?_map]
    cases hsource : sources[index]? with
    | none =>
        rw [List.getElem?_eq_none_iff] at hsource
        rw [Option.map_none, List.getElem?_eq_none_iff, tracks.length_eq]
        exact hsource
    | some source =>
        obtain ⟨solo, hjob, hloads, hsolo⟩ := tracks.gives_ok outlasts ended succeeded hsource
        have hvalue := hloads.unique (loads source (List.mem_of_getElem? hsource))
        rw [hjob, hsolo, Except.ok.inj hvalue]
        rfl
  rw [solos, hjobs, List.filterMap_map]
  exact congrFun List.filterMap_eq_map sources

/-- When all have ended, they are told of as if each had been loaded alone. -/
theorem Tracks.asAlone (tracks : Tracks session watch sources turns batch)
    (outlasts : watch.Outlasts turns) (ended : batch.isEnded)
    (accepts : session.writer.Accepts) : session.AsAlone sources (session.report batch) where
  succeeds values loads := by
    cases hfailure : batch.failure? with
    | some failure =>
        obtain ⟨source, hmem, cause, -, herror⟩ := tracks.gives_error outlasts hfailure
        cases herror.unique (loads source hmem)
    | none =>
        have hsolos := tracks.solos_eq outlasts ended hfailure loads
        rw [Session.report, hfailure]
        dsimp only
        rw [hsolos, accepts.writeSolos_eq, List.flatMap_map]
        exact ⟨rfl, rfl⟩
  fails before source after cause split loads others := by
    subst split
    have hreport : batch.failure? = some (.named source.title cause) := by
      cases hfailure : batch.failure? with
      | some failure =>
          obtain ⟨other, hmem, cause', rfl, herror⟩ := tracks.gives_error outlasts hfailure
          rcases List.mem_append.mp hmem with hbefore | hrest
          · exact absurd herror (others other (List.mem_append_left _ hbefore) cause')
          · rcases List.mem_cons.mp hrest with rfl | hafter
            · cases herror.unique loads
              rfl
            · exact absurd herror (others other (List.mem_append_right _ hafter) cause')
      | none =>
          have hsource : (before ++ source :: after)[before.length]? = some source := by simp
          obtain ⟨solo, -, hloads, -⟩ := tracks.gives_ok outlasts ended hfailure hsource
          cases hloads.unique loads
    rw [Session.report, hreport]
    exact ⟨rfl, rfl, rfl⟩

end Batch

end WordLisp

import WordLisp.Proofs.Node.Unterminated
import WordLisp.Proofs.Session.SideBySide

/-!
# Programs side by side in any order

If each of the sources succeeds alone, or one of them fails, then all jobs end in every order in
which each of them has turns again and again (`Batch.exists_ended`): all come to their own ends, or
a failure stops those that do not. What is told of them then does not depend on the order. To take
the turns round after round is one such order, and so `Session.runEach` tells the same
(`Session.runEach_any_order`).
-/

namespace WordLisp

open Text (Rune)

/-- Each of so many programs has turns again and again, and sees a failure if there is one. -/
def Fair (count : Nat) (order : Nat → Turn) : Prop :=
  ∀ index < count, ∀ past, ∃ position, past ≤ position ∧ order position = ⟨index, true⟩

/-- The first turns of an order. -/
def firstTurns (order : Nat → Turn) (count : Nat) : List Turn :=
  (List.range count).map order

/-- The sources come to something: each of them succeeds alone, or one of them fails. -/
def Session.Comes (session : Session) (sources : List Source) : Prop :=
  (∀ source ∈ sources, ∃ value, session.LoadsTo [source] (.ok value)) ∨
    ∃ source ∈ sources, ∃ cause, session.LoadsTo [source] (.error cause)

/-! ## Enough turns -/

/-- A job that has ended alone has ended after more turns. -/
theorem Job.isEnded_alone_of_le {blank : Session} {watch : Watch} {job : Job} {count more : Nat}
    (ended : (alone blank watch count job).isEnded) (le : count ≤ more) :
    (alone blank watch more job).isEnded := by
  induction le with
  | refl => exact ended
  | step _ ih => rwa [alone_succ, turn_of_isEnded ih]

/-- There is a number of turns in which all jobs end alone. -/
theorem Session.exists_turns {session : Session} {sources : List Source}
    (loads : ∀ source ∈ sources, ∃ outcome, session.apart.LoadsTo [source] outcome) :
    ∃ count, ∀ source ∈ sources, ∀ watch : Watch, count ≤ watch.checks →
      (Job.alone session.apart watch count (.waiting source)).isEnded := by
  induction sources with
  | nil => exact ⟨0, nofun⟩
  | cons source rest ih =>
      obtain ⟨⟨outcome, hloads⟩, hothers⟩ := List.forall_mem_cons.mp loads
      obtain ⟨own, hown⟩ := Job.exists_turns hloads
      obtain ⟨count, hcount⟩ := ih hothers
      refine ⟨max own count, List.forall_mem_cons.mpr
        ⟨fun watch le ↦ ?_, fun other hmem watch le ↦ ?_⟩⟩
      · exact Job.isEnded_alone_of_le (hown watch (by omega)) (Nat.le_max_left _ _)
      · exact Job.isEnded_alone_of_le (hcount other hmem watch (by omega)) (Nat.le_max_right _ _)

namespace Batch

variable {blank session : Session} {watch : Watch} {sources : List Source} {turns : List Turn}
  {batch : Batch} {index count : Nat} {source : Source}

theorem follow_append (batch : Batch) (turns others : List Turn) :
    batch.follow blank watch (turns ++ others) =
      (batch.follow blank watch turns).follow blank watch others :=
  List.foldl_append

/-- A job does not fall back in a turn, and goes on if it sees a failure. -/
theorem exists_stage_take {job : Job} (found : batch.jobs[index]? = some job) (turn : Turn) :
    ∃ next, (batch.take blank watch turn).jobs[index]? = some next ∧ next.stage ≤ job.stage ∧
      (batch.failure?.isSome → turn = ⟨index, true⟩ → next.stage ≤ job.stage - 1) := by
  rw [jobs_take, found]
  by_cases hindex : index = turn.index
  · rw [if_pos hindex]
    refine ⟨_, rfl, Nat.le_trans job.stage_turn_le (Nat.sub_le _ _), fun hfailed hturn ↦ ?_⟩
    rw [hturn, hfailed]
    exact job.stage_turn_le
  · rw [if_neg hindex]
    refine ⟨job, rfl, Nat.le_refl _, fun _ hturn ↦ absurd ?_ hindex⟩
    rw [hturn]

/-- Nor in several turns; and it goes on in each in which it sees a failure. -/
theorem exists_stage_follow {job : Job} (found : batch.jobs[index]? = some job)
    (turns : List Turn) :
    ∃ later, (batch.follow blank watch turns).jobs[index]? = some later ∧
      later.stage ≤ job.stage ∧
      (batch.failure?.isSome → later.stage ≤ job.stage - turns.count ⟨index, true⟩) := by
  induction turns generalizing batch job with
  | nil => exact ⟨job, found, Nat.le_refl _, fun _ ↦ Nat.le_refl _⟩
  | cons turn rest ih =>
      obtain ⟨next, hnext, hle, hgoes⟩ := exists_stage_take found turn
      obtain ⟨later, hlater, hlast, hlasts⟩ := ih hnext
      refine ⟨later, hlater, Nat.le_trans hlast hle, fun hfailed ↦ ?_⟩
      have hrest := hlasts (isSome_failure?_take hfailed turn)
      by_cases hturn : turn = ⟨index, true⟩
      · have hstep := hgoes hfailed hturn
        rw [hturn, List.count_cons_self]
        omega
      · rw [List.count_cons_of_ne hturn]
        omega

/-- All jobs have ended if each source has a job that has. -/
theorem Tracks.isEnded (tracks : Tracks session watch sources turns batch)
    (ended : ∀ index < sources.length, ∃ job, batch.jobs[index]? = some job ∧ job.stage = 0) :
    batch.isEnded := by
  refine List.all_eq_true.mpr fun job hmem ↦ ?_
  obtain ⟨index, hjob⟩ := List.mem_iff_getElem?.mp hmem
  have hlt : index < sources.length := by
    rw [← tracks.length_eq]
    exact (List.getElem?_eq_some_iff.mp hjob).1
  obtain ⟨other, hother, hstage⟩ := ended index hlt
  rw [hjob] at hother
  cases hother
  exact job.isEnded_iff_stage.mpr hstage

/-- A job has ended after the turns in which it ends alone. -/
theorem Tracks.exists_ended (tracks : Tracks session watch sources turns batch)
    (found : sources[index]? = some source) (enough : count ≤ turnsOf index turns)
    (ended : (Job.alone session.apart watch count (.waiting source)).isEnded) :
    ∃ job, batch.jobs[index]? = some job ∧ job.stage = 0 := by
  obtain ⟨job, hjob, hthere⟩ := tracks.exists_job index source found
  refine ⟨job, hjob, job.isEnded_iff_stage.mp ?_⟩
  rcases hthere with rfl | ⟨-, hended⟩
  · exact Job.isEnded_alone_of_le ended enough
  · exact hended

/-- There is a failure on record after the turns in which a source fails alone. -/
theorem Tracks.isSome_failure? (tracks : Tracks session watch sources turns batch)
    (outlasts : watch.Outlasts turns) {cause : Failure}
    (fails : session.apart.LoadsTo [source] (.error cause))
    (found : sources[index]? = some source) (enough : count ≤ turnsOf index turns)
    (ended : (Job.alone session.apart watch count (.waiting source)).isEnded) :
    batch.failure?.isSome := by
  obtain ⟨job, hjob, rfl | ⟨hsome, -⟩⟩ := tracks.exists_job index source found
  · have hended := Job.isEnded_alone_of_le ended enough
    cases hresult : Job.alone session.apart watch (turnsOf index turns) (.waiting source) with
    | waiting source =>
        rw [hresult] at hended
        cases hended
    | running title session checks allowance =>
        rw [hresult] at hended
        cases hended
    | ended result =>
        have hgives := Job.gives_of_alone hresult (outlasts index)
        rw [hresult] at hjob
        cases result with
        | ok solo => cases hgives.1.unique fails
        | error failure => exact tracks.recorded index _ hjob rfl
  · exact hsome

/-- There is a number of turns after which each job has ended, or there has been a failure. -/
theorem exists_enough (comes : session.apart.Comes sources) :
    ∃ enough, ∀ (watch : Watch) (turns : List Turn), watch.Outlasts turns →
      (∀ index < sources.length, enough ≤ turnsOf index turns) →
      let batch := (ofSources sources).follow session.apart watch turns
      (∀ index < sources.length, ∃ job, batch.jobs[index]? = some job ∧ job.stage = 0) ∨
        batch.failure?.isSome := by
  rcases comes with hsucceed | ⟨source, hmem, cause, hfails⟩
  · obtain ⟨enough, hends⟩ := Session.exists_turns fun source hmem ↦
      let ⟨value, hloads⟩ := hsucceed source hmem
      ⟨.ok value, hloads⟩
    refine ⟨enough, fun watch turns outlasts hturns ↦ .inl fun index hlt ↦ ?_⟩
    have henough := hturns index hlt
    refine (tracks_follow session watch sources turns).exists_ended
      (List.getElem?_eq_getElem hlt) henough ?_
    exact hends _ (List.getElem_mem hlt) watch (Nat.le_trans henough (outlasts index))
  · obtain ⟨enough, hends⟩ := Job.exists_turns hfails
    obtain ⟨index, hsource⟩ := List.mem_iff_getElem?.mp hmem
    refine ⟨enough, fun watch turns outlasts hturns ↦ .inr ?_⟩
    have henough := hturns index (List.getElem?_eq_some_iff.mp hsource).1
    exact (tracks_follow session watch sources turns).isSome_failure? outlasts hfails hsource
      henough (hends watch (Nat.le_trans henough (outlasts index)))

/-- There is a number of turns such that all jobs have ended once each has had so many, and then two
in which it sees a failure. -/
theorem exists_ending (comes : session.apart.Comes sources) :
    ∃ enough, ∀ (watch : Watch) (first second : List Turn), watch.Outlasts (first ++ second) →
      (∀ index < sources.length, enough ≤ turnsOf index first) →
      (∀ index < sources.length, 2 ≤ second.count ⟨index, true⟩) →
      ((ofSources sources).follow session.apart watch (first ++ second)).isEnded := by
  obtain ⟨enough, hfirst⟩ := exists_enough comes
  refine ⟨enough, fun watch first second outlasts hturns hnotices ↦ ?_⟩
  refine (tracks_follow session watch sources (first ++ second)).isEnded fun index hlt ↦ ?_
  have houtlasts : watch.Outlasts first := by
    intro index
    have hboth := outlasts index
    rw [turnsOf_append] at hboth
    omega
  rw [follow_append]
  rcases hfirst watch first houtlasts hturns with hended | hfailed
  · obtain ⟨job, hjob, hstage⟩ := hended index hlt
    obtain ⟨later, hlater, hle, -⟩ := exists_stage_follow hjob second
    exact ⟨later, hlater, by omega⟩
  · obtain ⟨job, hjob, -⟩ := (tracks_follow session watch sources first).exists_job index _
      (List.getElem?_eq_getElem hlt)
    obtain ⟨later, hlater, -, hle⟩ := exists_stage_follow hjob second
    have hlast := hle hfailed
    have hseen := hnotices index hlt
    have htwo := job.stage_le_two
    exact ⟨later, hlater, by omega⟩

end Batch

/-! ## Fair orders -/

section Fair

variable {order : Nat → Turn} {count : Nat}

theorem mem_firstTurns {turn : Turn} :
    turn ∈ firstTurns order count ↔ ∃ position < count, order position = turn := by
  simp [firstTurns]

theorem firstTurns_add (order : Nat → Turn) (past more : Nat) :
    firstTurns order (past + more) =
      firstTurns order past ++ firstTurns (fun position ↦ order (past + position)) more := by
  rw [firstTurns, List.range_add, List.map_append, List.map_map]
  rfl

/-- A fair order is fair from any position on. -/
theorem Fair.shift (fair : Fair count order) (past : Nat) :
    Fair count fun position ↦ order (past + position) := by
  intro index hlt before
  obtain ⟨position, hle, hturn⟩ := fair index hlt (past + before)
  refine ⟨position - past, by omega, Eq.trans (congrArg order ?_) hturn⟩
  omega

/-- At some time each program has had a turn. -/
theorem Fair.exists_forall_mem (fair : Fair count order) :
    ∃ enough, ∀ index < count, ⟨index, true⟩ ∈ firstTurns order enough := by
  induction count with
  | zero => exact ⟨0, nofun⟩
  | succ count ih =>
      obtain ⟨enough, henough⟩ := ih fun index hlt ↦ fair index (Nat.lt_succ_of_lt hlt)
      obtain ⟨position, -, hturn⟩ := fair count (Nat.lt_succ_self count) 0
      refine ⟨max enough (position + 1), fun index hlt ↦ mem_firstTurns.mpr ?_⟩
      rcases Nat.lt_succ_iff_lt_or_eq.mp hlt with hless | rfl
      · obtain ⟨other, hother, hindex⟩ := mem_firstTurns.mp (henough index hless)
        exact ⟨other, by omega, hindex⟩
      · exact ⟨position, by omega, hturn⟩

/-- At some time each program has had as many turns as is wanted. -/
theorem Fair.exists_forall_le_count (fair : Fair count order) (wanted : Nat) :
    ∃ enough, ∀ index < count, wanted ≤ (firstTurns order enough).count ⟨index, true⟩ := by
  induction wanted with
  | zero => exact ⟨0, fun _ _ ↦ Nat.zero_le _⟩
  | succ wanted ih =>
      obtain ⟨enough, henough⟩ := ih
      obtain ⟨more, hmore⟩ := (fair.shift enough).exists_forall_mem
      refine ⟨enough + more, fun index hlt ↦ ?_⟩
      rw [firstTurns_add, List.count_append]
      exact Nat.add_le_add (henough index hlt) (List.one_le_count_iff.mpr (hmore index hlt))

end Fair

/-- All jobs end in a fair order. -/
theorem Batch.exists_ended {session : Session} {sources : List Source} {order : Nat → Turn}
    (comes : session.apart.Comes sources) (fair : Fair sources.length order) :
    ∃ count, ∀ watch : Watch, watch.Outlasts (firstTurns order count) →
      ((ofSources sources).follow session.apart watch (firstTurns order count)).isEnded := by
  obtain ⟨enough, hending⟩ := exists_ending comes
  obtain ⟨past, hpast⟩ := fair.exists_forall_le_count enough
  obtain ⟨more, hmore⟩ := (fair.shift past).exists_forall_le_count 2
  refine ⟨past + more, fun watch outlasts ↦ ?_⟩
  rw [firstTurns_add] at outlasts ⊢
  refine hending watch _ _ outlasts (fun index hlt ↦ ?_) hmore
  exact Nat.le_trans (hpast index hlt) (count_le_turnsOf ⟨index, true⟩ _)

/-! ## Round after round -/

/-- So many rounds, in each of which every job has a turn. -/
def roundTurns (jobs : Nat) : Nat → List Turn
  | 0 => []
  | count + 1 => (List.range jobs).map (⟨·, true⟩) ++ roundTurns jobs count

theorem roundTurns_add (jobs count more : Nat) :
    roundTurns jobs (count + more) = roundTurns jobs count ++ roundTurns jobs more := by
  induction count with
  | zero => rw [Nat.zero_add, roundTurns, List.nil_append]
  | succ count ih => rw [Nat.succ_add, roundTurns, roundTurns, ih, List.append_assoc]

/-- No job has more turns than there are rounds. -/
theorem turnsOf_roundTurns_le (index jobs count : Nat) :
    turnsOf index (roundTurns jobs count) ≤ count := by
  induction count with
  | zero => exact Nat.zero_le _
  | succ count ih =>
      have hround : turnsOf index ((List.range jobs).map (⟨·, true⟩)) ≤ 1 := by
        rw [turnsOf, List.map_map]
        show ((List.range jobs).map id).count index ≤ 1
        rw [List.map_id, List.count_range]
        split <;> omega
      rw [roundTurns, turnsOf_append]
      omega

/-- Each has as many. -/
theorem le_count_roundTurns {index jobs : Nat} (lt : index < jobs) (count : Nat) :
    count ≤ (roundTurns jobs count).count ⟨index, true⟩ := by
  induction count with
  | zero => exact Nat.zero_le _
  | succ count ih =>
      have hround : 1 ≤ ((List.range jobs).map (⟨·, true⟩)).count (⟨index, true⟩ : Turn) :=
        List.one_le_count_iff.mpr (List.mem_map.mpr ⟨index, List.mem_range.mpr lt, rfl⟩)
      rw [roundTurns, List.count_append]
      omega

namespace Batch

variable {blank session : Session} {watch : Watch} {sources : List Source}

theorem length_jobs_follow (batch : Batch) (turns : List Turn) :
    (batch.follow blank watch turns).jobs.length = batch.jobs.length := by
  induction turns generalizing batch with
  | nil => rfl
  | cons turn rest ih => exact (ih _).trans (batch.length_jobs_take turn)

/-- Rounds are turns in this order, up to the first round after which all have ended. -/
theorem exists_rounds_eq (blank : Session) (watch : Watch) (bound : Nat) (batch : Batch) :
    ∃ count, batch.rounds blank watch bound =
        batch.follow blank watch (roundTurns batch.jobs.length count) ∧
      (∀ fewer < count,
        ¬(batch.follow blank watch (roundTurns batch.jobs.length fewer)).isEnded) ∧
      (count < bound → (batch.rounds blank watch bound).isEnded) := by
  induction bound generalizing batch with
  | zero => exact ⟨0, rfl, nofun, nofun⟩
  | succ bound ih =>
      rw [rounds]
      by_cases hended : batch.isEnded
      · rw [if_pos hended]
        exact ⟨0, rfl, nofun, fun _ ↦ hended⟩
      · have hround : (List.range batch.jobs.length).foldl (turn blank watch) batch =
            batch.follow blank watch ((List.range batch.jobs.length).map (⟨·, true⟩)) := by
          rw [follow, List.foldl_map]
          rfl
        rw [if_neg hended, hround]
        obtain ⟨count, hrounds, hbefore, hlast⟩ :=
          ih (batch.follow blank watch ((List.range batch.jobs.length).map (⟨·, true⟩)))
        simp only [length_jobs_follow, ← follow_append] at hrounds hbefore
        refine ⟨count + 1, hrounds, fun fewer hfewer ↦ ?_, fun hlt ↦ hlast (by omega)⟩
        cases fewer with
        | zero => exact hended
        | succ fewer => exact hbefore fewer (by omega)

/-- Enough rounds bring all jobs to their end. -/
theorem exists_rounds (comes : session.apart.Comes sources) :
    ∃ enough, ∀ watch : Watch, enough ≤ watch.checks →
      ((ofSources sources).follow session.apart watch
        (roundTurns sources.length enough)).isEnded := by
  obtain ⟨enough, hending⟩ := exists_ending comes
  refine ⟨enough + 2, fun watch hwatch ↦ ?_⟩
  have houtlasts : watch.Outlasts (roundTurns sources.length (enough + 2)) := fun index ↦
    Nat.le_trans (turnsOf_roundTurns_le index _ _) hwatch
  rw [roundTurns_add] at houtlasts ⊢
  refine hending watch _ _ houtlasts (fun index hlt ↦ ?_) fun index hlt ↦ ?_
  · exact Nat.le_trans (le_count_roundTurns hlt enough) (count_le_turnsOf ⟨index, true⟩ _)
  · exact le_count_roundTurns hlt 2

/-- To play a batch is to take turns in some order until all have ended. -/
theorem exists_play_eq (comes : session.apart.Comes sources) :
    ∃ checks, ∀ watch : Watch, checks ≤ watch.checks → ∃ turns, watch.Outlasts turns ∧
      (ofSources sources).play session.apart watch =
        (ofSources sources).follow session.apart watch turns ∧
      ((ofSources sources).play session.apart watch).isEnded := by
  obtain ⟨enough, hrounds⟩ := exists_rounds comes
  refine ⟨enough, fun watch hwatch ↦ ?_⟩
  obtain ⟨count, hplay, hbefore, hlast⟩ :=
    exists_rounds_eq session.apart watch (watch.checks + 2) (ofSources sources)
  have hlength : (ofSources sources).jobs.length = sources.length := List.length_map _
  rw [hlength] at hplay hbefore
  -- All have ended after enough rounds, so no more have been played.
  have hcount : count ≤ enough :=
    Nat.le_of_not_lt fun hmore ↦ hbefore enough hmore (hrounds watch hwatch)
  refine ⟨_, fun index ↦ ?_, hplay, hlast (by omega)⟩
  exact Nat.le_trans (turnsOf_roundTurns_le index _ _) (Nat.le_trans hcount hwatch)

end Batch

/-! ## The order does not matter -/

/-- What becomes of sources that run on their own does not depend on the order of their turns. When
all have ended, in whatever order, they are told of as if each had been loaded alone; in a fair
order they do end, if each of them succeeds alone or one of them fails; and to run each of them,
round after round, tells the same. -/
theorem Session.runEach_any_order (session : Session) (sources : List Source)
    (accepts : session.writer.Accepts) :
    (∀ (watch : Watch) (turns : List Turn), watch.Outlasts turns →
      let batch := (Batch.ofSources sources).follow session.apart watch turns
      batch.isEnded → session.AsAlone sources (session.report batch)) ∧
    (∀ order, Fair sources.length order → session.apart.Comes sources →
      ∃ count, ∀ watch : Watch, watch.Outlasts (firstTurns order count) →
        ((Batch.ofSources sources).follow session.apart watch
          (firstTurns order count)).isEnded) ∧
    ∃ checks, ∀ watch : Watch, checks ≤ watch.checks →
      session.AsAlone sources (session.runEach watch sources) := by
  have hended : ∀ (watch : Watch) (turns : List Turn), watch.Outlasts turns →
      ((Batch.ofSources sources).follow session.apart watch turns).isEnded →
      session.AsAlone sources
        (session.report ((Batch.ofSources sources).follow session.apart watch turns)) :=
    fun watch turns houtlasts hended ↦
      (Batch.tracks_follow session watch sources turns).asAlone houtlasts hended accepts
  refine ⟨hended, fun order hfair hcomes ↦ Batch.exists_ended hcomes hfair, ?_⟩
  by_cases hcomes : session.apart.Comes sources
  · obtain ⟨checks, hchecks⟩ := Batch.exists_play_eq hcomes
    refine ⟨checks, fun watch hwatch ↦ ?_⟩
    obtain ⟨turns, houtlasts, hplay, hplayed⟩ := hchecks watch hwatch
    rw [runEach, hplay]
    rw [hplay] at hplayed
    exact hended watch turns houtlasts hplayed
  · -- Nothing is said of sources that do not come to anything.
    refine ⟨0, fun watch _ ↦ ⟨?_, ?_⟩⟩
    · intro values hloads
      exact absurd (.inl fun source hmem ↦ ⟨values source, hloads source hmem⟩) hcomes
    · intro before source after cause hsplit hfails _
      refine absurd (.inr ⟨source, ?_, cause, hfails⟩) hcomes
      rw [hsplit]
      exact List.mem_append_right before List.mem_cons_self

/-- A memory takes every write. -/
theorem Writer.accepts_memory (taken : ByteArray) : Accepts ⟨[.memory taken]⟩ := by
  have hmemory : ∀ pieces, ∃ bytes, writeEach ⟨[.memory taken]⟩ pieces = ⟨[.memory bytes]⟩ := by
    intro pieces
    induction pieces generalizing taken with
    | nil => exact ⟨taken, rfl⟩
    | cons bytes rest ih => exact ih (taken ++ bytes)
  intro pieces bytes
  obtain ⟨held, hheld⟩ := hmemory pieces
  rw [hheld]
  rfl

/-- One source has a value, and the other cannot be read. Whether or not the failure of the second
stops the first, it is what is reported. -/
theorem Session.runEach_any_order_unread :
    let session := Session.new 8 ⟨[.memory .empty]⟩
    let sources : List Source := [.named "a" (Rune.ofString "7"), .named "b" (Rune.ofString "(")]
    let Unread := fun told : Session × Option Failure ↦ told.2.map Failure.message =
        some "b: sexp.syntax.unterminated: b:2: ')' expected to close list opened at b:1:1" ∧
      told.1.writer = ⟨[.memory .empty]⟩
    (∀ (watch : Watch) (turns : List Turn), watch.Outlasts turns →
      let batch := (Batch.ofSources sources).follow session.apart watch turns
      batch.isEnded → Unread (session.report batch)) ∧
    ∃ checks, ∀ watch : Watch, checks ≤ watch.checks →
      Unread (session.runEach watch sources) := by
  intro session sources Unread
  have hreader : ∀ name text, Reader.ofSources [.named name text] =
      .ofStream ⟨(Source.layout [.named name text]).map Report.cell,
        ⟨some name, Source.lineAfter text + 1, none⟩, none⟩ := by
    intro name text
    have hreadable : ∀ source ∈ [Source.named name text], source.failure? = none := by
      simp [Source.named]
    exact Reader.ofSources_eq rfl hreadable
  have hvalue : session.apart.LoadsTo [.named "a" (Rune.ofString "7")] (.ok 7) := by
    have haccepted : (session.apart.compile [.named "a" (Rune.ofString "7")]).2 = none := by
      rw [← Option.isNone_iff_eq_none]
      simp only [compile, hreader]
      decide +kernel
    rw [loadsTo_apart_iff haccepted]
    refine ⟨1, _, _, .ok 7, (Prod.eta _).symm, ?_, rfl⟩
    simp only [compile, hreader]
    decide +kernel
  have hmessage : (session.apart.compile [.named "b" (Rune.ofString "(")]).2.map Failure.message =
      some "sexp.syntax.unterminated: b:2: ')' expected to close list opened at b:1:1" := by
    simp only [compile, hreader]
    decide +kernel
  obtain ⟨cause, hcause, hmessage⟩ := Option.map_eq_some_iff.mp hmessage
  have hunread : ∀ told, session.AsAlone sources told → Unread told := by
    intro told halone
    obtain ⟨-, htold, hwriter⟩ := halone.fails [.named "a" (Rune.ofString "7")]
      (.named "b" (Rune.ofString "(")) [] cause rfl (loadsTo_of_refused hcause) (by
        intro other hmem cause hfails
        obtain rfl := List.mem_singleton.mp hmem
        cases hvalue.unique hfails)
    rw [hmessage] at htold
    exact ⟨htold, hwriter⟩
  obtain ⟨hended, -, checks, hchecks⟩ :=
    runEach_any_order session sources (Writer.accepts_memory .empty)
  exact ⟨fun watch turns houtlasts hall ↦ hunread _ (hended watch turns houtlasts hall), checks,
    fun watch hwatch ↦ hunread _ (hchecks watch hwatch)⟩

end WordLisp

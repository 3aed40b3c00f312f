import WordLisp.Proofs.Source.Layout

/-!
# Queued sources of which some may fail

A failure ends the stream of a queue, and does nothing else: up to it the queue gives what it would
if no source failed (`Queue.next_intact`). So the cells of a stream are the first reports of the
layout, whatever the sources end in (`Queue.cells_prefix_layout`).

`Source.Placed` says which source a rune of the text belongs to, and what this source has before it.
With that the source alone tells the position of the rune (`Source.Placed.position_eq`).
-/

namespace WordLisp

open Text (Rune)

/-! ## What a failure does -/

/-- The source without its failure. -/
def Source.intact (source : Source) : Source :=
  { source with failure? := none }

/-- What is left of a source, without its failure. -/
def OpenSource.intact (source : OpenSource) : OpenSource :=
  { source with failure? := none }

namespace Queue

variable (queue : Queue)

/-- The queue of the sources without their failures. -/
def intact : Queue :=
  { queue with
    current? := queue.current?.map OpenSource.intact
    pending := queue.pending.map Source.intact }

/-- A character that was read is noted without regard to failures. -/
theorem intact_pass (c : Char) : (queue.pass c).intact = queue.intact.pass c := by
  unfold pass
  split <;> rfl

/-- So is a source that was left. -/
theorem intact_advance : queue.advance.intact = queue.intact.advance := by
  unfold advance
  cases hpending : queue.pending with
  | nil =>
      have hnone : queue.intact.pending = [] := congrArg (List.map Source.intact) hpending
      rw [hnone]
      simp [intact, endLine, hpending]
  | cons source pending =>
      have hsome : queue.intact.pending = source.intact :: pending.map Source.intact :=
        congrArg (List.map Source.intact) hpending
      rw [hsome]
      rfl

/-- What an open source gives before its failure, it gives without one. -/
theorem readOpen_intact (source : OpenSource)
    (continues : Reading.continues (queue.readOpen source).1) :
    queue.intact.readOpen source.intact =
      ((queue.readOpen source).1, (queue.readOpen source).2.intact) := by
  obtain ⟨text, failure?⟩ := source
  cases text with
  | cons rune text =>
      simp only [readOpen, OpenSource.intact, intact_pass]
      rfl
  | nil =>
      cases failure? with
      | some message => cases continues
      | none =>
          simp only [readOpen, OpenSource.intact, ← intact_advance]
          simp [intact]

/-- What a queue gives before a failure, it gives without one. -/
theorem next_intact (continues : Reading.continues queue.next.1) :
    queue.intact.next = (queue.next.1, queue.next.2.intact) := by
  unfold next at continues ⊢
  cases hcurrent : queue.current? with
  | some source =>
      have hopen : queue.intact.current? = some source.intact :=
        congrArg (Option.map OpenSource.intact) hcurrent
      rw [hcurrent] at continues
      rw [hopen]
      exact queue.readOpen_intact source continues
  | none =>
      have hclosed : queue.intact.current? = none :=
        congrArg (Option.map OpenSource.intact) hcurrent
      rw [hcurrent] at continues
      rw [hclosed]
      simp only [← intact_advance] at continues ⊢
      cases hadvance : queue.advance.current? with
      | none =>
          rw [hadvance] at continues
          cases continues
      | some source =>
          have hopen : queue.advance.intact.current? = some source.intact :=
            congrArg (Option.map OpenSource.intact) hadvance
          simp only [hadvance] at continues
          simp only [hopen]
          exact queue.advance.readOpen_intact source continues

/-- A stream is cut off at a failure. -/
theorem cells_prefix_intact : queue.stream.cells <+: queue.intact.stream.cells := by
  induction hremaining : queue.remaining using Nat.strongRecOn generalizing queue with
  | ind remaining ih =>
      subst hremaining
      have hprogress := queue.remaining_next_lt
      have hintact := queue.next_intact
      rw [stream_eq queue, stream_eq queue.intact]
      rcases hnext : queue.next with ⟨reading, rest⟩
      rw [hnext] at hprogress hintact
      cases reading with
      | rune rune =>
          rw [hintact rfl]
          exact (List.cons_prefix_cons.mpr ⟨rfl, ih _ (hprogress rfl) rest rfl⟩)
      | boundary =>
          rw [hintact rfl]
          exact (List.cons_prefix_cons.mpr ⟨rfl, ih _ (hprogress rfl) rest rfl⟩)
      | ended => exact List.nil_prefix
      | failed message => exact List.nil_prefix

end Queue

/-! ## What the layout says of it -/

namespace Source

/-- Where the runes of a source stand has nothing to do with its failure. -/
theorem reportsFrom_intact (source : Source) (passed rest : List Rune) :
    source.intact.reportsFrom passed rest = source.reportsFrom passed rest := by
  induction rest generalizing passed with
  | nil => rfl
  | cons rune rest ih => exact congrArg (_ :: ·) (ih (passed ++ [rune]))

/-- So the layout of queued sources has nothing to do with their failures. -/
theorem layout_intact (sources : List Source) : layout (sources.map intact) = layout sources := by
  cases sources with
  | nil => rfl
  | cons source pending =>
      show source.intact.layoutFrom [] source.text (pending.map intact) =
        source.layoutFrom [] source.text pending
      induction pending generalizing source with
      | nil => exact source.reportsFrom_intact [] source.text
      | cons next pending ih =>
          show source.intact.reportsFrom [] source.text ++ next.boundary ::
            next.intact.layoutFrom [] next.text (pending.map intact) = _
          rw [reportsFrom_intact, ih]
          rfl

end Source

/-- The stream of a queue shows the reports of its layout, up to the first failure. -/
theorem Queue.cells_prefix_layout (sources : List Source) :
    (Queue.ofSources sources).stream.cells <+: (Source.layout sources).map Report.cell := by
  cases sources with
  | nil =>
      have hcells := (Queue.ofSources []).stream_content.1
      rw [List.map_eq_nil_iff.mp hcells]
      exact List.nil_prefix
  | cons source pending =>
      have hreadable : ∀ other ∈ (source :: pending).map Source.intact, other.failure? = none :=
        List.forall_mem_map.mpr fun _ _ ↦ rfl
      have hends := List.getLast?_eq_some_getLast (l := (source :: pending).map Source.intact)
        (List.cons_ne_nil _ _)
      have hprefix := (Queue.ofSources (source :: pending)).cells_prefix_intact
      rwa [show (Queue.ofSources (source :: pending)).intact =
          .ofSources ((source :: pending).map Source.intact) from rfl,
        Queue.stream_ofSources hends hreadable, Source.layout_intact] at hprefix

/-! ## The source of a rune -/

/-- What sources give in front of another one, if none of them fails. -/
def Source.joined (sources : List Source) : List Rune :=
  sources.flatMap fun source ↦ source.text ++ [.char '\x00']

/-- Behind the text `before` of queued sources stands a rune of this source, and `passed` is all
that this source has before it. -/
inductive Source.Placed (sources : List Source) (before : List Rune) (source : Source)
    (passed : List Rune) (rune : Rune) : Prop where
  | behind {front pending : List Source} {rest : List Rune} :
      sources = front ++ source :: pending → (∀ earlier ∈ front, earlier.failure? = none) →
      source.text = passed ++ rune :: rest → before = joined front ++ passed →
      Placed sources before source passed rune

/-- The text of queued sources is that of the first one. If this one does not fail, a boundary and
the text of the others follow. -/
theorem OpenSource.exists_text_ofSources (source : Source) (pending : List Source) :
    ∃ tail, (ofSources (source :: pending)).text = source.text ++ tail ∧
      (tail = [] ∨
        source.failure? = none ∧ tail = .char '\x00' :: (ofSources pending).text) := by
  cases pending with
  | nil => exact ⟨[], (List.append_nil _).symm, .inl rfl⟩
  | cons next pending =>
      rw [ofSources, followedBy]
      cases source.failure? with
      | none => exact ⟨_, rfl, .inr ⟨rfl, rfl⟩⟩
      | some message => exact ⟨[], (List.append_nil _).symm, .inl rfl⟩

namespace Source

/-- A rune of the text of queued sources is a rune of one of them, if it is no boundary. -/
theorem exists_placed {sources : List Source} {before rest : List Rune} {rune : Rune}
    (split : (OpenSource.ofSources sources).text = before ++ rune :: rest)
    (inside : rune ≠ .char '\x00') :
    ∃ source passed, Placed sources before source passed rune := by
  induction sources generalizing before with
  | nil => exact absurd split.symm (List.append_ne_nil_of_right_ne_nil _ (List.cons_ne_nil _ _))
  | cons source pending ih =>
      obtain ⟨tail, htext, htail⟩ := OpenSource.exists_text_ofSources source pending
      rw [htext] at split
      have hbehind : ∀ {more}, before = source.text ++ more → tail = more ++ rune :: rest →
          ∃ source' passed, Placed (source :: pending) before source' passed rune := by
        rintro more rfl hmore
        rcases htail with rfl | ⟨hreadable, rfl⟩
        · exact absurd hmore.symm (List.append_ne_nil_of_right_ne_nil _ (List.cons_ne_nil _ _))
        · cases more with
          | nil => exact absurd (List.cons.inj hmore).1.symm inside
          | cons boundary more =>
              obtain ⟨rfl, hpending⟩ := List.cons.inj hmore
              obtain ⟨other, passed, hplaced⟩ := ih hpending
              cases hplaced with
              | @behind front behind _ hsources hfront hother hmore =>
                  refine ⟨other, passed, @Placed.behind _ _ _ _ _ (source :: front) behind _
                    (congrArg (source :: ·) hsources)
                    (List.forall_mem_cons.mpr ⟨hreadable, hfront⟩) hother ?_⟩
                  rw [hmore]
                  simp [joined]
      rcases List.append_eq_append_iff.mp split with ⟨more, hmore, htail⟩ | ⟨more, hmore, hrest⟩
      · exact hbehind hmore htail
      · cases more with
        | nil =>
            rw [List.append_nil] at hmore
            exact @hbehind [] (by rw [List.append_nil, hmore]) hrest.symm
        | cons first more =>
            obtain ⟨rfl, -⟩ := List.cons.inj hrest
            exact ⟨source, before, @Placed.behind _ _ _ _ _ [] pending more rfl
              (List.forall_mem_nil _) hmore rfl⟩

/-- The position of a rune that is no line feed. -/
theorem positionAfter_rune (source : Source) (passed : List Rune) {rune : Rune}
    (inside : rune ≠ .char '\n') :
    source.positionAfter (passed ++ [rune]) =
      ⟨some source.title, lineAfter passed, some (columnAfter passed + 1)⟩ := by
  obtain ⟨hline, hcolumn⟩ := after_rune passed inside
  simp [positionAfter, hline, hcolumn]

/-- There is one report for each rune. -/
theorem length_reportsFrom (source : Source) (passed rest : List Rune) :
    (source.reportsFrom passed rest).length = rest.length := by
  induction rest generalizing passed with
  | nil => rfl
  | cons rune rest ih => exact congrArg (· + 1) (ih _)

/-- What sources have before a certain one takes as many reports as runes. -/
theorem exists_layout (front : List Source) (source : Source) (pending : List Source) :
    ∃ reports, layout (front ++ source :: pending) = reports ++ layout (source :: pending) ∧
      reports.length = (joined front).length := by
  induction front with
  | nil => exact ⟨[], rfl, rfl⟩
  | cons first front ih =>
      obtain ⟨reports, hreports, hsame⟩ := ih
      obtain ⟨next, others, hnext⟩ : ∃ next others, front ++ source :: pending = next :: others :=
        List.exists_cons_of_ne_nil (List.append_ne_nil_of_right_ne_nil _ (List.cons_ne_nil _ _))
      refine ⟨first.reportsFrom [] first.text ++ next.boundary :: reports, ?_, ?_⟩
      · rw [List.append_assoc, List.cons_append, List.cons_append, ← hreports, hnext]
        rfl
      · simp [joined, length_reportsFrom, hsame, Nat.add_comm]

/-- The report of a rune behind some others of a source. -/
theorem getElem?_layoutFrom (source : Source) (seen passed : List Rune) (rune : Rune)
    (rest : List Rune) (pending : List Source) :
    (source.layoutFrom seen (passed ++ rune :: rest) pending)[passed.length]? =
      some ⟨rune.toChar, rune.size, source.positionAfter (seen ++ passed ++ [rune])⟩ := by
  induction passed generalizing seen with
  | nil =>
      rw [List.nil_append, layoutFrom_cons, List.append_nil]
      rfl
  | cons first passed ih =>
      rw [List.cons_append, layoutFrom_cons]
      have hrest := ih (seen ++ [first])
      rwa [List.append_assoc seen] at hrest

section Placed

variable {sources : List Source} {before passed : List Rune} {source : Source} {rune : Rune}

/-- The report of a rune of queued sources. -/
theorem Placed.report_eq (h : Placed sources before source passed rune) :
    (layout sources)[before.length]? =
      some ⟨rune.toChar, rune.size, source.positionAfter (passed ++ [rune])⟩ := by
  cases h with
  | @behind front pending rest hsources _ htext hbefore =>
      obtain ⟨reports, hreports, hlength⟩ := exists_layout front source pending
      have hreport := source.getElem?_layoutFrom [] passed rune rest pending
      rw [← htext] at hreport
      rw [hsources, hreports, hbefore, List.length_append, ← hlength,
        List.getElem?_append_right (Nat.le_add_right _ _), Nat.add_sub_cancel_left]
      exact hreport

/-- The cell of a rune has the position of the rune in its source: its line is one more than the
line feeds before it, its column is one more than the runes behind the last of these. -/
theorem Placed.position_eq {position : Position} (h : Placed sources before source passed rune)
    (inside : rune ≠ .char '\n')
    (cell : (Queue.ofSources sources).stream.cells[before.length]?.map Cell.position =
      some position) :
    position = ⟨some source.title, lineAfter passed, some (columnAfter passed + 1)⟩ := by
  obtain ⟨shown, hshown, rfl⟩ := Option.map_eq_some_iff.mp cell
  obtain ⟨hlt, rfl⟩ := List.getElem?_eq_some_iff.mp hshown
  have hcell := List.prefix_iff_getElem?.mp (Queue.cells_prefix_layout sources) _ hlt
  rw [List.getElem?_map, h.report_eq] at hcell
  rw [← Option.some.inj hcell]
  exact source.positionAfter_rune passed inside

end Placed

end Source

end WordLisp

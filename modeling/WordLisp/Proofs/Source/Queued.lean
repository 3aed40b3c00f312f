import WordLisp.Source.Stream

/-!
# Queued sources as one source

A reader that does not look at positions cannot tell queued sources from a single one
(`Queue.stream_content`). Its text has the texts of the sources up to the first one that fails, with
a NUL at each boundary.
-/

namespace WordLisp

open Text (Rune)

/-- A source and those queued behind it as one source: it ends at the first failure. -/
def OpenSource.followedBy (source : OpenSource) : List Source → OpenSource
  | [] => source
  | next :: rest =>
      match source.failure? with
      | some _ => source
      | none =>
          let behind := followedBy ⟨next.text, next.failure?⟩ rest
          ⟨source.text ++ .char '\x00' :: behind.text, behind.failure?⟩

/-- One source for queued ones. -/
def OpenSource.ofSources : List Source → OpenSource
  | [] => ⟨[], none⟩
  | source :: rest => followedBy ⟨source.text, source.failure?⟩ rest

namespace OpenSource

/-- A rune more at the front. -/
theorem followedBy_cons (rune : Rune) (text : List Rune) (failure? : Option String)
    (pending : List Source) :
    followedBy ⟨rune :: text, failure?⟩ pending =
      ⟨rune :: (followedBy ⟨text, failure?⟩ pending).text,
        (followedBy ⟨text, failure?⟩ pending).failure?⟩ := by
  cases pending with
  | nil => rfl
  | cons next rest => cases failure? <;> rfl

/-- Nothing is read behind a failure. -/
theorem followedBy_failed (text : List Rune) (message : String) (pending : List Source) :
    followedBy ⟨text, some message⟩ pending = ⟨text, some message⟩ := by
  cases pending <;> rfl

end OpenSource

namespace Queue

/-- What is left to read in a queue, as one source. -/
def content (queue : Queue) : OpenSource :=
  match queue.current? with
  | some source => source.followedBy queue.pending
  | none => .ofSources queue.pending

/-- The content is what the reading gave in front of the content that it left. -/
def Gives (content : OpenSource) : Reading → OpenSource → Prop
  | .rune rune, rest => content = ⟨rune :: rest.text, rest.failure?⟩
  | .boundary, rest => content = ⟨.char '\x00' :: rest.text, rest.failure?⟩
  | .ended, _ => content = ⟨[], none⟩
  | .failed message, _ => content = ⟨[], some message⟩

/-- The open source gives its next rune, or else what it ends in. -/
theorem gives_readOpen {queue : Queue} {source : OpenSource}
    (current : queue.current? = some source) :
    Gives queue.content (queue.readOpen source).1 (queue.readOpen source).2.content := by
  obtain ⟨text, failure?⟩ := source
  rw [content, current]
  unfold readOpen
  cases text with
  | cons rune text =>
      simp only [Gives, content, current?_pass, pending_pass]
      exact OpenSource.followedBy_cons rune text failure? queue.pending
  | nil =>
      cases failure? with
      | some message => exact OpenSource.followedBy_failed [] message queue.pending
      | none =>
          unfold advance
          cases queue.pending with
          | nil => rfl
          | cons next rest => rfl

/-- Each reading gives the next of the content. -/
theorem gives_next (queue : Queue) : Gives queue.content queue.next.1 queue.next.2.content := by
  unfold next
  cases hcurrent : queue.current? with
  | some source => exact gives_readOpen hcurrent
  | none =>
      cases hpending : queue.pending with
      | nil => simp [content, advance, hcurrent, hpending, Gives, OpenSource.ofSources]
      | cons source rest =>
          have hadvance : queue.advance.current? = some ⟨source.text, source.failure?⟩ := by
            rw [advance, hpending]
          have hcontent : queue.content = queue.advance.content := by
            rw [content, hcurrent, content, hadvance, advance, hpending]
            rfl
          simp only [hadvance]
          rw [hcontent]
          exact gives_readOpen hadvance

/-- A stream is what the next reading gives, and then the stream of what is left. -/
theorem stream_eq (queue : Queue) :
    queue.stream =
      match queue.next with
      | (.rune rune, rest) => rest.stream.cons ⟨rune.readAs, rest.position⟩
      | (.boundary, rest) => rest.stream.cons ⟨' ', rest.position⟩
      | (.ended, rest) => ⟨[], rest.position, none⟩
      | (.failed message, rest) => ⟨[], rest.position, some message⟩ := by
  rw [stream]
  split <;> next hnext _ => simp only [hnext]

/-- The stream of a queue shows its content. -/
theorem stream_content (queue : Queue) :
    queue.stream.cells.map Cell.char = queue.content.text.map Rune.readAs ∧
      queue.stream.failure? = queue.content.failure? := by
  induction hremaining : queue.remaining using Nat.strongRecOn generalizing queue with
  | ind remaining ih =>
      subst hremaining
      have hgives := queue.gives_next
      have hprogress := queue.remaining_next_lt
      rw [stream_eq]
      rcases hnext : queue.next with ⟨reading, rest⟩
      rw [hnext] at hgives hprogress
      cases reading with
      | rune rune =>
          obtain ⟨hcells, hfailure⟩ := ih _ (hprogress rfl) rest rfl
          rw [show queue.content = _ from hgives]
          exact ⟨congrArg (rune.readAs :: ·) hcells, hfailure⟩
      | boundary =>
          obtain ⟨hcells, hfailure⟩ := ih _ (hprogress rfl) rest rfl
          rw [show queue.content = _ from hgives]
          exact ⟨congrArg (' ' :: ·) hcells, hfailure⟩
      | ended =>
          rw [show queue.content = _ from hgives]
          exact ⟨rfl, rfl⟩
      | failed message =>
          rw [show queue.content = _ from hgives]
          exact ⟨rfl, rfl⟩

end Queue

end WordLisp

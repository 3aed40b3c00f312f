import WordLisp.Proofs.Memory.Load

/-!
# Paged memory as a flat memory

A `Flat` memory has a word at every address and no pages. Its rules are plain: a request for no
words does nothing, a request is refused for its first or its last address, and one that is not
refused reads or writes each of its words. The main statement is `answers_follow_flat`: whatever
sequence of requests a paged memory gets, it answers each of them as the flat memory does, as long
as its pages can be allocated.

The proof is a simulation: `Represents` says that the words of a paged memory are those of a flat
one, `Represents.answer` that one request keeps this.
-/

namespace WordLisp.Memory

/-- A request to a memory. -/
inductive Request where
  | load (address : Word)
  | loadInto (address : Word) (buffer : List Word)
  | store (address : Word) (values : List Word)

/-- What a request does. -/
def Request.access : Request → Access
  | .load _ | .loadInto _ _ => .load
  | .store _ _ => .store

/-- The first address of a request. -/
def Request.address : Request → Word
  | .load address | .loadInto address _ | .store address _ => address

/-- The number of words that a request is about. -/
def Request.count : Request → Nat
  | .load _ => 1
  | .loadInto _ buffer => buffer.length
  | .store _ values => values.length

/-- The answer to a request: a word, a buffer, or nothing, and why the request was refused. -/
inductive Answer where
  | loaded (outcome : Except MemoryError Word)
  | filled (buffer : List Word) (error? : Option MemoryError)
  | stored (error? : Option MemoryError)

/-- Why a request was refused, if it was. -/
def Answer.error? : Answer → Option MemoryError
  | .loaded (.ok _) => none
  | .loaded (.error error) => some error
  | .filled _ error? | .stored error? => error?

/-- The answer of a memory to a request, and the memory afterwards. -/
def answer (memory : Memory) : Request → Memory × Answer
  | .load address => (memory, .loaded (memory.load address))
  | .loadInto address buffer =>
      (memory, .filled (memory.loadInto address buffer).1 (memory.loadInto address buffer).2)
  | .store address values =>
      ((memory.store address values).1, .stored (memory.store address values).2)

/-- The answers of a memory to requests, one after the other. -/
def answers (memory : Memory) : List Request → List Answer
  | [] => []
  | request :: rest => (memory.answer request).2 :: (memory.answer request).1.answers rest

/-- Every page that requests need can be allocated. -/
def Allocates (memory : Memory) (requests : List Request) : Prop :=
  ∀ answer ∈ memory.answers requests, answer.error? ≠ some .noPage

/-- A memory without pages. -/
structure Flat where
  limit : Word
  word : Word → Word

namespace Flat

/-- A flat memory that holds zeros only. -/
def empty (limit : Word) : Flat := ⟨limit, fun _ ↦ 0⟩

/-- An address that may not be used. -/
def Outside (flat : Flat) (address : Word) : Prop :=
  address < 0 ∨ flat.limit ≠ 0 ∧ flat.limit ≤ address

instance (flat : Flat) (address : Word) : Decidable (flat.Outside address) :=
  inferInstanceAs (Decidable (_ ∨ _))

/-- The error for an address that may not be used. -/
def offence (flat : Flat) (access : Access) (address : Word) : MemoryError :=
  if address < 0 then .negative access address else .pastLimit access address flat.limit

/-- Why an access to `count` words from `address` on is refused, if it is: the first address is
looked at before the last, which wraps around. -/
def refusal? (flat : Flat) (access : Access) (address : Word) (count : Nat) :
    Option MemoryError :=
  let last := address + Int64.ofNat count - 1
  if count = 0 then none
  else if flat.Outside address then some (flat.offence access address)
  else if flat.Outside last then some (flat.offence access last)
  else none

/-- The memory with other words from `address` on. -/
def write (flat : Flat) (address : Word) (values : List Word) : Flat :=
  { flat with word := fun other ↦ (overlay? address values other).getD (flat.word other) }

/-- Without words nothing is written. -/
theorem write_nil (flat : Flat) (address : Word) : flat.write address [] = flat := by
  simp [write, overlay?]

/-- The answer of a flat memory to a request, and the memory afterwards. -/
def answer (flat : Flat) : Request → Flat × Answer
  | .load address =>
      match flat.refusal? .load address 1 with
      | some error => (flat, .loaded (.error error))
      | none => (flat, .loaded (.ok (flat.word address)))
  | .loadInto address buffer =>
      match flat.refusal? .load address buffer.length with
      | some error => (flat, .filled buffer (some error))
      | none =>
          (flat, .filled ((List.range buffer.length).map fun i ↦
            flat.word (address + Int64.ofNat i)) none)
  | .store address values =>
      match flat.refusal? .store address values.length with
      | some error => (flat, .stored (some error))
      | none => (flat.write address values, .stored none)

/-- The answers of a flat memory to requests, one after the other. -/
def answers (flat : Flat) : List Request → List Answer
  | [] => []
  | request :: rest => (flat.answer request).2 :: (flat.answer request).1.answers rest

end Flat

/-! ## Pages that cannot be allocated -/

/-- A memory without pages whose page size admits none. -/
structure Barren (memory : Memory) : Prop extends memory.Ordered where
  size_gt : maxPageSize < memory.pageSize
  unpaged : memory.bases = #[]

/-- A valid memory can have pages. -/
theorem Valid.not_barren {memory : Memory} (valid : memory.Valid) : ¬memory.Barren :=
  fun barren ↦ Int64.not_lt.mpr valid.size_le barren.size_gt

/-- A memory without pages loads what it holds, which are zeros. -/
theorem Barren.loadRange_eq {memory : Memory} (barren : memory.Barren) {address : Word}
    {words : List Word} (accepted : memory.rangeRefusal? .load address words.length = none)
    (holds : memory.Holds address words) :
    memory.loadRange address words.length = .ok words := by
  have hcontents := barren.contents_eq barren.unpaged
  have hzeros : memory.Holds address (List.replicate words.length 0) :=
    holds_replicate fun i _ ↦ by simp [word, hcontents]
  rw [holds.eq hzeros List.length_replicate.symm, List.length_replicate] at *
  simp [Memory.loadRange, accepted, hcontents]

/-! ## The simulation -/

/-- A paged memory holds the words of a flat one. -/
structure Represents (memory : Memory) (flat : Flat) : Prop where
  sound : memory.Valid ∨ memory.Barren
  limit_eq : memory.limit = flat.limit
  word_eq : ∀ address, 0 ≤ address → memory.word address = .ok (flat.word address)

namespace Represents

variable {memory : Memory} {flat : Flat}

/-- A memory without pages holds zeros. -/
theorem empty {pageSize : Word} (limit : Word) (nonneg : 0 ≤ pageSize) :
    (Memory.empty pageSize limit).Represents (Flat.empty limit) := by
  refine ⟨?_, rfl, fun address _ ↦ rfl⟩
  by_cases hle : pageSize ≤ maxPageSize
  · exact .inl (valid_empty limit nonneg hle)
  · exact .inr ⟨ordered_empty limit nonneg, Int64.not_le.mp hle, rfl⟩

/-- Both refuse the same addresses. -/
theorem refusal?_eq (h : memory.Represents flat) (access : Access) (address : Word) :
    memory.refusal? access address =
      if flat.Outside address then some (flat.offence access address) else none := by
  simp only [Memory.refusal?, h.limit_eq, Flat.Outside, Flat.offence]
  by_cases hneg : address < 0
  · simp [hneg]
  · simp [hneg]

/-- Both refuse the same ranges. -/
theorem rangeRefusal?_eq (h : memory.Represents flat) (access : Access) (address : Word)
    (count : Nat) :
    memory.rangeRefusal? access address count = flat.refusal? access address count := by
  simp only [rangeRefusal?, h.refusal?_eq, Flat.refusal?]
  split
  · rfl
  · split
    · rfl
    · rfl

/-- A word is loaded alike. -/
theorem load_eq (h : memory.Represents flat) (address : Word) :
    memory.load address =
      match flat.refusal? .load address 1 with
      | some error => .error error
      | none => .ok (flat.word address) := by
  have hlast : address + Int64.ofNat 1 - 1 = address := Int64.add_sub_cancel address 1
  simp only [Memory.load, h.refusal?_eq, Flat.refusal?, hlast]
  by_cases houtside : flat.Outside address
  · simp [houtside]
  · have hnonneg : 0 ≤ address := Int64.not_lt.mp fun hneg ↦ houtside (.inl hneg)
    simp [houtside, h.word_eq address hnonneg]

/-- The words that are not refused are those of the flat memory. -/
theorem holds (h : memory.Represents flat) {address : Word} {count : Nat}
    (accepted : memory.rangeRefusal? .load address count = none)
    (countable : count < 0x8000000000000000) :
    memory.Holds address
      ((List.range count).map fun i ↦ flat.word (address + Int64.ofNat i)) := by
  intro i word hword
  rw [List.getElem?_map, Option.map_eq_some_iff] at hword
  obtain ⟨j, hj, rfl⟩ := hword
  obtain ⟨hlt, rfl⟩ := List.getElem?_eq_some_iff.mp hj
  rw [List.length_range] at hlt
  rw [List.getElem_range]
  obtain ⟨hnonneg, hfits⟩ := fits_of_rangeRefusal? accepted (by omega) countable
  exact h.word_eq _ (Word.nonneg_add_ofNat hnonneg (by omega))

/-- Several words are loaded alike. -/
theorem loadRange_eq (h : memory.Represents flat) (address : Word) {count : Nat}
    (countable : count < 0x8000000000000000) :
    memory.loadRange address count =
      match flat.refusal? .load address count with
      | some error => .error error
      | none => .ok ((List.range count).map fun i ↦ flat.word (address + Int64.ofNat i)) := by
  have hrange := h.rangeRefusal?_eq .load address count
  cases hrefusal : flat.refusal? .load address count with
  | some error => simp only [Memory.loadRange, hrange, hrefusal]
  | none =>
      rw [hrefusal] at hrange
      have hholds := h.holds hrange countable
      have hlength : ((List.range count).map fun i ↦
          flat.word (address + Int64.ofNat i)).length = count := by simp
      dsimp only
      generalize (List.range count).map _ = words at hholds hlength ⊢
      subst hlength
      rcases h.sound with hvalid | hbarren
      · exact hvalid.loadRange_eq hrange countable hholds
      · exact hbarren.loadRange_eq hrange hholds

/-- A buffer is filled alike. -/
theorem loadInto_eq (h : memory.Represents flat) (address : Word) {buffer : List Word}
    (countable : buffer.length < 0x8000000000000000) :
    memory.loadInto address buffer =
      match flat.refusal? .load address buffer.length with
      | some error => (buffer, some error)
      | none => ((List.range buffer.length).map fun i ↦ flat.word (address + Int64.ofNat i),
          none) := by
  rw [Memory.loadInto, h.loadRange_eq address countable]
  cases flat.refusal? .load address buffer.length <;> rfl

/-- The words of a store are written over the others. -/
theorem write (h : memory.Represents flat) {address : Word} {values : List Word} {next : Memory}
    (stored : memory.StoredAll address values next) :
    next.Represents (flat.write address values) := by
  refine ⟨.inl stored.valid, stored.limit_eq.trans h.limit_eq, fun other hother ↦ ?_⟩
  rw [stored.word_eq other hother, h.word_eq other hother]
  simp only [Flat.write]
  cases overlay? address values other <;> rfl

/-- One request is answered alike, and the words stay those of the flat memory. A memory that cannot
have pages has been so before. -/
theorem answer (h : memory.Represents flat) {request : Request}
    (countable : request.count < 0x8000000000000000)
    (allocated : memory.Barren → (memory.answer request).2.error? ≠ some .noPage) :
    (memory.answer request).2 = (flat.answer request).2 ∧
      (memory.answer request).1.Represents (flat.answer request).1 ∧
      ((memory.answer request).1.Barren → memory.Barren) := by
  cases request with
  | load address =>
      simp only [Memory.answer, Flat.answer, h.load_eq]
      cases flat.refusal? .load address 1 <;> exact ⟨rfl, h, id⟩
  | loadInto address buffer =>
      simp only [Memory.answer, Flat.answer, h.loadInto_eq address countable]
      cases flat.refusal? .load address buffer.length <;> exact ⟨rfl, h, id⟩
  | store address values =>
      have hrange := h.rangeRefusal?_eq .store address values.length
      simp only [Memory.answer, Flat.answer] at allocated ⊢
      cases hrefusal : flat.refusal? .store address values.length with
      | some error =>
          have hstore : memory.store address values = (memory, some error) := by
            simp only [Memory.store, hrange, hrefusal]
          rw [hstore]
          exact ⟨rfl, h, id⟩
      | none =>
          rw [hrefusal] at hrange
          rcases h.sound with hvalid | hbarren
          · obtain ⟨next, hstored, hstore⟩ := hvalid.store values hrange countable
            rw [hstore]
            exact ⟨rfl, h.write hstored, fun hbarren ↦ absurd hbarren hstored.valid.not_barren⟩
          · have hempty : values.length = 0 := by
              rcases Nat.eq_zero_or_pos values.length with hzero | hpos
              · exact hzero
              · have hstore := hbarren.store_large hbarren.size_gt hrange countable
                  (List.length_pos_iff.mp hpos)
                exact absurd hstore (allocated hbarren)
            obtain rfl := List.length_eq_zero_iff.mp hempty
            have hstore : memory.store address [] = (memory, none) := by
              simp only [Memory.store, hrange]
            rw [hstore, Flat.write_nil]
            exact ⟨rfl, h, id⟩

/-- Requests are answered alike, one after the other. -/
theorem answers_eq (h : memory.Represents flat) {requests : List Request}
    (countable : ∀ request ∈ requests, request.count < 0x8000000000000000)
    (allocated : memory.Barren → memory.Allocates requests) :
    memory.answers requests = flat.answers requests := by
  induction requests generalizing memory flat with
  | nil => rfl
  | cons request rest ih =>
      rw [List.forall_mem_cons] at countable
      have hallocated := fun hbarren ↦ List.forall_mem_cons.mp (allocated hbarren)
      obtain ⟨hanswer, hnext, hbarren⟩ :=
        h.answer countable.1 fun hbarren ↦ (hallocated hbarren).1
      have hrest := ih hnext countable.2 fun hnow ↦ (hallocated (hbarren hnow)).2
      rw [Memory.answers, Flat.answers, hanswer, hrest]

end Represents

/-- A flat memory refuses for an address only, never for a page. -/
theorem Flat.refusal?_ne_noPage (flat : Flat) (access : Access) (address : Word) (count : Nat) :
    flat.refusal? access address count ≠ some .noPage := by
  have hoffence : ∀ address, flat.offence access address ≠ .noPage := by
    intro address
    rw [offence]
    split <;> exact MemoryError.noConfusion
  intro h
  rw [refusal?] at h
  grind

/-- A request to a flat memory fails exactly if its range is refused. -/
theorem Flat.error?_answer (flat : Flat) (request : Request) :
    (flat.answer request).2.error? =
      flat.refusal? request.access request.address request.count := by
  cases request with
  | load address =>
      show _ = flat.refusal? .load address 1
      simp only [Flat.answer]
      split <;> simp only [Answer.error?, *]
  | loadInto address buffer =>
      show _ = flat.refusal? .load address buffer.length
      simp only [Flat.answer]
      split <;> simp only [Answer.error?, *]
  | store address values =>
      show _ = flat.refusal? .store address values.length
      simp only [Flat.answer]
      split <;> simp only [Answer.error?, *]

/-- A flat memory never lacks a page. -/
theorem Flat.error?_ne_noPage (flat : Flat) (requests : List Request) :
    ∀ answer ∈ flat.answers requests, answer.error? ≠ some .noPage := by
  induction requests generalizing flat with
  | nil => exact fun _ hmem ↦ absurd hmem List.not_mem_nil
  | cons request rest ih =>
      refine List.forall_mem_cons.mpr ⟨?_, ih _⟩
      rw [flat.error?_answer request]
      exact flat.refusal?_ne_noPage _ _ _

/-- A memory whose pages can be allocated answers all requests as the flat memory does, so the size
of its pages cannot be told from its answers. Pages of a size that a page may have can be
allocated. -/
theorem answers_follow_flat (pageSize limit : Word) (requests : List Request)
    (nonneg : 0 ≤ pageSize)
    (countable : ∀ request ∈ requests, request.count < 0x8000000000000000) :
    (pageSize ≤ maxPageSize → (empty pageSize limit).Allocates requests) ∧
      ((empty pageSize limit).Allocates requests →
        (empty pageSize limit).answers requests = (Flat.empty limit).answers requests ∧
        ∀ other, 0 ≤ other → (empty other limit).Allocates requests →
          (empty other limit).answers requests = (empty pageSize limit).answers requests) := by
  have hflat : ∀ size, 0 ≤ size → (empty size limit).Allocates requests →
      (empty size limit).answers requests = (Flat.empty limit).answers requests :=
    fun size hsize hallocates ↦
      (Represents.empty limit hsize).answers_eq countable fun _ ↦ hallocates
  refine ⟨fun hle ↦ ?_, fun hallocates ↦ ⟨hflat pageSize nonneg hallocates, ?_⟩⟩
  · have hvalid : (empty pageSize limit).Valid := valid_empty limit nonneg hle
    have hanswers := (Represents.empty limit nonneg).answers_eq countable
      fun hbarren ↦ absurd hbarren hvalid.not_barren
    rw [Allocates, hanswers]
    exact (Flat.empty limit).error?_ne_noPage requests
  · intro other hother hothers
    rw [hflat other hother hothers, hflat pageSize nonneg hallocates]

/-- Words stored across three pages of three words are those of a flat memory, with zeros around
them, and a store that goes past the limit leaves them as they are. -/
theorem answers_follow_flat_across :
    let requests : List Request := [.store 2 [5, 6, 7, 8, 9], .store 6 [1, 2, 3],
      .loadInto 1 [1, 1, 1, 1, 1, 1, 1], .loadInto 7 [4, 4], .load (-1)]
    (empty 3 8).Allocates requests ∧
      (empty 3 8).answers requests =
        [.stored none, .stored (some (.pastLimit .store 8 8)), .filled [0, 5, 6, 7, 8, 9, 0] none,
          .filled [4, 4] (some (.pastLimit .load 8 8)), .loaded (.error (.negative .load (-1)))] ∧
      (empty 0 8).answers requests = (empty 3 8).answers requests := by
  intro requests
  have hcountable : ∀ request ∈ requests, request.count < 0x8000000000000000 := by decide
  obtain ⟨hthree, hfollow⟩ := answers_follow_flat 3 8 requests (by decide) hcountable
  obtain ⟨hdefault, -⟩ := answers_follow_flat 0 8 requests (by decide) hcountable
  obtain ⟨hflat, hother⟩ := hfollow (hthree (by decide))
  exact ⟨hthree (by decide), hflat, hother 0 (by decide) (hdefault (by decide))⟩

end WordLisp.Memory

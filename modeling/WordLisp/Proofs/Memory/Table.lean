import WordLisp.Proofs.Memory.Flat

/-!
# The page table

The bases of the pages and their words are two tables that every new page shifts, at an index that a
search found. Whatever requests a memory gets, they stay in order and paired (`Tabled`), so that the
search finds the one page of an address, or the one place for it. Where the page size admits pages,
the rounds of every store and load go on by a word at least and so come to an end (`Advances`).

A page size that is too large shows only after the base and an empty place for the words are in the
tables: they keep a page without words (`table_orderly_wordless`).
-/

namespace WordLisp.Memory

/-- The memory after requests. -/
def after (memory : Memory) : List Request → Memory
  | [] => memory
  | request :: rest => (memory.answer request).1.after rest

/-- The number of words of a page, the default if none was given. -/
def unit (pageSize : Word) : Word :=
  if pageSize = 0 then defaultPageSize else pageSize

/-- An address lies in the page at an index. -/
def Within (memory : Memory) (size : Word) (i : Nat) (address : Word) : Prop :=
  ∃ base, memory.bases[i]? = some base ∧ base.toInt ≤ address.toInt ∧
    address.toInt < base.toInt + size.toInt

/-- The tables fit together: bases in strict order, each a multiple of the page size, with a page of
that size. A search finds the page that an address lies in. Without one it finds the only index
where the base of the address goes without harm to the order. -/
structure Tabled (memory : Memory) (size : Word) : Prop where
  increasing : memory.bases.toList.Pairwise (· < ·)
  multiple : ∀ base ∈ memory.bases, 0 ≤ base ∧ size.toInt ∣ base.toInt
  paired : memory.contents.size = memory.bases.size
  length_eq : ∀ words ∈ memory.contents,
    words.size = if size ≤ maxPageSize then size.toNatClampNeg else 0
  found_iff : ∀ address, 0 ≤ address → ∀ i,
    memory.withPageSize.findPage address = (i, true) ↔ memory.Within size i address
  inserted_iff : ∀ address, 0 ≤ address → ∀ index,
    memory.withPageSize.findPage address = (index, false) →
      ∀ i (h : i ≤ memory.bases.size),
        (memory.bases.insertIdx i (memory.withPageSize.pageBase address) h).toList.Pairwise
          (· < ·) ↔ i = index

/-- What a store comes to, round by round, as long as words are left. -/
inductive Storing.Reaches (start : Storing) : Storing → Prop
  | start : Reaches start start
  | round {storing : Storing} :
      Reaches start storing → storing.values ≠ [] → Reaches start storing.round

/-- What a load comes to, round by round, as long as words are left. -/
inductive Loading.Reaches (memory : Memory) (start : Loading) : Loading → Prop
  | start : Reaches memory start start
  | round {loading next : Loading} : Reaches memory start loading → loading.left ≠ 0 →
      loading.round memory = .ok next → Reaches memory start next

/-- Every round of a store or a load that is not refused goes on by a word at least, and the last
one leaves none. -/
structure Advances (memory : Memory) : Prop where
  storing : ∀ address values, memory.rangeRefusal? .store address values.length = none →
    values.length < 0x8000000000000000 → values ≠ [] →
      let start : Storing := ⟨memory.withPageSize, address, values⟩
      (∀ storing, start.Reaches storing → storing.values ≠ [] →
        storing.round.values.length < storing.values.length) ∧
      ∃ last, start.Reaches last ∧ last.values = [] ∧
        memory.store address values = (last.memory, none)
  loading : ∀ address count, memory.rangeRefusal? .load address count = none →
    count < 0x8000000000000000 → memory.contents.isEmpty = false →
      let start : Loading := { address, left := count }
      (∀ loading, start.Reaches memory loading → loading.left ≠ 0 →
        ∃ next, loading.round memory = .ok next ∧ next.left < loading.left) ∧
      ∃ last, start.Reaches memory last ∧ last.left = 0 ∧
        memory.loadRange address count = .ok last.loaded

/-! ## Requests keep the order -/

/-- The page size that the first store chooses. -/
theorem pageSize_withPageSize (memory : Memory) :
    memory.withPageSize.pageSize = unit memory.pageSize := by
  unfold withPageSize unit
  split <;> rfl

/-- A page size admits pages exactly if the one in force does: the default does. -/
theorem unit_le_iff {pageSize : Word} : unit pageSize ≤ maxPageSize ↔ pageSize ≤ maxPageSize := by
  unfold unit
  split
  · next hzero =>
      subst hzero
      decide
  · rfl

/-- A memory in order is valid if the page size in force admits pages. -/
theorem Ordered.valid {memory : Memory} (ordered : memory.Ordered)
    (le : memory.withPageSize.pageSize ≤ maxPageSize) : memory.Valid :=
  ⟨ordered, unit_le_iff.mp (memory.pageSize_withPageSize ▸ le)⟩

/-- What a memory has become: its pages are in order still, of the same size, and none is lost. -/
structure Extends (memory next : Memory) : Prop where
  ordered : next.Ordered
  pageSize_eq : next.withPageSize.pageSize = memory.withPageSize.pageSize
  mem_bases : ∀ base ∈ memory.bases, base ∈ next.bases

section Extends

variable {memory middle next : Memory}

theorem Ordered.extends_self (ordered : memory.Ordered) : memory.Extends memory :=
  ⟨ordered, rfl, fun _ h ↦ h⟩

theorem Extends.trans (first : memory.Extends middle) (second : middle.Extends next) :
    memory.Extends next :=
  ⟨second.ordered, second.pageSize_eq.trans first.pageSize_eq,
    fun base h ↦ second.mem_bases base (first.mem_bases base h)⟩

/-- A page size can be chosen. -/
theorem Ordered.extends_withPageSize (ordered : memory.Ordered) :
    memory.Extends memory.withPageSize :=
  ⟨ordered.withPageSize.1, by rw [withPageSize_withPageSize],
    fun _ h ↦ memory.withPageSize_tables.2.1 ▸ h⟩

/-- A round of a store adds a page at most. -/
theorem Storing.Sound.extends_round {storing : Storing} (sound : storing.Sound)
    (left : storing.values ≠ []) : storing.memory.Extends storing.round.memory :=
  ⟨(sound.round left).ordered, by simp [pageSize_withPageSize],
    fun _ h ↦ sound.mem_bases_round.mpr (.inr h)⟩

/-- So do the rounds of a store, however many there are. -/
theorem Storing.Sound.extends_run {storing : Storing} (sound : storing.Sound) (rounds : Nat) :
    storing.memory.Extends (storing.run rounds).1 := by
  induction rounds generalizing storing with
  | zero => exact sound.ordered.extends_self
  | succ rounds ih =>
      by_cases hnone : storing.values = []
      · simpa [Storing.run, hnone] using sound.ordered.extends_self
      · simpa [Storing.run, hnone] using (sound.extends_round hnone).trans (ih (sound.round hnone))

/-- A request keeps the pages in order, whether it is refused or not. -/
theorem Ordered.extends_answer (ordered : memory.Ordered) (request : Request)
    (countable : request.count < 0x8000000000000000) :
    memory.Extends (memory.answer request).1 := by
  cases request with
  | load address => exact ordered.extends_self
  | loadInto address buffer => exact ordered.extends_self
  | store address values =>
      show memory.Extends (memory.store address values).1
      cases hrefusal : memory.rangeRefusal? .store address values.length with
      | some error => simpa [store, hrefusal] using ordered.extends_self
      | none =>
          by_cases hnone : values = []
          · subst hnone
            exact ordered.extends_self
          · rw [store_eq_run hrefusal hnone]
            exact ordered.extends_withPageSize.trans
              ((ordered.sound hrefusal countable).extends_run _)

/-- So do any number of requests. -/
theorem Ordered.extends_after (ordered : memory.Ordered) {requests : List Request}
    (countable : ∀ request ∈ requests, request.count < 0x8000000000000000) :
    memory.Extends (memory.after requests) := by
  induction requests generalizing memory with
  | nil => exact ordered.extends_self
  | cons request rest ih =>
      rw [List.forall_mem_cons] at countable
      have hnext := ordered.extends_answer request countable.1
      exact hnext.trans (ih hnext.ordered countable.2)

end Extends

/-! ## What the order gives -/

section Tabled

variable {memory : Memory}

/-- A search finds the page that an address lies in. -/
theorem Ordered.findPage_iff (ordered : memory.Ordered) (chosen : 0 < memory.pageSize)
    {address : Word} (nonneg : 0 ≤ address) {i : Nat} :
    memory.findPage address = (i, true) ↔ memory.Within memory.pageSize i address := by
  rw [ordered.findPage_eq, Prod.mk.injEq, decide_eq_true_iff]
  constructor
  · rintro ⟨rfl, hmem⟩
    exact ⟨_, ordered.getElem?_pageIndex hmem, (pageBase_bounds chosen nonneg).2⟩
  · rintro ⟨base, hbase, hbounds⟩
    have hmem := Array.mem_of_getElem? hbase
    obtain ⟨hnonneg, haligned⟩ := ordered.aligned base hmem
    have hsame : memory.pageBase address = base := by
      rw [← haligned]
      refine (pageBase_eq_iff chosen hnonneg nonneg).mpr ?_
      rwa [haligned]
    rw [hsame]
    exact ⟨(ordered.eq_pageIndex hbase).symm, hmem⟩

/-- The tables of a memory whose pages are in order fit together. -/
theorem Ordered.tabled (ordered : memory.Ordered) :
    memory.Tabled memory.withPageSize.pageSize := by
  obtain ⟨hordered, hchosen⟩ := ordered.withPageSize
  obtain ⟨-, hbases, hcontents⟩ := memory.withPageSize_tables
  constructor
  · exact ordered.sorted
  · intro base hmem
    rw [← hbases] at hmem
    obtain ⟨hnonneg, haligned⟩ := hordered.aligned base hmem
    refine ⟨hnonneg, base.toInt / memory.withPageSize.pageSize.toInt, ?_⟩
    rw [Int.mul_comm, ← toInt_pageBase hchosen hnonneg, haligned]
  · exact ordered.paired
  · rw [← hcontents]
    exact hordered.sized
  · intro address hnonneg i
    rw [hordered.findPage_iff hchosen hnonneg]
    simp only [Within, hbases]
  · intro address hnonneg index hfind i hi
    rw [hordered.findPage_eq, Prod.mk.injEq, decide_eq_false_iff_not] at hfind
    simp only [← hbases] at hi ⊢
    rw [hordered.sorted_insertIdx_iff hfind.2, hfind.1]

end Tabled

/-! ## Rounds come to an end -/

section Rounds

/-- A store that may go on may still do so later. -/
theorem Storing.Reaches.sound {start storing : Storing} (reaches : start.Reaches storing)
    (sound : start.Sound) :
    storing.Sound ∧ storing.memory.pageSize = start.memory.pageSize := by
  induction reaches with
  | start => exact ⟨sound, rfl⟩
  | round _ left ih => exact ⟨ih.1.round left, by rw [pageSize_round, ih.2]⟩

/-- What is reached after a round is reached with it. -/
theorem Storing.Reaches.head {start storing : Storing} (left : start.values ≠ [])
    (reaches : start.round.Reaches storing) : start.Reaches storing := by
  induction reaches with
  | start => exact .round .start left
  | round _ hleft ih => exact .round ih hleft

/-- With enough rounds a store comes to its end. -/
theorem Storing.Sound.reaches_end {storing : Storing} (sound : storing.Sound)
    (le : storing.memory.pageSize ≤ maxPageSize) {rounds : Nat}
    (enough : storing.values.length ≤ rounds) :
    ∃ last, storing.Reaches last ∧ last.values = [] ∧ storing.run rounds = (last.memory, none) := by
  induction rounds generalizing storing with
  | zero =>
      have hnone := List.length_eq_zero_iff.mp (Nat.le_zero.mp enough)
      exact ⟨storing, .start, hnone, by simp [Storing.run, hnone]⟩
  | succ rounds ih =>
      by_cases hnone : storing.values = []
      · exact ⟨storing, .start, hnone, by simp [Storing.run, hnone]⟩
      · have hlt := sound.length_round_lt le hnone
        obtain ⟨last, hlast, hend, hrun⟩ := ih (sound.round hnone) (by simpa using le) (by omega)
        exact ⟨last, hlast.head hnone, hend, by simp [Storing.run, hnone, hrun]⟩

variable {memory : Memory}

/-- A load whose words fit goes on with words that do. -/
theorem Loading.Reaches.fits {start loading : Loading} (reaches : start.Reaches memory loading)
    (valid : memory.Valid) (chosen : 0 < memory.pageSize) (fits : start.Fits) : loading.Fits := by
  induction reaches with
  | start => exact fits
  | round _ left hround ih =>
      obtain ⟨words, hnext, -⟩ := valid.round chosen ih left
      rw [hround] at hnext
      cases hnext
      exact ih.next _ _

theorem Loading.Reaches.head {start next loading : Loading} (left : start.left ≠ 0)
    (round : start.round memory = .ok next) (reaches : next.Reaches memory loading) :
    start.Reaches memory loading := by
  induction reaches with
  | start => exact .round .start left round
  | round _ hleft hround ih => exact .round ih hleft hround

/-- With enough rounds a load comes to its end. -/
theorem Loading.Fits.reaches_end {loading : Loading} (fits : loading.Fits) (valid : memory.Valid)
    (chosen : 0 < memory.pageSize) {rounds : Nat} (enough : loading.left ≤ rounds) :
    ∃ last, loading.Reaches memory last ∧ last.left = 0 ∧
      loading.run memory rounds = .ok last.loaded := by
  induction rounds generalizing loading with
  | zero =>
      have hnone := Nat.le_zero.mp enough
      exact ⟨loading, .start, hnone, by simp [Loading.run, hnone]⟩
  | succ rounds ih =>
      by_cases hnone : loading.left = 0
      · exact ⟨loading, .start, hnone, by simp [Loading.run, hnone]⟩
      · obtain ⟨words, hround, hpos, -⟩ := valid.round chosen fits hnone
        have hnext := fits.next words.length (loading.loaded ++ words)
        obtain ⟨last, hlast, hend, hrun⟩ := ih hnext (by dsimp only; omega)
        exact ⟨last, hlast.head hnone hround, hend, by simp [Loading.run, hnone, hround, hrun]⟩

/-- In a memory whose page size admits pages all rounds go on. -/
theorem Ordered.advances (ordered : memory.Ordered)
    (le : memory.withPageSize.pageSize ≤ maxPageSize) : memory.Advances where
  storing address values accepted countable left := by
    have hsound := ordered.sound accepted countable
    refine ⟨fun storing hreaches hleft ↦ ?_, ?_⟩
    · obtain ⟨hnow, hsize⟩ := hreaches.sound hsound
      exact hnow.length_round_lt (by rw [hsize]; exact le) hleft
    · rw [store_eq_run accepted left]
      exact hsound.reaches_end le (Nat.le_refl _)
  loading address count accepted countable paged := by
    have hchosen := ordered.pageSize_pos paged
    have hvalid := ordered.valid le
    have hfits : Loading.Fits { address, left := count } := fun hne ↦
      fits_of_rangeRefusal? accepted (Nat.pos_of_ne_zero hne) countable
    refine ⟨fun loading hreaches hleft ↦ ?_, ?_⟩
    · obtain ⟨words, hround, hpos, hle, -⟩ :=
        hvalid.round hchosen (hreaches.fits hvalid hchosen hfits) hleft
      exact ⟨_, hround, by dsimp only; omega⟩
    · obtain ⟨last, hlast, hend, hrun⟩ := hfits.reaches_end hvalid hchosen (Nat.le_refl _)
      exact ⟨last, hlast, hend, by simpa [loadRange, accepted, paged] using hrun⟩

end Rounds

/-! ## The page table after any requests -/

/-- Whatever requests a memory has got, refused ones and those that lack a page included, its tables
fit together, and if the page size admits pages all its rounds go on. -/
theorem table_orderly (pageSize limit : Word) (requests : List Request) (nonneg : 0 ≤ pageSize)
    (countable : ∀ request ∈ requests, request.count < 0x8000000000000000) :
    let memory := (empty pageSize limit).after requests
    memory.Tabled (unit pageSize) ∧ (unit pageSize ≤ maxPageSize → memory.Advances) := by
  have hextends := (ordered_empty limit nonneg).extends_after countable
  have hsize : ((empty pageSize limit).after requests).withPageSize.pageSize = unit pageSize :=
    hextends.pageSize_eq.trans (pageSize_withPageSize _)
  have htabled := hextends.ordered.tabled
  rw [hsize] at htabled
  exact ⟨htabled, fun hle ↦ hextends.ordered.advances (hsize.symm ▸ hle)⟩

/-- Pages of three words that come in no order, two of them by one store. -/
theorem table_orderly_descending :
    let requests : List Request :=
      [.store 19 [1], .store 7 [2], .load (-1), .store 1 [3, 4, 5, 6], .loadInto 5 [0, 0, 0, 0]]
    let memory := (empty 3 0).after requests
    memory.bases = #[0, 3, 6, 18] ∧
      memory.contents = #[#[0, 3, 4], #[5, 6, 0], #[0, 2, 0], #[0, 1, 0]] ∧
      memory.findPage 8 = (2, true) ∧ memory.findPage 10 = (3, false) ∧
      memory.Tabled 3 ∧ memory.Advances := by
  intro requests memory
  have hcountable : ∀ request ∈ requests, request.count < 0x8000000000000000 := by decide
  obtain ⟨htabled, hadvances⟩ := table_orderly 3 0 requests (by decide) hcountable
  exact ⟨by decide +kernel, by decide +kernel, by decide +kernel, by decide +kernel, htabled,
    hadvances (by decide)⟩

/-- A page size of one word more than any page may have leaves a page without words, and the rounds
of a store and of a load into it stay where they are. -/
theorem table_orderly_wordless :
    let memory := (empty 0x200000000001 0).after [.store 0 [1]]
    memory.bases = #[0] ∧ memory.contents = #[#[]] ∧
      (¬∀ words ∈ memory.contents, words.size = memory.pageSize.toNatClampNeg) ∧
      memory.rangeRefusal? .store 0 1 = none ∧
      (Storing.round ⟨memory, 0, [1]⟩).address = 0 ∧
      (Storing.round ⟨memory, 0, [1]⟩).values = [1] ∧
      (memory.copyFrom 0 1).toOption = some [] := by
  decide +kernel

end WordLisp.Memory

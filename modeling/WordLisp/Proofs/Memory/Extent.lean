import WordLisp.Proofs.Memory.Table

/-!
# The size of a memory

The size of a memory is the end of its last page. It lies above all addresses that were stored to,
by one page at most, and grows with them (`size_bounds_stored`). But the end of the topmost page is
no address any more, and the size of a memory that has this page wraps around to a negative
number.
-/

namespace WordLisp.Memory

/-- The addresses that a request stores to if it is not refused. -/
def Request.stores : Request → List Word
  | .load _ | .loadInto _ _ => []
  | .store address values => (List.range values.length).map fun i ↦ address + Int64.ofNat i

/-- The addresses that a request has stored to. -/
def storedBy (memory : Memory) (request : Request) : List Word :=
  if (memory.answer request).2.error? = none then request.stores else []

/-- The addresses that requests have stored to. -/
def stored (memory : Memory) : List Request → List Word
  | [] => []
  | request :: rest => memory.storedBy request ++ (memory.answer request).1.stored rest

/-- Where the page of an address ends, which may be beyond the last address. -/
def pageEnd (pageSize address : Word) : Int :=
  (address.toInt / pageSize.toInt + 1) * pageSize.toInt

/-- The ends of the pages of addresses are addresses. -/
def EndInside (pageSize : Word) (stored : List Word) : Prop :=
  ∀ address ∈ stored, pageEnd pageSize address < 0x8000000000000000

instance (pageSize : Word) (stored : List Word) : Decidable (EndInside pageSize stored) :=
  List.decidableBAll _ stored

/-- A size is the end of a page, above all addresses, and of no later page than that of the greatest
of them. -/
structure Bounds (size pageSize : Word) (stored : List Word) : Prop where
  nonneg : 0 ≤ size
  multiple : pageSize.toInt ∣ size.toInt
  above : ∀ address ∈ stored, address < size
  near : ∀ address ∈ stored, (∀ other ∈ stored, other ≤ address) →
    size.toInt ≤ address.toInt + pageSize.toInt

/-! ## The pages of stored addresses -/

/-- The pages of a memory are those of the addresses that were stored to. If the page size admits
none, there are no such addresses. -/
structure Covers (memory : Memory) (pageSize : Word) (stored : List Word) : Prop where
  ordered : memory.Ordered
  pageSize_eq : memory.withPageSize.pageSize = pageSize
  nonneg : ∀ address ∈ stored, 0 ≤ address
  mem_bases : pageSize ≤ maxPageSize → ∀ base, base ∈ memory.bases ↔
    ∃ address ∈ stored, base = memory.withPageSize.pageBase address
  stored_eq : maxPageSize < pageSize → stored = []

namespace Covers

variable {memory : Memory} {pageSize : Word} {done : List Word}

/-- A memory without pages covers nothing. -/
theorem empty (limit : Word) (nonneg : 0 ≤ pageSize) :
    (Memory.empty pageSize limit).Covers (unit pageSize) [] where
  ordered := ordered_empty limit nonneg
  pageSize_eq := pageSize_withPageSize _
  nonneg _ h := nomatch h
  mem_bases _ base := by simp [Memory.empty]
  stored_eq _ := rfl

/-- A store that is not refused adds the pages of its addresses. -/
theorem storedAll (covers : memory.Covers pageSize done) (le : pageSize ≤ maxPageSize)
    {address : Word} {values : List Word} {next : Memory}
    (stored : memory.StoredAll address values next)
    (fits : values ≠ [] → 0 ≤ address ∧
      address.toInt + values.length ≤ 0x8000000000000000) :
    next.Covers pageSize
      (done ++ (List.range values.length).map fun i ↦ address + Int64.ofNat i) where
  ordered := stored.valid.toOrdered
  pageSize_eq := stored.pageSize_eq.trans covers.pageSize_eq
  nonneg other hother := by
    rcases List.mem_append.mp hother with hold | hnew
    · exact covers.nonneg other hold
    · obtain ⟨i, hi, rfl⟩ := List.mem_map.mp hnew
      have hlt := List.mem_range.mp hi
      obtain ⟨hnonneg, hend⟩ := fits (List.length_pos_iff.mp (by omega))
      exact Word.nonneg_add_ofNat hnonneg (by omega)
  mem_bases _ base := by
    rw [stored.mem_bases, covers.mem_bases le]
    simp only [pageBase, stored.pageSize_eq, List.mem_append, List.mem_map, List.mem_range]
    constructor
    · rintro (⟨other, hother, rfl⟩ | ⟨i, hi, rfl⟩)
      · exact ⟨other, .inl hother, rfl⟩
      · exact ⟨_, .inr ⟨i, hi, rfl⟩, rfl⟩
    · rintro ⟨other, hold | ⟨i, hi, rfl⟩, rfl⟩
      · exact .inl ⟨other, hold, rfl⟩
      · exact .inr ⟨i, hi, rfl⟩
  stored_eq gt := absurd le (Int64.not_le.mpr gt)

/-- A request adds the pages of the addresses that it has stored to. -/
theorem answer (covers : memory.Covers pageSize done) {request : Request}
    (countable : request.count < 0x8000000000000000) :
    (memory.answer request).1.Covers pageSize (done ++ memory.storedBy request) := by
  cases request with
  | load address =>
      have hnone : memory.storedBy (.load address) = [] := ite_self _
      rwa [hnone, List.append_nil]
  | loadInto address buffer =>
      have hnone : memory.storedBy (.loadInto address buffer) = [] := ite_self _
      rwa [hnone, List.append_nil]
  | store address values =>
      show (memory.store address values).1.Covers pageSize
        (done ++ if (memory.store address values).2 = none then _ else [])
      cases hrefusal : memory.rangeRefusal? .store address values.length with
      | some error =>
          have hstore : memory.store address values = (memory, some error) := by
            simp only [Memory.store, hrefusal]
          rw [hstore, if_neg (Option.some_ne_none error), List.append_nil]
          exact covers
      | none =>
          by_cases hle : pageSize ≤ maxPageSize
          · have hvalid := covers.ordered.valid (covers.pageSize_eq.symm ▸ hle)
            obtain ⟨next, hstored, hstore⟩ := hvalid.store values hrefusal countable
            rw [hstore, if_pos rfl]
            exact covers.storedAll hle hstored fun left ↦
              fits_of_rangeRefusal? hrefusal (List.length_pos_iff.mpr left) countable
          · have hgt := Int64.not_le.mp hle
            have hextends := covers.ordered.extends_answer (.store address values) countable
            have hnone : (if (memory.store address values).2 = none then
                Request.stores (.store address values) else []) = [] := by
              by_cases hempty : values = []
              · rw [hempty]
                exact ite_self _
              · have hlarge : maxPageSize < memory.pageSize := by
                  rw [← Int64.not_le, ← unit_le_iff, ← pageSize_withPageSize, covers.pageSize_eq]
                  exact hle
                have hstore := covers.ordered.store_large hlarge hrefusal countable hempty
                rw [hstore, if_neg (Option.some_ne_none _)]
            rw [hnone, List.append_nil]
            exact ⟨hextends.ordered, hextends.pageSize_eq.trans covers.pageSize_eq, covers.nonneg,
              fun le ↦ absurd le hle, covers.stored_eq⟩

/-- Requests add the pages of the addresses that they have stored to. -/
theorem after (covers : memory.Covers pageSize done) {requests : List Request}
    (countable : ∀ request ∈ requests, request.count < 0x8000000000000000) :
    (memory.after requests).Covers pageSize (done ++ memory.stored requests) := by
  induction requests generalizing memory done with
  | nil => rwa [stored, List.append_nil]
  | cons request rest ih =>
      rw [List.forall_mem_cons] at countable
      rw [stored, ← List.append_assoc]
      exact ih (covers.answer countable.1) countable.2

end Covers

/-! ## The end of the last page -/

section PageEnd

variable {pageSize : Word}

/-- The page of an address ends behind it, by its own size at most. -/
theorem pageEnd_bounds (chosen : 0 < pageSize) (address : Word) :
    address.toInt < pageEnd pageSize address ∧
      pageEnd pageSize address ≤ address.toInt + pageSize.toInt := by
  have hsize := Word.pos_iff.mp chosen
  have hle := Int.ediv_mul_le address.toInt (Int.ne_of_gt hsize)
  refine ⟨Int.lt_ediv_add_one_mul_self address.toInt hsize, ?_⟩
  rw [pageEnd, Int.add_mul, Int.one_mul]
  omega

/-- It ends where its base and its size say. -/
theorem pageEnd_eq {memory : Memory} {address : Word} (chosen : 0 < memory.pageSize)
    (nonneg : 0 ≤ address) :
    pageEnd memory.pageSize address =
      (memory.pageBase address).toInt + memory.pageSize.toInt := by
  rw [toInt_pageBase chosen nonneg, pageEnd, Int.add_mul, Int.one_mul]

end PageEnd

section Size

variable {memory next : Memory} {pageSize : Word} {done : List Word}

/-- Without pages the size is zero. -/
theorem size_eq_zero (unpaged : memory.bases = #[]) : memory.size = 0 := by
  simp [size, unpaged]

/-- The page size of a memory with pages has been chosen. -/
theorem Ordered.withPageSize_eq (ordered : memory.Ordered) (paged : memory.bases ≠ #[]) :
    memory.withPageSize = memory :=
  if_neg (mt ordered.chosen paged)

/-- The size of a memory with pages is the end of the greatest of them. -/
theorem Ordered.exists_last (ordered : memory.Ordered) (paged : memory.bases ≠ #[]) :
    ∃ base ∈ memory.bases, (∀ other ∈ memory.bases, other ≤ base) ∧
      memory.size = base + Int64.ofNat memory.pageLength := by
  have hpos : 0 < memory.bases.size := Array.size_pos_iff.mpr paged
  obtain ⟨base, hlast⟩ : ∃ base, memory.bases[memory.bases.size - 1]? = some base :=
    ⟨_, Array.getElem?_eq_getElem (Nat.sub_one_lt_of_lt hpos)⟩
  obtain ⟨words, hwords, hlength⟩ := ordered.exists_words hlast
  refine ⟨base, Array.mem_of_getElem? hlast, fun other hother ↦ ?_, ?_⟩
  · obtain ⟨i, hi⟩ := Array.mem_iff_getElem?.mp hother
    have hlt := (Array.getElem?_eq_some_iff.mp hi).1
    rcases Nat.lt_or_ge i (memory.bases.size - 1) with hbefore | hbehind
    · exact Int64.le_of_lt (ordered.base_lt_of_lt hi hlast hbefore)
    · obtain rfl : i = memory.bases.size - 1 := by omega
      rw [hlast] at hi
      exact Int64.le_of_eq (Option.some.inj hi).symm
  · simp only [size, Array.back?, hlast, hwords, hlength]

namespace Covers

/-- The size of a memory is the greatest end of a page of its addresses, wrapped around. -/
theorem size_eq (covers : memory.Covers pageSize done) (le : pageSize ≤ maxPageSize)
    (paged : memory.bases ≠ #[]) :
    ∃ address ∈ done, (∀ other ∈ done, pageEnd pageSize other ≤ pageEnd pageSize address) ∧
      memory.size = Int64.ofInt (pageEnd pageSize address) := by
  obtain ⟨base, hmem, hmax, hsize⟩ := covers.ordered.exists_last paged
  have hchosen := covers.ordered.withPageSize.2
  have hpageSize := covers.pageSize_eq
  have hbases := covers.mem_bases le
  rw [covers.ordered.withPageSize_eq paged] at hchosen hpageSize hbases
  subst hpageSize
  obtain ⟨address, haddress, rfl⟩ := (hbases base).mp hmem
  refine ⟨address, haddress, fun other hother ↦ ?_, ?_⟩
  · have hle := Int64.le_iff_toInt_le.mp (hmax _ ((hbases _).mpr ⟨other, hother, rfl⟩))
    rw [pageEnd_eq hchosen (covers.nonneg other hother),
      pageEnd_eq hchosen (covers.nonneg address haddress)]
    omega
  · rw [hsize, pageEnd_eq hchosen (covers.nonneg address haddress), Int64.ofInt_add,
      Int64.ofInt_toInt, Int64.ofInt_toInt, pageLength, if_pos le,
      Int64.ofNat_toNatClampNeg _ (Int64.le_of_lt hchosen)]

/-- Pages without words end where they begin. -/
theorem size_eq_base (covers : memory.Covers pageSize done) (gt : maxPageSize < pageSize)
    (paged : memory.bases ≠ #[]) :
    memory.size ∈ memory.bases ∧ ∀ other ∈ memory.bases, other ≤ memory.size := by
  obtain ⟨base, hmem, hmax, hsize⟩ := covers.ordered.exists_last paged
  have hpageSize := covers.pageSize_eq
  rw [covers.ordered.withPageSize_eq paged] at hpageSize
  have hbase : memory.size = base := by
    rw [hsize, pageLength, hpageSize, if_neg (Int64.not_le.mpr gt)]
    simp
  rw [hbase]
  exact ⟨hmem, hmax⟩

/-- The page size in force has been chosen. -/
theorem pageSize_pos (covers : memory.Covers pageSize done) : 0 < pageSize :=
  covers.pageSize_eq ▸ covers.ordered.withPageSize.2

/-- Without pages nothing was stored. -/
theorem stored_eq_nil (covers : memory.Covers pageSize done) (unpaged : memory.bases = #[]) :
    done = [] := by
  by_cases hle : pageSize ≤ maxPageSize
  · rw [List.eq_nil_iff_forall_not_mem]
    intro address haddress
    have hmem := (covers.mem_bases hle _).mpr ⟨address, haddress, rfl⟩
    simp [unpaged] at hmem
  · exact covers.stored_eq (Int64.not_le.mp hle)

/-- Where the ends of pages are addresses the size is the greatest of them. -/
theorem toInt_size (covers : memory.Covers pageSize done) (le : pageSize ≤ maxPageSize)
    (paged : memory.bases ≠ #[]) (inside : EndInside pageSize done) :
    ∃ address ∈ done, (∀ other ∈ done, pageEnd pageSize other ≤ pageEnd pageSize address) ∧
      memory.size.toInt = pageEnd pageSize address := by
  obtain ⟨address, haddress, hmax, hsize⟩ := covers.size_eq le paged
  have hend := pageEnd_bounds covers.pageSize_pos address
  have hlow := address.le_toInt
  have hhigh := inside address haddress
  refine ⟨address, haddress, hmax, ?_⟩
  rw [hsize, Int64.toInt_ofInt_of_le (by omega) (by omega)]

/-- The size lies above the addresses, at the end of a page, and not far. -/
theorem bounds (covers : memory.Covers pageSize done) (inside : EndInside pageSize done) :
    Bounds memory.size pageSize done := by
  by_cases hpaged : memory.bases = #[]
  · rw [size_eq_zero hpaged, covers.stored_eq_nil hpaged]
    exact ⟨Int64.le_rfl, by simp, by simp, by simp⟩
  · by_cases hle : pageSize ≤ maxPageSize
    · obtain ⟨address, haddress, hmax, hsize⟩ := covers.toInt_size hle hpaged inside
      have hends := pageEnd_bounds covers.pageSize_pos
      have hnonneg := Word.nonneg_iff.mp (covers.nonneg address haddress)
      refine ⟨?_, ?_, fun other hother ↦ ?_, fun other hother hgreatest ↦ ?_⟩
      · rw [Word.nonneg_iff, hsize]
        have := hends address
        omega
      · rw [hsize]
        exact Int.dvd_mul_left _ _
      · rw [Int64.lt_iff_toInt_lt, hsize]
        have := hends other
        have := hmax other hother
        omega
      · have hother := Int64.le_iff_toInt_le.mp (hgreatest address haddress)
        have := hends address
        omega
    · have hgt := Int64.not_le.mp hle
      obtain ⟨hmem, -⟩ := covers.size_eq_base hgt hpaged
      obtain ⟨hnonneg, hmultiple⟩ := covers.ordered.tabled.multiple _ hmem
      rw [covers.pageSize_eq] at hmultiple
      rw [covers.stored_eq hgt]
      exact ⟨hnonneg, hmultiple, by simp, by simp⟩

/-- If the end of a page is no address the size wraps around. -/
theorem size_neg (covers : memory.Covers pageSize done) (beyond : ¬EndInside pageSize done) :
    memory.size < 0 := by
  simp only [EndInside, Classical.not_forall, Int.not_lt] at beyond
  obtain ⟨other, hother, hbeyond⟩ := beyond
  have hle : pageSize ≤ maxPageSize := by
    refine Int64.not_lt.mp fun hgt ↦ ?_
    rw [covers.stored_eq hgt] at hother
    cases hother
  have hpaged : memory.bases ≠ #[] := by
    intro hunpaged
    rw [covers.stored_eq_nil hunpaged] at hother
    cases hother
  obtain ⟨address, haddress, hmax, hsize⟩ := covers.size_eq hle hpaged
  have hend := pageEnd_bounds covers.pageSize_pos address
  have hbound := hmax other hother
  have hlow := address.toInt_lt
  have hhigh := pageSize.toInt_lt
  have hsize64 : Int64.size = 2 ^ 64 := rfl
  rw [Int64.lt_iff_toInt_lt, hsize, Int64.toInt_ofInt, Int64.toInt_zero, Int.bmod_def, hsize64]
  omega

/-- More requests make a memory larger, or leave its size. -/
theorem size_le (covers : memory.Covers pageSize done) {more : List Word}
    (next_covers : next.Covers pageSize (done ++ more)) (grown : memory.Extends next)
    (inside : EndInside pageSize (done ++ more)) : memory.size ≤ next.size := by
  by_cases hpaged : memory.bases = #[]
  · rw [size_eq_zero hpaged]
    exact (next_covers.bounds inside).nonneg
  · have hnext : next.bases ≠ #[] := by
      intro hunpaged
      obtain ⟨base, hmem, -⟩ := covers.ordered.exists_last hpaged
      have hkept := grown.mem_bases base hmem
      simp [hunpaged] at hkept
    by_cases hle : pageSize ≤ maxPageSize
    · have hbefore : EndInside pageSize done := fun address haddress ↦
        inside address (List.mem_append_left more haddress)
      obtain ⟨address, haddress, -, hsize⟩ := covers.toInt_size hle hpaged hbefore
      obtain ⟨last, -, hmax, hnext_size⟩ := next_covers.toInt_size hle hnext inside
      rw [Int64.le_iff_toInt_le, hsize, hnext_size]
      exact hmax address (List.mem_append_left more haddress)
    · have hgt := Int64.not_le.mp hle
      obtain ⟨hmem, -⟩ := covers.size_eq_base hgt hpaged
      exact (next_covers.size_eq_base hgt hnext).2 _ (grown.mem_bases _ hmem)

end Covers

end Size

/-! ## The size after any requests -/

/-- Requests, and then more of them. -/
theorem after_append (memory : Memory) (requests more : List Request) :
    memory.after (requests ++ more) = (memory.after requests).after more := by
  induction requests generalizing memory with
  | nil => rfl
  | cons request rest ih => exact ih _

theorem stored_append (memory : Memory) (requests more : List Request) :
    memory.stored (requests ++ more) =
      memory.stored requests ++ (memory.after requests).stored more := by
  induction requests generalizing memory with
  | nil => rfl
  | cons request rest ih => simp only [List.cons_append, stored, after, ih, List.append_assoc]

/-- Whatever requests a memory has got, its size is the end of a page, above all addresses that were
stored to and by one page above the greatest at most, as long as the pages of these addresses end at
an address, and more requests do not make it smaller. Otherwise it is negative. -/
theorem size_bounds_stored (pageSize limit : Word) (requests more : List Request)
    (nonneg : 0 ≤ pageSize)
    (countable : ∀ request ∈ requests ++ more, request.count < 0x8000000000000000) :
    let start := empty pageSize limit
    let size := (start.after requests).size
    (EndInside (unit pageSize) (start.stored requests) →
      Bounds size (unit pageSize) (start.stored requests)) ∧
    (EndInside (unit pageSize) (start.stored (requests ++ more)) →
      size ≤ (start.after (requests ++ more)).size) ∧
    (¬EndInside (unit pageSize) (start.stored requests) → size < 0) := by
  intro start size
  rw [List.forall_mem_append] at countable
  have hcovers : (start.after requests).Covers (unit pageSize) (start.stored requests) :=
    (Covers.empty limit nonneg).after countable.1
  refine ⟨hcovers.bounds, fun hinside ↦ ?_, hcovers.size_neg⟩
  rw [after_append]
  rw [stored_append] at hinside
  exact hcovers.size_le (hcovers.after countable.2)
    (hcovers.ordered.extends_after countable.2) hinside

/-- Pages of the default size, the last of them the last but one of all. -/
theorem size_bounds_stored_late :
    let start := empty 0 0
    let requests : List Request := [.store 300 [1, 2], .store 3 [4], .load (-1)]
    let more : List Request := [.store 9223372036854775500 [5], .store (-1) [6]]
    start.stored requests = [300, 301, 3] ∧ (start.after requests).size = 512 ∧
      Bounds 512 256 [300, 301, 3] ∧
      (start.after requests).size ≤ (start.after (requests ++ more)).size ∧
      (start.after (requests ++ more)).size = 9223372036854775552 := by
  intro start requests more
  have hcountable : ∀ request ∈ requests ++ more, request.count < 0x8000000000000000 := by decide
  obtain ⟨hbounds, hmore, -⟩ := size_bounds_stored 0 0 requests more (by decide) hcountable
  have hstored : start.stored requests = [300, 301, 3] := by decide +kernel
  have hsize : (start.after requests).size = 512 := by decide +kernel
  have hbefore : EndInside 256 (start.stored requests) := by decide +kernel
  have hafter : EndInside 256 (start.stored (requests ++ more)) := by decide +kernel
  have hlast := hbounds hbefore
  rw [hstored] at hlast
  exact ⟨hstored, hsize, hsize ▸ hlast, hmore hafter, by decide +kernel⟩

/-- A store to the last address succeeds, and leaves a memory of negative size. -/
theorem size_wraps :
    let memory := (empty 256 0).after [.store 9223372036854775807 [1]]
    (empty 256 0).stored [.store 9223372036854775807 [1]] = [9223372036854775807] ∧
      memory.size = -9223372036854775808 ∧ ¬9223372036854775807 < memory.size := by
  decide +kernel

end WordLisp.Memory

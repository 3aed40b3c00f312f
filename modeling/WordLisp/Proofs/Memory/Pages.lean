import WordLisp.Memory.Basic
import WordLisp.Proofs.Search

/-!
# Pages

The two tables of a memory hold one page at every index: its base and its words
(`Memory.pages`). Whatever was stored, the bases are in order and aligned and no page is longer or
shorter than the others: `Memory.Ordered`. The search for a page then ends at the border between the
pages that start earlier and the others (`Ordered.pageIndex_le_iff`), so that it finds a page if and
only if that is there (`Ordered.findPage_eq`). If its page size admits pages too, a memory is
`Valid`.
-/

namespace WordLisp.Memory

/-- The pages of a memory: each base with the words at its index. -/
def pages (memory : Memory) : Array Page :=
  memory.bases.zipWith Page.mk memory.contents

/-- The number of words that a page gets: none if the page size is too large. -/
def pageLength (memory : Memory) : Nat :=
  if memory.pageSize ≤ maxPageSize then memory.pageSize.toNatClampNeg else 0

/-- The bases are in strict order and multiples of the page size, and each has words, as many as a
page gets. -/
structure Ordered (memory : Memory) : Prop where
  size_nonneg : 0 ≤ memory.pageSize
  /-- A page size is chosen before the first page is allocated. -/
  chosen : memory.pageSize = 0 → memory.bases = #[]
  paired : memory.contents.size = memory.bases.size
  sorted : memory.bases.toList.Pairwise (· < ·)
  aligned : ∀ base ∈ memory.bases, 0 ≤ base ∧ memory.pageBase base = base
  sized : ∀ words ∈ memory.contents, words.size = memory.pageLength

/-- The pages are in order, and their size admits pages. -/
structure Valid (memory : Memory) : Prop extends memory.Ordered where
  size_le : memory.pageSize ≤ maxPageSize

/-- A memory without pages is in order. -/
theorem ordered_empty {pageSize : Word} (limit : Word) (nonneg : 0 ≤ pageSize) :
    (empty pageSize limit).Ordered where
  size_nonneg := nonneg
  chosen _ := rfl
  paired := rfl
  sorted := .nil
  aligned := by simp [empty]
  sized := by simp [empty]

/-- A memory without pages is valid if its page size admits pages. -/
theorem valid_empty {pageSize : Word} (limit : Word) (nonneg : 0 ≤ pageSize)
    (le : pageSize ≤ maxPageSize) : (empty pageSize limit).Valid :=
  ⟨ordered_empty limit nonneg, le⟩

section PageBase

variable {memory : Memory} {address : Word}

/-- The base of a page is a multiple of the page size. -/
theorem toInt_pageBase (chosen : 0 < memory.pageSize) (nonneg : 0 ≤ address) :
    (memory.pageBase address).toInt =
      address.toInt / memory.pageSize.toInt * memory.pageSize.toInt := by
  have hsize := Word.pos_iff.mp chosen
  have haddress := Word.nonneg_iff.mp nonneg
  have hne : memory.pageSize ≠ -1 := by
    rintro h
    rw [h] at hsize
    exact absurd hsize (by decide)
  have hle : address.toInt / memory.pageSize.toInt * memory.pageSize.toInt ≤ address.toInt :=
    Int.ediv_mul_le _ (Int.ne_of_gt hsize)
  have hpos : 0 ≤ address.toInt / memory.pageSize.toInt * memory.pageSize.toInt :=
    Int.mul_nonneg (Int.ediv_nonneg haddress (Int.le_of_lt hsize)) (Int.le_of_lt hsize)
  have hlt := address.toInt_lt
  rw [pageBase, Int64.toInt_mul, Int64.toInt_div_of_ne_right _ _ hne,
    Int.tdiv_eq_ediv_of_nonneg haddress]
  exact Int.bmod_eq_of_le (by omega) (by omega)

/-- An address lies in its page. -/
theorem pageBase_bounds (chosen : 0 < memory.pageSize) (nonneg : 0 ≤ address) :
    0 ≤ (memory.pageBase address).toInt ∧ (memory.pageBase address).toInt ≤ address.toInt ∧
      address.toInt < (memory.pageBase address).toInt + memory.pageSize.toInt := by
  have hsize := Word.pos_iff.mp chosen
  have haddress := Word.nonneg_iff.mp nonneg
  rw [toInt_pageBase chosen nonneg]
  refine ⟨?_, Int.ediv_mul_le _ (Int.ne_of_gt hsize), ?_⟩
  · exact Int.mul_nonneg (Int.ediv_nonneg haddress (Int.le_of_lt hsize)) (Int.le_of_lt hsize)
  · have := Int.lt_ediv_add_one_mul_self address.toInt hsize
    rwa [Int.add_mul, Int.one_mul] at this

/-- The base of a page is an address. -/
theorem pageBase_nonneg (chosen : 0 < memory.pageSize) (nonneg : 0 ≤ address) :
    0 ≤ memory.pageBase address :=
  Word.nonneg_iff.mpr (pageBase_bounds chosen nonneg).1

/-- The base of a page belongs to that page. -/
theorem pageBase_pageBase (chosen : 0 < memory.pageSize) (nonneg : 0 ≤ address) :
    memory.pageBase (memory.pageBase address) = memory.pageBase address := by
  have hsize := Word.pos_iff.mp chosen
  have hbase := pageBase_nonneg chosen nonneg
  apply Int64.toInt.inj
  rw [toInt_pageBase chosen hbase, toInt_pageBase chosen nonneg,
    Int.mul_ediv_cancel _ (Int.ne_of_gt hsize)]

/-- The base of a page is not above its addresses. -/
theorem offset_nonneg (chosen : 0 < memory.pageSize) (nonneg : 0 ≤ address) :
    0 ≤ address - memory.pageBase address := by
  have hle := Int64.le_iff_toInt_le.mpr (pageBase_bounds chosen nonneg).2.1
  exact Int64.sub_nonneg_of_le (pageBase_nonneg chosen nonneg) hle

/-- The offset of an address in its page. -/
theorem offset_eq (chosen : 0 < memory.pageSize) (nonneg : 0 ≤ address) :
    ((address - memory.pageBase address).toNatClampNeg : Int) =
      address.toInt - (memory.pageBase address).toInt := by
  have hle := Int64.le_iff_toInt_le.mpr (pageBase_bounds chosen nonneg).2.1
  rw [Int64.cast_toNatClampNeg _ (offset_nonneg chosen nonneg),
    Int64.toInt_sub_of_le _ _ (pageBase_nonneg chosen nonneg) hle]

/-- The offset of an address is one of its page. -/
theorem offset_lt (chosen : 0 < memory.pageSize) (nonneg : 0 ≤ address) :
    (address - memory.pageBase address).toNatClampNeg < memory.pageSize.toNatClampNeg := by
  have hbounds := pageBase_bounds chosen nonneg
  have hoffset := offset_eq chosen nonneg
  have hsize := Int64.cast_toNatClampNeg _ (Int64.le_of_lt chosen)
  omega

/-- An address belongs to a page if it lies in it. -/
theorem pageBase_eq_iff {other : Word} (chosen : 0 < memory.pageSize) (nonneg : 0 ≤ address)
    (other_nonneg : 0 ≤ other) :
    memory.pageBase other = memory.pageBase address ↔
      (memory.pageBase address).toInt ≤ other.toInt ∧
        other.toInt < (memory.pageBase address).toInt + memory.pageSize.toInt := by
  have hsize := Word.pos_iff.mp chosen
  constructor
  · intro heq
    have hbounds := pageBase_bounds chosen other_nonneg
    rw [heq] at hbounds
    exact hbounds.2
  · rintro ⟨hle, hlt⟩
    have hbase := toInt_pageBase chosen nonneg
    have hquotient :
        other.toInt / memory.pageSize.toInt = address.toInt / memory.pageSize.toInt := by
      apply Int.le_antisymm
      · apply Int.le_of_lt_add_one
        rw [Int.ediv_lt_iff_lt_mul hsize, Int.add_mul]
        omega
      · rw [Int.le_ediv_iff_mul_le hsize]
        omega
    apply Int64.toInt.inj
    rw [toInt_pageBase chosen other_nonneg, hquotient, hbase]

end PageBase

/-! ## The search for a page -/

/-- A page stands at an index if its base and its words do. -/
theorem getElem?_pages_eq_some_iff {memory : Memory} {i : Nat} {page : Page} :
    memory.pages[i]? = some page ↔
      memory.bases[i]? = some page.base ∧ memory.contents[i]? = some page.words := by
  rw [pages, Array.getElem?_zipWith_eq_some]
  constructor
  · rintro ⟨base, words, hbase, hwords, rfl⟩
    exact ⟨hbase, hwords⟩
  · rintro ⟨hbase, hwords⟩
    exact ⟨_, _, hbase, hwords, rfl⟩

/-- The search among the bases goes through their list. -/
theorem pageIndex_eq (memory : Memory) (base : Word) :
    memory.pageIndex base =
      search (fun i ↦ memory.bases.toList[i]?.any (base ≤ ·)) 0 memory.bases.toList.length := by
  simp [pageIndex]

/-- The search does not leave the table. -/
theorem pageIndex_le (memory : Memory) (base : Word) :
    memory.pageIndex base ≤ memory.bases.size :=
  search_le _ (Nat.zero_le _)

namespace Ordered

variable {memory : Memory} {address base : Word}

/-- Each base has words. -/
theorem exists_words (ordered : memory.Ordered) {i : Nat} (found : memory.bases[i]? = some base) :
    ∃ words, memory.contents[i]? = some words ∧ words.size = memory.pageLength := by
  have hi : i < memory.contents.size := by
    rw [ordered.paired]
    exact (Array.getElem?_eq_some_iff.mp found).1
  exact ⟨_, Array.getElem?_eq_getElem hi, ordered.sized _ (Array.getElem_mem hi)⟩

/-- The bases are those of the pages. -/
theorem mem_bases_iff (ordered : memory.Ordered) :
    base ∈ memory.bases ↔ ∃ page ∈ memory.pages, page.base = base := by
  constructor
  · intro hmem
    obtain ⟨i, hi⟩ := Array.mem_iff_getElem?.mp hmem
    obtain ⟨words, hwords, -⟩ := ordered.exists_words hi
    have hpage : memory.pages[i]? = some ⟨base, words⟩ :=
      getElem?_pages_eq_some_iff.mpr ⟨hi, hwords⟩
    exact ⟨_, Array.mem_of_getElem? hpage, rfl⟩
  · rintro ⟨page, hmem, rfl⟩
    obtain ⟨i, hi⟩ := Array.mem_iff_getElem?.mp hmem
    exact Array.mem_of_getElem? (getElem?_pages_eq_some_iff.mp hi).1

/-- Of two bases in the table the earlier one is smaller. -/
theorem base_lt_of_lt (ordered : memory.Ordered) {i j : Nat} {first second : Word}
    (hfirst : memory.bases[i]? = some first) (hsecond : memory.bases[j]? = some second)
    (h : i < j) : first < second := by
  obtain ⟨hi, rfl⟩ := Array.getElem?_eq_some_iff.mp hfirst
  obtain ⟨hj, rfl⟩ := Array.getElem?_eq_some_iff.mp hsecond
  exact List.pairwise_iff_getElem.mp ordered.sorted i j hi hj h

/-- The index of a base stands behind all those that are smaller. -/
theorem pageIndex_le_iff (ordered : memory.Ordered) {other : Word} {i : Nat}
    (found : memory.bases[i]? = some other) : memory.pageIndex base ≤ i ↔ base ≤ other := by
  rw [← Array.getElem?_toList] at found
  rw [pageIndex_eq, search_getElem?_le_iff ordered.sorted ?_ found]
  · exact decide_eq_true_iff
  · intro earlier later horder hle
    exact decide_eq_true (Int64.le_trans (of_decide_eq_true hle) (Int64.le_of_lt horder))

/-- A base of the table stands at its index. -/
theorem getElem?_pageIndex (ordered : memory.Ordered) (mem : base ∈ memory.bases) :
    memory.bases[memory.pageIndex base]? = some base := by
  rw [pageIndex_eq, ← Array.getElem?_toList]
  refine getElem?_search ordered.sorted ?_ (Array.mem_toList_iff.mpr mem) ?_ ?_
  · intro earlier later horder hle
    exact decide_eq_true (Int64.le_trans (of_decide_eq_true hle) (Int64.le_of_lt horder))
  · exact decide_eq_true Int64.le_rfl
  · intro earlier horder hle
    exact Int64.not_lt.mpr (of_decide_eq_true hle) horder

/-- A base stands nowhere else. -/
theorem eq_pageIndex (ordered : memory.Ordered) {i : Nat} (found : memory.bases[i]? = some base) :
    i = memory.pageIndex base := by
  have hindex := ordered.getElem?_pageIndex (Array.mem_of_getElem? found)
  rcases Nat.lt_trichotomy i (memory.pageIndex base) with hlt | heq | hlt
  · exact absurd (ordered.base_lt_of_lt found hindex hlt) Int64.lt_irrefl
  · exact heq
  · exact absurd (ordered.base_lt_of_lt hindex found hlt) Int64.lt_irrefl

/-- The page of an address is found exactly if its base is in the table. -/
theorem findPage_eq (ordered : memory.Ordered) (address : Word) :
    memory.findPage address =
      (memory.pageIndex (memory.pageBase address),
        decide (memory.pageBase address ∈ memory.bases)) := by
  have hiff : memory.bases[memory.pageIndex (memory.pageBase address)]? =
      some (memory.pageBase address) ↔ memory.pageBase address ∈ memory.bases :=
    ⟨Array.mem_of_getElem?, ordered.getElem?_pageIndex⟩
  simp only [findPage, hiff]

/-- A page stands at the index of its base. -/
theorem getElem?_pages_pageIndex (ordered : memory.Ordered) {page : Page}
    (mem : page ∈ memory.pages) : memory.pages[memory.pageIndex page.base]? = some page := by
  obtain ⟨i, hi⟩ := Array.mem_iff_getElem?.mp mem
  obtain rfl := ordered.eq_pageIndex (getElem?_pages_eq_some_iff.mp hi).1
  exact hi

/-- A look-up finds exactly the page with the base of the address. -/
theorem page?_eq_some_iff (ordered : memory.Ordered) {page : Page} :
    memory.page? address = some page ↔
      page ∈ memory.pages ∧ page.base = memory.pageBase address := by
  simp only [page?, ordered.findPage_eq]
  constructor
  · intro hpage
    split at hpage
    · next hmem =>
        obtain ⟨words, hwords, rfl⟩ := Option.map_eq_some_iff.mp hpage
        have hbase := ordered.getElem?_pageIndex (of_decide_eq_true hmem)
        exact ⟨Array.mem_of_getElem? (getElem?_pages_eq_some_iff.mpr ⟨hbase, hwords⟩), rfl⟩
    · cases hpage
  · rintro ⟨hmem, hbase⟩
    have hfound := getElem?_pages_eq_some_iff.mp (ordered.getElem?_pages_pageIndex hmem)
    rw [hbase] at hfound
    rw [if_pos (decide_eq_true (Array.mem_of_getElem? hfound.1)), hfound.2, ← hbase]
    rfl

/-- A page that a look-up does not find is not there. -/
theorem page?_eq_none_iff (ordered : memory.Ordered) :
    memory.page? address = none ↔ memory.pageBase address ∉ memory.bases := by
  rw [ordered.mem_bases_iff, Option.eq_none_iff_forall_ne_some]
  constructor
  · rintro habsent ⟨page, hmem, hbase⟩
    exact habsent page (ordered.page?_eq_some_iff.mpr ⟨hmem, hbase⟩)
  · intro habsent page hpage
    exact habsent ⟨page, ordered.page?_eq_some_iff.mp hpage⟩

/-- Without pages there are no words. -/
theorem contents_eq (ordered : memory.Ordered) (unpaged : memory.bases = #[]) :
    memory.contents = #[] := by
  rw [← Array.size_eq_zero_iff, ordered.paired, unpaged, Array.size_empty]

/-- A page size is chosen in a memory with pages. -/
theorem pageSize_pos (ordered : memory.Ordered) (paged : memory.contents.isEmpty = false) :
    0 < memory.pageSize := by
  refine Int64.lt_of_le_of_ne ordered.size_nonneg fun hzero ↦ ?_
  rw [ordered.contents_eq (ordered.chosen hzero.symm)] at paged
  cases paged

/-- A memory with a base has words. -/
theorem isEmpty_contents (ordered : memory.Ordered) (mem : base ∈ memory.bases) :
    memory.contents.isEmpty = false := by
  obtain ⟨i, hi⟩ := Array.mem_iff_getElem?.mp mem
  obtain ⟨words, hwords, -⟩ := ordered.exists_words hi
  exact Array.isEmpty_eq_false_iff.mpr (Array.ne_empty_of_mem (Array.mem_of_getElem? hwords))

/-- All pages have the same number of words. -/
theorem size_words (ordered : memory.Ordered) {page : Page} (mem : page ∈ memory.pages) :
    page.words.size = memory.pageLength := by
  obtain ⟨i, hi⟩ := Array.mem_iff_getElem?.mp mem
  exact ordered.sized _ (Array.mem_of_getElem? (getElem?_pages_eq_some_iff.mp hi).2)

/-- The word at an address whose page has been allocated. -/
theorem word_eq_of_mem (ordered : memory.Ordered) {page : Page} {value : Word}
    (mem : page ∈ memory.pages) (base : page.base = memory.pageBase address)
    (found : page.words[(address - page.base).toNatClampNeg]? = some value) :
    memory.word address = .ok value := by
  have hsome := ordered.isEmpty_contents (ordered.mem_bases_iff.mpr ⟨page, mem, rfl⟩)
  have hpage : memory.page? address = some page := ordered.page?_eq_some_iff.mpr ⟨mem, base⟩
  simp [word, hsome, hpage, Page.word?, found]

/-- An address whose page has not been allocated holds zero. -/
theorem word_eq_zero (ordered : memory.Ordered)
    (absent : memory.pageBase address ∉ memory.bases) : memory.word address = .ok 0 := by
  simp [word, ordered.page?_eq_none_iff.mpr absent]

/-- Memories with the same page for an address have the same word there. -/
theorem word_congr (ordered : memory.Ordered) {next : Memory} (next_ordered : next.Ordered)
    (base : next.pageBase address = memory.pageBase address)
    (same : ∀ page : Page, page.base = memory.pageBase address →
      (page ∈ next.pages ↔ page ∈ memory.pages)) :
    next.word address = memory.word address := by
  have hpage : next.page? address = memory.page? address := by
    apply Option.ext
    intro page
    rw [next_ordered.page?_eq_some_iff, ordered.page?_eq_some_iff, base]
    exact and_congr_left (same page)
  cases hfound : memory.page? address with
  | none => simp [word, hpage, hfound]
  | some page =>
      have hmem := (ordered.page?_eq_some_iff.mp hfound).1
      have hpaged := ordered.isEmpty_contents (ordered.mem_bases_iff.mpr ⟨page, hmem, rfl⟩)
      rw [hfound] at hpage
      have hkept := (next_ordered.page?_eq_some_iff.mp hpage).1
      have hnext := next_ordered.isEmpty_contents
        (next_ordered.mem_bases_iff.mpr ⟨page, hkept, rfl⟩)
      simp [word, hpage, hfound, hpaged, hnext]

end Ordered

namespace Valid

variable {memory : Memory}

/-- The pages of a valid memory are as long as the page size says. -/
theorem pageLength_eq (valid : memory.Valid) :
    memory.pageLength = memory.pageSize.toNatClampNeg :=
  if_pos valid.size_le

/-- They are filled. -/
theorem filled (valid : memory.Valid) {page : Page} (mem : page ∈ memory.pages) :
    page.words.size = memory.pageSize.toNatClampNeg :=
  (valid.size_words mem).trans valid.pageLength_eq

end Valid

end WordLisp.Memory

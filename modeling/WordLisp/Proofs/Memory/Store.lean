import WordLisp.Proofs.Memory.Pages
import WordLisp.Word

/-!
# Stores

A store goes round by round. A round allocates the page of its address, which changes no word
(`Valid.word_allocate`), and copies values into it up to its end (`Valid.word_copyTo`). A store that
is not refused changes the words it is about and no others, and keeps the memory valid
(`Valid.store`).
-/

namespace WordLisp.Memory

/-! ## Accepted addresses -/

section Accepted

variable {memory : Memory} {access : Access} {address : Word} {count : Nat}

/-- An address that is not refused is not negative. -/
theorem nonneg_of_refusal? (accepted : memory.refusal? access address = none) : 0 ≤ address := by
  rw [refusal?] at accepted
  split at accepted
  · cases accepted
  · next h => exact Int64.not_lt.mp h

/-- The addresses that a memory with a limit refuses. -/
theorem refusal?_eq_of_pos {limit : Word} (limited : memory.limit = limit) (pos : 0 < limit)
    (access : Access) (address : Word) :
    memory.refusal? access address =
      if address < 0 then some (.negative access address)
      else if limit ≤ address then some (.pastLimit access address limit)
      else none := by
  have hne : limit ≠ 0 := fun hzero ↦ Int64.ne_of_lt pos hzero.symm
  simp only [refusal?, limited, ne_eq, hne, not_false_eq_true, true_and]

/-- Words that are not refused lie between address 0 and the end of the addresses: if they went past
it, their last address would be negative. -/
theorem fits_of_rangeRefusal? (accepted : memory.rangeRefusal? access address count = none)
    (pos : 0 < count) (countable : count < 0x8000000000000000) :
    0 ≤ address ∧ address.toInt + count ≤ 0x8000000000000000 := by
  rw [rangeRefusal?, if_neg (Nat.ne_of_gt pos), Option.orElse_eq_orElse, Option.orElse_eq_or,
    Option.or_eq_none_iff] at accepted
  obtain ⟨hfirst, hlast⟩ := accepted
  have hnonneg := nonneg_of_refusal? hfirst
  have hend := nonneg_of_refusal? hlast
  have haddress := Word.nonneg_iff.mp hnonneg
  have hbound := address.toInt_lt
  rw [Word.nonneg_iff, Int64.toInt_sub, Int64.toInt_add,
    Int64.toInt_ofNat_of_lt countable] at hend
  simp only [Int64.toInt_one, Int.bmod_def] at hend
  refine ⟨hnonneg, ?_⟩
  omega

end Accepted

/-! ## Allocation -/

section Allocation

variable {memory : Memory}

@[simp] theorem pageSize_allocate (memory : Memory) (address : Word) :
    (memory.allocate address).pageSize = memory.pageSize := by
  simp only [allocate]
  split <;> rfl

@[simp] theorem limit_allocate (memory : Memory) (address : Word) :
    (memory.allocate address).limit = memory.limit := by
  simp only [allocate]
  split <;> rfl

@[simp] theorem pageBase_allocate (memory : Memory) (address other : Word) :
    (memory.allocate address).pageBase other = memory.pageBase other := by
  simp [pageBase]

@[simp] theorem pageLength_allocate (memory : Memory) (address : Word) :
    (memory.allocate address).pageLength = memory.pageLength := by
  simp [pageLength]

/-- A fresh page has as many words as a page gets. -/
theorem size_freshWords (chosen : 0 < memory.pageSize) :
    (freshWords memory.pageSize).size = memory.pageLength := by
  unfold freshWords pageLength
  by_cases hle : memory.pageSize ≤ maxPageSize
  · simp [chosen, hle]
  · simp [hle]

/-- An element inserted into a list in order keeps the order exactly if those before it are smaller
and those behind it greater. -/
theorem pairwise_insertIdx {α : Type} {order : α → α → Prop} {elements : List α} {i : Nat}
    (le : i ≤ elements.length) (a : α) :
    (elements.insertIdx i a).Pairwise order ↔
      elements.Pairwise order ∧ (∀ b ∈ elements.take i, order b a) ∧
        ∀ b ∈ elements.drop i, order a b := by
  induction i generalizing elements with
  | zero => simp [and_comm]
  | succ i ih =>
      cases elements with
      | nil => cases le
      | cons first rest =>
          have hrest : i ≤ rest.length := Nat.le_of_succ_le_succ le
          simp only [List.insertIdx_succ_cons, List.pairwise_cons, List.mem_insertIdx hrest,
            ih hrest, List.take_succ_cons, List.drop_succ_cons, List.forall_mem_cons]
          grind

/-- Two tables that get an entry each at one index are paired as before, with one pair more. -/
theorem zipWith_insertIdx {α β γ : Type} (f : α → β → γ) (as : List α) (bs : List β) (a : α)
    (b : β) (h : as.length = bs.length) (i : Nat) :
    List.zipWith f (as.insertIdx i a) (bs.insertIdx i b) =
      (List.zipWith f as bs).insertIdx i (f a b) := by
  induction i generalizing as bs with
  | zero => rfl
  | succ i ih =>
      cases as with
      | nil =>
          obtain rfl := List.length_eq_zero_iff.mp h.symm
          rfl
      | cons first rest =>
          cases bs with
          | nil => cases h
          | cons second others =>
              simp only [List.insertIdx_succ_cons, List.zipWith_cons_cons,
                ih rest others (Nat.succ.inj h)]

end Allocation

namespace Ordered

variable {memory : Memory} {address base : Word}

/-- The index of a base that is not in the table is the only one where it can be inserted without
harm to the order. -/
theorem sorted_insertIdx_iff (ordered : memory.Ordered) (absent : base ∉ memory.bases) {i : Nat}
    (le : i ≤ memory.bases.size) :
    (memory.bases.insertIdx i base le).toList.Pairwise (· < ·) ↔ i = memory.pageIndex base := by
  have hborder : ∀ {j other}, memory.bases.toList[j]? = some other →
      (memory.pageIndex base ≤ j ↔ base ≤ other) := fun hj ↦
    ordered.pageIndex_le_iff (Array.getElem?_toList.symm.trans hj)
  rw [Array.toList_insertIdx, pairwise_insertIdx le]
  constructor
  · rintro ⟨-, hbefore, hbehind⟩
    have hle := memory.pageIndex_le base
    rcases Nat.lt_trichotomy i (memory.pageIndex base) with hlt | heq | hlt
    · -- The base that stands at `i` is smaller, though it would come behind.
      have hi : i < memory.bases.toList.length := by
        rw [Array.length_toList]
        omega
      have hgreater := hbehind _ (List.mem_drop_iff_getElem.mpr ⟨0, by simpa using hi, rfl⟩)
      have hindex := (hborder (List.getElem?_eq_getElem hi)).mpr (Int64.le_of_lt hgreater)
      omega
    · exact heq
    · -- The base that stands at its index is not smaller, though it would come before.
      have hi : memory.pageIndex base < memory.bases.toList.length := by
        rw [Array.length_toList]
        omega
      have hsmaller := hbefore _ (List.mem_take_iff_getElem.mpr
        ⟨memory.pageIndex base, Nat.lt_min.mpr ⟨hlt, hi⟩, rfl⟩)
      exact absurd ((hborder (List.getElem?_eq_getElem hi)).mp Nat.le.refl)
        (Int64.not_le.mpr hsmaller)
  · rintro rfl
    refine ⟨ordered.sorted, fun other hother ↦ ?_, fun other hother ↦ ?_⟩
    · obtain ⟨j, hj, rfl⟩ := List.mem_take_iff_getElem.mp hother
      rw [← Int64.not_le, ← hborder (List.getElem?_eq_getElem (by omega))]
      omega
    · obtain ⟨j, hj, rfl⟩ := List.mem_drop_iff_getElem.mp hother
      have hj' := List.getElem?_eq_getElem (Nat.add_comm j _ ▸ hj)
      refine Int64.lt_of_le_of_ne ((hborder hj').mp (Nat.le_add_right _ _)) fun heq ↦ absent ?_
      rw [heq]
      exact Array.mem_toList_iff.mp (List.getElem_mem _)

/-- A page that is there is not allocated again. -/
theorem allocate_of_mem (ordered : memory.Ordered) (mem : memory.pageBase address ∈ memory.bases) :
    memory.allocate address = memory := by
  simp only [Memory.allocate, ordered.findPage_eq]
  exact if_pos (decide_eq_true mem)

/-- A page that is not there is inserted at its index. -/
theorem allocate_of_not_mem (ordered : memory.Ordered)
    (absent : memory.pageBase address ∉ memory.bases) :
    memory.allocate address =
      { memory with
        bases := memory.bases.insertIdx (memory.pageIndex (memory.pageBase address))
          (memory.pageBase address) (memory.pageIndex_le _)
        contents := memory.contents.insertIdx (memory.pageIndex (memory.pageBase address))
          (freshWords memory.pageSize) (ordered.paired ▸ memory.pageIndex_le _) } := by
  have hle := memory.pageIndex_le (memory.pageBase address)
  have hle' := hle
  rw [← ordered.paired] at hle'
  simp only [Memory.allocate, ordered.findPage_eq, absent, decide_false, Bool.false_eq_true,
    if_false, insertBase, insertWords, Array.insertIdxIfInBounds, hle, hle', dif_pos]

/-- The pages are those that were there, and the one of the address. -/
theorem mem_bases_allocate (ordered : memory.Ordered) :
    base ∈ (memory.allocate address).bases ↔
      base = memory.pageBase address ∨ base ∈ memory.bases := by
  by_cases hmem : memory.pageBase address ∈ memory.bases
  · rw [ordered.allocate_of_mem hmem]
    exact ⟨.inr, fun h ↦ h.elim (· ▸ hmem) id⟩
  · simp only [ordered.allocate_of_not_mem hmem, Array.mem_insertIdx]

/-- The page of the address is there afterwards. -/
theorem pageBase_mem_allocate (ordered : memory.Ordered) (address : Word) :
    (memory.allocate address).pageBase address ∈ (memory.allocate address).bases :=
  ordered.mem_bases_allocate.mpr (.inl (pageBase_allocate memory address address))

/-- A page that was not there is fresh, and the others stay as they were. -/
theorem mem_pages_allocate (ordered : memory.Ordered)
    (absent : memory.pageBase address ∉ memory.bases) (page : Page) :
    page ∈ (memory.allocate address).pages ↔
      page = ⟨memory.pageBase address, freshWords memory.pageSize⟩ ∨ page ∈ memory.pages := by
  have hle := memory.pageIndex_le (memory.pageBase address)
  rw [ordered.allocate_of_not_mem absent, ← Array.mem_toList_iff, ← Array.mem_toList_iff]
  simp only [pages, Array.toList_zipWith, Array.toList_insertIdx]
  rw [zipWith_insertIdx _ _ _ _ _ ordered.paired.symm]
  refine List.mem_insertIdx ?_
  rw [List.length_zipWith, Array.length_toList, Array.length_toList, ordered.paired]
  omega

/-- Allocation keeps the order. -/
theorem allocate (ordered : memory.Ordered) (chosen : 0 < memory.pageSize)
    (nonneg : 0 ≤ address) : (memory.allocate address).Ordered := by
  by_cases hmem : memory.pageBase address ∈ memory.bases
  · rwa [ordered.allocate_of_mem hmem]
  · refine ⟨?_, ?_, ?_, ?_, ?_, ?_⟩
    · simpa using ordered.size_nonneg
    · intro hzero
      rw [pageSize_allocate] at hzero
      exact absurd hzero.symm (Int64.ne_of_lt chosen)
    · simp [ordered.allocate_of_not_mem hmem, ordered.paired]
    · rw [ordered.allocate_of_not_mem hmem]
      exact (ordered.sorted_insertIdx_iff hmem (memory.pageIndex_le _)).mpr rfl
    · intro base hbase
      rw [pageBase_allocate]
      rcases ordered.mem_bases_allocate.mp hbase with rfl | hold
      · exact ⟨pageBase_nonneg chosen nonneg, pageBase_pageBase chosen nonneg⟩
      · exact ordered.aligned base hold
    · intro words hwords
      rw [pageLength_allocate]
      simp only [ordered.allocate_of_not_mem hmem, Array.mem_insertIdx] at hwords
      rcases hwords with rfl | hold
      · exact size_freshWords chosen
      · exact ordered.sized words hold

end Ordered

namespace Valid

variable {memory : Memory} {address : Word}

/-- Allocation keeps a memory valid. -/
theorem allocate (valid : memory.Valid) (chosen : 0 < memory.pageSize) (nonneg : 0 ≤ address) :
    (memory.allocate address).Valid :=
  ⟨valid.toOrdered.allocate chosen nonneg, by simpa using valid.size_le⟩

/-- Every address of a page that has been allocated has a word there. -/
theorem exists_word (valid : memory.Valid) (chosen : 0 < memory.pageSize) (nonneg : 0 ≤ address)
    {page : Page} (mem : page ∈ memory.pages) (base : page.base = memory.pageBase address) :
    ∃ word, page.words[(address - page.base).toNatClampNeg]? = some word := by
  have hlt : (address - page.base).toNatClampNeg < page.words.size := by
    rw [valid.filled mem, base]
    exact offset_lt chosen nonneg
  exact ⟨_, Array.getElem?_eq_getElem hlt⟩

/-- Allocation changes no word: a fresh page holds zeros. -/
theorem word_allocate (valid : memory.Valid) (chosen : 0 < memory.pageSize)
    (nonneg : 0 ≤ address) {other : Word} (other_nonneg : 0 ≤ other) :
    (memory.allocate address).word other = memory.word other := by
  by_cases hmem : memory.pageBase address ∈ memory.bases
  · rw [valid.allocate_of_mem hmem]
  · have hvalid := valid.allocate chosen nonneg
    have hpages := valid.mem_pages_allocate hmem
    -- An address of the fresh page had no page before, and every other one keeps its page.
    by_cases hbase : memory.pageBase other = memory.pageBase address
    · rw [valid.word_eq_zero (hbase ▸ hmem)]
      refine hvalid.word_eq_of_mem ((hpages _).mpr (.inl rfl)) ?_ ?_
      · rw [pageBase_allocate, hbase]
      · have hoffset := offset_lt chosen other_nonneg
        rw [hbase] at hoffset
        simp only [freshWords, chosen, valid.size_le, and_self, if_true]
        exact Array.getElem?_replicate.trans (if_pos hoffset)
    · refine valid.word_congr hvalid.toOrdered (pageBase_allocate _ _ _) fun page hpage ↦ ?_
      rw [hpages, or_iff_right]
      rintro rfl
      exact hbase hpage.symm

end Valid

/-! ## Copying into a page -/

section CopyOver

variable (words : Array Word) (offset : Nat) (values : List Word)

/-- A page that values are copied into keeps its size. -/
theorem size_copyOver : (copyOver words offset values).1.size = words.size := by
  fun_induction copyOver words offset values with
  | case1 => rfl
  | case2 words offset value values lt ih => rw [ih, Array.size_setIfInBounds]
  | case3 => rfl

/-- What is left are the values that go beyond the page. -/
theorem copyOver_rest : (copyOver words offset values).2 = values.drop (words.size - offset) := by
  fun_induction copyOver words offset values with
  | case1 => rw [List.drop_nil]
  | case2 words offset value values lt ih =>
      have hroom : words.size - offset = (words.size - (offset + 1)) + 1 := by omega
      rw [ih, Array.size_setIfInBounds, hroom, List.drop_succ_cons]
  | case3 words offset value values ge =>
      have hroom : words.size - offset = 0 := by omega
      rw [hroom, List.drop_zero]

/-- The words from the offset on are the values, as far as there are any. -/
theorem getElem?_copyOver (i : Nat) (lt : i < words.size) :
    (copyOver words offset values).1[i]? =
      (if offset ≤ i then values[i - offset]? else none).or words[i]? := by
  fun_induction copyOver words offset values with
  | case1 => simp
  | case2 words offset value values hlt ih =>
      rw [ih (by rwa [Array.size_setIfInBounds]), Array.getElem?_setIfInBounds]
      rcases Nat.lt_trichotomy i offset with hbefore | rfl | hbehind
      · rw [if_neg (by omega), if_neg (by omega), if_neg (by omega)]
      · rw [if_neg (by omega), if_pos rfl, if_pos hlt, if_pos (Nat.le_refl i), Nat.sub_self]
        rfl
      · have hindex : i - offset = (i - (offset + 1)) + 1 := by omega
        rw [if_pos (by omega), if_neg (by omega), if_pos (by omega), hindex,
          List.getElem?_cons_succ]
  | case3 words offset value values ge => rw [if_neg (by omega), Option.none_or]

end CopyOver

/-- The number of words from an address on to the end of its page. -/
def room (memory : Memory) (address : Word) : Nat :=
  memory.pageLength - (address - memory.pageBase address).toNatClampNeg

section CopyTo

variable (memory : Memory) (address : Word) (values : List Word)

/-- A copy changes nothing but the words of pages. -/
theorem copyTo_tables :
    (memory.copyTo address values).1.pageSize = memory.pageSize ∧
      (memory.copyTo address values).1.limit = memory.limit ∧
      (memory.copyTo address values).1.bases = memory.bases := by
  simp only [copyTo]
  split <;> exact ⟨rfl, rfl, rfl⟩

@[simp] theorem pageSize_copyTo :
    (memory.copyTo address values).1.pageSize = memory.pageSize :=
  (memory.copyTo_tables address values).1

@[simp] theorem limit_copyTo : (memory.copyTo address values).1.limit = memory.limit :=
  (memory.copyTo_tables address values).2.1

@[simp] theorem bases_copyTo : (memory.copyTo address values).1.bases = memory.bases :=
  (memory.copyTo_tables address values).2.2

@[simp] theorem pageBase_copyTo (other : Word) :
    (memory.copyTo address values).1.pageBase other = memory.pageBase other := by
  simp [pageBase]

@[simp] theorem pageLength_copyTo :
    (memory.copyTo address values).1.pageLength = memory.pageLength := by
  simp [pageLength]

end CopyTo

namespace Ordered

variable {memory : Memory} {address : Word} {values : List Word}

/-- A copy goes to the words at the index of the page. -/
theorem copyTo_eq (ordered : memory.Ordered) {words : Array Word}
    (found : memory.contents[memory.pageIndex (memory.pageBase address)]? = some words) :
    memory.copyTo address values =
      ({ memory with
        contents := memory.contents.setIfInBounds (memory.pageIndex (memory.pageBase address))
          (copyOver words (address - memory.pageBase address).toNatClampNeg values).1 },
        values.drop (memory.room address)) := by
  have hsize := ordered.sized words (Array.mem_of_getElem? found)
  simp only [Memory.copyTo, ordered.findPage_eq, found, copyOver_rest, hsize, room]

/-- A copy keeps the order. -/
theorem copyTo (ordered : memory.Ordered) : (memory.copyTo address values).1.Ordered := by
  refine ⟨?_, ?_, ?_, ?_, ?_, ?_⟩
  · simpa using ordered.size_nonneg
  · simpa using ordered.chosen
  · simp only [Memory.copyTo]
    split
    · simpa using ordered.paired
    · exact ordered.paired
  · simpa using ordered.sorted
  · simpa using ordered.aligned
  · intro words hwords
    rw [pageLength_copyTo]
    cases hfound : memory.contents[memory.pageIndex (memory.pageBase address)]? with
    | none =>
        simp only [Memory.copyTo, ordered.findPage_eq, hfound] at hwords
        exact ordered.sized words hwords
    | some old =>
        rw [ordered.copyTo_eq hfound] at hwords
        rcases Array.mem_or_eq_of_mem_setIfInBounds hwords with hmem | rfl
        · exact ordered.sized words hmem
        · rw [size_copyOver]
          exact ordered.sized old (Array.mem_of_getElem? hfound)

/-- After a copy the page of the address has the values, and the others are as they were. -/
theorem mem_pages_copyTo (ordered : memory.Ordered) {page : Page} (mem : page ∈ memory.pages)
    (base : page.base = memory.pageBase address) (values : List Word) (other : Page) :
    other ∈ (memory.copyTo address values).1.pages ↔
      other = ⟨page.base,
        (copyOver page.words (address - page.base).toNatClampNeg values).1⟩ ∨
      (other ∈ memory.pages ∧ other.base ≠ page.base) := by
  obtain ⟨hbase, hwords⟩ := getElem?_pages_eq_some_iff.mp (ordered.getElem?_pages_pageIndex mem)
  have hlt := (Array.getElem?_eq_some_iff.mp hwords).1
  rw [base] at hwords
  simp only [Array.mem_iff_getElem?, getElem?_pages_eq_some_iff, ordered.copyTo_eq hwords, ← base,
    Array.getElem?_setIfInBounds]
  constructor
  · rintro ⟨i, hi, hcontents⟩
    split at hcontents
    · next heq =>
        subst heq
        rw [hbase] at hi
        cases other
        cases hi
        cases hcontents
        exact .inl rfl
    · next hne =>
        refine .inr ⟨⟨i, hi, hcontents⟩, fun heq ↦ hne ?_⟩
        rw [heq] at hi
        exact (ordered.eq_pageIndex hi).symm
  · rintro (rfl | ⟨⟨i, hi, hcontents⟩, hne⟩)
    · exact ⟨_, hbase, by rw [if_pos rfl, if_pos hlt]⟩
    · refine ⟨i, hi, ?_⟩
      rw [if_neg, hcontents]
      rintro rfl
      rw [hbase] at hi
      exact hne (Option.some.inj hi).symm

end Ordered

/-! ## The words of a store -/

/-- The word that `values`, laid down from `address` on, have at another address. -/
def overlay? (address : Word) (values : List Word) (other : Word) : Option Word :=
  if address ≤ other then values[(other.toInt - address.toInt).toNat]? else none

section Overlay

variable {address other value : Word} {values others : List Word}

@[simp] theorem overlay?_nil : overlay? address [] other = none := by
  simp [overlay?]

/-- One value is there at its address only. -/
theorem overlay?_singleton : overlay? address [value] other =
    if other = address then some value else none := by
  simp only [overlay?, Int64.le_iff_toInt_le]
  by_cases heq : other = address
  · simp [heq]
  · have hne : other.toInt ≠ address.toInt := fun h ↦ heq (Int64.toInt.inj h)
    rw [if_neg heq]
    split
    · exact List.getElem?_eq_none (by rw [List.length_singleton]; omega)
    · rfl

/-- Values are there where the first of them are, or the others behind these. -/
theorem overlay?_append (nonneg : 0 ≤ address)
    (fits : address.toInt + (values ++ others).length ≤ 0x8000000000000000) :
    overlay? address (values ++ others) other =
      (overlay? (address + Int64.ofNat values.length) others other).or
        (overlay? address values other) := by
  rw [List.length_append] at fits
  cases others with
  | nil => simp
  | cons first rest =>
      have hnext : (address + Int64.ofNat values.length).toInt = address.toInt + values.length :=
        Word.toInt_add_ofNat nonneg (by rw [List.length_cons] at fits; omega)
      simp only [overlay?, Int64.le_iff_toInt_le, hnext]
      by_cases hle : address.toInt + values.length ≤ other.toInt
      · have hindex : (other.toInt - (address.toInt + values.length)).toNat =
            (other.toInt - address.toInt).toNat - values.length := by omega
        have hnone : values[(other.toInt - address.toInt).toNat]? = none :=
          List.getElem?_eq_none (by omega)
        rw [if_pos hle, if_pos (by omega), if_pos (by omega),
          List.getElem?_append_right (by omega), hindex, hnone, Option.or_none]
      · rw [if_neg hle, Option.none_or]
        split
        · exact List.getElem?_append_left (by omega)
        · rfl

end Overlay

/-- What a store of several words leaves: a valid memory that has their pages, in which only these
words have changed. -/
structure StoredAll (memory : Memory) (address : Word) (values : List Word) (next : Memory) :
    Prop where
  valid : next.Valid
  limit_eq : next.limit = memory.limit
  pageSize_eq : next.withPageSize.pageSize = memory.withPageSize.pageSize
  mem_bases : ∀ base, base ∈ next.bases ↔ base ∈ memory.bases ∨
    ∃ i < values.length, base = memory.withPageSize.pageBase (address + Int64.ofNat i)
  word_eq : ∀ other, 0 ≤ other →
    next.word other = (overlay? address values other).elim (memory.word other) .ok

/-- What a store of one word leaves: a valid memory in which only that word has changed. -/
structure Stored (memory : Memory) (address value : Word) (next : Memory) : Prop where
  valid : next.Valid
  limit_eq : next.limit = memory.limit
  word_eq : ∀ other, 0 ≤ other →
    next.word other = if other = address then .ok value else memory.word other

section StoredAll

variable {memory middle next : Memory} {address : Word} {values others : List Word}

/-- A store of no words changes nothing. -/
theorem Valid.storedAll_nil (valid : memory.Valid) (address : Word) :
    memory.StoredAll address [] memory where
  valid := valid
  limit_eq := rfl
  pageSize_eq := rfl
  mem_bases := by simp
  word_eq other _ := by rw [overlay?_nil]; rfl

/-- A store of words, and then of others behind them, stores them all. -/
theorem StoredAll.append (first : memory.StoredAll address values middle)
    (second : middle.StoredAll (address + Int64.ofNat values.length) others next)
    (nonneg : 0 ≤ address)
    (fits : address.toInt + (values ++ others).length ≤ 0x8000000000000000) :
    memory.StoredAll address (values ++ others) next where
  valid := second.valid
  limit_eq := second.limit_eq.trans first.limit_eq
  pageSize_eq := second.pageSize_eq.trans first.pageSize_eq
  mem_bases base := by
    have hindex : ∀ i, address + Int64.ofNat values.length + Int64.ofNat i =
        address + Int64.ofNat (values.length + i) := by
      intro i
      rw [Int64.ofNat_add, Int64.add_assoc]
    simp only [second.mem_bases, first.mem_bases, pageBase, first.pageSize_eq, hindex,
      List.length_append]
    constructor
    · rintro ((hold | ⟨i, hi, rfl⟩) | ⟨i, hi, rfl⟩)
      · exact .inl hold
      · exact .inr ⟨i, by omega, rfl⟩
      · exact .inr ⟨values.length + i, by omega, rfl⟩
    · rintro (hold | ⟨i, hi, rfl⟩)
      · exact .inl (.inl hold)
      · rcases Nat.lt_or_ge i values.length with hlt | hge
        · exact .inl (.inr ⟨i, hlt, rfl⟩)
        · exact .inr ⟨i - values.length, by omega, by rw [Nat.add_sub_cancel' hge]⟩
  word_eq other hother := by
    rw [second.word_eq other hother, first.word_eq other hother, overlay?_append nonneg fits]
    cases overlay? (address + Int64.ofNat values.length) others other <;> rfl

/-- A store of one word as one of several. -/
theorem StoredAll.stored {value : Word} (h : memory.StoredAll address [value] next) :
    memory.Stored address value next := by
  refine ⟨h.valid, h.limit_eq, fun other hother ↦ ?_⟩
  rw [h.word_eq other hother, overlay?_singleton]
  split <;> rfl

end StoredAll

namespace Valid

variable {memory : Memory} {address : Word} {values : List Word}

/-- The page of an address goes on for the address itself at least. -/
theorem room_pos (valid : memory.Valid) (chosen : 0 < memory.pageSize) (nonneg : 0 ≤ address) :
    0 < memory.room address := by
  have hlt := offset_lt chosen nonneg
  have hlength := valid.pageLength_eq
  unfold room
  omega

/-- The end of a page. -/
theorem toInt_add_room (valid : memory.Valid) (chosen : 0 < memory.pageSize)
    (nonneg : 0 ≤ address) :
    address.toInt + memory.room address =
      (memory.pageBase address).toInt + memory.pageSize.toInt := by
  have hoffset := offset_eq chosen nonneg
  have hroom := valid.room_pos chosen nonneg
  have hsize := Int64.cast_toNatClampNeg _ (Int64.le_of_lt chosen)
  unfold room at hroom ⊢
  rw [valid.pageLength_eq] at hroom ⊢
  omega

/-- The addresses up to the end of a page belong to it. -/
theorem pageBase_add (valid : memory.Valid) (chosen : 0 < memory.pageSize) (nonneg : 0 ≤ address)
    {i : Nat} (lt : i < memory.room address)
    (fits : address.toInt + i < 0x8000000000000000) :
    memory.pageBase (address + Int64.ofNat i) = memory.pageBase address := by
  have hbounds := pageBase_bounds chosen nonneg
  have hend := valid.toInt_add_room chosen nonneg
  have haddress := Word.toInt_add_ofNat nonneg fits
  rw [pageBase_eq_iff chosen nonneg (Word.nonneg_add_ofNat nonneg fits), haddress]
  omega

/-- Their offsets follow each other. -/
theorem offset_add (valid : memory.Valid) (chosen : 0 < memory.pageSize) (nonneg : 0 ≤ address)
    {i : Nat} (lt : i < memory.room address)
    (fits : address.toInt + i < 0x8000000000000000) :
    (address + Int64.ofNat i - memory.pageBase address).toNatClampNeg =
      (address - memory.pageBase address).toNatClampNeg + i := by
  have haddress := Word.toInt_add_ofNat nonneg fits
  have hoffset := offset_eq chosen nonneg
  have hother := offset_eq chosen (Word.nonneg_add_ofNat nonneg fits)
  rw [valid.pageBase_add chosen nonneg lt fits] at hother
  omega

/-- A copy keeps a memory valid. -/
theorem copyTo (valid : memory.Valid) : (memory.copyTo address values).1.Valid :=
  ⟨valid.toOrdered.copyTo, by simpa using valid.size_le⟩

/-- In the page of an address the values stand from the offset of the address on. -/
theorem overlay?_inside (valid : memory.Valid) (chosen : 0 < memory.pageSize)
    (nonneg : 0 ≤ address) {other : Word} (other_nonneg : 0 ≤ other)
    (same : memory.pageBase other = memory.pageBase address) (values : List Word) :
    overlay? address (values.take (memory.room address)) other =
      if (address - memory.pageBase address).toNatClampNeg ≤
          (other - memory.pageBase other).toNatClampNeg then
        values[(other - memory.pageBase other).toNatClampNeg -
          (address - memory.pageBase address).toNatClampNeg]?
      else none := by
  have hend := valid.toInt_add_room chosen nonneg
  have hwithin := (pageBase_eq_iff chosen nonneg other_nonneg).mp same
  have hoffset := offset_eq chosen nonneg
  have hother := offset_eq chosen other_nonneg
  rw [same] at hother ⊢
  have hindex : (other.toInt - address.toInt).toNat =
      (other - memory.pageBase address).toNatClampNeg -
        (address - memory.pageBase address).toNatClampNeg := by omega
  simp only [overlay?, Int64.le_iff_toInt_le, hindex]
  by_cases hle : address.toInt ≤ other.toInt
  · rw [if_pos hle, if_pos (by omega), List.getElem?_take_of_lt (by omega)]
  · rw [if_neg hle, if_neg (by omega)]

/-- Beyond that page there are no values for which there is room. -/
theorem overlay?_beyond (valid : memory.Valid) (chosen : 0 < memory.pageSize)
    (nonneg : 0 ≤ address) {other : Word} (other_nonneg : 0 ≤ other)
    (apart : memory.pageBase other ≠ memory.pageBase address) :
    overlay? address (values.take (memory.room address)) other = none := by
  rw [overlay?]
  split
  · next hle =>
      have hend := valid.toInt_add_room chosen nonneg
      have hbounds := pageBase_bounds chosen nonneg
      have hapart := mt (pageBase_eq_iff chosen nonneg other_nonneg).mpr apart
      rw [Int64.le_iff_toInt_le] at hle
      apply List.getElem?_eq_none
      rw [List.length_take]
      omega
  · rfl

/-- A copy into a page that has been allocated changes the words for which there is room. -/
theorem word_copyTo (valid : memory.Valid) (chosen : 0 < memory.pageSize) (nonneg : 0 ≤ address)
    (mem : memory.pageBase address ∈ memory.bases) {other : Word} (other_nonneg : 0 ≤ other) :
    (memory.copyTo address values).1.word other =
      (overlay? address (values.take (memory.room address)) other).elim
        (memory.word other) .ok := by
  have hvalid : (memory.copyTo address values).1.Valid := valid.copyTo
  obtain ⟨page, hpage, hbase⟩ := valid.mem_bases_iff.mp mem
  have hpages := valid.mem_pages_copyTo hpage hbase values
  by_cases hsame : memory.pageBase other = memory.pageBase address
  · -- The page keeps its word there, unless there is a value for it.
    have hother_base : page.base = memory.pageBase other := hbase.trans hsame.symm
    obtain ⟨word, hword⟩ := valid.exists_word chosen other_nonneg hpage hother_base
    have hlt := (Array.getElem?_eq_some_iff.mp hword).1
    have hcopied := getElem?_copyOver page.words (address - page.base).toNatClampNeg values _ hlt
    have hinside := valid.overlay?_inside chosen nonneg other_nonneg hsame values
    rw [← hbase, ← hother_base] at hinside
    rw [hword, ← hinside, Option.or_some] at hcopied
    have hset := (hpages _).mpr (.inl rfl)
    have hset_base := hother_base.trans (pageBase_copyTo memory address values other).symm
    rw [valid.word_eq_of_mem hpage hother_base hword,
      hvalid.word_eq_of_mem hset hset_base hcopied]
    cases overlay? address (values.take (memory.room address)) other <;> rfl
  · rw [valid.overlay?_beyond chosen nonneg other_nonneg hsame]
    refine valid.word_congr hvalid.toOrdered (pageBase_copyTo _ _ _ _) fun found hfound ↦ ?_
    rw [hpages, or_iff_right, and_iff_left]
    · rwa [hfound, hbase]
    · rintro rfl
      exact hsame (hfound.symm.trans hbase)

end Valid

/-! ## Rounds -/

/-- A store that may go on: the pages are in order, and the words that are left fit behind its
address. -/
structure Storing.Sound (storing : Storing) : Prop where
  ordered : storing.memory.Ordered
  chosen : 0 < storing.memory.pageSize
  fits : storing.values ≠ [] → 0 ≤ storing.address ∧
    storing.address.toInt + storing.values.length ≤ 0x8000000000000000

section Round

variable {storing : Storing}

@[simp] theorem pageSize_round (storing : Storing) :
    storing.round.memory.pageSize = storing.memory.pageSize := by
  simp [Storing.round]

@[simp] theorem limit_round (storing : Storing) :
    storing.round.memory.limit = storing.memory.limit := by
  simp [Storing.round]

namespace Storing.Sound

/-- A round adds the page of its address. -/
theorem mem_bases_round (sound : storing.Sound) {base : Word} :
    base ∈ storing.round.memory.bases ↔
      base = storing.memory.pageBase storing.address ∨ base ∈ storing.memory.bases := by
  simp only [Storing.round, bases_copyTo, sound.ordered.mem_bases_allocate]

/-- It stores the words for which there is room. -/
theorem values_round (sound : storing.Sound) (some : storing.values ≠ []) :
    storing.round.values = storing.values.drop (storing.memory.room storing.address) := by
  have hallocated := sound.ordered.allocate sound.chosen (sound.fits some).1
  have hmem := sound.ordered.pageBase_mem_allocate storing.address
  obtain ⟨words, hwords, -⟩ := hallocated.exists_words (hallocated.getElem?_pageIndex hmem)
  simp [Storing.round, hallocated.copyTo_eq hwords, room]

/-- It goes on behind them. -/
theorem address_round (sound : storing.Sound) (some : storing.values ≠ []) :
    storing.round.address = storing.address +
      Int64.ofNat (storing.values.take (storing.memory.room storing.address)).length := by
  have hcount : storing.values.length - storing.round.values.length =
      (storing.values.take (storing.memory.room storing.address)).length := by
    rw [sound.values_round some, List.length_drop, List.length_take]
    omega
  rw [← hcount]
  rfl

/-- After a round a store may go on. -/
theorem round (sound : storing.Sound) (some : storing.values ≠ []) : storing.round.Sound := by
  obtain ⟨hnonneg, hfits⟩ := sound.fits some
  refine ⟨?_, by simpa using sound.chosen, fun hleft ↦ ?_⟩
  · exact (sound.ordered.allocate sound.chosen hnonneg).copyTo
  · have hpos := List.length_pos_iff.mpr hleft
    rw [sound.values_round some, List.length_drop] at hpos ⊢
    rw [sound.address_round some, List.length_take, Nat.min_eq_left (by omega)]
    refine ⟨Word.nonneg_add_ofNat hnonneg (by omega), ?_⟩
    rw [Word.toInt_add_ofNat hnonneg (by omega)]
    omega

/-- A memory that admits pages of its size is valid. -/
theorem valid (sound : storing.Sound) (le : storing.memory.pageSize ≤ maxPageSize) :
    storing.memory.Valid :=
  ⟨sound.ordered, le⟩

/-- Where pages have words, each round stores one or more. -/
theorem length_round_lt (sound : storing.Sound) (le : storing.memory.pageSize ≤ maxPageSize)
    (some : storing.values ≠ []) : storing.round.values.length < storing.values.length := by
  have hroom := (sound.valid le).room_pos sound.chosen (sound.fits some).1
  have hpos := List.length_pos_iff.mpr some
  rw [sound.values_round some, List.length_drop]
  omega

/-- What a round stores. -/
theorem storedAll_round (sound : storing.Sound) (le : storing.memory.pageSize ≤ maxPageSize)
    (some : storing.values ≠ []) :
    storing.memory.StoredAll storing.address
      (storing.values.take (storing.memory.room storing.address)) storing.round.memory := by
  have hvalid := sound.valid le
  obtain ⟨hnonneg, hfits⟩ := sound.fits some
  have hchosen : storing.memory.withPageSize = storing.memory :=
    if_neg fun hzero ↦ Int64.ne_of_lt sound.chosen hzero.symm
  have hroom : (storing.memory.allocate storing.address).room storing.address =
      storing.memory.room storing.address := by simp [room]
  refine ⟨⟨(sound.round some).ordered, by simpa using le⟩, by simp, ?_, fun base ↦ ?_, ?_⟩
  · simp [Memory.withPageSize, apply_ite pageSize]
  · -- All the words that a round stores are of the page that it adds.
    have hroom := hvalid.room_pos sound.chosen hnonneg
    have hpos := List.length_pos_iff.mpr some
    rw [sound.mem_bases_round, hchosen, List.length_take]
    constructor
    · rintro (rfl | hold)
      · exact .inr ⟨0, by omega, by simp⟩
      · exact .inl hold
    · rintro (hold | ⟨i, hi, rfl⟩)
      · exact .inr hold
      · exact .inl (hvalid.pageBase_add sound.chosen hnonneg (by omega) (by omega))
  · intro other hother
    rw [← hvalid.word_allocate sound.chosen hnonneg hother, ← hroom]
    exact (hvalid.allocate sound.chosen hnonneg).word_copyTo (by simpa using sound.chosen) hnonneg
      (hvalid.pageBase_mem_allocate _) hother

end Storing.Sound

end Round

/-! ## Runs -/

/-- As many rounds as there are words store all of them. -/
theorem Storing.Sound.run {storing : Storing} (sound : storing.Sound)
    (le : storing.memory.pageSize ≤ maxPageSize) {rounds : Nat}
    (enough : storing.values.length ≤ rounds) :
    ∃ next, storing.memory.StoredAll storing.address storing.values next ∧
      storing.run rounds = (next, none) := by
  induction rounds generalizing storing with
  | zero =>
      have hnone := List.length_eq_zero_iff.mp (Nat.le_zero.mp enough)
      refine ⟨storing.memory, ?_, by simp [Storing.run, hnone]⟩
      rw [hnone]
      exact (sound.valid le).storedAll_nil _
  | succ rounds ih =>
      by_cases hnone : storing.values = []
      · refine ⟨storing.memory, ?_, by simp [Storing.run, hnone]⟩
        rw [hnone]
        exact (sound.valid le).storedAll_nil _
      · have hlt := sound.length_round_lt le hnone
        obtain ⟨next, hrest, hrun⟩ := ih (sound.round hnone) (by simpa using le) (by omega)
        refine ⟨next, ?_, by simp [Storing.run, hnone, hrun]⟩
        obtain ⟨hnonneg, hfits⟩ := sound.fits hnone
        have hsplit := List.take_append_drop (storing.memory.room storing.address) storing.values
        rw [sound.address_round hnone, sound.values_round hnone] at hrest
        have hall := (sound.storedAll_round le hnone).append hrest hnonneg (by rwa [hsplit])
        rwa [hsplit] at hall

/-- Where pages have no words no round stores any. -/
theorem Storing.Sound.run_large {storing : Storing} (sound : storing.Sound)
    (gt : maxPageSize < storing.memory.pageSize) (left : storing.values ≠ []) (rounds : Nat) :
    (storing.run rounds).2 = some .noPage := by
  induction rounds generalizing storing with
  | zero => simp [Storing.run, left]
  | succ rounds ih =>
      have hroom : storing.memory.room storing.address = 0 := by
        simp [room, pageLength, Int64.not_le.mpr gt]
      have hvalues : storing.round.values = storing.values := by
        rw [sound.values_round left, hroom, List.drop_zero]
      have hrest := ih (sound.round left) (by simpa using gt) (by rwa [hvalues])
      simpa [Storing.run, left] using hrest

/-! ## Stores -/

/-- A page size can be chosen. -/
theorem Ordered.withPageSize {memory : Memory} (ordered : memory.Ordered) :
    memory.withPageSize.Ordered ∧ 0 < memory.withPageSize.pageSize := by
  unfold Memory.withPageSize
  split
  · next hzero =>
      have hbases := ordered.chosen hzero
      have hcontents := ordered.contents_eq hbases
      refine ⟨⟨?_, ?_, ?_, ?_, ?_, ?_⟩, ?_⟩ <;> simp [hbases, hcontents]
      all_goals decide
  · next hne =>
      exact ⟨ordered, Int64.lt_of_le_of_ne ordered.size_nonneg (Ne.symm hne)⟩

/-- To choose a page size changes nothing else. -/
theorem withPageSize_tables (memory : Memory) :
    memory.withPageSize.limit = memory.limit ∧ memory.withPageSize.bases = memory.bases ∧
      memory.withPageSize.contents = memory.contents := by
  unfold withPageSize
  split <;> exact ⟨rfl, rfl, rfl⟩

/-- A page size that has been chosen stays. -/
@[simp] theorem withPageSize_withPageSize (memory : Memory) :
    memory.withPageSize.withPageSize = memory.withPageSize := by
  by_cases hzero : memory.pageSize = 0
  · simp [withPageSize, hzero, defaultPageSize]
  · simp [withPageSize, hzero]

section Ordered

variable {memory : Memory} {address : Word} {values : List Word}

/-- A store that is not refused may begin. -/
theorem Ordered.sound (ordered : memory.Ordered)
    (accepted : memory.rangeRefusal? .store address values.length = none)
    (countable : values.length < 0x8000000000000000) :
    Storing.Sound ⟨memory.withPageSize, address, values⟩ where
  ordered := ordered.withPageSize.1
  chosen := ordered.withPageSize.2
  fits some := fits_of_rangeRefusal? accepted (List.length_pos_iff.mpr some) countable

/-- A store of words that are not refused runs. -/
theorem store_eq_run (accepted : memory.rangeRefusal? .store address values.length = none)
    (some : values ≠ []) :
    memory.store address values =
      Storing.run values.length ⟨memory.withPageSize, address, values⟩ := by
  cases values with
  | nil => exact absurd rfl some
  | cons value rest => simp only [store, accepted]

/-- Where pages have no words no store succeeds. -/
theorem Ordered.store_large (ordered : memory.Ordered) (gt : maxPageSize < memory.pageSize)
    (accepted : memory.rangeRefusal? .store address values.length = none)
    (countable : values.length < 0x8000000000000000) (left : values ≠ []) :
    (memory.store address values).2 = some .noPage := by
  have hchosen : memory.withPageSize = memory := by
    refine if_neg fun hzero ↦ ?_
    rw [hzero] at gt
    exact absurd gt (by decide)
  rw [store_eq_run accepted left]
  exact (ordered.sound accepted countable).run_large (by rwa [hchosen]) left _

end Ordered

namespace Valid

variable {memory : Memory} {address : Word}

/-- A page size can be chosen, which changes no word. -/
theorem withPageSize (valid : memory.Valid) :
    memory.withPageSize.Valid ∧
      ∀ address, memory.withPageSize.word address = memory.word address := by
  refine ⟨⟨valid.toOrdered.withPageSize.1, ?_⟩, fun address ↦ ?_⟩
  · unfold Memory.withPageSize
    split
    · show defaultPageSize ≤ maxPageSize
      decide
    · exact valid.size_le
  · unfold Memory.withPageSize
    split
    · next hzero =>
        have hcontents := valid.contents_eq (valid.chosen hzero)
        simp [word, hcontents]
    · rfl

/-- A store that is not refused stores all its words. -/
theorem store (valid : memory.Valid) (values : List Word)
    (accepted : memory.rangeRefusal? .store address values.length = none)
    (countable : values.length < 0x8000000000000000) :
    ∃ next, memory.StoredAll address values next ∧ memory.store address values = (next, none) := by
  cases values with
  | nil => exact ⟨memory, valid.storedAll_nil address, by simp [Memory.store, rangeRefusal?]⟩
  | cons value rest =>
      obtain ⟨hvalid, hword⟩ := valid.withPageSize
      obtain ⟨next, hstored, hrun⟩ :=
        (valid.toOrdered.sound accepted countable).run hvalid.size_le (Nat.le_refl _)
      obtain ⟨hlimit, hbases, -⟩ := memory.withPageSize_tables
      refine ⟨next, ⟨hstored.valid, hstored.limit_eq.trans hlimit, ?_, ?_, ?_⟩, ?_⟩
      · simpa using hstored.pageSize_eq
      · simpa [hbases] using hstored.mem_bases
      · simpa only [hword] using hstored.word_eq
      · rw [store_eq_run accepted (List.cons_ne_nil value rest)]
        exact hrun

/-- A store of one word at an address that is not refused. -/
theorem store_word (valid : memory.Valid) (value : Word)
    (accepted : memory.refusal? .store address = none) :
    ∃ next, memory.Stored address value next ∧ memory.store address [value] = (next, none) := by
  have hrange : memory.rangeRefusal? .store address [value].length = none := by
    simp [rangeRefusal?, accepted]
  obtain ⟨next, hstored, hstore⟩ := valid.store [value] hrange (by simp)
  exact ⟨next, hstored.stored, hstore⟩

end Valid

/-- A store of one word at an address that is refused changes nothing. -/
theorem store_refused {memory : Memory} {address : Word} {error : MemoryError} (value : Word)
    (refused : memory.refusal? .store address = some error) :
    memory.store address [value] = (memory, some error) := by
  simp [store, rangeRefusal?, refused]

end WordLisp.Memory

import WordLisp.Compiler.Table

/-!
# The order of the function table

A table whose functions stand in the order of their entries, one under each name, stays so when a
function with a later entry is put in. The main fact is `Valid.restore_set`: to put back what stood
under the name of such a function gives the table of before, so nothing of a failed definition is
left.
-/

namespace WordLisp.Table

/-- The functions of a table stand in the order of their entries, which are all below `bound`, and
no two of them have one name. -/
structure Valid (table : Table) (bound : Nat) : Prop where
  increasing : table.Pairwise (·.entry < ·.entry)
  distinct : table.Pairwise (·.name ≠ ·.name)
  below : ∀ function ∈ table, function.entry < bound

/-- A table without functions is in order. -/
theorem valid_nil (bound : Nat) : Valid [] bound :=
  ⟨.nil, .nil, by simp⟩

variable {table : Table} {bound : Nat} {name : String} {function : Function}

/-- A function that was found is in the table under its name. -/
theorem of_lookup? (found : table.lookup? name = some function) :
    function ∈ table ∧ function.name = name :=
  ⟨List.mem_of_find?_eq_some found, by simpa using List.find?_some found⟩

/-- A function whose entry is behind all others goes to the end. -/
theorem insert_eq_append (above : ∀ other ∈ table, other.entry < function.entry) :
    insert function table = table ++ [function] := by
  induction table with
  | nil => rfl
  | cons other rest ih =>
      have hother := above other List.mem_cons_self
      have hrest := ih fun member hmember ↦ above member (List.mem_cons_of_mem other hmember)
      simp [insert, Nat.not_lt_of_lt hother, hrest]

namespace Valid

/-- The bound of a table may be raised. -/
theorem mono (valid : table.Valid bound) {higher : Nat} (le : bound ≤ higher) :
    table.Valid higher :=
  ⟨valid.increasing, valid.distinct, fun member hmember ↦
    Nat.lt_of_lt_of_le (valid.below member hmember) le⟩

/-- A function with a later entry is put behind those of other names. -/
theorem set_eq_append (valid : table.Valid bound) (le : bound ≤ function.entry) :
    table.set function = table.erase function.name ++ [function] :=
  insert_eq_append fun other hother ↦
    Nat.lt_of_lt_of_le (valid.below other (List.mem_filter.mp hother).1) le

/-- Only one function is new in the table. -/
theorem mem_set (valid : table.Valid bound) (le : bound ≤ function.entry) {other : Function}
    (mem : other ∈ table.set function) : other ∈ table ∨ other = function := by
  rw [valid.set_eq_append le] at mem
  rcases List.mem_append.mp mem with hold | hnew
  · exact .inl (List.mem_filter.mp hold).1
  · exact .inr (List.mem_singleton.mp hnew)

/-- A function with a later entry keeps the table in order. -/
theorem set (valid : table.Valid bound) (le : bound ≤ function.entry) :
    (table.set function).Valid (function.entry + 1) := by
  rw [valid.set_eq_append le]
  refine ⟨?_, ?_, ?_⟩
  · refine List.pairwise_append.mpr ⟨valid.increasing.filter _, List.pairwise_singleton _ _, ?_⟩
    intro other hother last hlast
    rw [List.mem_singleton.mp hlast]
    exact Nat.lt_of_lt_of_le (valid.below other (List.mem_filter.mp hother).1) le
  · refine List.pairwise_append.mpr ⟨valid.distinct.filter _, List.pairwise_singleton _ _, ?_⟩
    intro other hother last hlast
    rw [List.mem_singleton.mp hlast]
    simpa using (List.mem_filter.mp hother).2
  · intro other hother
    rcases List.mem_append.mp hother with hother | hother
    · have := valid.below other (List.mem_filter.mp hother).1
      omega
    · rw [List.mem_singleton.mp hother]
      omega

/-- The function that was put in is found under its name, and every other one as before. -/
theorem lookup?_set (valid : table.Valid bound) (le : bound ≤ function.entry) (name : String) :
    (table.set function).lookup? name =
      if function.name = name then some function else table.lookup? name := by
  rw [valid.set_eq_append le, lookup?, erase, List.find?_append, List.find?_filter]
  split
  · next heq =>
      have hnone : table.find? (fun other ↦ decide (decide (other.name ≠ function.name) = true ∧
          decide (other.name = name) = true)) = none := by
        simp only [List.find?_eq_none, decide_eq_true_eq]
        exact fun other _ h ↦ h.1 (h.2.trans heq.symm)
      rw [hnone]
      simp [heq]
  · next hne =>
      have hfilter : table.find? (fun other ↦ decide (decide (other.name ≠ function.name) = true ∧
          decide (other.name = name) = true)) = table.lookup? name := by
        rw [lookup?]
        congr 1
        funext other
        by_cases h : other.name = name
        · simp [h, Ne.symm hne]
        · simp [h]
      rw [hfilter]
      simp [hne]

/-- A function that was taken out is put back into its place. -/
theorem insert_erase (valid : table.Valid bound) (found : table.lookup? name = some function) :
    insert function (table.erase name) = table := by
  induction table with
  | nil => cases found
  | cons first rest ih =>
      obtain ⟨hfirst, hincreasing⟩ := List.pairwise_cons.mp valid.increasing
      obtain ⟨hnames, hdistinct⟩ := List.pairwise_cons.mp valid.distinct
      have hrest : Valid rest bound :=
        ⟨hincreasing, hdistinct, fun other hother ↦
          valid.below other (List.mem_cons_of_mem first hother)⟩
      by_cases hname : first.name = name
      · -- It is the first one: nothing else has its name, and all others have later entries.
        have hfound : first = function := by simpa [lookup?, hname] using found
        have herase : erase (first :: rest) name = rest := by
          have hkept : ∀ other ∈ rest, other.name ≠ name := fun other hother ↦
            hname ▸ (hnames other hother).symm
          simpa [erase, hname] using hkept
        rw [herase, ← hfound]
        cases rest with
        | nil => rfl
        | cons second others => simp [insert, hfirst second List.mem_cons_self]
      · have hfound : lookup? rest name = some function := by
          simpa [lookup?, hname] using found
        have hlater := hfirst function (of_lookup? hfound).1
        have herase : erase (first :: rest) name = first :: erase rest name := by
          simp [erase, hname]
        rw [herase, insert, if_neg (Nat.not_lt_of_lt hlater), ih hrest hfound]

/-- A function that was put in can be undone: with what stood under its name before, the table is
as it was. -/
theorem restore_set (valid : table.Valid bound) (le : bound ≤ function.entry) :
    (table.set function).restore function.name (table.lookup? function.name) = table := by
  have herase : (table.set function).erase function.name = table.erase function.name := by
    rw [valid.set_eq_append le]
    simp [erase]
  cases hfound : table.lookup? function.name with
  | none =>
      have habsent : ∀ other ∈ table, other.name ≠ function.name := by
        simpa [lookup?] using hfound
      rw [restore, herase]
      simpa [erase] using habsent
  | some prior =>
      rw [restore, Table.set, (of_lookup? hfound).2, herase]
      exact valid.insert_erase hfound

end Valid

end WordLisp.Table

import WordLisp.Node.Reader

/-!
# Reading one expression after the other

`Reads` follows a reader over some expressions. Reading all goes expression by expression
(`readAll_eq`) and stops at the first error (`reads_readAll`).
-/

namespace WordLisp

namespace Reader

/-- The next expressions of a reader, and the reader behind them. -/
inductive Reads : Reader → List Node → Reader → Prop where
  | nil (reader : Reader) : Reads reader [] reader
  | cons {reader next last : Reader} {node : Node} {nodes : List Node} :
      reader.read = (.ok node, next) → Reads next nodes last → Reads reader (node :: nodes) last

variable {reader last : Reader} {node : Node} {before after : List Node}

/-- An expression among those that are read is the next one behind those before it. -/
theorem Reads.split (h : reader.Reads (before ++ node :: after) last) :
    ∃ middle, reader.Reads before middle ∧ middle.read.1 = .ok node := by
  induction before generalizing reader with
  | nil =>
      cases h with
      | cons hread _ => exact ⟨reader, .nil reader, by rw [hread]⟩
  | cons first before ih =>
      cases h with
      | cons hread hrest =>
          obtain ⟨middle, hmiddle, hnode⟩ := ih hrest
          exact ⟨middle, .cons hread hmiddle, hnode⟩

/-- Reading all goes expression by expression. -/
theorem readAll_eq (reader : Reader) :
    reader.readAll =
      match reader.read with
      | (.ok node, next) => (node :: next.readAll.1, next.readAll.2)
      | (.error .endOfInput, _) => ([], none)
      | (.error error, _) => ([], some error) := by
  rw [readAll]
  split
  · next hread _ => simp only [hread]
  · next hread _ => simp only [hread]
  · next hother hread hsame =>
      simp only [hread]
      split
      · next hok => cases hok
      · next hend =>
          cases hend
          exact (hother _ rfl HEq.rfl).elim
      · next herror =>
          cases herror
          rfl

/-- Reading all gives the expressions before the first error. -/
theorem reads_readAll (reader : Reader) :
    ∃ last, reader.Reads reader.readAll.1 last ∧
      last.read.1 = .error (reader.readAll.2.getD .endOfInput) := by
  induction h : reader.tokens.length using Nat.strongRecOn generalizing reader with
  | ind length ih =>
      rw [readAll_eq]
      split
      · next node next hread =>
          have hlt := reader.length_read_lt node (by rw [hread])
          rw [hread, h] at hlt
          obtain ⟨last, hlast, herror⟩ := ih _ hlt next rfl
          exact ⟨last, .cons hread hlast, herror⟩
      · next hread => exact ⟨reader, .nil reader, by rw [hread]; rfl⟩
      · next hread => exact ⟨reader, .nil reader, by rw [hread]; rfl⟩

end Reader

end WordLisp

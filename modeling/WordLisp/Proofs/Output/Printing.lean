import WordLisp.Output.Writer

/-!
# Printing line by line

Texts that go through a buffer reach a writer as they are, as long as it takes each of them whole
(`Writer.Takes.printThrough_eq`). A memory does, and keeps all of them (`Writer.printAll_memory`).
-/

namespace WordLisp.Writer

/-- The writer takes these texts whole when they are written one by one. -/
def Takes (writer : Writer) : List String → Prop
  | [] => True
  | text :: rest =>
      (writer.write text.toUTF8).2.count = text.toUTF8.size ∧ (writer.print text).Takes rest

instance decidableTakes (writer : Writer) : (texts : List String) → Decidable (writer.Takes texts)
  | [] => .isTrue trivial
  | text :: rest =>
      have := decidableTakes (writer.print text) rest
      inferInstanceAs (Decidable (_ ∧ _))

variable {writer : Writer} {texts : List String}

/-- What is taken whole leaves nothing in a buffer. -/
theorem Takes.printThrough_eq (takes : writer.Takes texts) :
    writer.printThrough .empty texts = writer.printAll texts := by
  induction texts generalizing writer with
  | nil => rfl
  | cons text rest ih =>
      obtain ⟨hcount, hrest⟩ := takes
      have hleft : text.toUTF8.extract text.toUTF8.size text.toUTF8.size = .empty := by
        simp
      rw [printThrough]
      simp only [ByteArray.empty_append, hcount, hleft]
      exact ih hrest

/-- A memory takes everything. -/
theorem takes_memory (taken : ByteArray) (texts : List String) :
    Takes ⟨[.memory taken]⟩ texts := by
  induction texts generalizing taken with
  | nil => trivial
  | cons text rest ih => exact ⟨rfl, ih (taken ++ text.toUTF8)⟩

/-- A memory keeps all that is printed. -/
theorem printAll_memory (taken : ByteArray) (texts : List String) :
    printAll ⟨[.memory taken]⟩ texts = ⟨[.memory (taken ++ (String.join texts).toUTF8)]⟩ := by
  induction texts generalizing taken with
  | nil =>
      rw [show (String.join []).toUTF8 = .empty from rfl, ByteArray.append_empty]
      rfl
  | cons text rest ih =>
      have hjoin : (String.join (text :: rest)).toUTF8 =
          text.toUTF8 ++ (String.join rest).toUTF8 := by
        rw [String.join_cons]
        exact String.toByteArray_append
      rw [hjoin, ← ByteArray.append_assoc]
      exact ih (taken ++ text.toUTF8)

end WordLisp.Writer

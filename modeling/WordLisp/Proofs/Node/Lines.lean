import WordLisp.Proofs.Node.Grammar

/-!
# Texts of whole lines

A line feed is one byte, and no part of another character; it separates atoms, and it ends a
comment. So a text that ends in a line feed is decoded (`Rune.decode_line`) and cut into lexemes
(`Lexes.append_line`) as it would be on its own, whatever follows it.
-/

namespace WordLisp

open Text (Rune)

namespace Text.Rune

/-! ## Decoding -/

section Bytes

variable {front rest : ByteArray} {start : Nat} {c : Char}

/-- The bytes that a character was decoded from are its encoding. -/
theorem encodeChar_eq_extract {bytes : ByteArray}
    (decoded : bytes.utf8DecodeChar? start = some c) :
    (String.utf8EncodeChar c).toByteArray = bytes.extract start (start + c.utf8Size) := by
  have hinside := ByteArray.le_size_of_utf8DecodeChar?_eq_some decoded
  rw [ByteArray.utf8DecodeChar?_eq_utf8DecodeChar?_extract] at decoded
  rw [String.toByteArray_utf8EncodeChar_of_utf8DecodeChar?_eq_some decoded,
    ByteArray.extract_extract, Nat.add_zero, Nat.min_eq_left hinside]

/-- A character that is decoded from the first bytes alone does not depend on those behind them. -/
theorem utf8DecodeChar?_of_append (decoded : (front ++ rest).utf8DecodeChar? start = some c)
    (inside : start + c.utf8Size ≤ front.size) : front.utf8DecodeChar? start = some c := by
  have hnone : rest.extract (start - front.size) 0 = .empty :=
    ByteArray.extract_eq_empty_iff.mpr (by simp)
  have hfront : (front ++ rest).extract start (start + c.utf8Size) =
      front.extract start (start + c.utf8Size) := by
    rw [ByteArray.extract_append, Nat.sub_eq_zero_of_le inside, hnone, ByteArray.append_empty]
  rw [ByteArray.utf8DecodeChar?_eq_utf8DecodeChar?_extract,
    ByteArray.extract_eq_extract_append_extract _ (Nat.le_add_right _ _) inside, ← hfront,
    ← encodeChar_eq_extract decoded]
  exact ByteArray.utf8DecodeChar?_utf8EncodeChar_append

/-- No character goes on into bytes that start with one: only the first byte of a character can be
the first byte of any. -/
theorem utf8DecodeChar?_append_inside (decoded : (front ++ rest).utf8DecodeChar? start = some c)
    (before : start < front.size) (starts : (rest.utf8DecodeChar? 0).isSome) :
    start + c.utf8Size ≤ front.size := by
  by_contra hbeyond
  have hpos := ByteArray.lt_size_of_isSome_utf8DecodeChar? starts
  have hindex : front.size - start < (String.utf8EncodeChar c).length := by
    rw [String.length_utf8EncodeChar]
    omega
  have hbyte : (String.utf8EncodeChar c)[front.size - start] = rest[0] := by
    simp only [List.getElem_eq_getElem_toByteArray, encodeChar_eq_extract decoded,
      ByteArray.getElem_extract, Nat.add_sub_cancel' (Nat.le_of_lt before)]
    rw [ByteArray.getElem_append_right (Nat.le_refl _)]
    simp only [Nat.sub_self]
  have hfirst := ByteArray.isUTF8FirstByte_of_isSome_utf8DecodeChar? starts
  rw [← hbyte, UInt8.isUTF8FirstByte_getElem_utf8EncodeChar] at hfirst
  omega

/-- What stands in front of a text does not change how it is decoded. -/
theorem decodeFrom_append_right (front rest : ByteArray) (start : Nat) :
    decodeFrom (front ++ rest) (front.size + start) = decodeFrom rest start := by
  have hdecode : ∀ start, (front ++ rest).utf8DecodeChar? (front.size + start) =
      rest.utf8DecodeChar? start := by
    intro start
    rw [ByteArray.utf8DecodeChar?_eq_utf8DecodeChar?_extract, ByteArray.size_append,
      ByteArray.extract_append_size_add, ← ByteArray.utf8DecodeChar?_eq_utf8DecodeChar?_extract]
  fun_induction decodeFrom rest start with
  | case1 start hlt c hc ih =>
      rw [decodeFrom, dif_pos (by rw [ByteArray.size_append]; omega), hdecode, hc]
      rw [← Nat.add_assoc] at ih
      exact congrArg (char c :: ·) ih
  | case2 start hlt hnone ih =>
      rw [decodeFrom, dif_pos (by rw [ByteArray.size_append]; omega), hdecode, hnone]
      simp only [ByteArray.getElem_append_right (Nat.le_add_right _ _), Nat.add_sub_cancel_left]
      exact congrArg _ ih
  | case3 start hge =>
      rw [decodeFrom, dif_neg (by rw [ByteArray.size_append]; omega)]

/-- In front of bytes that start with a character, a text is decoded as it is on its own. -/
theorem decodeFrom_append_left (starts : (rest.utf8DecodeChar? 0).isSome)
    (inside : start ≤ front.size) :
    decodeFrom (front ++ rest) start = decodeFrom front start ++ decode rest := by
  fun_induction decodeFrom front start with
  | case1 start hlt c hc ih =>
      rw [decodeFrom, dif_pos (by rw [ByteArray.size_append]; omega),
        ByteArray.utf8DecodeChar?_append_eq_some hc]
      exact congrArg (char c :: ·) (ih (ByteArray.le_size_of_utf8DecodeChar?_eq_some hc))
  | case2 start hlt hnone ih =>
      have hstray : (front ++ rest).utf8DecodeChar? start = none := by
        rw [Option.eq_none_iff_forall_ne_some]
        intro c hc
        have hchar := utf8DecodeChar?_of_append hc (utf8DecodeChar?_append_inside hc hlt starts)
        rw [hnone] at hchar
        cases hchar
      rw [decodeFrom, dif_pos (by rw [ByteArray.size_append]; omega), hstray]
      simp only [ByteArray.getElem_append_left hlt]
      exact congrArg (stray _ :: ·) (ih hlt)
  | case3 start hge =>
      have hend : start = front.size := by omega
      rw [hend]
      exact decodeFrom_append_right front rest 0

end Bytes

/-- Two texts are decoded one after the other if there is a line feed between them. -/
theorem decode_line (body more : ByteArray) :
    decode (body ++ "\n".toUTF8 ++ more) = decode body ++ char '\n' :: decode more := by
  have hfeed : ("\n".toUTF8 ++ more).utf8DecodeChar? 0 = some '\n' := by
    exact List.utf8DecodeChar?_utf8Encode_singleton_append
  have hmore : decode ("\n".toUTF8 ++ more) = char '\n' :: decode more := by
    have hsize : 0 < ("\n".toUTF8 ++ more).size :=
      ByteArray.lt_size_of_isSome_utf8DecodeChar? (by rw [hfeed]; rfl)
    rw [decode, decodeFrom, dif_pos hsize, hfeed]
    exact congrArg (char '\n' :: ·) (decodeFrom_append_right "\n".toUTF8 more 0)
  rw [ByteArray.append_assoc, decode, decodeFrom_append_left (by rw [hfeed]; rfl) (Nat.zero_le _),
    hmore]
  rfl

/-- A line feed behind a text is decoded as one. -/
theorem decode_append_line (body : ByteArray) :
    decode (body ++ "\n".toUTF8) = decode body ++ [char '\n'] := by
  have hempty : decode .empty = [] := by
    rw [decode, decodeFrom, dif_neg (by simp)]
  have hline := decode_line body .empty
  rwa [ByteArray.append_empty, hempty] at hline

end Text.Rune

/-! ## Lexemes -/

/-- A text of whole lines: if there is any, the last rune is a line feed. -/
def WholeLines (text : List Rune) : Prop :=
  ∀ last ∈ text.getLast?, last = .char '\n'

/-- The rest of whole lines. -/
theorem WholeLines.of_append (front : List Rune) {rest : List Rune}
    (h : WholeLines (front ++ rest)) : WholeLines rest := by
  intro last hlast
  refine h last ?_
  rw [List.getLast?_append, Option.mem_def.mp hlast]
  rfl

/-- Whole lines behind whole lines. -/
theorem WholeLines.append {front rest : List Rune} (h : WholeLines front) (h' : WholeLines rest) :
    WholeLines (front ++ rest) := by
  intro last hlast
  rw [List.getLast?_append] at hlast
  rcases Option.or_eq_some_iff.mp hlast with hrest | ⟨-, hfront⟩
  · exact h' last hrest
  · exact h last hfront

/-- There is a line feed in whole lines. -/
theorem WholeLines.lineFeed_mem {text : List Rune} (h : WholeLines text) (some : text ≠ []) :
    .char '\n' ∈ text := by
  have hlast := h _ (List.getLast?_eq_some_getLast some)
  exact hlast ▸ List.getLast_mem some

/-- A text with a line feed behind it. -/
theorem wholeLines_append (body : List Rune) : WholeLines (body ++ [.char '\n']) := by
  intro last hlast
  rw [List.getLast?_append] at hlast
  cases hlast
  rfl

/-- Whole lines are cut into lexemes as they are on their own, whatever follows. -/
theorem Lexes.append_line {text behind : List Rune} {lexemes others : List Lexeme}
    (h : Lexes text lexemes) (lines : WholeLines text) (h' : Lexes behind others) :
    Lexes (text ++ behind) (lexemes ++ others) := by
  induction h with
  | nil => exact h'
  | separator hseparates _ ih => exact .separator hseparates (ih (lines.of_append [_]))
  | opening _ ih => exact .opening (ih (lines.of_append [_]))
  | closing _ ih => exact .closing (ih (lines.of_append [_]))
  | @comment body rest _ hbody hend _ ih =>
      rw [List.cons_append, List.append_assoc]
      cases rest with
      | nil =>
          -- The comment would be the end of the text, but has no line feed.
          rw [List.append_nil] at lines
          have hfeed := lines.lineFeed_mem (List.cons_ne_nil _ _)
          exact absurd ((List.mem_cons.mp hfeed).resolve_left (by decide)) hbody
      | cons feed rest =>
          exact .comment hbody hend (ih (lines.of_append (.char ';' :: body)))
  | @atom runes rest _ hne hrunes hend _ ih =>
      rw [List.append_assoc]
      cases rest with
      | nil =>
          rw [List.append_nil] at lines
          exact absurd (hrunes _ (lines.lineFeed_mem hne)) (by decide)
      | cons first rest => exact .atom hne hrunes hend (ih (lines.of_append runes))

end WordLisp

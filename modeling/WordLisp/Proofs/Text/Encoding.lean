import WordLisp.Proofs.Node.Printing
import WordLisp.Session.Completion

/-!
# Texts as bytes

Two characters have encodings that differ at a byte which both have, and there the smaller character
has the smaller byte (`below_encodeChar`). So bytes compare as characters do: texts are in the order
of their encodings (`encode_lt`), and one starts with another if its encoding does
(`encode_prefix_iff`).
-/

namespace WordLisp.Text

/-- Two lists of bytes differ at a byte which both have, and the first list has the smaller one. -/
inductive Below : List UInt8 → List UInt8 → Prop where
  | here {byte other : UInt8} (bytes others : List UInt8) :
      byte < other → Below (byte :: bytes) (other :: others)
  | later (byte : UInt8) {bytes others : List UInt8} :
      Below bytes others → Below (byte :: bytes) (byte :: others)

namespace Below

variable {bytes others : List UInt8}

/-- What follows the byte does not matter for the order. -/
theorem lt (h : Below bytes others) (more rest : List UInt8) : bytes ++ more < others ++ rest := by
  induction h with
  | here bytes others hlt => exact List.cons_lt_cons_iff.mpr (.inl hlt)
  | later byte _ ih => exact List.cons_lt_cons_iff.mpr (.inr ⟨rfl, ih⟩)

/-- Neither list can start with the other one. -/
theorem not_starts (h : Below bytes others) (more rest : List UInt8) :
    ¬bytes ++ more <+: others ++ rest ∧ ¬others ++ more <+: bytes ++ rest := by
  induction h with
  | here bytes others hlt =>
      constructor
      · intro hprefix
        obtain ⟨rfl, -⟩ := List.cons_prefix_cons.mp hprefix
        exact absurd hlt (UInt8.lt_irrefl _)
      · intro hprefix
        obtain ⟨rfl, -⟩ := List.cons_prefix_cons.mp hprefix
        exact absurd hlt (UInt8.lt_irrefl _)
  | later byte _ ih =>
      exact ⟨fun hprefix ↦ ih.1 (List.cons_prefix_cons.mp hprefix).2,
        fun hprefix ↦ ih.2 (List.cons_prefix_cons.mp hprefix).2⟩

/-- Bytes of two numbers, and further bytes that decide if they are equal. -/
theorem ofNat {x y : Nat} (le : x ≤ y) (bound : y < 256) (decides : x = y → Below bytes others) :
    Below (UInt8.ofNat x :: bytes) (UInt8.ofNat y :: others) := by
  rcases Nat.eq_or_lt_of_le le with rfl | hlt
  · exact .later _ (decides rfl)
  · refine .here _ _ (UInt8.lt_iff_toNat_lt.mpr ?_)
    rwa [UInt8.toNat_ofNat_of_lt' (Nat.lt_trans hlt bound), UInt8.toNat_ofNat_of_lt' bound]

end Below

/-- The encodings of two characters, the smaller one first. The first byte of an encoding tells its
length; encodings of one length are compared digit by digit. -/
theorem below_encodeChar {c d : Char} (lt : c < d) :
    Below (String.utf8EncodeChar c) (String.utf8EncodeChar d) := by
  have hlt : c.val.toNat < d.val.toNat := lt
  have hbound : d.val.toNat < 0x110000 := by
    have h := d.valid
    simp only [UInt32.isValidChar, Nat.isValidChar] at h
    omega
  unfold String.utf8EncodeChar
  dsimp only
  generalize c.val.toNat = v at hlt
  generalize d.val.toNat = w at hlt hbound
  -- The last digits cannot be equal too.
  have hlast : ∀ {x y : Nat}, x ≤ y → y < 256 → x ≠ y →
      Below [UInt8.ofNat x] [UInt8.ofNat y] := fun hle hlt hne ↦
    .ofNat hle hlt fun heq ↦ absurd heq hne
  by_cases hone : w ≤ 127
  · rw [if_pos (by omega), if_pos hone]
    exact hlast (by omega) (by omega) (by omega)
  rw [if_neg hone]
  by_cases htwo : w ≤ 2047
  · rw [if_pos htwo]
    split
    · exact .ofNat (by omega) (by omega) fun _ ↦ by omega
    · rw [if_pos (by omega)]
      exact .ofNat (by omega) (by omega) fun _ ↦ hlast (by omega) (by omega) (by omega)
  rw [if_neg htwo]
  by_cases hthree : w ≤ 65535
  · rw [if_pos hthree]
    split
    · exact .ofNat (by omega) (by omega) fun _ ↦ by omega
    split
    · exact .ofNat (by omega) (by omega) fun _ ↦ by omega
    · rw [if_pos (by omega)]
      exact .ofNat (by omega) (by omega) fun _ ↦ .ofNat (by omega) (by omega) fun _ ↦
        hlast (by omega) (by omega) (by omega)
  rw [if_neg hthree]
  split
  · exact .ofNat (by omega) (by omega) fun _ ↦ by omega
  split
  · exact .ofNat (by omega) (by omega) fun _ ↦ by omega
  split
  · exact .ofNat (by omega) (by omega) fun _ ↦ by omega
  · exact .ofNat (by omega) (by omega) fun _ ↦ .ofNat (by omega) (by omega) fun _ ↦
      .ofNat (by omega) (by omega) fun _ ↦ hlast (by omega) (by omega) (by omega)

/-! ## Texts -/

/-- The encoding of a text. -/
theorem encode_ofString (text : String) :
    Rune.encode (Rune.ofString text) = text.toUTF8.data.toList := by
  rw [String.toUTF8_eq_toByteArray, ← String.utf8Encode_toList]
  simp [Rune.encode, Rune.ofString, Rune.bytes, List.flatMap_map, List.utf8Encode]

/-- The text that an encoding is shown as. -/
theorem shown_encode (text : String) :
    shown ⟨(Rune.encode (Rune.ofString text)).toArray⟩ = text := by
  rw [encode_ofString, Array.toArray_toList]
  exact (congrArg Rune.toText (Rune.decode_toUTF8 text)).trans (Rune.toText_ofString text)

/-- The encoding of a text with one more rune. -/
theorem encode_cons (rune : Rune) (text : List Rune) :
    Rune.encode (rune :: text) = rune.bytes ++ Rune.encode text :=
  List.flatMap_cons

/-- An encoding has a first byte, which is told from the others. -/
theorem exists_bytes_char (c : Char) :
    ∃ byte bytes, (Rune.char c).bytes = byte :: bytes ∧ byte.IsUTF8FirstByte ∧
      bytes.length + 1 = c.utf8Size ∧ ∀ other ∈ bytes, ¬other.IsUTF8FirstByte := by
  have hfirst : ∀ {i : Nat} (hi : i < (String.utf8EncodeChar c).length),
      ((String.utf8EncodeChar c)[i]).IsUTF8FirstByte ↔ i = 0 := fun _ ↦
    UInt8.isUTF8FirstByte_getElem_utf8EncodeChar
  have hlength := String.length_utf8EncodeChar c
  show ∃ byte bytes, String.utf8EncodeChar c = _ ∧ _
  generalize String.utf8EncodeChar c = encoding at hfirst hlength
  cases encoding with
  | nil => exact absurd hlength (Nat.ne_of_lt c.utf8Size_pos)
  | cons byte bytes =>
      refine ⟨byte, bytes, rfl, (hfirst (Nat.zero_lt_succ _)).mpr rfl, hlength, ?_⟩
      intro other hother
      obtain ⟨i, hi, rfl⟩ := List.mem_iff_getElem.mp hother
      have hlater := (hfirst (i := i + 1) (Nat.succ_lt_succ hi)).not.mpr (Nat.succ_ne_zero i)
      rwa [List.getElem_cons_succ] at hlater

/-- Texts in the order of their characters are in the order of their encodings. -/
theorem encode_lt {text other : String} (lt : text < other) :
    Rune.encode (Rune.ofString text) < Rune.encode (Rune.ofString other) := by
  unfold Rune.ofString
  have hlex : List.Lex (· < ·) text.toList other.toList := String.lt_iff.mp lt
  generalize text.toList = chars, other.toList = others at hlex
  induction hlex with
  | nil =>
      obtain ⟨byte, bytes, hbytes, -⟩ := exists_bytes_char _
      rw [List.map_cons, encode_cons, hbytes]
      exact List.nil_lt_cons _ _
  | cons _ ih => exact List.append_left_lt ih
  | rel hlt => exact (below_encodeChar hlt).lt _ _

/-- A text starts with another one if its encoding does. -/
theorem encode_prefix_iff {chars others : List Char} :
    Rune.encode (chars.map .char) <+: Rune.encode (others.map .char) ↔ chars <+: others := by
  induction chars generalizing others with
  | nil => simp [Rune.encode]
  | cons c chars ih =>
      cases others with
      | nil => simp [Rune.encode, Rune.bytes, String.utf8EncodeChar_ne_nil]
      | cons d others =>
          simp only [List.map_cons, encode_cons, List.cons_prefix_cons]
          rcases Std.lt_trichotomy c d with hlt | rfl | hlt
          · exact iff_of_false ((below_encodeChar hlt).not_starts _ _).1
              fun h ↦ Char.lt_irrefl d (h.1 ▸ hlt)
          · rw [List.prefix_append_right_inj, ih]
            exact (and_iff_right rfl).symm
          · exact iff_of_false ((below_encodeChar hlt).not_starts _ _).2
              fun h ↦ Char.lt_irrefl d (h.1 ▸ hlt)

/-- The encoding of a text starts with the first byte of a character. -/
theorem isUTF8FirstByte_encode {chars : List Char} {byte : UInt8} {bytes : List UInt8}
    (starts : byte :: bytes <+: Rune.encode (chars.map .char)) : byte.IsUTF8FirstByte := by
  cases chars with
  | nil => simp [Rune.encode] at starts
  | cons c chars =>
      obtain ⟨first, rest, hbytes, hfirst, -⟩ := exists_bytes_char c
      rw [List.map_cons, encode_cons, hbytes] at starts
      rwa [(List.cons_prefix_cons.mp starts).1]

end WordLisp.Text

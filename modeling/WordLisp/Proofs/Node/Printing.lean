import WordLisp.Proofs.Node.Acceptance
import WordLisp.Proofs.Source.Queued

/-!
# Printing and reading are inverse

`Readable` says which nodes a text can denote. Every expression that is read is one of these
(`Reader.Reached.readable`), and from the bytes of its text each one is read again
(`Readable.parse_render`). So what two expressions are printed as tells them apart.
-/

namespace WordLisp

open Text (Rune)

/-- A text that can be an atom. -/
def IsAtom (text : List Char) : Prop :=
  text ≠ [] ∧ ∀ c ∈ text, (Rune.char c).InAtom

/-- The nodes that a text can denote: words, symbols that are atoms but no numerals, and lists. -/
inductive Readable : Node → Prop where
  | int (value : Word) : Readable (.int value)
  | symbol {name : String} :
      IsAtom name.toList → (∀ n, ¬Numeral name.toList n) → Readable (.symbol name)
  | list {nodes : List Node} : (∀ node ∈ nodes, Readable node) → Readable (.ofList nodes)

/-! ## What is read is readable -/

/-- The character of a rune in an atom may stand in one too. -/
theorem Text.Rune.InAtom.toChar {rune : Rune} (h : rune.InAtom) :
    (Rune.char rune.toChar).InAtom := by
  cases rune with
  | char c => exact h
  | stray byte =>
      show (Rune.char Rune.replacement).InAtom
      decide

/-- The atoms among the lexemes of a text. -/
theorem Lexes.isAtom {text : List Rune} {lexemes : List Lexeme} (h : Lexes text lexemes)
    {name : List Char} (hmem : .atom name ∈ lexemes) : IsAtom name := by
  induction h with
  | nil => cases hmem
  | separator _ _ ih => exact ih hmem
  | comment _ _ _ ih => exact ih hmem
  | opening _ ih => exact ih ((List.mem_cons.mp hmem).resolve_left nofun)
  | closing _ ih => exact ih ((List.mem_cons.mp hmem).resolve_left nofun)
  | atom hne hrunes _ _ ih =>
      rcases List.mem_cons.mp hmem with heq | hmem
      · cases heq
        refine ⟨fun hnil ↦ hne (List.map_eq_nil_iff.mp hnil), ?_⟩
        intro c hc
        obtain ⟨rune, hrune, rfl⟩ := List.mem_map.mp hc
        exact (hrunes rune hrune).toChar
      · exact ih hmem

/-- An atom denotes a readable node. -/
theorem Denotes.readable {text : List Char} {node : Node} (h : Denotes text node)
    (atom : IsAtom text) : Readable node := by
  cases h with
  | integer word _ => exact .int word
  | symbol hnone =>
      refine .symbol ?_ ?_ <;> rw [String.toList_ofList]
      · exact atom
      · exact hnone

/-- A token that a text can have: a parenthesis, or an atom. -/
def Token.Sound : Token → Prop
  | .opening _ | .closing _ => True
  | .atom _ text => IsAtom text

namespace Reader

variable {final : Position} {failure? : Option String}

/-- What the reader takes an atom for is what it denotes. -/
theorem denotes_of_atomNode {position : Position} {text : List Char} {node : Node}
    (h : atomNode position text = .ok node) : Denotes text node := by
  rcases atomNode_cases position text with ⟨other, hdenotes, hcase⟩ | hcase
  · rw [hcase] at h
    cases h
    exact hdenotes
  · rw [hcase] at h
    cases h

/-- The tokens that are left are the last ones. -/
theorem parse_suffix (frames : List Frame) (tokens : List Token) :
    (parse final failure? frames tokens).2 <:+ tokens := by
  fun_induction parse final failure? frames tokens with
  | case1 => exact List.suffix_rfl
  | case2 _ _ _ ih => exact ih.trans (List.suffix_cons _ _)
  | case3 => exact List.suffix_rfl
  | case4 => exact List.suffix_cons _ _
  | case5 _ _ _ _ _ _ ih => exact ih.trans (List.suffix_cons _ _)
  | case6 => exact List.suffix_cons _ _
  | case7 => exact List.suffix_cons _ _
  | case8 _ _ _ _ _ _ _ ih => exact ih.trans (List.suffix_cons _ _)

/-- An expression of atoms, inside lists of readable nodes, is readable. -/
theorem parse_readable {frames : List Frame} {tokens : List Token} {node : Node}
    (sound : ∀ token ∈ tokens, token.Sound)
    (inside : ∀ frame ∈ frames, ∀ node ∈ frame.reversed, Readable node)
    (parsed : (parse final failure? frames tokens).1 = .ok node) : Readable node := by
  fun_induction parse final failure? frames tokens with
  | case1 => cases parsed
  | case2 _ _ _ ih =>
      -- A list starts, and has no nodes yet.
      obtain ⟨-, hrest⟩ := List.forall_mem_cons.mp sound
      exact ih hrest (List.forall_mem_cons.mpr ⟨List.forall_mem_nil _, inside⟩) parsed
  | case3 => cases parsed
  | case4 =>
      -- The outermost list ends: it is the expression.
      cases parsed
      obtain ⟨hframe, -⟩ := List.forall_mem_cons.mp inside
      exact .list fun node hnode ↦ hframe node (List.mem_reverse.mp hnode)
  | case5 _ _ _ _ _ _ ih =>
      -- A list ends inside another one, which gets it as a node.
      obtain ⟨-, hrest⟩ := List.forall_mem_cons.mp sound
      obtain ⟨hframe, hframes⟩ := List.forall_mem_cons.mp inside
      obtain ⟨houter, hothers⟩ := List.forall_mem_cons.mp hframes
      have hlist := Readable.list fun node hnode ↦ hframe node (List.mem_reverse.mp hnode)
      refine ih hrest (List.forall_mem_cons.mpr ⟨?_, hothers⟩) parsed
      exact List.forall_mem_cons.mpr ⟨hlist, houter⟩
  | case6 => cases parsed
  | case7 _ _ _ _ hnode =>
      cases parsed
      obtain ⟨hatom, -⟩ := List.forall_mem_cons.mp sound
      exact (denotes_of_atomNode hnode).readable hatom
  | case8 _ _ _ _ _ _ hnode ih =>
      obtain ⟨hatom, hrest⟩ := List.forall_mem_cons.mp sound
      obtain ⟨hframe, hothers⟩ := List.forall_mem_cons.mp inside
      have hreadable := (denotes_of_atomNode hnode).readable hatom
      refine ih hrest (List.forall_mem_cons.mpr ⟨?_, hothers⟩) parsed
      exact List.forall_mem_cons.mpr ⟨hreadable, hframe⟩

/-- The readers there can be: of a source or of queued ones, after any number of expressions and
errors. -/
inductive Reached : Reader → Prop where
  | source (source : Source) : Reached (ofSource source)
  | sources (sources : List Source) : Reached (ofSources sources)
  | read {reader : Reader} : Reached reader → Reached reader.read.2

/-- The tokens of a stream are cut from its text. -/
theorem sound_ofStream {stream : Stream} {text : List Rune}
    (same : stream.cells.map Cell.char = text.map Rune.readAs) :
    ∀ token ∈ (ofStream stream).tokens, token.Sound := by
  intro token hmem
  obtain ⟨lexemes, hlexes⟩ := exists_lexes text
  have hlexeme : token.lexeme ∈ lexemes := by
    rw [← hlexes.map_scan same]
    exact List.mem_map_of_mem hmem
  cases token with
  | atom position name => exact hlexes.isAtom hlexeme
  | opening position => trivial
  | closing position => trivial

/-- The tokens that are left in a reader are sound. -/
theorem Reached.sound {reader : Reader} (h : reader.Reached) :
    ∀ token ∈ reader.tokens, token.Sound := by
  induction h with
  | source source => exact sound_ofStream (source.map_char_streamFrom 1 0 source.text)
  | sources sources => exact sound_ofStream (Queue.stream_content _).1
  | read _ ih =>
      intro token hmem
      exact ih token ((parse_suffix [] _).mem hmem)

/-- Every expression that is read is readable. -/
theorem Reached.readable {reader : Reader} {node : Node} (h : reader.Reached)
    (read : reader.read.1 = .ok node) : Readable node :=
  parse_readable h.sound (List.forall_mem_nil _) read

end Reader

/-! ## What is readable is read as it is printed -/

namespace Text.Rune

/-- The runes of two texts in a row. -/
theorem ofString_append (text more : String) :
    ofString (text ++ more) = ofString text ++ ofString more := by
  simp [ofString]

/-- Behind any bytes, the characters of a text are decoded as themselves. -/
theorem decodeFrom_utf8Encode (before : ByteArray) (chars : List Char) :
    decodeFrom (before ++ chars.utf8Encode) before.size = chars.map .char := by
  induction chars generalizing before with
  | nil =>
      rw [decodeFrom, dif_neg (by simp)]
      rfl
  | cons c rest ih =>
      have hdecode :
          (before ++ (c :: rest).utf8Encode).utf8DecodeChar? before.size = some c := by
        rw [ByteArray.utf8DecodeChar?_eq_utf8DecodeChar?_extract,
          ByteArray.extract_append_eq_right rfl ByteArray.size_append]
        exact List.utf8DecodeChar?_utf8Encode_cons
      have hlt := ByteArray.lt_size_of_isSome_utf8DecodeChar? (Option.isSome_of_eq_some hdecode)
      have hsize : (before ++ [c].utf8Encode).size = before.size + c.utf8Size := by
        rw [ByteArray.size_append, List.utf8Encode_singleton, List.size_toByteArray,
          String.length_utf8EncodeChar]
      have hrest := ih (before ++ [c].utf8Encode)
      rw [hsize, ByteArray.append_assoc, ← List.utf8Encode_cons] at hrest
      rw [decodeFrom, dif_pos hlt, hdecode]
      exact congrArg (char c :: ·) hrest

/-- A text that is encoded and decoded again is the same. -/
theorem decode_toUTF8 (text : String) : decode text.toUTF8 = ofString text := by
  have h := decodeFrom_utf8Encode .empty text.toList
  rw [ByteArray.empty_append] at h
  rw [decode, String.toUTF8_eq_toByteArray, ofString, ← h]
  simp

end Text.Rune

/-- A text that is cut into these lexemes, in front of whatever does not continue an atom. -/
def Spells (text : String) (lexemes : List Lexeme) : Prop :=
  ∀ {rest others}, (∀ rune ∈ rest.head?, ¬rune.InAtom) → Lexes rest others →
    Lexes (Rune.ofString text ++ rest) (lexemes ++ others)

/-- A node that has a text, which denotes it. -/
def Printed (node : Node) : Prop :=
  ∃ text lexemes, node.render? = some text ∧ Spells text lexemes ∧ Forest lexemes [node]

/-- The text of an atom is the atom. -/
theorem IsAtom.spells {text : String} (h : IsAtom text.toList) :
    Spells text [.atom text.toList] := by
  intro rest others hend hlexes
  have hne : Rune.ofString text ≠ [] := fun hnil ↦ h.1 (List.map_eq_nil_iff.mp hnil)
  have hrunes : ∀ rune ∈ Rune.ofString text, rune.InAtom := List.forall_mem_map.mpr h.2
  have hchars : (Rune.ofString text).map Rune.toChar = text.toList := by
    simp [Rune.ofString, Function.comp_def]
  rw [← hchars]
  exact .atom hne hrunes hend hlexes

/-- A digit may stand in an atom. -/
theorem inAtom_of_isDigit {c : Char} (digit : c.isDigit) : (Rune.char c).InAtom := by
  have hne : ∀ other : Char, other.isDigit = false → Rune.char c ≠ .char other := by
    rintro other hother ⟨⟩
    rw [hother] at digit
    cases digit
  refine ⟨?_, hne '(' rfl, hne ')' rfl, hne ';' rfl⟩
  rintro (hspace | hnul)
  · have hcode : 48 ≤ c.toNat ∧ c.toNat ≤ 57 := by
      simpa [Char.isDigit, UInt32.le_iff_toNat_le] using digit
    rw [Rune.isSpace, Rune.toChar_char] at hspace
    grind [Text.isSpace]
  · exact hne '\x00' rfl hnul

/-- A numeral can be an atom. -/
theorem Numeral.isAtom {text : List Char} {n : Int} (h : Numeral text n) : IsAtom text := by
  have hdigits : ∀ {digits : List Char}, Digits digits → ∀ c ∈ digits, (Rune.char c).InAtom :=
    fun h c hc ↦ inAtom_of_isDigit (h.2 c hc)
  cases h with
  | plain h => exact ⟨h.1, hdigits h⟩
  | plus h => exact ⟨nofun, List.forall_mem_cons.mpr ⟨by decide, hdigits h⟩⟩
  | minus h => exact ⟨nofun, List.forall_mem_cons.mpr ⟨by decide, hdigits h⟩⟩

/-- The decimal digits of a number denote it. -/
theorem digits_decimal (n : Nat) :
    Digits (Text.decimal n).toList ∧ Nat.ofDigitChars 10 (Text.decimal n).toList 0 = n := by
  have hdigits : (Text.decimal n).toList = Nat.toDigits 10 n := by
    simp [Text.decimal, Nat.repr]
  rw [hdigits]
  refine ⟨⟨Nat.toDigits_ne_nil, ?_⟩, Nat.ofDigitChars_ten_toDigits⟩
  intro c hc
  exact Nat.isDigit_of_mem_toDigits (by decide) (by decide) hc

/-- An integer is printed as a numeral that denotes it. -/
theorem numeral_integer (n : Int) : Numeral (Text.integer n).toList n := by
  obtain ⟨hdigits, hvalue⟩ := digits_decimal n.natAbs
  unfold Text.integer
  split
  · next hnegative =>
      have hnumeral := Numeral.minus hdigits
      rw [hvalue] at hnumeral
      rw [String.toList_append]
      have habs : -(n.natAbs : Int) = n := by omega
      rwa [habs] at hnumeral
  · next hnonnegative =>
      have hnumeral := Numeral.plain hdigits
      rw [hvalue] at hnumeral
      have habs : (n.natAbs : Int) = n := by omega
      rwa [habs] at hnumeral

/-- What stands behind the first node of a list, up to the parenthesis that closes it. -/
theorem exists_renderTail {nodes : List Node} (printed : ∀ node ∈ nodes, Printed node) :
    ∃ text lexemes, (Node.ofList nodes).renderTail? = some text ∧ Forest lexemes nodes ∧
      (∀ rest, ∀ rune ∈ (Rune.ofString text ++ rest).head?, ¬rune.InAtom) ∧
      ∀ {rest others}, Lexes rest others →
        Lexes (Rune.ofString text ++ rest) (lexemes ++ .closing :: others) := by
  induction nodes with
  | nil =>
      refine ⟨")", [], rfl, .nil, ?_, .closing⟩
      rintro rest _ ⟨⟩
      decide
  | cons node nodes ih =>
      obtain ⟨hnode, hnodes⟩ := List.forall_mem_cons.mp printed
      obtain ⟨first, atoms, hfirst, hspells, hforest⟩ := hnode
      obtain ⟨tail, lexemes, htail, hothers, hstop, hlexes⟩ := ih hnodes
      refine ⟨" " ++ first ++ tail, atoms ++ lexemes, ?_, hforest.append hothers, ?_, ?_⟩
      · simp [Node.ofList, Node.renderTail?, hfirst, htail]
      · intro rest
        simp only [Rune.ofString_append, List.append_assoc]
        rintro _ ⟨⟩
        decide
      · intro rest others hrest
        simp only [Rune.ofString_append, List.append_assoc]
        exact .separator (by decide) (hspells (hstop rest) (hlexes hrest))

/-- A symbol is printed as its name. -/
theorem printed_symbol {name : String} (atom : IsAtom name.toList)
    (symbol : ∀ n, ¬Numeral name.toList n) : Printed (.symbol name) := by
  have hdenotes := Denotes.symbol symbol
  rw [String.ofList_toList] at hdenotes
  exact ⟨name, _, rfl, atom.spells, .atom hdenotes .nil⟩

/-- The symbol that ends all lists is an atom. -/
theorem isAtom_nil : IsAtom "nil".toList := by
  have hrunes : ∀ rune ∈ Rune.ofString "nil", rune.InAtom := by
    decide
  exact ⟨by decide, List.forall_mem_map.mp hrunes⟩

/-- The empty list is printed as the symbol that ends all lists. -/
theorem printed_nil : Printed .nil := by
  refine printed_symbol isAtom_nil ?_
  intro n hnumeral
  cases Token.integer?_eq_some_iff.mpr hnumeral

/-- Every readable node has a text, which denotes it. -/
theorem Readable.printed {node : Node} (h : Readable node) : Printed node := by
  induction h with
  | int value =>
      have hnumeral := numeral_integer value.toInt
      exact ⟨_, _, rfl, hnumeral.isAtom.spells, .atom (.integer value hnumeral) .nil⟩
  | symbol hatom hsymbol => exact printed_symbol hatom hsymbol
  | @list nodes _ ih =>
      cases nodes with
      | nil => exact printed_nil
      | cons node nodes =>
          obtain ⟨hnode, hnodes⟩ := List.forall_mem_cons.mp ih
          obtain ⟨first, atoms, hfirst, hspells, hforest⟩ := hnode
          obtain ⟨tail, lexemes, htail, hothers, hstop, hlexes⟩ := exists_renderTail hnodes
          refine ⟨"(" ++ first ++ tail, .opening :: (atoms ++ lexemes ++ [.closing]), ?_, ?_,
            .list (hforest.append hothers) .nil⟩
          · simp [Node.ofList, Node.render?, hfirst, htail]
          · intro rest others _ hrest
            simp only [Rune.ofString_append, List.append_assoc, List.cons_append]
            exact .opening (hspells (hstop rest) (hlexes hrest))

/-- The text of a readable node is read as that node. -/
theorem Readable.parse_render {node : Node} (h : Readable node) :
    ∃ text, node.render? = some text ∧ Node.parse (Rune.decode text.toUTF8) = .ok node := by
  obtain ⟨text, lexemes, hrender, hspells, hforest⟩ := h.printed
  refine ⟨text, hrender, ?_⟩
  have hlexes := @hspells [] [] nofun .nil
  rw [List.append_nil, List.append_nil] at hlexes
  let source : Source := { text := Rune.ofString text }
  have hread : (Reader.ofSource source).readAll = ([node], none) :=
    hforest.readAll_ofSource hlexes rfl
  obtain ⟨last, hreads, -⟩ := Reader.reads_readAll (Reader.ofSource source)
  rw [hread] at hreads
  cases hreads with
  | cons hnode _ =>
      rw [Rune.decode_toUTF8, Node.parse, Reader.ofText, hnode]

/-- Readable nodes with the same text are the same. -/
theorem Readable.eq_of_render {node other : Node} (h : Readable node) (h' : Readable other)
    (same : node.render? = other.render?) : node = other := by
  obtain ⟨text, htext, hparse⟩ := h.parse_render
  obtain ⟨text', htext', hparse'⟩ := h'.parse_render
  rw [same, htext'] at htext
  cases htext
  rw [hparse] at hparse'
  cases hparse'
  rfl

/-- Printing and reading are inverse. Every expression that any reader gives is readable; every
readable node is printed as a text from whose bytes it is read again; and so two expressions are
printed alike only if they are the same. -/
theorem printing_inverts_reading :
    (∀ reader node, Reader.Reached reader → reader.read.1 = .ok node → Readable node) ∧
      (∀ node, Readable node → ∃ text, node.render? = some text ∧
        Node.parse (Rune.decode text.toUTF8) = .ok node) ∧
      ∀ reader other node node', Reader.Reached reader → Reader.Reached other →
        reader.read.1 = .ok node → other.read.1 = .ok node' →
        node.render? = node'.render? → node = node' := by
  refine ⟨?_, ?_, ?_⟩
  · intro reader node hreached hread
    exact hreached.readable hread
  · intro node hreadable
    exact hreadable.parse_render
  · intro reader other node node' hreached hother hread hread' hsame
    exact (hreached.readable hread).eq_of_render (hother.readable hread') hsame

/-- A sign, a stray byte and an empty list are printed otherwise than they were written. -/
theorem printing_inverts_reading_stray :
    let reader := Reader.ofText (Rune.ofString "(+3 " ++ .stray 0xff :: Rune.ofString "())")
    ∃ node, reader.read.1 = .ok node ∧ Readable node ∧ node.render? = some "(3 \ufffd nil)" ∧
      Node.parse (Rune.decode "(3 \ufffd nil)".toUTF8) = .ok node := by
  intro reader
  obtain ⟨hreadable, hparse, -⟩ := printing_inverts_reading
  have hread : reader.read.1 = .ok (.ofList [.int 3, .symbol "\ufffd", .nil]) := by
    rfl
  have hnode := hreadable reader _ (.source _) hread
  obtain ⟨text, htext, hagain⟩ := hparse _ hnode
  have hrender : (Node.ofList [.int 3, .symbol "\ufffd", .nil]).render? = some "(3 \ufffd nil)" :=
    rfl
  rw [hrender] at htext
  cases htext
  exact ⟨_, hread, hnode, hrender, hagain⟩

end WordLisp

import Mathlib.Data.List.DropRight
import WordLisp.Proofs.Text.Encoding
import WordLisp.Proofs.Text.Row

/-!
# What is offered at the end of a line

Every line has one last word (`LastWord.exists_cut`, `LastWord.unique`). Behind a character of one
byte the line is cut there, and the names that start with the word are offered
(`Session.completions_narrow`). Behind a blank of several bytes it is cut inside the blank, and
since no name starts with the rest of a character, nothing is offered
(`Session.completions_wide`).
-/

namespace WordLisp

open Text (Rune)

/-- A character that separates the words of a line: a parenthesis or a blank. -/
def Parts (c : Char) : Prop :=
  c = '(' ∨ c = ')' ∨ Text.isSpace c

instance (c : Char) : Decidable (Parts c) :=
  inferInstanceAs (Decidable (_ ∨ _ ∨ _))

/-- A line is cut before its last word: the longest ending in which nothing separates words. -/
structure LastWord (line head word : String) : Prop where
  cut : line = head ++ word
  whole : ∀ c ∈ word.toList, ¬Parts c
  longest : ∀ ending, ending <:+ line.toList → (∀ c ∈ ending, ¬Parts c) →
    ending.length ≤ word.toList.length

/-- A character separates words as the rune that it is. -/
theorem Text.Rune.separates_char (c : Char) : (Rune.char c).separates = decide (Parts c) := by
  rw [Bool.eq_iff_iff, decide_eq_true_iff]
  simp [Rune.separates, Parts, Rune.isSpace, or_assoc]

namespace LastWord

variable {line head word : String}

/-- What stands before the last word ends with a character that separates words. -/
theorem parts (h : LastWord line head word) : ∀ c ∈ head.toList.getLast?, Parts c := by
  intro c hc
  by_contra hparts
  obtain ⟨front, hfront⟩ := List.getLast?_eq_some_iff.mp hc
  have hline : line.toList = front ++ c :: word.toList := by
    rw [h.cut, String.toList_append, hfront, List.append_assoc, List.singleton_append]
  have hle := h.longest (c :: word.toList) ⟨front, hline.symm⟩
    (List.forall_mem_cons.mpr ⟨hparts, h.whole⟩)
  exact absurd hle (Nat.not_succ_le_self _)

/-- A word is the last one if nothing in it separates words and what stands before it ends so. -/
theorem of_parts (cut : line = head ++ word) (whole : ∀ c ∈ word.toList, ¬Parts c)
    (parts : ∀ c ∈ head.toList.getLast?, Parts c) : LastWord line head word := by
  refine ⟨cut, whole, ?_⟩
  intro ending hending hfree
  have hword : word.toList <:+ line.toList := ⟨head.toList, by rw [cut, String.toList_append]⟩
  by_contra hlonger
  -- A longer ending contains the character before the word.
  obtain ⟨more, hmore⟩ :=
    List.suffix_of_suffix_length_le hword hending (Nat.le_of_not_le hlonger)
  rcases List.eq_nil_or_concat more with rfl | ⟨front, c, rfl⟩
  · rw [List.nil_append] at hmore
    exact hlonger (Nat.le_of_eq (congrArg List.length hmore).symm)
  · obtain ⟨before, hbefore⟩ := hending
    have hhead : head.toList = before ++ (front ++ [c]) := by
      rw [cut, String.toList_append, ← hmore, ← List.append_assoc] at hbefore
      rw [← List.concat_eq_append]
      exact (List.append_cancel_right hbefore).symm
    refine hfree c ?_ (parts c ?_)
    · rw [← hmore]
      simp
    · rw [hhead]
      simp

/-- Every line has a last word. -/
theorem exists_cut (line : String) : ∃ head word, LastWord line head word := by
  let free : Char → Bool := fun c ↦ !decide (Parts c)
  refine ⟨.ofList (line.toList.rdropWhile free), .ofList (line.toList.rtakeWhile free),
    of_parts ?_ ?_ ?_⟩
  · rw [← String.ofList_append, List.rdropWhile_append_rtakeWhile, String.ofList_toList]
  · intro c hc
    rw [String.toList_ofList] at hc
    simpa [free] using List.mem_rtakeWhile_imp hc
  · intro c hc
    rw [String.toList_ofList] at hc
    obtain ⟨hne, rfl⟩ := List.mem_getLast?_eq_getLast hc
    simpa [free] using List.rdropWhile_last_not free line.toList hne

/-- A line has only one last word. -/
theorem unique {head' word' : String} (h : LastWord line head word)
    (h' : LastWord line head' word') : head = head' ∧ word = word' := by
  have hcut := h.cut
  have hcut' := h'.cut
  rw [← String.toList_inj, String.toList_append] at hcut hcut'
  have hle := h'.longest word.toList ⟨_, hcut.symm⟩ h.whole
  have hge := h.longest word'.toList ⟨_, hcut'.symm⟩ h'.whole
  have hsame := List.append_inj' (hcut.symm.trans hcut') (Nat.le_antisymm hle hge)
  exact ⟨String.toList_inj.mp hsame.1, String.toList_inj.mp hsame.2⟩

/-- The runes of a line, backwards: those of its last word come first. -/
theorem reverse_ofString (h : LastWord line head word) :
    (Rune.ofString line).reverse.takeWhile (!·.separates) = (Rune.ofString word).reverse ∧
      (Rune.ofString line).reverse.dropWhile (!·.separates) = (Rune.ofString head).reverse := by
  have hfree : ∀ rune ∈ (Rune.ofString word).reverse, (!rune.separates) = true := by
    intro rune hrune
    obtain ⟨c, hc, rfl⟩ := List.mem_map.mp (List.mem_reverse.mp hrune)
    simpa [Rune.separates_char] using h.whole c hc
  have hstop : ∀ rune ∈ (Rune.ofString head).reverse.head?, (!rune.separates) = false := by
    intro rune hrune
    rw [List.head?_reverse, Rune.ofString, List.getLast?_map] at hrune
    obtain ⟨c, hc, rfl⟩ := Option.map_eq_some_iff.mp hrune
    simp [Rune.separates_char, h.parts c hc]
  rw [h.cut, Rune.ofString_append, List.reverse_append]
  exact Text.takeWhile_dropWhile_append hfree hstop

/-- Behind a character of one byte the line is cut as its characters say. -/
theorem lastWord_narrow (h : LastWord line head word)
    (narrow : ∀ c ∈ head.toList.getLast?, c.utf8Size = 1) :
    lastWord (Rune.ofString line) =
      (Rune.encode (Rune.ofString head), Rune.encode (Rune.ofString word)) := by
  obtain ⟨htake, hdrop⟩ := h.reverse_ofString
  rw [lastWord, htake, hdrop, List.reverse_reverse]
  unfold Rune.ofString
  rcases List.eq_nil_or_concat head.toList with hnil | ⟨front, c, hconcat⟩
  · rw [hnil]
    rfl
  · obtain ⟨byte, bytes, hbytes, -, hsize, -⟩ := Text.exists_bytes_char c
    have hone := narrow c (by simp [hconcat])
    have hnil : bytes = [] := List.eq_nil_of_length_eq_zero (by omega)
    simp [hconcat, hbytes, hnil, Rune.encode]

/-- Behind a character of several bytes the line is cut inside it: what is completed starts with a
byte that starts no character. -/
theorem lastWord_wide (h : LastWord line head word) {c : Char} (last : c ∈ head.toList.getLast?)
    (wide : c.utf8Size ≠ 1) :
    ∃ byte bytes, (lastWord (Rune.ofString line)).2 = byte :: bytes ∧ ¬byte.IsUTF8FirstByte := by
  obtain ⟨htake, hdrop⟩ := h.reverse_ofString
  obtain ⟨front, hfront⟩ := List.getLast?_eq_some_iff.mp last
  obtain ⟨first, bytes, hbytes, -, hsize, hlater⟩ := Text.exists_bytes_char c
  cases bytes with
  | nil => exact absurd hsize.symm wide
  | cons byte rest =>
      refine ⟨byte, rest ++ Rune.encode (Rune.ofString word), ?_, hlater byte List.mem_cons_self⟩
      rw [lastWord, htake, hdrop, List.reverse_reverse]
      unfold Rune.ofString
      simp [hfront, hbytes]

end LastWord

/-! ## The names -/

/-- Equal names next to each other are made one: the order becomes strict. -/
theorem pairwise_eraseDups {names : List String} (sorted : names.Pairwise (· ≤ ·)) :
    names.eraseDups.Pairwise (· < ·) := by
  induction hlength : names.length using Nat.strong_induction_on generalizing names with
  | h length ih =>
  cases names with
  | nil => exact .nil
  | cons name rest =>
      obtain ⟨hname, hrest⟩ := List.pairwise_cons.mp sorted
      rw [List.eraseDups_cons]
      refine List.pairwise_cons.mpr ⟨?_, ?_⟩
      · intro other hother
        obtain ⟨hmem, hne⟩ := List.mem_filter.mp (List.mem_eraseDups.mp hother)
        exact Std.lt_of_le_of_ne (hname other hmem) fun heq ↦ by simp [heq] at hne
      · refine ih _ ?_ (hrest.filter _) rfl
        have := List.length_filter_le (fun other ↦ !other == name) rest
        rw [← hlength, List.length_cons]
        omega

namespace Session

variable (session : Session)

/-- The names that may be completed are in order, each once. -/
theorem pairwise_names : session.names.Pairwise (· < ·) := by
  refine pairwise_eraseDups ?_
  let le : String → String → Bool := fun name other ↦ decide (name ≤ other)
  have htrans : ∀ a b c, le a b = true → le b c = true → le a c = true := fun _ _ _ h h' ↦
    decide_eq_true (String.le_trans (of_decide_eq_true h) (of_decide_eq_true h'))
  have htotal : ∀ a b, (le a b || le b a) = true := fun a b ↦ by
    simpa [le] using String.le_total a b
  exact (List.pairwise_mergeSort htrans htotal _).imp of_decide_eq_true

/-- The names that may be completed are those of the builtins and of the defined functions. -/
theorem mem_names {name : String} :
    name ∈ session.names ↔
      (Builtin.ofName? name).isSome ∨ (session.compiler.function? name).isSome := by
  have hbuiltin : (Builtin.ofName? name).isSome ↔ name ∈ Builtin.names := by
    rw [← not_iff_not, Bool.not_eq_true, Option.isSome_eq_false_iff, Option.isNone_iff_eq_none,
      Builtin.ofName?_eq_none_iff]
  rw [names, List.mem_eraseDups, (List.mergeSort_perm _ _).mem_iff, List.mem_append, hbuiltin]
  simp [Compiler.function?, Table.lookup?]

variable {line head word : String}

/-- Behind a character of one byte the names that start with the last word are offered. -/
theorem completions_narrow (cut : LastWord line head word)
    (narrow : ∀ c ∈ head.toList.getLast?, c.utf8Size = 1) :
    session.completions (Rune.ofString line) =
      if word = "" then [] else
        (session.names.filter fun name ↦ word.toList.isPrefixOf name.toList).map (head ++ ·) := by
  have hempty : (Rune.encode (Rune.ofString word)).isEmpty = decide (word = "") := by
    rw [Bool.eq_iff_iff, decide_eq_true_iff, List.isEmpty_iff, ← List.prefix_nil,
      ← String.toList_eq_nil_iff, ← List.prefix_nil]
    exact @Text.encode_prefix_iff word.toList []
  have hstarts : ∀ name : String,
      (Rune.encode (Rune.ofString word)).isPrefixOf (Rune.encode (Rune.ofString name)) =
        word.toList.isPrefixOf name.toList := by
    intro name
    rw [Bool.eq_iff_iff, List.isPrefixOf_iff_prefix, List.isPrefixOf_iff_prefix]
    exact Text.encode_prefix_iff
  rw [completions, cut.lastWord_narrow narrow]
  simp only [hempty, hstarts, Text.shown_encode, decide_eq_true_eq]

/-- Behind a character of several bytes nothing is offered. -/
theorem completions_wide (cut : LastWord line head word) {c : Char}
    (last : c ∈ head.toList.getLast?) (wide : c.utf8Size ≠ 1) :
    session.completions (Rune.ofString line) = [] := by
  obtain ⟨byte, bytes, hword, hlater⟩ := cut.lastWord_wide last wide
  have hnone : (session.names.filter fun name ↦
      (byte :: bytes).isPrefixOf (Rune.encode (Rune.ofString name))) = [] := by
    rw [List.filter_eq_nil_iff]
    intro name _ hstarts
    exact hlater (Text.isUTF8FirstByte_encode (List.isPrefixOf_iff_prefix.mp hstarts))
  rw [completions]
  simp [hword, hnone]

/-- What is offered at the end of a line. The line has one last word, and behind nothing or a
character of one byte the completions are exact: none of an empty word, and otherwise the names of
the builtins and of the defined functions that start with the word, each once and in the order of
their bytes, behind what stands before the word. Behind a blank of several bytes there are none. -/
theorem completions_exact (session : Session) (line : String) :
    (∃! cut : String × String, LastWord line cut.1 cut.2) ∧
    ∀ head word, LastWord line head word →
      ((∀ c ∈ head.toList.getLast?, c.utf8Size = 1) →
        (word = "" → session.completions (Rune.ofString line) = []) ∧
        (word ≠ "" → ∃ names : List String,
          session.completions (Rune.ofString line) = names.map (head ++ ·) ∧
          names.Pairwise (fun name other ↦ name.toUTF8.data.toList < other.toUTF8.data.toList) ∧
          ∀ name, name ∈ names ↔
            ((Builtin.ofName? name).isSome ∨ (session.compiler.function? name).isSome) ∧
              word.toList <+: name.toList)) ∧
      ((∃ c ∈ head.toList.getLast?, c.utf8Size ≠ 1) →
        session.completions (Rune.ofString line) = []) := by
  obtain ⟨first, last, hlast⟩ := LastWord.exists_cut line
  refine ⟨⟨(first, last), hlast, fun cut hcut ↦ Prod.ext_iff.mpr (hcut.unique hlast)⟩, ?_⟩
  intro head word cut
  refine ⟨fun narrow ↦ ⟨?_, ?_⟩, ?_⟩
  · intro hempty
    rw [session.completions_narrow cut narrow, if_pos hempty]
  · intro hword
    rw [session.completions_narrow cut narrow, if_neg hword]
    refine ⟨_, rfl, ?_, ?_⟩
    · refine (session.pairwise_names.filter _).imp fun hlt ↦ ?_
      rw [← Text.encode_ofString, ← Text.encode_ofString]
      exact Text.encode_lt hlt
    · intro name
      rw [List.mem_filter, session.mem_names, List.isPrefixOf_iff_prefix]
  · rintro ⟨c, hlast, hwide⟩
    exact session.completions_wide cut hlast hwide

/-- A function of the name of a builtin is offered once, before the other one. -/
theorem completions_exact_define :
    let functions : Table := [⟨"double", 1, 1⟩, ⟨"define", 7, 2⟩]
    let session := { Session.new 16 ⟨[]⟩ with compiler := { functions := functions } }
    LastWord "(- 1 (d" "(- 1 (" "d" ∧
      ∃ names : List String, session.completions (Rune.ofString "(- 1 (d") =
          names.map ("(- 1 (" ++ ·) ∧
        names.Pairwise (fun name other ↦ name.toUTF8.data.toList < other.toUTF8.data.toList) ∧
        "define" ∈ names ∧ "double" ∈ names ∧ "/=" ∉ names := by
  intro functions session
  have hcut : LastWord "(- 1 (d" "(- 1 (" "d" := by
    refine .of_parts rfl (List.forall_mem_singleton.mpr (by decide)) ?_
    rintro _ ⟨⟩
    decide
  obtain ⟨-, hevery⟩ := session.completions_exact "(- 1 (d"
  obtain ⟨hexact, -⟩ := hevery _ _ hcut
  obtain ⟨-, hoffered⟩ := hexact (by rintro _ ⟨⟩; rfl)
  obtain ⟨names, hnames, hsorted, hmem⟩ := hoffered (by decide)
  refine ⟨hcut, names, hnames, hsorted, ?_, ?_, ?_⟩
  · exact (hmem "define").mpr (by decide)
  · exact (hmem "double").mpr (by decide)
  · exact fun h ↦ absurd ((hmem "/=").mp h) (by decide)

/-- Behind an ideographic space nothing is offered, although a builtin starts with the last
word. -/
theorem completions_exact_ideographic :
    LastWord "\u3000de" "\u3000" "de" ∧ (Builtin.ofName? "define").isSome ∧
      "de".toList <+: "define".toList ∧
      (Session.new 16 ⟨[]⟩).completions (Rune.ofString "\u3000de") = [] := by
  have hcut : LastWord "\u3000de" "\u3000" "de" := by
    refine .of_parts rfl ?_ ?_
    · exact List.forall_mem_cons.mpr ⟨by decide, List.forall_mem_singleton.mpr (by decide)⟩
    · rintro _ ⟨⟩
      decide
  have hlast : '\u3000' ∈ "\u3000".toList.getLast? := by decide
  exact ⟨hcut, by decide, ⟨['f', 'i', 'n', 'e'], rfl⟩, completions_wide _ hcut hlast (by decide)⟩

end Session

end WordLisp

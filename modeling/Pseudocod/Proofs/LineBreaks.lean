import Pseudocod.Proofs.Relocation

/-!
# Words do not go over the end of a line

A newline ends what is read in front of it as the end of the text does: every run of characters
stops at it, no sign has one, and a string or a number that breaks off is the same fault. So a text
with a newline behind it is read as it is alone, and what follows on the newline as a text of its
own.

* `Lexeme.read_append_newline`: the word in front of a newline, or the fault.
* `IsGap.append_newline`: the gap in front of a newline.
* `Cursor.tokenize_append_newline`: what a reading finds on both sides of a newline.
* `tokenize_lines`: the tokens of two texts on lines of their own, or the fault.
-/

namespace Pseudocod

/-! ## Runs of characters -/

section Runs

variable {p : Char → Bool}

theorem takeWhile_append_newline (h : p '\n' = false) (text rest : List Char) :
    (text ++ '\n' :: rest).takeWhile p = text.takeWhile p := by
  have stop : ('\n' :: rest).takeWhile p = [] := List.takeWhile_cons_of_neg (by simp [h])
  rw [List.takeWhile_append, stop, List.append_nil]
  split
  next whole => exact ((List.takeWhile_prefix p).eq_of_length whole).symm
  next => rfl

theorem dropWhile_append_newline (h : p '\n' = false) (text rest : List Char) :
    (text ++ '\n' :: rest).dropWhile p = text.dropWhile p ++ '\n' :: rest := by
  have stop : ('\n' :: rest).dropWhile p = '\n' :: rest :=
    List.dropWhile_cons_of_neg (by simp [h])
  rw [List.dropWhile_append, stop]
  split
  next none => rw [List.isEmpty_iff.mp none, List.nil_append]
  next => rfl

end Runs

/-- A text without a newline that begins a text begins what is in front of the newline. -/
theorem prefix_append_newline_iff {front text rest : List Char} (absent : '\n' ∉ front) :
    front <+: text ++ '\n' :: rest ↔ front <+: text := by
  refine ⟨fun h => ?_, fun h => h.trans (List.prefix_append _ _)⟩
  rcases List.prefix_or_prefix_of_prefix h (List.prefix_append text _) with inner | outer
  · exact inner
  · obtain ⟨more, rfl⟩ := outer
    rw [List.prefix_append_right_inj] at h
    cases more with
    | nil => rw [List.append_nil]
    | cons c more =>
      obtain ⟨rfl, -⟩ := List.cons_prefix_cons.mp h
      exact absurd (List.mem_append_right text List.mem_cons_self) absent

/-! ## Words -/

namespace Lexeme

variable (first : Char) (text rest : List Char)

theorem readName_append_newline :
    readName first (text ++ '\n' :: rest) = readName first text := by
  unfold readName
  rw [takeWhile_append_newline (by decide)]

theorem readNumber_append_newline :
    readNumber first (text ++ '\n' :: rest) = readNumber first text := by
  unfold readNumber
  rw [takeWhile_append_newline (by decide), dropWhile_append_newline (by decide)]
  cases text.dropWhile Char.isDigit with
  | nil => rfl
  | cons c after =>
    by_cases point : c = '.'
    · subst point
      simp only [List.cons_append, takeWhile_append_newline (p := Char.isDigit) (by decide)]
    · simp only [List.cons_append]
      split
      next found => exact absurd (List.cons.inj found).1 point
      next =>
        split
        next found => exact absurd (List.cons.inj found).1 point
        next => rfl

theorem readString_append_newline (quotes : isQuote first = true) :
    readString first (text ++ '\n' :: rest) = readString first text := by
  have stop : isContent first '\n' = false := by simp [isContent, isLineEnd]
  have other : '\n' ≠ first := by
    rintro rfl
    exact absurd quotes (by decide)
  unfold readString
  rw [takeWhile_append_newline stop, dropWhile_append_newline stop]
  cases text.dropWhile (isContent first) with
  | nil => simp [other]
  | cons c after => rfl

theorem readSymbol_append_newline :
    readSymbol first (text ++ '\n' :: rest) = readSymbol first text := by
  have absent : ∀ entry ∈ symbols, '\n' ∉ entry.1.toList := by decide
  have same :
      symbols.find? (fun entry => entry.1.toList.isPrefixOf (first :: (text ++ '\n' :: rest))) =
        symbols.find? (fun entry => entry.1.toList.isPrefixOf (first :: text)) := by
    refine List.find?_congr fun entry member => ?_
    rw [Bool.eq_iff_iff, List.isPrefixOf_iff_prefix, List.isPrefixOf_iff_prefix, ← List.cons_append]
    exact prefix_append_newline_iff (absent entry member)
  unfold readSymbol
  rw [same]

/-- The word at the front of a text, or its fault, is the same if a newline follows. -/
theorem read_append_newline : read first (text ++ '\n' :: rest) = read first text := by
  unfold read
  split
  next quotes => exact readString_append_newline first text rest quotes
  next => rw [readNumber_append_newline, readName_append_newline, readSymbol_append_newline]

end Lexeme

/-! ## Gaps -/

/-- A newline ends a comment, so that a gap at the end of a text is one in front of a newline. -/
theorem IsGap.append_newline {gap rest : List Char} (h : IsGap gap rest) (more : List Char) :
    IsGap gap (rest ++ '\n' :: more) := by
  induction h with
  | nil => exact .nil
  | blank blank _ ih => exact .blank blank ih
  | @comment body gap rest inside stop _ ih =>
    refine .comment inside ?_ ih
    rw [← List.append_assoc]
    cases eq : gap ++ rest with
    | nil =>
      rintro _ ⟨⟩
      rfl
    | cons c text =>
      rw [eq] at stop
      exact stop

/-! ## Texts -/

namespace Cursor

/-- A reading finds in front of a newline what it finds without it. Only if there is no fault it
goes on behind the newline. -/
theorem tokenize_append_newline (text rest : List Char) (place : Location) :
    (⟨text ++ '\n' :: rest, place⟩ : Cursor).tokenize.1 =
      (⟨text, place⟩ : Cursor).tokenize.1.bind fun tokens =>
        (⟨rest, (place.after text).next '\n'⟩ : Cursor).tokenize.1.map (tokens.dropLast ++ ·) := by
  induction text using textInduction generalizing place with
  | nil =>
    have newline : IsGap ['\n'] rest := .blank (by decide) .nil
    have behind := tokenize_gap newline place
    rw [List.cons_append, List.nil_append, Location.after_cons, Location.after_nil] at behind
    rw [List.nil_append, behind, tokenize_nil, Location.after_nil]
    show _ = Except.map ([] ++ ·) _
    cases (⟨rest, place.next '\n'⟩ : Cursor).tokenize.1 <;> rfl
  | word first text solid ih =>
    have bound := Lexeme.more_read_le first text
    rw [List.cons_append, tokenize_cons solid, tokenize_cons solid, Lexeme.read_append_newline]
    generalize Lexeme.read first text = reading at bound ⊢
    rw [List.drop_append_of_le_length bound, List.take_append_of_le_length bound]
    cases reading.outcome with
    | error fault => rfl
    | ok lexeme =>
      have behind := ih reading.more (place.after (first :: text.take reading.more))
      have whole : (place.after (first :: text.take reading.more)).after (text.drop reading.more) =
          place.after (first :: text) := by
        rw [← Location.after_append, List.cons_append, List.take_append_drop]
      rw [whole] at behind
      simp only [behind]
      generalize (⟨rest, (place.after (first :: text)).next '\n'⟩ : Cursor).tokenize.1 = below
      cases above : (⟨text.drop reading.more, place.after (first :: text.take reading.more)⟩ :
          Cursor).tokenize.1 with
      | error error => rfl
      | ok tokens =>
        obtain ⟨-, words, eq⟩ := ended_of_ok above
        have ne : tokens ≠ [] := by
          rw [eq]
          exact List.append_ne_nil_of_right_ne_nil _ (List.cons_ne_nil _ _)
        cases below with
        | error error => rfl
        | ok others =>
          show Except.ok (_ :: (_ ++ others)) = Except.ok (_ ++ others)
          rw [List.dropLast_cons_of_ne_nil ne, List.cons_append]
  | gap gap behind isGap ih =>
    rw [List.append_assoc, tokenize_gap (isGap.append_newline rest), tokenize_gap isGap, ih,
      Location.after_append]

end Cursor

/-- A text that starts behind a newline has its own columns, and its lines and offsets are counted
on from those in front of it. -/
theorem Location.within_newline (text : String) :
    (start.after (text.toList ++ ['\n'])).within = fun place =>
      { line := place.line + (1 + text.toList.count '\n'), column := place.column,
        offset := place.offset + (1 + text.utf8ByteSize) } := by
  have size : (String.ofList (text.toList ++ ['\n'])).utf8ByteSize = text.utf8ByteSize + 1 := by
    rw [String.ofList_append, String.ofList_toList, String.utf8ByteSize_append]
    rfl
  funext place
  rw [start_after, size, Text.lastLine, List.rtakeWhile_concat_neg _ _ _ (by decide),
    List.count_append]
  simp only [within, List.count_singleton_self, List.length_nil, Nat.add_zero, mk.injEq]
  refine ⟨by omega, ?_, by omega⟩
  split <;> omega

/-- The tokens of two texts on lines of their own, or their fault. A fault of the first text is the
fault of both; otherwise there are its tokens up to its end, and then what is found in the second
text, as many lines and bytes further on as the first one has with its newline. -/
theorem tokenize_lines (above below : String) :
    (∀ error, tokenize above = .error error →
      tokenize (above ++ "\n" ++ below) = .error error) ∧
    ∀ tokens, tokenize above = .ok tokens → ∃ words stop, tokens = words ++ [.eof stop] ∧
      (∀ word ∈ words, word.kind ≠ .eof) ∧
      tokenize (above ++ "\n" ++ below) =
        (Cursor.relocate (fun place =>
          { line := place.line + (1 + above.toList.count '\n'), column := place.column,
            offset := place.offset + (1 + above.utf8ByteSize) }) (tokenize below)).map
          (words ++ ·) := by
  have both : tokenize (above ++ "\n" ++ below) =
      (tokenize above).bind fun tokens =>
        (Cursor.relocate (Location.start.after (above.toList ++ ['\n'])).within
          (tokenize below)).map (tokens.dropLast ++ ·) := by
    have text : (above ++ "\n" ++ below).toList = above.toList ++ '\n' :: below.toList := by
      rw [String.toList_append, String.toList_append, List.append_assoc]
      rfl
    obtain ⟨behind, -⟩ := Cursor.tokenize_within
      (Location.start.after (above.toList ++ ['\n'])) below.toList []
    rw [Location.after_nil, Location.after_append, Location.after_cons,
      Location.after_nil] at behind
    rw [tokenize, Cursor.ofSource, text, Cursor.tokenize_append_newline, behind,
      Location.after_append]
    rfl
  rw [Location.within_newline] at both
  refine ⟨fun error fails => by rw [both, fails]; rfl, fun tokens found => ?_⟩
  obtain ⟨words, stop, rfl, lexes⟩ := exists_words_of_tokenize found
  refine ⟨words, stop, rfl, ?_, ?_⟩
  · intro word member
    exact (lexes.legal _ (List.mem_map_of_mem member)).not_eof
  · rw [both, found]
    show Except.map ((words ++ [Token.eof stop]).dropLast ++ ·) _ = _
    rw [List.dropLast_concat]

/-- A string that breaks off in front of a newline is a fault, although the text behind has a quote.
Without it the text behind the newline is read, and a sign is not read on over the newline. -/
theorem tokenize_lines_open :
    tokenize ("x <\n'ș" ++ "\n" ++ "- é'") = .error ⟨.openString, ⟨2, 1, 4⟩⟩ ∧
    tokenize ("scrie 'ș' <" ++ "\n" ++ "- 1") =
      .ok [⟨.scrie, "scrie", ⟨1, 1, 0⟩⟩, ⟨.string, "ș", ⟨1, 7, 6⟩⟩, ⟨.lt, "<", ⟨1, 11, 11⟩⟩,
        ⟨.minus, "-", ⟨2, 1, 13⟩⟩, ⟨.number, "1", ⟨2, 3, 15⟩⟩, .eof ⟨2, 4, 16⟩] := by
  have broken : tokenize "x <\n'ș" = .error ⟨.openString, ⟨2, 1, 4⟩⟩ := by cbv
  have whole : tokenize "scrie 'ș' <" =
      .ok [⟨.scrie, "scrie", ⟨1, 1, 0⟩⟩, ⟨.string, "ș", ⟨1, 7, 6⟩⟩, ⟨.lt, "<", ⟨1, 11, 11⟩⟩,
        .eof ⟨1, 12, 12⟩] := by cbv
  have behind : tokenize "- 1" =
      .ok [⟨.minus, "-", ⟨1, 1, 0⟩⟩, ⟨.number, "1", ⟨1, 3, 2⟩⟩, .eof ⟨1, 4, 3⟩] := by cbv
  refine ⟨(tokenize_lines _ _).1 _ broken, ?_⟩
  obtain ⟨words, stop, eq, -, found⟩ := (tokenize_lines "scrie 'ș' <" "- 1").2 _ whole
  have words_eq := congrArg List.dropLast eq
  rw [List.dropLast_concat] at words_eq
  rw [found, behind, ← words_eq]
  rfl

end Pseudocod

import Pseudocod.Proofs.Messages

/-!
# What a report points at

A report shows one line of the source and has a caret under it. Where the error is was counted while
the source was read; the line is found again by cutting the source at its newlines, and the caret by
going on as far as the column. Both agree: the caret is under the character of the error, or behind
the line if the end of the source is the error.

* `Text.exists_cut`: the line on which a text is cut in two.
* `SyntaxError.splitLines_report`: a report has four lines.
* `Program.exists_cut_of_parse`: where an error cuts its source in two.
* `Program.report_parse_error`: the line that is shown, and the place of the caret.
-/

namespace Pseudocod

/-! ## Lines -/

namespace Text

/-- What comes before the last line of a text. -/
theorem exists_splitLines (text : List Char) :
    ∃ above, splitLines text = above ++ [lastLine text] ∧ above.length = text.count '\n' := by
  have split : ∃ above, splitLines text = above ++ [lastLine text] := by
    induction text using List.reverseRecOn with
    | nil => exact ⟨[], rfl⟩
    | append_singleton text c ih =>
      obtain ⟨above, eq⟩ := ih
      by_cases newline : c = '\n'
      · refine ⟨splitLines text, ?_⟩
        rw [newline, splitLines_append_newline]
        simp [lastLine, splitLines]
      · refine ⟨above, ?_⟩
        have single : splitLines [c] = [[c]] := splitLines_cons newline rfl
        rw [splitLines_append eq single]
        simp [lastLine, newline]
  obtain ⟨above, eq⟩ := split
  have length := length_splitLines text
  rw [eq, List.length_append, List.length_singleton] at length
  exact ⟨above, eq, Nat.succ.inj length⟩

theorem dropReturn_sublist (line : List Char) : (dropReturn line).Sublist line := by
  unfold dropReturn
  split
  next => exact List.dropLast_sublist line
  next => exact List.Sublist.refl line

/-- A character that is not a carriage return is not dropped. -/
theorem exists_dropReturn (front tail : List Char) {c : Char} (ne : c ≠ '\r') :
    ∃ tail', dropReturn (front ++ c :: tail) = front ++ c :: tail' := by
  unfold dropReturn
  split
  next last =>
    cases tail with
    | nil => simp [ne] at last
    | cons d tail =>
      refine ⟨(d :: tail).dropLast, ?_⟩
      rw [List.dropLast_append_of_ne_nil (List.cons_ne_nil _ _),
        List.dropLast_cons_of_ne_nil (List.cons_ne_nil _ _)]
  next => exact ⟨tail, rfl⟩

/-- The line on which a text is cut in two, in front of a character that ends no line or at the end
of the text: as much as there was of it is in front of the cut. -/
theorem exists_cut (before : List Char) {rest : List Char}
    (stays : ∀ c ∈ rest.head?, Lexeme.isLineEnd c = false) :
    ∃ line front behind, (splitLines (before ++ rest))[before.count '\n']? = some line ∧
      dropReturn line = front ++ behind ∧ front = (dropReturn line).take (lastLine before).length ∧
      behind.head? = rest.head? ∧
      (rest ≠ [] → splitLines before =
        (splitLines (before ++ rest)).take (before.count '\n') ++ [front]) := by
  obtain ⟨above, split, length⟩ := exists_splitLines before
  cases rest with
  | nil =>
    refine ⟨lastLine before, dropReturn (lastLine before), [], ?_, ?_, ?_, rfl, nofun⟩
    · rw [List.append_nil, split, ← length, List.getElem?_concat_length]
    · rw [List.append_nil]
    · rw [List.take_of_length_le (dropReturn_sublist _).length_le]
  | cons c rest =>
    have ends : Lexeme.isLineEnd c = false := stays c rfl
    simp only [Lexeme.isLineEnd, Bool.or_eq_false_iff, decide_eq_false_iff_not] at ends
    obtain ⟨tail, below, split'⟩ := List.exists_cons_of_ne_nil (splitLines_ne_nil rest)
    have whole := splitLines_append split (splitLines_cons ends.1 split')
    obtain ⟨tail', dropped⟩ := exists_dropReturn (lastLine before) tail ends.2
    refine ⟨lastLine before ++ c :: tail, lastLine before, c :: tail', ?_, dropped, ?_, rfl, ?_⟩
    · rw [whole, ← length, List.getElem?_append_right (Nat.le_refl _), Nat.sub_self]
      rfl
    · rw [dropped, List.take_left]
    · intro _
      rw [whole, split, ← length, List.take_left]

end Text

/-! ## Reports -/

namespace SyntaxError

theorem newline_not_mem_sourceLine (text : List Char) (line : Nat) :
    '\n' ∉ sourceLine text line := by
  unfold sourceLine
  cases found : (Text.splitLines text)[line - 1]? with
  | none => exact List.not_mem_nil
  | some line =>
    intro newline
    exact Text.not_mem_of_mem_splitLines (List.mem_of_getElem? found)
      ((Text.dropReturn_sublist line).subset newline)

theorem newline_not_mem_padding (text : List Char) (column : Nat) : '\n' ∉ padding text column := by
  intro newline
  obtain ⟨c, -, eq⟩ := List.mem_map.mp newline
  split at eq
  next => exact absurd eq (by decide)
  next => exact absurd eq (by decide)

/-- A report has four lines, one of which is empty. -/
theorem splitLines_report {error : SyntaxError} (oneLine : OneLine error.message)
    {source : String} {text : List Char}
    (shown : sourceLine source.toList error.location.line = text) :
    Text.splitLines (error.report source).toList =
      [error.message.toList, [], (margin error.location.line).toList ++ text,
        List.replicate (margin error.location.line).length ' ' ++
          (padding text error.location.column ++ ['^'])] := by
  have line : '\n' ∉ (margin error.location.line).toList ++ text := by
    rw [List.mem_append, not_or]
    exact ⟨(oneLine_toString _).within (by decide), shown ▸ newline_not_mem_sourceLine _ _⟩
  have under : '\n' ∉ List.replicate (margin error.location.line).length ' ' ++
      (padding text error.location.column ++ ['^']) := by
    simp [newline_not_mem_padding]
  have whole : (error.report source).toList =
      error.message.toList ++ '\n' :: ([] ++ '\n' :: ((margin error.location.line).toList ++ text ++
        '\n' :: (List.replicate (margin error.location.line).length ' ' ++
          (padding text error.location.column ++ ['^'])))) := by
    simp [report, shown]
  rw [whole, Text.splitLines_append_newline, Text.splitLines_append_newline,
    Text.splitLines_append_newline, Text.splitLines_of_not_mem oneLine,
    Text.splitLines_of_not_mem List.not_mem_nil, Text.splitLines_of_not_mem,
    Text.splitLines_of_not_mem]
  · rfl
  · exact under
  · exact line

end SyntaxError

/-! ## Errors of sources -/

namespace Program

theorem isLineEnd_of_isSolid {c : Char} (solid : IsSolid c) : Lexeme.isLineEnd c = false := by
  cases ends : Lexeme.isLineEnd c with
  | false => rfl
  | true => exact nomatch (isBlank_of_isLineEnd ends).symm.trans solid.1

/-- An error cuts its source in two. The report shows the line of the cut, and the caret is behind
as much of it as is in front of the cut; behind the cut is a character of the line, or the end of
the source is the error. -/
structure Cut (source : String) (error : SyntaxError) (before rest line front behind : List Char) :
    Prop where
  whole : source.toList = before ++ rest
  line_eq : error.location.line = before.count '\n' + 1
  offset_eq : error.location.offset = (String.ofList before).utf8ByteSize
  found : (Text.splitLines source.toList)[before.count '\n']? = some line
  shown : Text.dropReturn line = front ++ behind
  head_eq : behind.head? = rest.head?
  report : Text.splitLines (error.report source).toList =
    [error.message.toList, [],
      (SyntaxError.margin error.location.line).toList ++ (front ++ behind),
      List.replicate (SyntaxError.margin error.location.line).length ' ' ++
        (front.map (fun c => if c = '\t' then '\t' else ' ') ++ ['^'])]
  above : rest ≠ [] →
    Text.splitLines before = (Text.splitLines source.toList).take (before.count '\n') ++ [front]
  ending : rest = [] → ∃ expected, error = .grammatical expected "end of input" error.location

theorem exists_cut_of_parse {source : String} {error : SyntaxError}
    (h : parse source = .error error) :
    ∃ before rest line front behind, Cut source error before rest line front behind := by
  obtain ⟨before, rest, whole, place, solid, last⟩ := parse_error_place h
  obtain ⟨line, front, behind, found, dropped, cut, first, above⟩ :=
    Text.exists_cut before fun c head => isLineEnd_of_isSolid (solid c head)
  rw [← whole] at found above
  rw [Location.start_after] at place
  have line_eq : error.location.line = before.count '\n' + 1 := by rw [place, Nat.add_comm]
  have shown : SyntaxError.sourceLine source.toList error.location.line = front ++ behind := by
    rw [SyntaxError.sourceLine, line_eq, Nat.add_sub_cancel, found, Option.getD_some, dropped]
  have under : SyntaxError.padding (front ++ behind) error.location.column =
      front.map fun c => if c = '\t' then '\t' else ' ' := by
    rw [SyntaxError.padding, place, Nat.add_sub_cancel_left, ← dropped, ← cut]
  have report := SyntaxError.splitLines_report (oneLine_parse_error h) shown
  rw [under] at report
  exact ⟨before, rest, line, front, behind,
    { whole, line_eq, offset_eq := by rw [place], found, shown := dropped, head_eq := first, report,
      above, ending := last }⟩

/-- The report of an error shows its message and the line of the source on which it is, without a
carriage return at the end. Under what is in front of the caret there are blanks, and tabs under
tabs. The caret is under the character with the offset of the error, or behind the line if all
characters are in front of the error. -/
theorem report_parse_error {source : String} {error : SyntaxError}
    (h : parse source = .error error) :
    let lines := Text.splitLines source.toList
    let place := error.location
    let margin := SyntaxError.margin place.line
    1 ≤ place.line ∧ ∃ line front behind, lines[place.line - 1]? = some line ∧
      Text.dropReturn line = front ++ behind ∧
      Text.splitLines (error.report source).toList =
        [error.message.toList, [], margin.toList ++ (front ++ behind),
          List.replicate margin.length ' ' ++
            (front.map (fun c => if c = '\t' then '\t' else ' ') ++ ['^'])] ∧
      (place.offset < source.utf8ByteSize → ∃ before c rest, source.toList = before ++ c :: rest ∧
        (String.ofList before).utf8ByteSize = place.offset ∧
        Text.splitLines before = lines.take (place.line - 1) ++ [front] ∧ behind.head? = some c) ∧
      (source.utf8ByteSize ≤ place.offset → behind = []) := by
  dsimp only
  obtain ⟨before, rest, line, front, behind, cut⟩ := exists_cut_of_parse h
  have line_eq := cut.line_eq
  have size : source.utf8ByteSize =
      error.location.offset + (String.ofList rest).utf8ByteSize := by
    rw [cut.offset_eq, ← String.utf8ByteSize_append, ← String.ofList_append, ← cut.whole,
      String.ofList_toList]
  rw [line_eq, Nat.add_sub_cancel, ← line_eq]
  refine ⟨by omega, line, front, behind, cut.found, cut.shown, cut.report, ?_, ?_⟩
  · intro inside
    cases rest with
    | nil =>
      rw [size] at inside
      exact absurd inside (Nat.lt_irrefl _)
    | cons c rest =>
      exact ⟨before, c, rest, cut.whole, cut.offset_eq.symm, cut.above nofun, cut.head_eq⟩
  · intro passed
    cases rest with
    | nil => exact List.head?_eq_none_iff.mp cut.head_eq
    | cons c rest =>
      have pos := c.utf8Size_pos
      rw [String.ofList_cons, String.utf8ByteSize_append, String.utf8ByteSize_singleton] at size
      omega

/-- The caret is behind a tab, and the carriage return at the end of the line is not shown. -/
theorem report_parse_error_tab :
    parse "x <- 1\r\n\tscrie é\r\n" = .error (.lexical "Unexpected character: 'é'" ⟨2, 8, 15⟩) ∧
    ∃ front behind, "\tscrie é".toList = front ++ behind ∧ behind ≠ [] ∧
      Text.splitLines ((SyntaxError.lexical "Unexpected character: 'é'" ⟨2, 8, 15⟩).report
          "x <- 1\r\n\tscrie é\r\n").toList =
        ["Unexpected character: 'é'".toList, [], "  2 | ".toList ++ (front ++ behind),
          List.replicate 6 ' ' ++
            (front.map (fun c => if c = '\t' then '\t' else ' ') ++ ['^'])] := by
  have tokenized : tokenize "x <- 1\r\n\tscrie é\r\n" = .error ⟨.stray 'é', ⟨2, 8, 15⟩⟩ := by cbv
  have failed : parse "x <- 1\r\n\tscrie é\r\n" =
      .error (.lexical "Unexpected character: 'é'" ⟨2, 8, 15⟩) := by
    rw [parse, tokenized]
    rfl
  have lines : (Text.splitLines "x <- 1\r\n\tscrie é\r\n".toList)[1]? =
      some "\tscrie é\r".toList := by decide
  obtain ⟨-, line, front, behind, found, dropped, report, inside, -⟩ := report_parse_error failed
  obtain rfl := Option.some.inj (lines.symm.trans found)
  obtain ⟨-, c, -, -, -, -, first⟩ := inside (by decide)
  refine ⟨failed, front, behind, dropped, ?_, report⟩
  rintro rfl
  cases first

end Program

end Pseudocod

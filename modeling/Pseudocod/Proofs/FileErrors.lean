import Pseudocod.Proofs.PlainSource
import Pseudocod.Proofs.Reports

/-!
# Errors on the lines of a file

A command reads the plain form of the text in a file, and so its errors are counted in the plain
form. Keys are replaced on each line apart from the others, and the newline that is added comes
last. So the number of a line is that of the line in the file, except for the empty line behind the
newline that was added; and on this one there is no error but the end of the text.

* `Typeset.splitLines_replaceKeys`: the lines of a text in which keys were replaced.
* `Program.parse_error_line`: the line that the report of an error shows.
* `CommandLine.run_error_line`: what is shown of a file.
-/

namespace Pseudocod

/-! ## Keys on a line -/

namespace Typeset

theorem newline_not_mem_replaceKeys {text : List Char} (h : '\n' ∉ text) :
    '\n' ∉ replaceKeys text :=
  not_mem_replaceKeys (by decide) h

/-- Keys are replaced on each line apart from the others. -/
theorem splitLines_replaceKeys (text : List Char) :
    Text.splitLines (replaceKeys text) = (Text.splitLines text).map replaceKeys := by
  generalize length : text.length = n
  induction n using Nat.strongRecOn generalizing text with
  | ind n ih =>
    subst length
    by_cases newline : '\n' ∈ text
    · obtain ⟨line, rest, rfl, absent⟩ := List.eq_append_cons_of_mem newline
      have shorter : rest.length < (line ++ '\n' :: rest).length := by
        simp only [List.length_append, List.length_cons]
        omega
      rw [replaceKeys_append_newline, Text.splitLines_append_newline,
        Text.splitLines_append_newline, ih _ shorter rest rfl, Text.splitLines_of_not_mem absent,
        Text.splitLines_of_not_mem (newline_not_mem_replaceKeys absent), List.map_append]
      rfl
    · rw [Text.splitLines_of_not_mem newline,
        Text.splitLines_of_not_mem (newline_not_mem_replaceKeys newline)]
      rfl

/-- The newline that is added makes an empty line. -/
theorem splitLines_endLine (text : List Char) :
    Text.splitLines (endLine text) = Text.splitLines text ∨
      Text.splitLines (endLine text) = Text.splitLines text ++ [[]] := by
  unfold endLine
  split
  next => exact .inl rfl
  next => exact .inr (Text.splitLines_append_newline text [])

/-- The lines of a plain form are those of the text with their keys replaced, and maybe an empty
one. -/
theorem splitLines_normalise (source : String) {number : Nat} {line : List Char}
    (found : (Text.splitLines (normalise source).toList)[number]? = some line) :
    (∃ written, (Text.splitLines source.toList)[number]? = some written ∧
      line = replaceKeys written) ∨
      number = (Text.splitLines source.toList).length ∧ line = [] := by
  have lines := splitLines_replaceKeys source.toList
  rw [normalise, String.toList_ofList, normaliseChars] at found
  have inside (h : (Text.splitLines (replaceKeys source.toList))[number]? = some line) :
      ∃ written, (Text.splitLines source.toList)[number]? = some written ∧
        line = replaceKeys written := by
    rw [lines, List.getElem?_map] at h
    obtain ⟨written, here, eq⟩ := Option.map_eq_some_iff.mp h
    exact ⟨written, here, eq.symm⟩
  rcases splitLines_endLine (replaceKeys source.toList) with same | more
  · rw [same] at found
    exact .inl (inside found)
  · rw [more, List.getElem?_append] at found
    split at found
    next => exact .inl (inside found)
    next beyond =>
      have empty := List.mem_singleton.mp (List.mem_of_getElem? found)
      have last := (List.getElem?_eq_some_iff.mp found).1
      rw [lines, List.length_map] at beyond last
      rw [List.length_singleton] at last
      exact .inr ⟨by omega, empty⟩

end Typeset

/-! ## The line of an error -/

namespace Program

/-- The report of an error shows a line of the source. There is something on it, unless the end of
the source is the error. -/
theorem parse_error_line {source : String} {error : SyntaxError} (h : parse source = .error error) :
    1 ≤ error.location.line ∧ ∃ line,
      (Text.splitLines source.toList)[error.location.line - 1]? = some line ∧
      (Text.splitLines (error.report source).toList)[2]? =
        some ((SyntaxError.margin error.location.line).toList ++ Text.dropReturn line) ∧
      (line = [] → error.location.offset = source.utf8ByteSize ∧
        ∃ expected, error = .grammatical expected "end of input" error.location) := by
  obtain ⟨before, rest, line, front, behind, cut⟩ := exists_cut_of_parse h
  have line_eq := cut.line_eq
  rw [line_eq, Nat.add_sub_cancel, ← line_eq]
  refine ⟨by omega, line, cut.found, by rw [cut.report, cut.shown]; rfl, ?_⟩
  rintro rfl
  -- nothing is on the line, so that nothing of it is behind the error
  obtain ⟨-, rfl⟩ := List.append_eq_nil_iff.mp cut.shown.symm
  have none : rest = [] := List.head?_eq_none_iff.mp cut.head_eq.symm
  have whole := cut.whole
  rw [none, List.append_nil] at whole
  exact ⟨by rw [cut.offset_eq, ← whole, String.ofList_toList], cut.ending none⟩

end Program

/-! ## Commands -/

namespace CommandLine

/-- A command that ends with 1 reports an error of its source. -/
theorem execute_eq_failAt {command : Command} {path source : String}
    (exits : (execute command path source).code = 1) :
    ∃ error, Program.parse source = .error error ∧
      execute command path source = failAt path source error := by
  unfold execute at exits ⊢
  cases command with
  | lint => cases exits
  | tokens =>
    cases tokenized : tokenize source with
    | ok tokens =>
      simp only [tokenized] at exits
      cases exits
    | error fault => exact ⟨fault.toSyntaxError, by rw [Program.parse, tokenized], rfl⟩
  | parse | fmt =>
    cases parsed : Program.parse source with
    | ok program =>
      simp only [parsed] at exits
      cases exits
    | error error => exact ⟨error, rfl, rfl⟩

/-- If a command on a file ends with 1, then its report shows the line with the number of the error
in the file, with the keys on it replaced and without a carriage return at the end. Only if the text
ends too early the error can be on the line behind the last one, and then nothing is shown. -/
theorem run_error_line {find : String → Found} {name path raw : String} {content : ByteArray}
    {more : List String} (checks : name ∈ ["parse", "fmt", "tokens"])
    (held : find path = .bytes content) (decoded : String.fromUTF8? content = some raw)
    (exits : (run find (name :: path :: more)).code = 1) :
    let lines := Text.splitLines raw.toList
    let plain := Typeset.normalise raw
    ∃ error excerpt, run find (name :: path :: more) = failAt path plain error ∧
      Program.parse plain = .error error ∧
      (Text.splitLines (error.report plain).toList)[2]? =
        some ((SyntaxError.margin error.location.line).toList ++ excerpt) ∧
      1 ≤ error.location.line ∧ error.location.line ≤ lines.length + 1 ∧
      (error.location.line ≤ lines.length → ∃ line, lines[error.location.line - 1]? = some line ∧
        excerpt = Text.dropReturn (Typeset.replaceKeys line)) ∧
      (error.location.line = lines.length + 1 → excerpt = [] ∧
        error.location.offset = plain.utf8ByteSize ∧
        ∃ expected, error = .grammatical expected "end of input" error.location) := by
  dsimp only
  obtain ⟨command, onFile⟩ : ∃ command, run find (name :: path :: more) =
      execute command path (Typeset.normalise raw) := by
    simp only [List.mem_cons, List.not_mem_nil, or_false] at checks
    rcases checks with rfl | rfl | rfl
    · exact ⟨.parse, executeOn_of_bytes held decoded .parse⟩
    · exact ⟨.fmt, executeOn_of_bytes held decoded .fmt⟩
    · exact ⟨.tokens, executeOn_of_bytes held decoded .tokens⟩
  rw [onFile] at exits ⊢
  obtain ⟨error, failed, exit⟩ := execute_eq_failAt exits
  obtain ⟨pos, line, found, report, last⟩ := Program.parse_error_line failed
  refine ⟨error, Text.dropReturn line, exit, failed, report, pos, ?_⟩
  rcases Typeset.splitLines_normalise raw found with ⟨written, here, rfl⟩ | ⟨number, rfl⟩
  · have lt := (List.getElem?_eq_some_iff.mp here).1
    refine ⟨by omega, fun _ => ⟨written, here, rfl⟩, ?_⟩
    intro eq
    omega
  · refine ⟨by omega, ?_, fun _ => ⟨rfl, last rfl⟩⟩
    intro le
    omega

/-- Two files without a newline at the end: one with an error on its last line, the other one with a
block that is not closed. -/
def broken : String → Found
  | "stray" => .bytes "┌daca x atunci\n│ scrie é\r".toUTF8
  | "open" => .bytes "┌daca x atunci".toUTF8
  | _ => .missing

theorem parse_broken_stray :
    Program.parse (Typeset.normalise "┌daca x atunci\n│ scrie é\r") =
      .error (.lexical "Unexpected character: 'é'" ⟨2, 11, 24⟩) := by
  have tokenized : tokenize (Typeset.normalise "┌daca x atunci\n│ scrie é\r") =
      .error ⟨.stray 'é', ⟨2, 11, 24⟩⟩ := by cbv
  rw [Program.parse, tokenized]
  rfl

theorem parse_broken_open :
    Program.parse (Typeset.normalise "┌daca x atunci") =
      .error (.grammatical "'sf' to close 'daca'" "end of input" ⟨2, 1, 14⟩) := by
  have tokenized : tokenize (Typeset.normalise "┌daca x atunci") = .ok
      [⟨.daca, "daca", ⟨1, 1, 0⟩⟩, ⟨.ident, "x", ⟨1, 6, 5⟩⟩, ⟨.atunci, "atunci", ⟨1, 8, 7⟩⟩,
        .eof ⟨2, 1, 14⟩] := by cbv
  have failed : (Program.read (.ofTokens
      [⟨.daca, "daca", ⟨1, 1, 0⟩⟩, ⟨.ident, "x", ⟨1, 6, 5⟩⟩, ⟨.atunci, "atunci", ⟨1, 8, 7⟩⟩,
        .eof ⟨2, 1, 14⟩])).1 = .error ⟨.closeDaca, .eof ⟨2, 1, 14⟩⟩ := by cbv
  rw [Program.parse, tokenized]
  simp only [failed, Except.mapError]
  rfl

/-- The bar in front of the error is shown as blanks, and nothing of the line that was added. -/
theorem run_error_line_broken :
    (∃ error, run broken ["parse", "stray"] =
        failAt "stray" (Typeset.normalise "┌daca x atunci\n│ scrie é\r") error ∧
      (Text.splitLines (error.report
        (Typeset.normalise "┌daca x atunci\n│ scrie é\r")).toList)[2]? =
          some "  2 |     scrie é".toList) ∧
    ∃ error, run broken ["fmt", "open"] =
        failAt "open" (Typeset.normalise "┌daca x atunci") error ∧
      (Text.splitLines (error.report (Typeset.normalise "┌daca x atunci")).toList)[2]? =
          some "  2 | ".toList := by
  have decoded (text : String) : String.fromUTF8? text.toUTF8 = some text :=
    dif_pos text.isValidUTF8
  have exits : (run broken ["parse", "stray"]).code = 1 := by
    change (executeOn broken .parse "stray").code = 1
    rw [executeOn_of_bytes rfl (decoded _), execute, parse_broken_stray]
    rfl
  have exits' : (run broken ["fmt", "open"]).code = 1 := by
    change (executeOn broken .fmt "open").code = 1
    rw [executeOn_of_bytes rfl (decoded _), execute, parse_broken_open]
    rfl
  obtain ⟨error, excerpt, exit, failed, report, -, -, inside, -⟩ :=
    run_error_line (by decide) rfl (decoded _) exits
  obtain ⟨error', excerpt', exit', failed', report', -, -, -, beyond⟩ :=
    run_error_line (by decide) rfl (decoded _) exits'
  obtain rfl := Except.error.inj (parse_broken_stray.symm.trans failed)
  obtain rfl := Except.error.inj (parse_broken_open.symm.trans failed')
  refine ⟨⟨_, exit, ?_⟩, _, exit', ?_⟩
  · have lines : (Text.splitLines "┌daca x atunci\n│ scrie é\r".toList)[1]? =
        some "│ scrie é\r".toList := by decide
    obtain ⟨line, found, rfl⟩ := inside (by decide)
    obtain rfl := Option.some.inj (lines.symm.trans found)
    rw [report]
    cbv
  · obtain ⟨rfl, -⟩ := beyond (by decide)
    rw [report']
    rfl

end CommandLine

end Pseudocod

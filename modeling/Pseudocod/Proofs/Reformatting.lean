import Pseudocod.CommandLine.Basic
import Pseudocod.Proofs.Composition
import Pseudocod.Proofs.Replacement
import Pseudocod.Proofs.StringTexts

/-!
# Laying out a program twice

A program is laid out from a text whose keys were replaced, and before its layout is read by another
command the keys in it are replaced again. No key goes over the end of a word and none is a word in
canonical spelling, so that this changes nothing but the texts of strings; and in these only arrows
can be left, which come about when other keys are replaced.

* `Spells.respell`: what becomes of a text that spells words.
* `Program.parse_normalise_render`: what is read from the layout of a program.
* `CommandLine.run_fmt_again`: what the commands make of a layout.
-/

namespace Pseudocod

open Typeset (Clean Seam arrows starts replaceKeys respell)

/-! ## Keys and words -/

namespace Lexeme

/-- If the word is a string, no character of it is a key. -/
def CleanString (lexeme : Lexeme) : Prop :=
  lexeme.kind = .string → Clean lexeme.text.toList

theorem not_mem_starts_of_isNamePart {c : Char} (h : isNamePart c = true) : c ∉ starts := by
  have known : ∀ c ∈ starts, isNamePart c = false := by decide
  intro member
  rw [known c member] at h
  exact nomatch h

theorem not_mem_starts_of_isName {text : String} (h : IsName text) :
    ∀ c ∈ text.toList, c ∉ starts := by
  obtain ⟨⟨first, rest, eq, start, parts⟩, -⟩ := h
  rw [eq]
  refine List.forall_mem_cons.mpr ⟨?_, fun c member => ?_⟩
  · exact not_mem_starts_of_isNamePart (isNamePart_of_isNameStart start)
  · exact not_mem_starts_of_isNamePart (parts c member)

theorem not_mem_starts_of_isNumeral {text : String} (h : IsNumeral text) :
    ∀ c ∈ text.toList, c ∉ starts := by
  have digits {text : List Char} (h : AreDigits text) : ∀ c ∈ text, c ∉ starts :=
    fun c member => not_mem_starts_of_isNamePart (isNamePart_of_isDigit (h.2 c member))
  rcases h with h | ⟨whole, fraction, eq, hWhole, hFraction⟩
  · exact digits h
  · rw [eq]
    exact List.forall_mem_append.mpr
      ⟨digits hWhole, List.forall_mem_cons.mpr ⟨by decide, digits hFraction⟩⟩

theorem isQuotable_respell {text : String} (clean : Clean text.toList) (h : IsQuotable text) :
    IsQuotable (respell text) := by
  have same {c : Char} (ne : c ≠ '-') := Typeset.mem_respell_iff clean ne
  rwa [IsQuotable, same (by decide), same (by decide), same (by decide), same (by decide)]

theorem quoteFor_respell {text : String} (clean : Clean text.toList) :
    Expr.quoteFor (respell text) = Expr.quoteFor text := by
  simp only [Expr.quoteFor, Typeset.mem_respell_iff clean (show '"' ≠ '-' by decide)]

theorem not_mem_starts_quoteFor (text : String) : Expr.quoteFor text ∉ starts := by
  unfold Expr.quoteFor
  split <;> decide

theorem toList_written_string (text : String) :
    (written ⟨.string, text⟩).toList =
      Expr.quoteFor text :: (text.toList ++ [Expr.quoteFor text]) := by
  simp [written, Expr.render]

/-- No character of a word is a key. -/
theorem Plain.clean_written {lexeme : Lexeme} (plain : lexeme.Plain)
    (clean : lexeme.CleanString) : Clean lexeme.written.toList := by
  cases plain with
  | number h => exact Typeset.clean_of_starts (not_mem_starts_of_isNumeral h)
  | ident h => exact Typeset.clean_of_starts (not_mem_starts_of_isName h)
  | spelled h =>
    have known : ∀ entry ∈ keywords ++ symbols, Clean entry.1.toList := by decide
    rw [written_of_spelling h]
    exact known _ (mem_of_spelling h)
  | @string text h =>
    have quote := Typeset.plainForm?_of_starts (not_mem_starts_quoteFor text) []
    rw [toList_written_string]
    exact List.forall_mem_cons.mpr
      ⟨quote, List.forall_mem_append.mpr ⟨clean rfl, List.forall_mem_singleton.mpr quote⟩⟩

/-- In a word only the text of a string is replaced. -/
theorem Plain.replaceKeys_written {lexeme : Lexeme} (plain : lexeme.Plain)
    (clean : lexeme.CleanString) :
    (lexeme.mapString respell).Plain ∧
      replaceKeys lexeme.written.toList = (lexeme.mapString respell).written.toList := by
  cases plain with
  | number h => exact ⟨.number h, Typeset.replaceKeys_of_starts (not_mem_starts_of_isNumeral h)⟩
  | ident h => exact ⟨.ident h, Typeset.replaceKeys_of_starts (not_mem_starts_of_isName h)⟩
  | @spelled kind text h =>
    -- the only arrow that is a word is not the canonical spelling of its kind
    have known : ∀ entry ∈ keywords ++ symbols, entry.2 ≠ .string ∧
        ∀ arrow ∈ arrows, arrow <:+: entry.1.toList → entry.2.spelling? ≠ some entry.1 := by decide
    obtain ⟨ne, settled⟩ := known _ (mem_of_spelling h)
    have cleanText := Plain.clean_written (.spelled h) clean
    rw [mapString_of_ne _ ne]
    rw [written_of_spelling h] at cleanText ⊢
    refine ⟨.spelled h, (Typeset.replaceKeys_eq_self_iff cleanText).mpr ?_⟩
    intro arrow member within
    exact settled arrow member within h
  | @string text h =>
    refine ⟨.string (isQuotable_respell (clean rfl) h), ?_⟩
    have quote := not_mem_starts_quoteFor text
    have seam : Seam text.toList [Expr.quoteFor text] := by
      refine Typeset.seam_of_clean (clean rfl) ?_
      rintro _ ⟨⟩
      unfold Expr.quoteFor
      split <;> decide
    have changed : mapString respell ⟨.string, text⟩ = ⟨.string, respell text⟩ := rfl
    rw [changed, toList_written_string, toList_written_string, quoteFor_respell (clean rfl),
      Typeset.replaceKeys_cons_of_starts quote, Typeset.replaceKeys_append seam,
      Typeset.replaceKeys_cons_of_starts quote, Typeset.toList_respell]
    rw [replaceKeys]

end Lexeme

/-! ## Texts that spell words -/

namespace Spells

variable {Before : List Char → Prop} {text : String} {lexemes : List Lexeme}

theorem not_mem_starts_of_sign {c : Char} {kind : Kind}
    (member : (String.ofList [c], kind) ∈ symbols) (unbarred : Lexeme.barred kind = []) :
    c ∉ starts := by
  have known : ∀ entry ∈ symbols, Lexeme.barred entry.2 = [] → entry.1.toList.length = 1 →
      ∀ c ∈ entry.1.toList, c ∉ starts := by decide
  have apart := known _ member unbarred
  rw [String.toList_ofList] at apart
  exact apart rfl c List.mem_cons_self

/-- No key goes on behind a text that spells words. -/
theorem seam (spells : Spells Before text lexemes)
    (clean : ∀ lexeme ∈ lexemes, lexeme.CleanString) :
    ∀ {rest}, Before rest → Seam text.toList rest := by
  induction spells with
  | empty =>
    intro rest _
    exact Typeset.seam_of_starts (by decide) rest
  | blanks count =>
    intro rest _
    rw [String.toList_ofList]
    refine Typeset.seam_of_starts (fun c member => ?_) rest
    rw [List.eq_of_mem_replicate member]
    decide
  | newline =>
    intro rest _
    exact Typeset.seam_of_starts (by decide) rest
  | word plain =>
    intro rest delimited
    refine Typeset.seam_of_clean
      (plain.clean_written (clean _ List.mem_cons_self)) fun c head => ?_
    have known : ∀ c ∈ delimiters, c ≠ '-' ∧ c ≠ '>' := by decide
    exact known c (delimited c head)
  | sign member unbarred =>
    intro rest _
    refine Typeset.seam_of_starts ?_ rest
    rw [String.toList_ofList]
    exact List.forall_mem_singleton.mpr (not_mem_starts_of_sign member unbarred)
  | append _ _ ihFirst ihSecond =>
    intro rest before
    obtain ⟨cleanFirst, cleanSecond⟩ := List.forall_mem_append.mp clean
    rw [String.toList_append]
    exact (ihFirst cleanFirst trivial).append (ihSecond cleanSecond before)
  | append_delimited _ _ front ihFirst ihSecond =>
    intro rest before
    obtain ⟨cleanFirst, cleanSecond⟩ := List.forall_mem_append.mp clean
    rw [String.toList_append]
    exact (ihFirst cleanFirst (delimited_append front rest)).append (ihSecond cleanSecond before)

/-- What becomes of a text that spells words: one that spells them with other texts in strings. -/
theorem respell (spells : Spells Before text lexemes)
    (clean : ∀ lexeme ∈ lexemes, lexeme.CleanString) :
    Spells Before (respell text) (lexemes.map (Lexeme.mapString Typeset.respell)) := by
  induction spells with
  | empty =>
    have fixed : Typeset.respell "" = "" := by
      rw [Typeset.respell, String.toList_empty, replaceKeys]
    rw [fixed]
    exact .empty
  | blanks count =>
    have fixed : replaceKeys (List.replicate count ' ') = List.replicate count ' ' := by
      refine Typeset.replaceKeys_of_starts fun c member => ?_
      rw [List.eq_of_mem_replicate member]
      decide
    rw [Typeset.respell, String.toList_ofList, fixed]
    exact .blanks count
  | newline =>
    have fixed : Typeset.respell "\n" = "\n" := by
      rw [Typeset.respell, Typeset.replaceKeys_of_starts (by decide)]; rfl
    rw [fixed]
    exact .newline
  | word plain =>
    obtain ⟨plain', eq⟩ := plain.replaceKeys_written (clean _ List.mem_cons_self)
    rw [Typeset.respell, eq, String.ofList_toList]
    exact .word plain'
  | @sign c kind member unbarred =>
    have apart := not_mem_starts_of_sign member unbarred
    have ne : kind ≠ .string := by
      have known : ∀ entry ∈ symbols, entry.2 ≠ .string := by decide
      exact known _ member
    have fixed : replaceKeys [c] = [c] :=
      Typeset.replaceKeys_of_starts (List.forall_mem_singleton.mpr apart)
    rw [Typeset.respell, String.toList_ofList, fixed, List.map_singleton,
      Lexeme.mapString_of_ne _ ne]
    exact .sign member unbarred
  | append first _ ihFirst ihSecond =>
    obtain ⟨cleanFirst, cleanSecond⟩ := List.forall_mem_append.mp clean
    rw [Typeset.respell_append (first.seam cleanFirst trivial), List.map_append]
    exact (ihFirst cleanFirst).append (ihSecond cleanSecond)
  | @append_delimited _ text text' _ _ first _ front ihFirst ihSecond =>
    obtain ⟨cleanFirst, cleanSecond⟩ := List.forall_mem_append.mp clean
    have seam := first.seam cleanFirst (delimited_append front [])
    rw [List.append_nil] at seam
    rw [Typeset.respell_append seam, List.map_append]
    refine (ihFirst cleanFirst).append_delimited (ihSecond cleanSecond) ?_
    have known : ∀ c ∈ delimiters, c ∉ starts := by decide
    cases eq : text'.toList with
    | nil => rw [eq] at front; cases front
    | cons c tail =>
      rw [eq] at front
      rw [Typeset.toList_respell, eq,
        Typeset.replaceKeys_cons_of_starts (known c (of_decide_eq_true front))]
      exact front

end Spells

/-- The texts of the words are parts of the text. -/
theorem Lexes.text_subset {text : List Char} {lexemes : List Lexeme} (h : Lexes text lexemes) :
    ∀ lexeme ∈ lexemes, lexeme.text.toList ⊆ text := by
  obtain ⟨pieces, last, split, rfl⟩ := h.exists_split
  clear h
  generalize ([] : List Char) = rest at split
  induction split with
  | last => exact nofun
  | @piece gap written text _ _ lexeme pieces _ stands _ ih =>
    refine List.forall_mem_cons.mpr ⟨fun c member => ?_, fun other member c inner => ?_⟩
    · exact List.mem_append_right _ (List.mem_append_left _ (stands.text_subset member))
    · exact List.mem_append_right _ (List.mem_append_right _ (ih other member inner))

/-! ## Programs -/

theorem Typeset.lexes_normalise {source : String} {lexemes : List Lexeme}
    (h : Lexes (replaceKeys source.toList) lexemes) : Lexes (normalise source).toList lexemes := by
  rw [normalise, String.toList_ofList, normaliseChars, endLine]
  split
  next => exact h
  next =>
    have whole := h.append (lineOver_newline []) (Lexes.nil.cons_of_isBlank (by decide))
    rwa [List.append_nil] at whole

namespace Program

/-- No string of the program has an arrow in it. -/
def ArrowFree (program : Program) : Prop :=
  ∀ text, ⟨.string, text⟩ ∈ Statement.blockWords program.statements →
    ∀ arrow ∈ arrows, ¬ arrow <:+: text.toList

variable {source : String} {program : Program}

theorem cleanString_of_parse (h : parse source = .ok program) (clean : Clean source.toList) :
    ∀ lexeme ∈ Statement.blockWords program.statements, lexeme.CleanString := by
  obtain ⟨⟨lexemes, eq, lexes⟩, -⟩ := parse_eq_ok_iff_reads.mp h
  rw [← eq]
  intro lexeme member string c inner
  obtain ⟨⟨kind, text⟩, found, rfl⟩ := List.mem_map.mp member
  obtain rfl : kind = .string := string
  exact clean c (lexes.text_subset _ found inner)

theorem plain_of_parse (h : parse source = .ok program) :
    ∀ lexeme ∈ Statement.blockWords program.statements, lexeme.Plain :=
  (Statement.blockSpelled_iff _).mp (wellFormed_of_parse h).2

/-- What is read from the layout of a program: the program with other texts in its strings. -/
theorem parse_normalise_render (h : parse source = .ok program) (clean : Clean source.toList) :
    parse (Typeset.normalise program.render) = .ok (program.mapStrings respell) := by
  have wellFormed := wellFormed_of_parse h
  have spells : Spells Anything program.render _ :=
    Statement.spells_blockLines program.statements 0 wellFormed.2 wellFormed.1
  have lexes := (spells.respell (cleanString_of_parse h clean)).lexes_alone trivial
  rw [Typeset.toList_respell, ← Statement.blockWords_mapStrings] at lexes
  refine parse_eq_ok_iff_reads.mpr ⟨.of_lexes (Typeset.lexes_normalise lexes) ?_, ?_⟩
  · rw [blockWords_mapStrings]
    intro lexeme member
    obtain ⟨lexeme, found, rfl⟩ := List.mem_map.mp member
    exact ((plain_of_parse h lexeme found).replaceKeys_written
      (cleanString_of_parse h clean lexeme found)).1
  · exact (Statement.blockCanonical_mapStrings _ _).mpr wellFormed.1

/-- The strings of a program that was read from a clean text change if an arrow is in them. -/
theorem mapStrings_eq_self_iff (h : parse source = .ok program) (clean : Clean source.toList) :
    program.mapStrings respell = program ↔ program.ArrowFree := by
  have cleanWords := cleanString_of_parse h clean
  constructor
  · intro eq text member
    have words := blockWords_mapStrings respell program
    rw [eq] at words
    have fixed := List.map_eq_map_iff.mp (words.symm.trans (List.map_id _).symm) _ member
    exact (Typeset.respell_eq_self_iff (cleanWords _ member rfl)).mp (congrArg Lexeme.text fixed)
  · intro free
    have words : Statement.blockWords (program.mapStrings respell).statements =
        Statement.blockWords program.statements := by
      rw [blockWords_mapStrings]
      refine (List.map_congr_left fun lexeme member => ?_).trans (List.map_id _)
      by_cases string : lexeme.kind = .string
      · obtain ⟨kind, text⟩ := lexeme
        obtain rfl : kind = .string := string
        have fixed := (Typeset.respell_eq_self_iff (cleanWords _ member rfl)).mpr (free text member)
        exact congrArg (Lexeme.mk .string) fixed
      · exact Lexeme.mapString_of_ne respell string
    obtain ⟨reads, -⟩ := parse_eq_ok_iff_reads.mp (parse_normalise_render h clean)
    rw [words] at reads
    have canonical := (wellFormed_of_parse h).1
    have again := parse_eq_ok_iff_reads.mpr ⟨reads, canonical⟩
    exact Except.ok.inj ((parse_normalise_render h clean).symm.trans again)

/-- After its strings were changed there is no arrow in them. -/
theorem arrowFree_mapStrings (h : parse source = .ok program) (clean : Clean source.toList) :
    (program.mapStrings respell).ArrowFree := by
  intro text member
  rw [blockWords_mapStrings] at member
  obtain ⟨⟨kind, before⟩, found, eq⟩ := List.mem_map.mp member
  obtain rfl : kind = .string :=
    (Lexeme.kind_mapString respell _).symm.trans (congrArg Lexeme.kind eq)
  obtain rfl : respell before = text := congrArg Lexeme.text eq
  rw [Typeset.toList_respell]
  exact (cleanString_of_parse h clean _ found rfl).settles.no_arrow

theorem render_inj_of_parse {source' : String} {program' : Program}
    (h : parse source = .ok program) (h' : parse source' = .ok program')
    (same : program.render = program'.render) : program = program' := by
  obtain ⟨-, -, -, -, parsed⟩ := tokenize_of_wellFormed (wellFormed_of_parse h)
  obtain ⟨-, -, -, -, parsed'⟩ := tokenize_of_wellFormed (wellFormed_of_parse h')
  rw [same] at parsed
  exact Except.ok.inj (parsed.symm.trans parsed')

end Program

/-! ## Commands on a layout -/

namespace CommandLine

/-- A command works on the plain form of the text in the file. -/
theorem executeOn_of_bytes {find : String → Found} {path raw : String} {content : ByteArray}
    (held : find path = .bytes content) (decoded : String.fromUTF8? content = some raw)
    (command : Command) :
    executeOn find command path = execute command path (Typeset.normalise raw) := by
  simp only [executeOn, held, decoded]

theorem run_of_bytes {find : String → Found} {path raw : String} {content : ByteArray}
    (held : find path = .bytes content) (decoded : String.fromUTF8? content = some raw) :
    run find ["fmt", path] = execute .fmt path (Typeset.normalise raw) ∧
      run find ["parse", path] = execute .parse path (Typeset.normalise raw) :=
  ⟨executeOn_of_bytes held decoded .fmt, executeOn_of_bytes held decoded .parse⟩

/-- What the commands print if the plain form is the text of a program. -/
theorem run_of_parse {find : String → Found} {path raw : String} {content : ByteArray}
    {program : Program} (held : find path = .bytes content)
    (decoded : String.fromUTF8? content = some raw)
    (parsed : Program.parse (Typeset.normalise raw) = .ok program) :
    run find ["fmt", path] = succeed program.render ∧
      run find ["parse", path] = succeed program.dump := by
  obtain ⟨fmt, parse⟩ := run_of_bytes held decoded
  rw [fmt, parse, execute, execute, parsed]
  exact ⟨rfl, rfl⟩

theorem run_of_text {find : String → Found} {path text : String} {program : Program}
    (held : find path = .bytes text.toUTF8)
    (parsed : Program.parse (Typeset.normalise text) = .ok program) :
    run find ["fmt", path] = succeed program.render ∧
      run find ["parse", path] = succeed program.dump :=
  run_of_parse held (dif_pos text.isValidUTF8) parsed

/-- A file that is laid out holds the text of a program. -/
theorem exists_program_of_exit {find : String → Found} {path : String}
    (exits : (run find ["fmt", path]).code = 0) :
    ∃ content raw program, find path = .bytes content ∧ String.fromUTF8? content = some raw ∧
      Program.parse (Typeset.normalise raw) = .ok program := by
  have onFile : run find ["fmt", path] = executeOn find .fmt path := rfl
  cases held : find path with
  | missing | unreadable =>
    rw [onFile, executeOn, held] at exits
    exact nomatch exits
  | bytes content =>
    cases decoded : String.fromUTF8? content with
    | none =>
      rw [onFile, executeOn, held] at exits
      simp only [decoded] at exits
      exact nomatch exits
    | some raw =>
      cases parsed : Program.parse (Typeset.normalise raw) with
      | error error =>
        rw [(run_of_bytes held decoded).1, execute, parsed] at exits
        exact nomatch exits
      | ok program => exact ⟨content, raw, program, rfl, decoded, parsed⟩

/-- A file that holds what was printed for another one is laid out as well. Its program is the same
but for the texts of strings, in which arrows are replaced; the layout is the same if and only if no
string has an arrow in it, and then the trees are the same. After that nothing changes any more. -/
theorem run_fmt_again {find : String → Found} {path again : String}
    (exits : (run find ["fmt", path]).code = 0)
    (held : find again = .bytes (run find ["fmt", path]).stdout.toUTF8) :
    ∃ content raw program, find path = .bytes content ∧ String.fromUTF8? content = some raw ∧
      Program.parse (Typeset.normalise raw) = .ok program ∧
      run find ["fmt", path] = succeed program.render ∧
      run find ["parse", path] = succeed program.dump ∧
      run find ["fmt", again] = succeed (program.mapStrings respell).render ∧
      run find ["parse", again] = succeed (program.mapStrings respell).dump ∧
      (run find ["fmt", again] = run find ["fmt", path] ↔ program.ArrowFree) ∧
      (program.ArrowFree → run find ["parse", again] = run find ["parse", path]) ∧
      ∀ third, find third = .bytes (run find ["fmt", again]).stdout.toUTF8 →
        run find ["fmt", third] = run find ["fmt", again] ∧
          run find ["parse", third] = run find ["parse", again] := by
  obtain ⟨content, raw, program, found, decoded, parsed⟩ := exists_program_of_exit exits
  obtain ⟨fmt, parse⟩ := run_of_parse found decoded parsed
  have clean := Typeset.clean_normalise raw
  have changed := Program.parse_normalise_render parsed clean
  rw [fmt] at held
  obtain ⟨fmtAgain, parseAgain⟩ := run_of_text held changed
  have settled := Program.mapStrings_eq_self_iff parsed clean
  refine ⟨content, raw, program, found, decoded, parsed, fmt, parse, fmtAgain, parseAgain,
    ?_, ?_, ?_⟩
  · rw [fmt, fmtAgain, ← settled]
    constructor
    · intro same
      exact Program.render_inj_of_parse changed parsed (congrArg Exit.stdout same)
    · intro same
      rw [same]
  · intro free
    rw [parse, parseAgain, settled.mpr free]
  · intro third heldAgain
    have cleanAgain := Typeset.clean_normalise program.render
    have unchanged := (Program.mapStrings_eq_self_iff changed cleanAgain).mpr
      (Program.arrowFree_mapStrings parsed clean)
    have last := Program.parse_normalise_render changed cleanAgain
    rw [unchanged] at last
    rw [fmtAgain] at heldAgain
    obtain ⟨fmtThird, parseThird⟩ := run_of_text heldAgain last
    exact ⟨fmtThird.trans fmtAgain.symm, parseThird.trans parseAgain.symm⟩

/-- Some files: a program in whose string two characters make an arrow, its layout and the layout of
that; and a program without strings, and its layout. -/
def files (path : String) : Found :=
  let texts :=
    [("raw", "scrie \"←→\""), ("once", "scrie \"<-->\"\n"), ("twice", "scrie \"<->\"\n"),
      ("other", "a<--->b"), ("otherOnce", "a <-> b\n")]
  match texts.lookup path with
  | some text => .bytes text.toUTF8
  | none => .missing

theorem run_files_raw :
    run files ["fmt", "raw"] = succeed "scrie \"<-->\"\n" ∧
      run files ["parse", "raw"] =
        succeed "(program\n  (write\n    (string \"<-->\")\n  )\n)\n" := by
  have parsed : Program.parse (Typeset.normalise "scrie \"←→\"") =
      .ok ⟨[.write [.string "<-->"]]⟩ := by cbv
  have held : files "raw" = .bytes "scrie \"←→\"".toUTF8 := rfl
  obtain ⟨fmt, parse⟩ := run_of_text held parsed
  rw [fmt, parse]
  exact ⟨by cbv, by cbv⟩

theorem run_files_once :
    run files ["fmt", "once"] = succeed "scrie \"<->\"\n" ∧
      run files ["parse", "once"] =
        succeed "(program\n  (write\n    (string \"<->\")\n  )\n)\n" := by
  have parsed : Program.parse (Typeset.normalise "scrie \"<-->\"\n") =
      .ok ⟨[.write [.string "<->"]]⟩ := by cbv
  have held : files "once" = .bytes "scrie \"<-->\"\n".toUTF8 := rfl
  obtain ⟨fmt, parse⟩ := run_of_text held parsed
  rw [fmt, parse]
  exact ⟨by cbv, by cbv⟩

theorem run_files_other : run files ["fmt", "other"] = succeed "a <-> b\n" := by
  have parsed : Program.parse (Typeset.normalise "a<--->b") = .ok ⟨[.swap "a" "b"]⟩ := by cbv
  have held : files "other" = .bytes "a<--->b".toUTF8 := rfl
  rw [(run_of_text held parsed).1]
  cbv

theorem run_files_otherOnce : run files ["fmt", "otherOnce"] = succeed "a <-> b\n" := by
  have parsed : Program.parse (Typeset.normalise "a <-> b\n") = .ok ⟨[.swap "a" "b"]⟩ := by cbv
  have held : files "otherOnce" = .bytes "a <-> b\n".toUTF8 := rfl
  rw [(run_of_text held parsed).1]
  cbv

/-- A layout in which an arrow is replaced, and one that stays. -/
theorem run_fmt_again_files :
    ((run files ["fmt", "raw"]).code = 0 ∧
      files "once" = .bytes (run files ["fmt", "raw"]).stdout.toUTF8 ∧
      files "twice" = .bytes (run files ["fmt", "once"]).stdout.toUTF8 ∧
      run files ["fmt", "twice"] = run files ["fmt", "once"]) ∧
    (run files ["fmt", "other"]).code = 0 ∧
    files "otherOnce" = .bytes (run files ["fmt", "other"]).stdout.toUTF8 ∧
    run files ["fmt", "otherOnce"] = run files ["fmt", "other"] ∧
    run files ["parse", "otherOnce"] = run files ["parse", "other"] := by
  have exits : (run files ["fmt", "raw"]).code = 0 := by rw [run_files_raw.1]; rfl
  have once : files "once" = .bytes (run files ["fmt", "raw"]).stdout.toUTF8 := by
    rw [run_files_raw.1]; rfl
  have twice : files "twice" = .bytes (run files ["fmt", "once"]).stdout.toUTF8 := by
    rw [run_files_once.1]; rfl
  have otherExits : (run files ["fmt", "other"]).code = 0 := by rw [run_files_other]; rfl
  have otherOnce : files "otherOnce" = .bytes (run files ["fmt", "other"]).stdout.toUTF8 := by
    rw [run_files_other]; rfl
  obtain ⟨-, -, -, -, -, -, -, -, -, -, -, -, settled⟩ := run_fmt_again exits once
  obtain ⟨-, -, program, -, -, -, -, -, -, -, same, tree, -⟩ := run_fmt_again otherExits otherOnce
  have unchanged : run files ["fmt", "otherOnce"] = run files ["fmt", "other"] :=
    run_files_otherOnce.trans run_files_other.symm
  exact ⟨⟨exits, once, twice, (settled "twice" twice).1⟩, otherExits, otherOnce, unchanged,
    tree (same.mp unchanged)⟩

/-- What is printed for the layout of a program need not be the layout, nor the same tree. -/
theorem run_fmt_arrow :
    (run files ["fmt", "raw"]).code = 0 ∧
    files "once" = .bytes (run files ["fmt", "raw"]).stdout.toUTF8 ∧
    run files ["fmt", "once"] ≠ run files ["fmt", "raw"] ∧
    run files ["parse", "once"] ≠ run files ["parse", "raw"] := by
  obtain ⟨fmt, parse⟩ := run_files_raw
  obtain ⟨fmtOnce, parseOnce⟩ := run_files_once
  rw [fmt, parse, fmtOnce, parseOnce]
  exact ⟨rfl, rfl, by decide, by decide⟩

end CommandLine

end Pseudocod

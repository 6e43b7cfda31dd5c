import Pseudocod.Proofs.Spelling
import Pseudocod.Proofs.StatementWords
import Pseudocod.Statement.Layout

/-!
# The words of a laid-out program

A tree in which all texts are right is laid out as a text that has the words of the tree: no two
words that are written side by side run together. This takes no canonical tree, but the parts of a
sequence have to be simple statements, since all else is written in several lines.

* `Expr.spells_render`: an expression is written as its words.
* `Program.lexes_render`: the words of a laid-out program are those of its statements.
-/

namespace Pseudocod

/-! ## Words that are always the same -/

namespace Spells

variable {kind : Kind} {text : String}

theorem spelled (h : kind.spelling? = some text) : Spells Delimited text [⟨kind, text⟩] := by
  have spells := Spells.word (.spelled h)
  rwa [Lexeme.written_of_spelling h] at spells

theorem fixed (h : kind.spelling? = some text) : Spells Delimited text [kind.word] := by
  rw [Kind.word_of_spelling h]
  exact spelled h

theorem opening (h : kind.spelling?.map (· ++ " ") = some text) :
    Spells Anything text [kind.word] := by
  obtain ⟨spelling, eq, rfl⟩ := Option.map_eq_some_iff.mp h
  exact (fixed eq).append_delimited blank (by decide)

theorem closing (h : kind.spelling?.map (" " ++ ·) = some text) :
    Spells Delimited text [kind.word] := by
  obtain ⟨spelling, eq, rfl⟩ := Option.map_eq_some_iff.mp h
  exact blank.append (fixed eq)

theorem between (h : kind.spelling?.map (" " ++ · ++ " ") = some text) :
    Spells Anything text [kind.word] := by
  obtain ⟨spelling, eq, rfl⟩ := Option.map_eq_some_iff.mp h
  exact (blank.append (fixed eq)).append_delimited blank (by decide)

theorem join {separator : Kind} (h : separator.spelling?.map (· ++ " ") = some text)
    (front : text.toList.head?.any (· ∈ delimiters) = true) {α : Type} {f : α → String}
    {g : α → List Lexeme} {items : List α}
    (each : ∀ item ∈ items, Spells Delimited (f item) (g item)) :
    Spells Delimited (Text.joinWith text (items.map f)) (joinWords separator (items.map g)) := by
  induction items with
  | nil => exact empty
  | cons item items ih =>
    obtain ⟨spells, each⟩ := List.forall_mem_cons.mp each
    cases items with
    | nil => exact spells
    | cons next items =>
      have several := (spells.append_delimited (opening h) front).append (ih each)
      simpa [Text.joinWith, joinWords] using several

end Spells

/-! ## Expressions -/

theorem UnaryOp.spells_opening (op : UnaryOp) : Spells Anything op.opening [op.word] := by
  cases op with
  | not => exact show Spells _ "not " [Kind.not.word] from .opening (by decide)
  | neg | sqrt | floor | paren => exact .sign (by decide) (by decide)

theorem BinaryOp.spells_symbol (op : BinaryOp) : Spells Delimited op.symbol [op.word] :=
  .spelled op.spelling?_kind

theorem Expr.spells_render {expr : Expr} (spelled : expr.Spelled) :
    Spells Delimited expr.render expr.words := by
  induction expr with
  | binary op left right ihLeft ihRight =>
    have first := (ihLeft spelled.1).append_delimited .blank (by decide)
    have sign := op.spells_symbol.append_delimited .blank (by decide)
    have whole := (first.append sign).append (ihRight spelled.2)
    simpa [render, words, String.append_assoc] using whole
  | unary op operand ih =>
    have opened := op.spells_opening.append (ih spelled)
    cases op with
    | not | neg | sqrt => simpa [render, words, UnaryOp.closing, UnaryOp.closingWords] using opened
    | floor =>
      have close : Spells Delimited "]" [⟨.rightBracket, "]"⟩] := .spelled (by decide)
      have whole := opened.append_delimited close (by decide)
      simpa [render, words, UnaryOp.closing, UnaryOp.closingWords] using whole
    | paren =>
      have close : Spells Delimited ")" [⟨.rightParen, ")"⟩] := .spelled (by decide)
      have whole := opened.append_delimited close (by decide)
      simpa [render, words, UnaryOp.closing, UnaryOp.closingWords] using whole
  | number text => simpa [Lexeme.written, render, words] using Spells.word (.number spelled)
  | string text => simpa [Lexeme.written, render, words] using Spells.word (.string spelled)
  | ident name => simpa [Lexeme.written, render, words] using Spells.word (.ident spelled)

/-! ## Lines -/

/-- The lines of a text, each with a newline behind it, are read as the words. -/
def LinesSpell (lines : List Line) (lexemes : List Lexeme) : Prop :=
  Spells Anything (Text.unlines (lines.map Line.render)) lexemes

namespace LinesSpell

variable {lines lines' : List Line} {lexemes lexemes' : List Lexeme}

theorem nil : LinesSpell [] [] :=
  .empty

theorem cons (depth : Nat) {text : String} (first : Spells Delimited text lexemes)
    (others : LinesSpell lines lexemes') :
    LinesSpell (⟨depth, text⟩ :: lines) (lexemes ++ lexemes') := by
  have line := (Spells.blanks (4 * depth)).append first
  have whole := (line.append_delimited .newline (by decide)).append others
  simpa [LinesSpell, Text.unlines, Line.render] using whole

theorem append (first : LinesSpell lines lexemes) (others : LinesSpell lines' lexemes') :
    LinesSpell (lines ++ lines') (lexemes ++ lexemes') := by
  rw [LinesSpell, List.map_append, Text.unlines_append]
  exact Spells.append first others

theorem single (depth : Nat) {text : String} (h : Spells Delimited text lexemes) :
    LinesSpell [⟨depth, text⟩] lexemes := by
  simpa using cons depth h nil

/-- Most blocks are closed by a line of their own. -/
theorem closed (h : LinesSpell lines lexemes) (depth : Nat) :
    LinesSpell (lines ++ [⟨depth, "sf"⟩]) (lexemes ++ [Kind.sf.word]) :=
  h.append (single depth (.fixed (by decide)))

end LinesSpell

namespace Statement

/-! ## Statements -/

theorem spells_commas {α : Type} {f : α → String} {g : α → List Lexeme} {items : List α}
    (each : ∀ item ∈ items, Spells Delimited (f item) (g item)) :
    Spells Delimited (Text.joinWith ", " (items.map f)) (joinWords .comma (items.map g)) :=
  .join (by decide) (by decide) each

/-- A simple statement is written as its words, whatever the depth of its line. -/
theorem spells_simple {statement : Statement} (simple : statement.isSimple = true)
    (spelled : statement.Spelled) :
    ∃ text, (∀ depth, statement.lines depth = [⟨depth, text⟩]) ∧
      Spells Delimited text statement.words := by
  cases statement with
  | assign name value =>
    refine ⟨_, fun _ => by rw [lines], ?_⟩
    have left := Spells.word (.ident spelled.1)
    have sign : Spells Anything " <- " [Kind.assign.word] := .between (by decide)
    have whole := (left.append_delimited sign (by decide)).append (Expr.spells_render spelled.2)
    simpa [Lexeme.written, words] using whole
  | swap left right =>
    refine ⟨_, fun _ => by rw [lines], ?_⟩
    have first := Spells.word (.ident spelled.1)
    have sign : Spells Anything " <-> " [Kind.swap.word] := .between (by decide)
    have whole := (first.append_delimited sign (by decide)).append (.word (.ident spelled.2))
    simpa [Lexeme.written, words] using whole
  | read names =>
    refine ⟨_, fun _ => by rw [lines], ?_⟩
    have opening : Spells Anything "citeste " [Kind.citeste.word] := .opening (by decide)
    have each : ∀ name ∈ names, Spells Delimited name [⟨.ident, name⟩] := by
      intro name member
      exact Spells.word (.ident (spelled name member))
    have whole := opening.append (spells_commas each)
    simpa [words] using whole
  | write values =>
    refine ⟨_, fun _ => by rw [lines], ?_⟩
    have opening : Spells Anything "scrie " [Kind.scrie.word] := .opening (by decide)
    have each : ∀ value ∈ values, Spells Delimited value.render value.words := by
      intro value member
      exact Expr.spells_render (spelled value member)
    have whole := opening.append (spells_commas each)
    simpa [words] using whole
  | _ => cases simple

theorem spells_countHeader {name : String} {first last : Expr} {step : Option Expr}
    (hName : IsName name) (hFirst : first.Spelled) (hLast : last.Spelled)
    (hStep : ∀ expr ∈ step, expr.Spelled) :
    Spells Delimited ("pentru " ++ countHeader name first last step ++ " executa")
      (Kind.pentru.word :: headerWords ⟨name, first, last, step⟩) := by
  have pentru : Spells Anything "pentru " [Kind.pentru.word] := .opening (by decide)
  have sign : Spells Anything " <- " [Kind.assign.word] := .between (by decide)
  have comma : Spells Anything ", " [Kind.comma.word] := .opening (by decide)
  have executa : Spells Delimited " executa" [Kind.executa.word] := .closing (by decide)
  have target := pentru.append ((Spells.word (.ident hName)).append_delimited sign (by decide))
  have bounds := ((target.append (Expr.spells_render hFirst)).append_delimited comma
    (by decide)).append (Expr.spells_render hLast)
  cases step with
  | none =>
    have whole := bounds.append_delimited executa (by decide)
    simpa [Lexeme.written, countHeader, headerWords, String.append_assoc] using whole
  | some step =>
    have stepped := (bounds.append_delimited comma (by decide)).append
      (Expr.spells_render (hStep step rfl))
    have whole := stepped.append_delimited executa (by decide)
    simpa [Lexeme.written, countHeader, headerWords, String.append_assoc] using whole

/-- A part of a sequence as it is written on its line. -/
def partText (part : Statement) : String :=
  match part.lines 0 with
  | [line] => line.text
  | several => trimmed (Text.unlines (several.map Line.render))

theorem partTexts_eq_map (parts : List Statement) : partTexts parts = parts.map partText := by
  induction parts with
  | nil => rw [partTexts]; rfl
  | cons part parts ih => rw [partTexts, ih]; rfl

theorem spells_partText {part : Statement} (simple : part.isSimple = true)
    (spelled : part.Spelled) : Spells Delimited part.partText part.words := by
  obtain ⟨text, eq, spells⟩ := spells_simple simple spelled
  rw [partText, eq 0]
  exact spells

/-- The parts of a sequence stand on one line because they are simple. -/
theorem spells_parts {parts : List Statement} (simple : ∀ part ∈ parts, part.isSimple = true)
    (spelled : BlockSpelled parts) :
    Spells Delimited (Text.joinWith "; " (partTexts parts))
      (joinWords .semicolon (partWords parts)) := by
  have each : ∀ part ∈ parts, Spells Delimited part.partText part.words := by
    intro part member
    apply spells_partText
    · exact simple part member
    · exact blockSpelled_iff_forall.mp spelled part member
  rw [partTexts_eq_map, partWords_eq_map]
  exact .join (by decide) (by decide) each

theorem spells_condition {condition : Expr} (spelled : condition.Spelled) :
    Spells Delimited ("daca " ++ condition.render ++ " atunci")
      (Kind.daca.word :: (condition.words ++ [Kind.atunci.word])) := by
  have daca : Spells Anything "daca " [Kind.daca.word] := .opening (by decide)
  have atunci : Spells Delimited " atunci" [Kind.atunci.word] := .closing (by decide)
  exact (daca.append (Expr.spells_render spelled)).append_delimited atunci (by decide)

theorem spells_catTimp : Spells Anything "cat timp " [Kind.cat.word, Kind.timp.word] := by
  have cat : Spells Anything "cat " [Kind.cat.word] := .opening (by decide)
  have timp : Spells Anything "timp " [Kind.timp.word] := .opening (by decide)
  rw [show "cat timp " = "cat " ++ "timp " by decide]
  exact cat.append timp

theorem spells_whileHeader {condition : Expr} (spelled : condition.Spelled) :
    Spells Delimited ("cat timp " ++ condition.render ++ " executa")
      (Kind.cat.word :: Kind.timp.word :: (condition.words ++ [Kind.executa.word])) := by
  have executa : Spells Delimited " executa" [Kind.executa.word] := .closing (by decide)
  exact (spells_catTimp.append (Expr.spells_render spelled)).append_delimited executa (by decide)

theorem spells_panaCand : Spells Anything "pana cand " [Kind.pana.word, Kind.cand.word] := by
  have pana : Spells Anything "pana " [Kind.pana.word] := .opening (by decide)
  have cand : Spells Anything "cand " [Kind.cand.word] := .opening (by decide)
  rw [show "pana cand " = "pana " ++ "cand " by decide]
  exact pana.append cand

mutual

theorem spells_lines (statement : Statement) (depth : Nat) (spelled : statement.Spelled)
    (canonical : statement.Canonical) : LinesSpell (statement.lines depth) statement.words := by
  cases statement with
  | assign | swap | read | write =>
    obtain ⟨text, eq, spells⟩ := spells_simple rfl spelled
    rw [eq depth]
    exact .single depth spells
  | ifThen condition body =>
    have header := spells_condition spelled.1
    have block := (spells_blockLines body (depth + 1) spelled.2 canonical.2).closed depth
    simpa [lines, words] using LinesSpell.cons depth header block
  | ifElse condition body alternative =>
    have header := spells_condition spelled.1
    have altfel : Spells Delimited "altfel" [Kind.altfel.word] := .fixed (by decide)
    have block := spells_blockLines body (depth + 1) spelled.2.1 canonical.2.1
    have others := spells_blockLines alternative (depth + 1) spelled.2.2 canonical.2.2
    have closed := others.closed depth
    have whole := LinesSpell.cons depth header (block.append (.cons depth altfel closed))
    simpa [lines, words] using whole
  | count name first last step body =>
    obtain ⟨hName, hFirst, hLast, hStep, hBody⟩ := spelled
    have header := spells_countHeader hName hFirst hLast hStep
    have block := (spells_blockLines body (depth + 1) hBody canonical.2.2.2).closed depth
    simpa [lines, words, String.append_assoc] using LinesSpell.cons depth header block
  | whileDo condition body =>
    have header := spells_whileHeader spelled.1
    have block := (spells_blockLines body (depth + 1) spelled.2 canonical.2).closed depth
    simpa [lines, words] using LinesSpell.cons depth header block
  | doWhile body condition =>
    have executa : Spells Delimited "executa" [Kind.executa.word] := .fixed (by decide)
    have block := spells_blockLines body (depth + 1) spelled.1 canonical.1
    have close := spells_catTimp.append (Expr.spells_render spelled.2)
    have whole := LinesSpell.cons depth executa (block.append (.single depth close))
    simpa [lines, words] using whole
  | doUntil body condition =>
    have repeta : Spells Delimited "repeta" [Kind.repeta.word] := .fixed (by decide)
    have block := spells_blockLines body (depth + 1) spelled.1 canonical.1
    have close := spells_panaCand.append (Expr.spells_render spelled.2)
    have whole := LinesSpell.cons depth repeta (block.append (.single depth close))
    simpa [lines, words] using whole
  | sequence parts =>
    rw [lines, words]
    exact .single depth (spells_parts canonical.2.1 spelled)

theorem spells_blockLines (statements : List Statement) (depth : Nat)
    (spelled : BlockSpelled statements) (canonical : BlockCanonical statements) :
    LinesSpell (blockLines depth statements) (blockWords statements) := by
  cases statements with
  | nil =>
    rw [blockLines, blockWords]
    exact .nil
  | cons statement statements =>
    rw [blockLines, blockWords]
    exact (spells_lines statement depth spelled.1 canonical.1).append
      (spells_blockLines statements depth spelled.2 canonical.2)

end

end Statement

/-- The words of a laid-out program are those of its statements. -/
theorem Program.lexes_render {program : Program} (wellFormed : program.WellFormed) :
    Lexes program.render.toList (Statement.blockWords program.statements) := by
  exact (Statement.spells_blockLines program.statements 0 wellFormed.2 wellFormed.1).lexes_alone
    trivial

end Pseudocod

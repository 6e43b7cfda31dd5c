import Pseudocod.Expr.Printer
import Pseudocod.Statement.Basic
import Pseudocod.Text.Blank
import Pseudocod.Text.Lines

/-!
# Layout of programs

A program is laid out in lines: one for a simple statement or a sequence, and one for each of the
words that open, divide or close a block. A line is indented by four blanks for every block around
it. Words are in lower case, swaps have the short sign, and the parts of a sequence are separated
by a semicolon and a blank.

* `Statement.length_lines_of_isSimple`: a simple statement takes one line.
-/

namespace Pseudocod

/-- A line of a program: how many blocks are around it, and what is written on it. -/
structure Line where
  depth : Nat
  text : String
deriving DecidableEq, Repr

/-- The line with its indentation. -/
def Line.render (line : Line) : String :=
  String.ofList (List.replicate (4 * line.depth) ' ') ++ line.text

namespace Statement

/-- What is written between `pentru` and `executa`. -/
def countHeader (name : String) (first last : Expr) (step : Option Expr) : String :=
  name ++ " <- " ++ first.render ++ ", " ++ last.render ++
    match step with
    | some step => ", " ++ step.render
    | none => ""

/-- A text without the blanks at its end. -/
def trimmed (text : String) : String :=
  String.ofList (Text.trimEnd text.toList)

mutual

/-- The lines of a statement with `depth` blocks around it. -/
def lines (depth : Nat) : Statement → List Line
  | .assign name value => [⟨depth, name ++ " <- " ++ value.render⟩]
  | .swap left right => [⟨depth, left ++ " <-> " ++ right⟩]
  | .read names => [⟨depth, "citeste " ++ Text.joinWith ", " names⟩]
  | .write values => [⟨depth, "scrie " ++ Text.joinWith ", " (values.map Expr.render)⟩]
  | .ifThen condition body =>
    ⟨depth, "daca " ++ condition.render ++ " atunci"⟩ ::
      (blockLines (depth + 1) body ++ [⟨depth, "sf"⟩])
  | .ifElse condition body alternative =>
    ⟨depth, "daca " ++ condition.render ++ " atunci"⟩ ::
      (blockLines (depth + 1) body ++ ⟨depth, "altfel"⟩ ::
        (blockLines (depth + 1) alternative ++ [⟨depth, "sf"⟩]))
  | .count name first last step body =>
    ⟨depth, "pentru " ++ countHeader name first last step ++ " executa"⟩ ::
      (blockLines (depth + 1) body ++ [⟨depth, "sf"⟩])
  | .whileDo condition body =>
    ⟨depth, "cat timp " ++ condition.render ++ " executa"⟩ ::
      (blockLines (depth + 1) body ++ [⟨depth, "sf"⟩])
  | .doWhile body condition =>
    ⟨depth, "executa"⟩ ::
      (blockLines (depth + 1) body ++ [⟨depth, "cat timp " ++ condition.render⟩])
  | .doUntil body condition =>
    ⟨depth, "repeta"⟩ ::
      (blockLines (depth + 1) body ++ [⟨depth, "pana cand " ++ condition.render⟩])
  | .sequence parts => [⟨depth, Text.joinWith "; " (partTexts parts)⟩]

/-- The lines of the statements of a block that has `depth` blocks around its statements. -/
def blockLines (depth : Nat) : List Statement → List Line
  | [] => []
  | statement :: statements => statement.lines depth ++ blockLines depth statements

/-- The parts of a sequence as they are written on its line. A statement that has a block keeps its
lines, but not the newline after the last one. -/
def partTexts : List Statement → List String
  | [] => []
  | part :: parts =>
    let text :=
      match part.lines 0 with
      | [line] => line.text
      | several => trimmed (Text.unlines (several.map Line.render))
    text :: partTexts parts

end

/-- A statement as it is written in a program, with a newline after each of its lines. -/
def render (statement : Statement) : String :=
  Text.unlines ((statement.lines 0).map Line.render)

theorem length_lines_of_isSimple {statement : Statement} (h : statement.isSimple) (depth : Nat) :
    (statement.lines depth).length = 1 := by
  cases statement <;> simp_all [isSimple, lines]

end Statement

namespace Program

/-- The lines of a program. -/
def lines (program : Program) : List Line :=
  Statement.blockLines 0 program.statements

/-- A program in its canonical layout. -/
def render (program : Program) : String :=
  Text.unlines (program.lines.map Line.render)

end Program

end Pseudocod

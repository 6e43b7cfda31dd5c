import Pseudocod.Location
import Pseudocod.Text.Lines

/-!
# Syntax errors

Why a text is not a program, in words and with the place. A report shows the message, the line of
the source at that place with its number, and below it a caret under the offending column:

    expected 'sf' to close 'daca', found end of input

      2 |     scrie x
                     ^

* `SyntaxError.length_padding`: the caret stands under the column of the error.
-/

namespace Pseudocod

/-- Why a text is not a program. -/
inductive SyntaxError where
  /-- No word can be read at the location. -/
  | lexical (reason : String) (location : Location)
  /-- The word at the location is not one that can stand there. -/
  | grammatical (expected found : String) (location : Location)
deriving DecidableEq, Repr

namespace SyntaxError

/-- Where a text goes wrong. -/
def location : SyntaxError → Location
  | .lexical _ location => location
  | .grammatical _ _ location => location

/-- What is wrong, without the place. -/
def message : SyntaxError → String
  | .lexical reason _ => reason
  | .grammatical expected found _ => "expected " ++ expected ++ ", found " ++ found

/-- What is wrong, after the line and column where it is. -/
def describe (error : SyntaxError) : String :=
  let stage :=
    match error with
    | .lexical .. => "Lexer"
    | .grammatical .. => "Parse"
  stage ++ " error at line " ++ toString error.location.line ++ ", column " ++
    toString error.location.column ++ ": " ++ error.message

/-- The line of `text` with the number `line`, counted from 1 and taken as the first one if it
is 0. There is nothing on a line past the end. -/
def sourceLine (text : List Char) (line : Nat) : List Char :=
  Text.dropReturn ((Text.splitLines text)[line - 1]?.getD [])

/-- What stands in a report before the text of a line. -/
def margin (line : Nat) : String :=
  "  " ++ toString line ++ " | "

/-- What stands before a caret under the given column: a tab below a tab, and otherwise blanks. -/
def padding (text : List Char) (column : Nat) : List Char :=
  (text.take (column - 1)).map fun c => if c = '\t' then '\t' else ' '

/-- The report of an error in `source`. -/
def report (error : SyntaxError) (source : String) : String :=
  let place := error.location
  let text := sourceLine source.toList place.line
  let indentation := List.replicate (margin place.line).length ' '
  error.message ++ "\n\n" ++ margin place.line ++ String.ofList text ++ "\n" ++
    String.ofList (indentation ++ padding text place.column) ++ "^"

theorem length_padding (text : List Char) (column : Nat) :
    (padding text column).length = min (column - 1) text.length := by
  simp [padding]

end SyntaxError

end Pseudocod

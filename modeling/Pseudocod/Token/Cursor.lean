import Pseudocod.Text.Blank
import Pseudocod.Token.Basic
import Pseudocod.Token.Lexeme

/-!
# Reading the tokens of a text

A cursor stands somewhere in a text: it holds what is still to be read and the location that was
reached. Between two lexemes lies a gap of blanks and comments; a comment runs from `#` to the end
of its line. `Cursor.tokenize` reads lexemes up to the end of the text or to the first fault, and
says where it stopped, so that reading can be taken up again behind a fault.

* `gapLength_le`: a gap is no longer than the text.
* `Cursor.length_rest_skipGap_le`: leaving a gap adds nothing to what is still to be read.
-/

namespace Pseudocod

/-- A fault and the location of the lexeme that has it. -/
structure LexError where
  fault : Fault
  location : Location
deriving DecidableEq, Repr

/-- A place in a text: the characters that are still to be read, and where they start. -/
structure Cursor where
  rest : List Char
  location : Location
deriving DecidableEq, Repr

/-- The length of the gap at the front of a text, which may start inside a comment. -/
def gapLength : (inComment : Bool) → List Char → Nat
  | _, [] => 0
  | true, c :: text =>
    if Lexeme.isLineEnd c then 1 + gapLength false text else 1 + gapLength true text
  | false, c :: text =>
    if Text.isBlank c then 1 + gapLength false text
    else if c = '#' then 1 + gapLength true text
    else 0

theorem gapLength_le (inComment : Bool) (text : List Char) :
    gapLength inComment text ≤ text.length := by
  fun_induction gapLength inComment text <;> simp_all <;> omega

namespace Cursor

/-- A cursor at the start of `source`. -/
def ofSource (source : String) : Cursor :=
  { rest := source.toList, location := .start }

/-- The cursor after `count` characters more. -/
def advance (cursor : Cursor) (count : Nat) : Cursor :=
  { rest := cursor.rest.drop count, location := cursor.location.after (cursor.rest.take count) }

/-- The cursor at the end of the gap in which it stands. -/
def skipGap (cursor : Cursor) : Cursor :=
  cursor.advance (gapLength false cursor.rest)

@[simp] theorem rest_advance (cursor : Cursor) (count : Nat) :
    (cursor.advance count).rest = cursor.rest.drop count := rfl

theorem length_rest_skipGap_le (cursor : Cursor) :
    cursor.skipGap.rest.length ≤ cursor.rest.length := by
  simp [skipGap]

/-- The tokens up to the end of the text, the last one of kind `eof`, or the first fault; and the
cursor where reading stopped. -/
def tokenize (cursor : Cursor) : Except LexError (List Token) × Cursor :=
  let start := cursor.skipGap
  match _front : start.rest with
  | [] => (.ok [.eof start.location], start)
  | first :: text =>
    let reading := Lexeme.read first text
    let next := start.advance (reading.more + 1)
    match reading.outcome with
    | .error fault => (.error { fault, location := start.location }, next)
    | .ok lexeme =>
      let token : Token := { kind := lexeme.kind, text := lexeme.text, location := start.location }
      let remaining := next.tokenize
      (remaining.1.map (token :: ·), remaining.2)
termination_by cursor.rest.length
decreasing_by
  have bound : start.rest.length ≤ cursor.rest.length := cursor.length_rest_skipGap_le
  rw [rest_advance, List.length_drop, _front, List.length_cons]
  rw [_front, List.length_cons] at bound
  omega

end Cursor

/-- The tokens of a source, the last one of kind `eof`, or its first fault. -/
def tokenize (source : String) : Except LexError (List Token) :=
  (Cursor.ofSource source).tokenize.1

end Pseudocod

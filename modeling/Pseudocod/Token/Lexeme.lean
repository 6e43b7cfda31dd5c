import Pseudocod.Token.Kind

/-!
# Lexemes

A lexeme is a word of a program as it stands in the text. `Lexeme.read` finds the one at the front
of a text, or the fault that keeps one from standing there:

* a name is a letter or `_` with the letters, digits and `_` that follow it;
* a number is digits, with a fraction if a point and more digits follow;
* a string is in quotes of one kind, on one line, and has no escapes;
* a sign is the longest of `symbols`.

`Lexeme.more_read_le` says that no more is read than there is.
-/

namespace Pseudocod

/-- Why no lexeme stands at some place of a text. -/
inductive Fault where
  /-- A character with which no lexeme begins. -/
  | stray (c : Char)
  /-- An exclamation mark without `=`. -/
  | loneBang
  /-- A point that no digit precedes. -/
  | lonePoint
  /-- A string without its closing quote on the same line. -/
  | openString
  /-- A number with a point and no digit after it. -/
  | barePoint (digits : String)
deriving DecidableEq, Repr

/-- The fault in words. -/
def Fault.message : Fault → String
  | .stray c => "Unexpected character: '" ++ c.toString ++ "'"
  | .loneBang => "Unexpected character: '!' (did you mean '!=' or 'not'?)"
  | .lonePoint => "Unexpected character: '.' (numbers must start with a digit)"
  | .openString => "Unterminated string literal"
  | .barePoint digits =>
    "Invalid number literal: '" ++ digits ++ ".' has no digits after '.'"

/-- The kind of a word and its text, which for a string is what the quotes enclose. -/
structure Lexeme where
  kind : Kind
  text : String
deriving DecidableEq, Repr

/-- What was found at the front of a text, and how many characters after the first one were taken
to find it. Reading goes on behind them, after a fault as well. -/
structure Reading where
  outcome : Except Fault Lexeme
  more : Nat

namespace Lexeme

/-- Whether a name can begin with `c`. -/
def isNameStart (c : Char) : Bool :=
  c.isAlpha || c = '_'

/-- Whether `c` can stand in a name behind its first character. -/
def isNamePart (c : Char) : Bool :=
  c.isAlphanum || c = '_'

/-- Whether `c` opens a string. -/
def isQuote (c : Char) : Bool :=
  c = '"' || c = '\''

/-- Whether `c` ends a line; strings and comments do not go past such a character. -/
def isLineEnd (c : Char) : Bool :=
  c = '\n' || c = '\r'

/-- Whether a string opened by `quote` goes on with `c`. -/
def isContent (quote c : Char) : Bool :=
  c ≠ quote && !isLineEnd c

/-- The name or keyword that begins with `first`. -/
def readName (first : Char) (text : List Char) : Reading :=
  let tail := text.takeWhile isNamePart
  let word := String.ofList (first :: tail)
  { outcome := .ok ⟨(Kind.keyword? word).getD .ident, word⟩, more := tail.length }

/-- The number that begins with the digit `first`. -/
def readNumber (first : Char) (text : List Char) : Reading :=
  let tail := text.takeWhile Char.isDigit
  match text.dropWhile Char.isDigit with
  | '.' :: rest =>
    match rest.takeWhile Char.isDigit with
    | [] => { outcome := .error (.barePoint (String.ofList (first :: tail))), more := tail.length }
    | fraction =>
      { outcome := .ok ⟨.number, String.ofList (first :: tail ++ '.' :: fraction)⟩
        more := tail.length + 1 + fraction.length }
  | _ => { outcome := .ok ⟨.number, String.ofList (first :: tail)⟩, more := tail.length }

/-- The string that `quote` opens. -/
def readString (quote : Char) (text : List Char) : Reading :=
  let content := text.takeWhile (isContent quote)
  match text.dropWhile (isContent quote) with
  | [] => { outcome := .error .openString, more := content.length }
  | c :: _ =>
    if c = quote then
      { outcome := .ok ⟨.string, String.ofList content⟩, more := content.length + 1 }
    else
      { outcome := .error .openString, more := content.length }

/-- The fault of a character that begins no lexeme. -/
def strayFault (c : Char) : Fault :=
  if c = '!' then .loneBang else if c = '.' then .lonePoint else .stray c

/-- The sign that begins with `first`. -/
def readSymbol (first : Char) (text : List Char) : Reading :=
  match symbols.find? fun entry => entry.1.toList.isPrefixOf (first :: text) with
  | some (spelling, kind) => { outcome := .ok ⟨kind, spelling⟩, more := spelling.length - 1 }
  | none => { outcome := .error (strayFault first), more := 0 }

/-- The lexeme at the front of the text `first :: text`. -/
def read (first : Char) (text : List Char) : Reading :=
  if isQuote first then readString first text
  else if first.isDigit then readNumber first text
  else if isNameStart first then readName first text
  else readSymbol first text

/-! ## What is read is there -/

theorem length_takeWhile_le (p : Char → Bool) (text : List Char) :
    (text.takeWhile p).length ≤ text.length :=
  (List.takeWhile_prefix p).length_le

theorem takeWhile_add_dropWhile (p : Char → Bool) (text : List Char) :
    (text.takeWhile p).length + (text.dropWhile p).length = text.length := by
  rw [← List.length_append, List.takeWhile_append_dropWhile]

theorem more_readName_le (first : Char) (text : List Char) :
    (readName first text).more ≤ text.length :=
  length_takeWhile_le _ _

theorem more_readNumber_le (first : Char) (text : List Char) :
    (readNumber first text).more ≤ text.length := by
  have whole := takeWhile_add_dropWhile Char.isDigit text
  unfold readNumber
  split
  next rest found =>
    have part := length_takeWhile_le Char.isDigit rest
    rw [found, List.length_cons] at whole
    split
    next => simp only; omega
    next => simp only; omega
  next => exact length_takeWhile_le _ _

theorem more_readString_le (quote : Char) (text : List Char) :
    (readString quote text).more ≤ text.length := by
  have whole := takeWhile_add_dropWhile (isContent quote) text
  unfold readString
  split
  next => exact length_takeWhile_le _ _
  next c rest found =>
    rw [found, List.length_cons] at whole
    split <;> simp only <;> omega

theorem more_readSymbol_le (first : Char) (text : List Char) :
    (readSymbol first text).more ≤ text.length := by
  unfold readSymbol
  split
  next spelling kind found =>
    have front : spelling.toList.isPrefixOf (first :: text) = true := by
      simpa using List.find?_some found
    have front := (List.isPrefixOf_iff_prefix.mp front).length_le
    rw [String.length_toList, List.length_cons] at front
    simp only; omega
  next => exact Nat.zero_le _

theorem more_read_le (first : Char) (text : List Char) :
    (read first text).more ≤ text.length := by
  unfold read
  split
  · exact more_readString_le _ _
  split
  · exact more_readNumber_le _ _
  split
  · exact more_readName_le _ _
  · exact more_readSymbol_le _ _

end Lexeme

end Pseudocod

/-!
# Kinds of tokens

A kind says what role a word plays in a program. Most kinds have one canonical spelling; numbers,
strings and identifiers are open classes, and `eof` stands for the end of a program.

* `keywords` and `symbols`: the spellings of the keywords and of the signs.
* `Kind.spelling?_isSome_iff`: all but the open classes and the end have a spelling.
-/

namespace Pseudocod

/-- The role of a token. -/
inductive Kind where
  -- open classes
  | number | string | ident
  -- words that build statements
  | daca | atunci | altfel | sf | pentru | executa | cat | timp | repeta | pana | cand
  | citeste | scrie
  -- logical words
  | or | and | not
  -- assignment and exchange
  | assign | swap
  -- comparison
  | eq | notEq | lt | le | gt | ge
  -- arithmetic
  | plus | minus | star | slash | percent | sqrt
  -- punctuation
  | leftParen | rightParen | leftBracket | rightBracket | comma | semicolon
  -- end of the program
  | eof
deriving DecidableEq, Repr, Inhabited

/-- The words that are not identifiers, each with its kind; a kind's canonical spelling comes
first. The case of a letter matters. -/
def keywords : List (String × Kind) :=
  [("daca", .daca), ("atunci", .atunci), ("altfel", .altfel), ("sf", .sf), ("pentru", .pentru),
   ("executa", .executa), ("cat", .cat), ("timp", .timp), ("repeta", .repeta), ("pana", .pana),
   ("cand", .cand), ("citeste", .citeste), ("scrie", .scrie), ("sau", .or), ("SAU", .or),
   ("si", .and), ("SI", .and), ("not", .not), ("NOT", .not)]

/-- The signs, each with its kind. A sign stands before those it begins with, so that the first one
at the front of a text is the longest; a kind's canonical spelling comes first. -/
def symbols : List (String × Kind) :=
  [("<->", .swap), ("<-->", .swap), ("<-", .assign), ("<=", .le), ("<", .lt), (">=", .ge),
   (">", .gt), ("!=", .notEq), ("=", .eq), ("+", .plus), ("-", .minus), ("*", .star),
   ("/", .slash), ("%", .percent), ("√", .sqrt), ("(", .leftParen), (")", .rightParen),
   ("[", .leftBracket), ("]", .rightBracket), (",", .comma), (";", .semicolon)]

namespace Kind

/-- The kind of the keyword that is spelled `word`. -/
def keyword? (word : String) : Option Kind :=
  keywords.lookup word

/-- Whether a kind has keywords for its members. -/
def isKeyword (kind : Kind) : Bool :=
  keywords.any fun entry => entry.2 = kind

/-- The canonical spelling of a kind that is not an open class. -/
def spelling? (kind : Kind) : Option String :=
  ((keywords ++ symbols).find? fun entry => entry.2 = kind).map Prod.fst

/-- The name of a kind in messages: its spelling in quotes, or a noun for what has none. -/
def describe (kind : Kind) : String :=
  match kind with
  | .number => "number"
  | .string => "string"
  | .ident => "identifier"
  | .eof => "end of input"
  | _ => "'" ++ kind.spelling?.getD "" ++ "'"

theorem spelling?_isSome_iff (kind : Kind) :
    kind.spelling?.isSome ↔
      kind ≠ .number ∧ kind ≠ .string ∧ kind ≠ .ident ∧ kind ≠ .eof := by
  cases kind <;> decide

end Kind

end Pseudocod

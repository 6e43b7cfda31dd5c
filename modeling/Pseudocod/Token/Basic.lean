import Pseudocod.Location
import Pseudocod.Token.Kind

/-!
# Tokens

A token is a word of a program with its kind and the place where it starts.
-/

namespace Pseudocod

/-- A word of a program. The text is as written, except that a string has no quotes. -/
structure Token where
  kind : Kind
  text : String
  location : Location
deriving DecidableEq, Repr, Inhabited

namespace Token

/-- The token in a message. Words with several spellings keep the one that was written. -/
def describe (token : Token) : String :=
  match token.kind with
  | .number => "number " ++ token.text
  | .string => "string \"" ++ token.text ++ "\""
  | .ident => "identifier '" ++ token.text ++ "'"
  | kind =>
    if kind.isKeyword || kind = .swap then "'" ++ token.text ++ "'" else kind.describe

/-- The token that ends a program. -/
def eof (location : Location) : Token :=
  { kind := .eof, text := "", location }

theorem describe_of_eof {token : Token} (h : token.kind = .eof) :
    token.describe = "end of input" := by
  rw [describe, h]
  rfl

end Token

end Pseudocod

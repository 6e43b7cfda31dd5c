import Pseudocod.Expr.Basic

/-!
# Writing expressions

An expression is written with its operands in order, with blanks around binary operators and with
no brackets but those it holds. A string has double quotes, unless there is one in it.
-/

namespace Pseudocod.Expr

/-- The quote in which a string is written: the single one if the text has the double one. -/
def quoteFor (text : String) : Char :=
  if '"' ∈ text.toList then '\'' else '"'

/-- An expression as it is written in a program. -/
def render : Expr → String
  | .binary op left right => left.render ++ " " ++ op.symbol ++ " " ++ right.render
  | .unary op operand => op.opening ++ operand.render ++ op.closing
  | .number text => text
  | .string text =>
    let quote := (quoteFor text).toString
    quote ++ text ++ quote
  | .ident name => name

end Pseudocod.Expr

import Pseudocod.Token.Basic

/-!
# Results of reading tokens

A reader takes a list of tokens and gives back a value with the tokens it left, or the reason why
it could not go on. What it leaves is shorter than what it was given, and its type says so: this is
what makes the readers of expressions and statements end.

* `expect`: the reader of one token of a given kind.
* `separated`: the reader of one or more items with separators between them.
-/

namespace Pseudocod

/-- What a reader was looking for when it could not go on. -/
inductive Expected where
  | statement
  | simpleStatement
  | assignOrSwap (name : String)
  | identifier
  | readName
  | expression
  | negatedAtom
  | rootedAtom
  | closeBracket
  | closeParen
  | atunci
  | closeDaca
  | loopName
  | loopAssign
  | loopComma
  | loopExecuta
  | closePentru
  | timp
  | whileExecuta
  | closeCatTimp
  | closeExecuta
  | closeRepeta
  | cand
deriving DecidableEq, Repr

/-- What was looked for, in words. -/
def Expected.message : Expected → String
  | .statement => "statement"
  | .simpleStatement => "assignment, swap, 'citeste' or 'scrie'"
  | .assignOrSwap name => "'<-' or '<->' after '" ++ name ++ "'"
  | .identifier => "identifier"
  | .readName => "variable name after 'citeste'"
  | .expression => "expression"
  | .negatedAtom => "number, string or name after '-'"
  | .rootedAtom => "number, string or name after '√'"
  | .closeBracket => "']' to close '['"
  | .closeParen => "')' to close '('"
  | .atunci => "'atunci' after 'daca' condition"
  | .closeDaca => "'sf' to close 'daca'"
  | .loopName => "loop variable after 'pentru'"
  | .loopAssign => "'<-' after loop variable"
  | .loopComma => "',' between start and end values"
  | .loopExecuta => "'executa' after 'pentru' header"
  | .closePentru => "'sf' to close 'pentru'"
  | .timp => "'timp' after 'cat'"
  | .whileExecuta => "'executa' after 'cat timp' condition"
  | .closeCatTimp => "'sf' to close 'cat timp'"
  | .closeExecuta => "'cat timp' to close 'executa'"
  | .closeRepeta => "'pana cand' to close 'repeta'"
  | .cand => "'cand' after 'pana'"

/-- Why a reader could not go on: what it was looking for, and the tokens at which it stood. -/
structure Failure where
  expected : Expected
  rest : List Token
deriving DecidableEq, Repr

/-- A value that was read, with fewer than `bound` tokens left. -/
structure Parsed (α : Type) (bound : Nat) where
  value : α
  rest : List Token
  shorter : rest.length < bound

/-- Readers of values of type `α`: they leave fewer tokens than they are given. -/
abbrev Reader (α : Type) :=
  (tokens : List Token) → Except Failure (Parsed α tokens.length)

namespace Parsed

/-- The same tokens are left under a larger bound, whatever becomes of the value. -/
def mapWithin {α β : Type} {bound larger : Nat} (parsed : Parsed α bound) (f : α → β)
    (h : bound ≤ larger) : Parsed β larger where
  value := f parsed.value
  rest := parsed.rest
  shorter := Nat.lt_of_lt_of_le parsed.shorter h

/-- The same tokens are left, whatever becomes of the value. -/
def map {α β : Type} {bound : Nat} (parsed : Parsed α bound) (f : α → β) : Parsed β bound :=
  parsed.mapWithin f (Nat.le_refl bound)

@[simp] theorem value_mapWithin {α β : Type} {bound larger : Nat} (parsed : Parsed α bound)
    (f : α → β) (h : bound ≤ larger) : (parsed.mapWithin f h).value = f parsed.value := rfl

@[simp] theorem rest_mapWithin {α β : Type} {bound larger : Nat} (parsed : Parsed α bound)
    (f : α → β) (h : bound ≤ larger) : (parsed.mapWithin f h).rest = parsed.rest := rfl

@[simp] theorem value_map {α β : Type} {bound : Nat} (parsed : Parsed α bound) (f : α → β) :
    (parsed.map f).value = f parsed.value := rfl

@[simp] theorem rest_map {α β : Type} {bound : Nat} (parsed : Parsed α bound) (f : α → β) :
    (parsed.map f).rest = parsed.rest := rfl

end Parsed

/-! Behind its first token a list of tokens is shorter. -/

theorem length_lt_cons (token : Token) (rest : List Token) :
    rest.length < (token :: rest).length :=
  Nat.lt_succ_self _

theorem length_le_cons (token : Token) (rest : List Token) :
    rest.length ≤ (token :: rest).length :=
  Nat.le_succ _

/-- The text of the first token and the tokens after it, if it is of the kind asked for. -/
def accept (kind : Kind) (tokens : List Token) : Option (Parsed String tokens.length) :=
  match tokens with
  | [] => none
  | token :: rest =>
    if token.kind = kind then some ⟨token.text, rest, length_lt_cons token rest⟩ else none

/-- The reader of one token of the kind asked for. -/
def expect (kind : Kind) (expected : Expected) : Reader String := fun tokens =>
  match accept kind tokens with
  | some parsed => .ok parsed
  | none => .error { expected, rest := tokens }

/-- The reader of one or more items, with a token of kind `separator` between any two of them. -/
def separated {α : Type} (separator : Kind) (item : Reader α) : Reader (List α) := fun tokens => do
  let first ← item tokens
  match accept separator first.rest with
  | none => return first.map fun value => [value]
  | some next =>
    let others ← separated separator item next.rest
    return others.mapWithin (first.value :: ·)
      (Nat.le_of_lt (Nat.lt_trans next.shorter first.shorter))
termination_by tokens => tokens.length
decreasing_by exact Nat.lt_trans next.shorter first.shorter

@[simp] theorem accept_nil (kind : Kind) : accept kind [] = none := rfl

end Pseudocod

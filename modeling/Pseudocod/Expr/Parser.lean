import Pseudocod.Expr.Basic
import Pseudocod.Parsed

/-!
# Reading expressions

An expression is an operand followed by binary operators with their own operands. While operators
of at least the level asked for follow, each is joined to what was read before it; its right
operand is read at the next level, so that operators of one level group to the left.

The operand of `not` reaches over comparisons and arithmetic. Minus and square root take an atom,
and inside brackets an expression starts anew at the lowest level.

* `Expr.climb_nil`: at the end of the tokens an expression is complete.
-/

namespace Pseudocod.Expr

/-- The reader of a number, a string or a name. -/
def parseLeaf (expected : Expected) : Reader Expr
  | [] => .error { expected, rest := [] }
  | token :: rest =>
    match token.kind with
    | .number => .ok ⟨.number token.text, rest, length_lt_cons token rest⟩
    | .string => .ok ⟨.string token.text, rest, length_lt_cons token rest⟩
    | .ident => .ok ⟨.ident token.text, rest, length_lt_cons token rest⟩
    | _ => .error { expected, rest := token :: rest }

mutual

/-- The reader of an expression in which every operator outside of brackets and of an operand of
`not` has at least the level `lowest`. -/
def parseFrom (lowest : Nat) (tokens : List Token) :
    Except Failure (Parsed Expr tokens.length) := do
  let left ← parsePrimary tokens
  let whole ← climb lowest left.value left.rest
  return whole.mapWithin id left.shorter
termination_by (tokens.length, 1)
decreasing_by
  · exact Prod.Lex.right _ Nat.zero_lt_one
  · exact Prod.Lex.left _ _ left.shorter

/-- Joins to `left` the operators of at least the level `lowest` that follow, with their right
operands. -/
def climb (lowest : Nat) (left : Expr) (tokens : List Token) :
    Except Failure (Parsed Expr (tokens.length + 1)) :=
  match tokens with
  | [] => .ok ⟨left, [], Nat.lt_succ_self _⟩
  | token :: rest =>
    match token.kind.binaryOp? with
    | none => .ok ⟨left, token :: rest, Nat.lt_succ_self _⟩
    | some op =>
      if op.level < lowest then .ok ⟨left, token :: rest, Nat.lt_succ_self _⟩
      else do
        let right ← parseFrom (op.level + 1) rest
        let whole ← climb lowest (.binary op left right.value) right.rest
        return whole.mapWithin id
          (Nat.succ_le_succ (Nat.le_succ_of_le (Nat.le_of_lt right.shorter)))
termination_by (tokens.length, 0)
decreasing_by
  · exact Prod.Lex.left _ _ (Nat.lt_succ_self _)
  · exact Prod.Lex.left _ _ (Nat.lt_succ_of_lt right.shorter)

/-- The reader of an operand: an atom, or an operator of one operand with what it applies to. -/
def parsePrimary (tokens : List Token) : Except Failure (Parsed Expr tokens.length) :=
  match tokens with
  | [] => .error { expected := .expression, rest := [] }
  | token :: rest =>
    match token.kind with
    | .not => do
      let operand ← parseFrom (Operator.negation.level + 1) rest
      return operand.mapWithin (.unary .not) (length_le_cons token rest)
    | .minus => do
      let operand ← parseLeaf .negatedAtom rest
      return operand.mapWithin (.unary .neg) (length_le_cons token rest)
    | .sqrt => do
      let operand ← parseLeaf .rootedAtom rest
      return operand.mapWithin (.unary .sqrt) (length_le_cons token rest)
    | .leftBracket => do
      let operand ← parseFrom lowestLevel rest
      let close ← expect .rightBracket .closeBracket operand.rest
      return close.mapWithin (fun _ => .unary .floor operand.value)
        (Nat.le_succ_of_le (Nat.le_of_lt operand.shorter))
    | .leftParen => do
      let operand ← parseFrom lowestLevel rest
      let close ← expect .rightParen .closeParen operand.rest
      return close.mapWithin (fun _ => .unary .paren operand.value)
        (Nat.le_succ_of_le (Nat.le_of_lt operand.shorter))
    | _ => parseLeaf .expression (token :: rest)
termination_by (tokens.length, 0)
decreasing_by all_goals exact Prod.Lex.left _ _ (Nat.lt_succ_self _)

end

/-- The reader of a whole expression. -/
def parse : Reader Expr :=
  parseFrom lowestLevel

@[simp] theorem climb_nil (lowest : Nat) (left : Expr) :
    climb lowest left [] = .ok ⟨left, [], Nat.lt_succ_self _⟩ := by
  rw [climb]

end Pseudocod.Expr

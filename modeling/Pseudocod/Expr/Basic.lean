import Pseudocod.Token.Kind

/-!
# Expressions

An expression is a number, a string or a name, or an operator with its operands. Brackets are kept
as operators of one operand, so that a tree holds the grouping that was written.

Binary operators come in five families, and the families in levels: an operator of a higher level
binds its operands more tightly. The logical `not` has a level of its own, between conjunction and
comparison.

* `BinaryOp.level_le`: no level is above that of the products.
* `Kind.spelling?_of_mem_binaryOp?`: the token of a binary operator is spelled like the operator.
-/

namespace Pseudocod

/-- The operators that stand between two operands. -/
inductive BinaryOp where
  | or | and
  | eq | ne | lt | le | gt | ge
  | add | sub
  | mul | div | mod
deriving DecidableEq, Repr, Inhabited

namespace BinaryOp

/-- Operators of one family have the same level. -/
inductive Family where
  | or | and | compare | add | mul
deriving DecidableEq, Repr

/-- The level of a family; a higher level binds more tightly. The level 3 is that of `not`. -/
def Family.level : Family → Nat
  | .or => 1
  | .and => 2
  | .compare => 4
  | .add => 5
  | .mul => 6

/-- The family to which an operator belongs. -/
def family : BinaryOp → Family
  | .or => .or
  | .and => .and
  | .eq | .ne | .lt | .le | .gt | .ge => .compare
  | .add | .sub => .add
  | .mul | .div | .mod => .mul

/-- The level of an operator. -/
def level (op : BinaryOp) : Nat :=
  op.family.level

/-- The operator as it is written; words are in lower case. -/
def symbol : BinaryOp → String
  | .or => "sau"
  | .and => "si"
  | .eq => "="
  | .ne => "!="
  | .lt => "<"
  | .le => "<="
  | .gt => ">"
  | .ge => ">="
  | .add => "+"
  | .sub => "-"
  | .mul => "*"
  | .div => "/"
  | .mod => "%"

/-- The binary operators, level by level. -/
def all : List BinaryOp :=
  [.or, .and, .eq, .ne, .lt, .le, .gt, .ge, .add, .sub, .mul, .div, .mod]

theorem mem_all (op : BinaryOp) : op ∈ all := by
  cases op <;> decide

theorem level_le (op : BinaryOp) : op.level ≤ 6 := by
  cases op <;> decide

end BinaryOp

/-- The operators of one operand: negation of a truth value, minus and square root before an atom,
and the two pairs of brackets, of which the square ones round down. -/
inductive UnaryOp where
  | not | neg | sqrt | floor | paren
deriving DecidableEq, Repr, Inhabited

namespace UnaryOp

/-- What is written before the operand. -/
def opening : UnaryOp → String
  | .not => "not "
  | .neg => "-"
  | .sqrt => "√"
  | .floor => "["
  | .paren => "("

/-- What is written after the operand. -/
def closing : UnaryOp → String
  | .floor => "]"
  | .paren => ")"
  | _ => ""

end UnaryOp

/-- Expressions. A number is kept as it is written, a string without its quotes. -/
inductive Expr where
  | binary (op : BinaryOp) (left right : Expr)
  | unary (op : UnaryOp) (operand : Expr)
  | number (text : String)
  | string (text : String)
  | ident (name : String)
deriving DecidableEq, Repr, Inhabited

/-- Whether an expression has no operator. -/
def Expr.isAtom : Expr → Bool
  | .number _ | .string _ | .ident _ => true
  | _ => false

/-! ## The table of operators -/

/-- The operators that have a level: the binary ones, and `not`, which stands before its operand. -/
inductive Operator where
  | binary (op : BinaryOp)
  | negation
deriving DecidableEq, Repr

/-- The level of an operator. -/
def Operator.level : Operator → Nat
  | .binary op => op.level
  | .negation => 3

/-- The lowest level of an operator, from which a whole expression is read. -/
def lowestLevel : Nat := 1

/-- Which kind of token stands for which operator. -/
def operators : List (Kind × Operator) :=
  [(.or, .binary .or), (.and, .binary .and), (.not, .negation),
   (.eq, .binary .eq), (.notEq, .binary .ne), (.lt, .binary .lt), (.le, .binary .le),
   (.gt, .binary .gt), (.ge, .binary .ge),
   (.plus, .binary .add), (.minus, .binary .sub),
   (.star, .binary .mul), (.slash, .binary .div), (.percent, .binary .mod)]

theorem lowestLevel_le (operator : Operator) : lowestLevel ≤ operator.level := by
  cases operator with
  | binary op => cases op <;> decide
  | negation => decide

namespace Kind

/-- The operator for which tokens of a kind stand. -/
def operator? (kind : Kind) : Option Operator :=
  operators.lookup kind

/-- The binary operator for which tokens of a kind stand. -/
def binaryOp? (kind : Kind) : Option BinaryOp :=
  match kind.operator? with
  | some (.binary op) => some op
  | _ => none

theorem operator?_eq_some_negation_iff (kind : Kind) :
    kind.operator? = some .negation ↔ kind = .not := by
  cases kind <;> decide

/-- The token of a binary operator is spelled like the operator. -/
theorem spelling?_of_mem_binaryOp? (kind : Kind) :
    ∀ op ∈ kind.binaryOp?, kind.spelling? = some op.symbol := by
  cases kind <;> decide

end Kind

end Pseudocod

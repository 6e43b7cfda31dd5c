import Pseudocod.Expr.Basic
import Pseudocod.Statement.Basic

/-!
# Syntax trees in writing

A syntax tree is written as a symbolic expression. A leaf with its text, and a block without
statements, take one line; a node with children opens a line, lists the children one level deeper,
and closes on a line of its own. In the text of a leaf a backslash stands before a quotation mark
and before a backslash.

* `SExpr.escape_append`: texts are escaped character by character.
-/

namespace Pseudocod

/-- Symbolic expressions. -/
inductive SExpr where
  /-- A head with a text in quotes. -/
  | leaf (head text : String)
  /-- A head alone. -/
  | bare (head : String)
  /-- A head with what belongs to it. -/
  | node (head : String) (children : List SExpr)
deriving Inhabited

namespace SExpr

/-- A text as it stands between quotes. -/
def escape (text : List Char) : List Char :=
  text.flatMap fun c => if c = '"' ∨ c = '\\' then ['\\', c] else [c]

/-- The indentation of a line. -/
def indent (depth : Nat) : String :=
  String.ofList (List.replicate (2 * depth) ' ')

mutual

/-- A symbolic expression in writing, `depth` levels deep. -/
def renderAt (depth : Nat) : SExpr → String
  | .leaf head text =>
    indent depth ++ "(" ++ head ++ " \"" ++ String.ofList (escape text.toList) ++ "\")\n"
  | .bare head => indent depth ++ "(" ++ head ++ ")\n"
  | .node head children =>
    indent depth ++ "(" ++ head ++ "\n" ++ renderAll (depth + 1) children ++
      indent depth ++ ")\n"

/-- Symbolic expressions in writing, one after another. -/
def renderAll (depth : Nat) : List SExpr → String
  | [] => ""
  | expr :: exprs => expr.renderAt depth ++ renderAll depth exprs

end

/-- A symbolic expression in writing. -/
def render (expr : SExpr) : String :=
  expr.renderAt 0

/-- A node for a block of statements, which is written without children if it is empty. -/
def block (head : String) (children : List SExpr) : SExpr :=
  if children.isEmpty then .bare head else .node head children

theorem escape_append (first second : List Char) :
    escape (first ++ second) = escape first ++ escape second := by
  simp [escape]

end SExpr

/-- The head of the node of a binary operator: the name of its family, with the operator if the
family has several. -/
def BinaryOp.head (op : BinaryOp) : String :=
  match op.family with
  | .or => "or"
  | .and => "and"
  | .compare => "compare \"" ++ op.symbol ++ "\""
  | .add => "add \"" ++ op.symbol ++ "\""
  | .mul => "mul \"" ++ op.symbol ++ "\""

/-- The head of the node of an operator of one operand. -/
def UnaryOp.head : UnaryOp → String
  | .not => "not"
  | .neg => "neg"
  | .sqrt => "sqrt"
  | .floor => "floor"
  | .paren => "paren"

/-- The tree of an expression. -/
def Expr.tree : Expr → SExpr
  | .binary op left right => .node op.head [left.tree, right.tree]
  | .unary op operand => .node op.head [operand.tree]
  | .number text => .leaf "number" text
  | .string text => .leaf "string" text
  | .ident name => .leaf "identifier" name

namespace Statement

mutual

/-- The tree of a statement. -/
def tree : Statement → SExpr
  | .assign name value => .node "assign" [.leaf "identifier" name, value.tree]
  | .swap left right => .node "swap" [.leaf "identifier" left, .leaf "identifier" right]
  | .read names => .node "read" (names.map (.leaf "identifier"))
  | .write values => .node "write" (values.map Expr.tree)
  | .ifThen condition body => .node "if" [condition.tree, .block "then" (blockTrees body)]
  | .ifElse condition body alternative =>
    .node "if" [condition.tree, .block "then" (blockTrees body),
      .block "else" (blockTrees alternative)]
  | .count name first last step body =>
    .node "for" (.leaf "identifier" name :: first.tree :: last.tree ::
      ((step.map Expr.tree).toList ++ [.block "body" (blockTrees body)]))
  | .whileDo condition body => .node "while" [condition.tree, .block "body" (blockTrees body)]
  | .doWhile body condition => .node "do_while" [.block "body" (blockTrees body), condition.tree]
  | .doUntil body condition => .node "repeat" [.block "body" (blockTrees body), condition.tree]
  | .sequence parts => .block "sequence" (blockTrees parts)

/-- The trees of the statements of a block. -/
def blockTrees : List Statement → List SExpr
  | [] => []
  | statement :: statements => statement.tree :: blockTrees statements

end

end Statement

/-- The tree of a program. -/
def Program.tree (program : Program) : SExpr :=
  .block "program" (Statement.blockTrees program.statements)

/-- The tree of a program in writing. -/
def Program.dump (program : Program) : String :=
  program.tree.render

end Pseudocod

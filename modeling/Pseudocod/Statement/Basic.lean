import Pseudocod.Expr.Basic

/-!
# Statements and programs

A program is a list of statements that are carried out in order. Simple statements assign, swap,
read and write; several of them on one line make a sequence; the others hold blocks of statements.

* `Statement.same_iff`: equality of statements can be decided.
* `Program.isEmpty_iff`: an empty program is one without statements.
-/

namespace Pseudocod

/-- Statements. -/
inductive Statement where
  /-- Gives the variable `name` a value. -/
  | assign (name : String) (value : Expr)
  /-- Exchanges the values of two variables. -/
  | swap (left right : String)
  /-- Reads values for the variables `names`. -/
  | read (names : List String)
  /-- Writes the values of expressions. -/
  | write (values : List Expr)
  /-- Carries out a block if a condition holds. -/
  | ifThen (condition : Expr) (body : List Statement)
  /-- Carries out one of two blocks. -/
  | ifElse (condition : Expr) (body alternative : List Statement)
  /-- Counts a variable from a first to a last value, by one unless a step is given. -/
  | count (name : String) (first last : Expr) (step : Option Expr) (body : List Statement)
  /-- Repeats a block while a condition holds, which is tested before the block. -/
  | whileDo (condition : Expr) (body : List Statement)
  /-- Repeats a block while a condition holds, which is tested after the block. -/
  | doWhile (body : List Statement) (condition : Expr)
  /-- Repeats a block until a condition holds, which is tested after the block. -/
  | doUntil (body : List Statement) (condition : Expr)
  /-- Several statements on one line. -/
  | sequence (parts : List Statement)
deriving Inhabited

namespace Statement

/-- Simple statements hold no others and fit on a line; only they can be parts of a sequence. -/
def isSimple : Statement → Bool
  | .assign .. | .swap .. | .read .. | .write .. => true
  | _ => false

/-! ## Equality of statements -/

mutual

/-- Whether two statements are the same. -/
def same : Statement → Statement → Bool
  | .assign name value, .assign name' value' => name = name' && value = value'
  | .swap left right, .swap left' right' => left = left' && right = right'
  | .read names, .read names' => names = names'
  | .write values, .write values' => values = values'
  | .ifThen condition body, .ifThen condition' body' =>
    condition = condition' && sameBlock body body'
  | .ifElse condition body alternative, .ifElse condition' body' alternative' =>
    condition = condition' && sameBlock body body' && sameBlock alternative alternative'
  | .count name first last step body, .count name' first' last' step' body' =>
    name = name' && first = first' && last = last' && step = step' && sameBlock body body'
  | .whileDo condition body, .whileDo condition' body' =>
    condition = condition' && sameBlock body body'
  | .doWhile body condition, .doWhile body' condition' =>
    sameBlock body body' && condition = condition'
  | .doUntil body condition, .doUntil body' condition' =>
    sameBlock body body' && condition = condition'
  | .sequence parts, .sequence parts' => sameBlock parts parts'
  | _, _ => false

/-- Whether two blocks consist of the same statements. -/
def sameBlock : List Statement → List Statement → Bool
  | [], [] => true
  | statement :: statements, statement' :: statements' =>
    same statement statement' && sameBlock statements statements'
  | _, _ => false

end

mutual

theorem same_iff (first second : Statement) : same first second = true ↔ first = second := by
  cases first <;> cases second <;> simp [same, sameBlock_iff, and_assoc]

theorem sameBlock_iff (first second : List Statement) :
    sameBlock first second = true ↔ first = second := by
  cases first <;> cases second <;> simp [sameBlock, same_iff, sameBlock_iff]

end

instance : DecidableEq Statement := fun first second =>
  decidable_of_iff _ (same_iff first second)

end Statement

/-! ## Programs -/

/-- Statements in the order in which they are carried out. -/
structure Program where
  statements : List Statement
deriving DecidableEq, Inhabited

/-- Whether a program does nothing. -/
def Program.isEmpty (program : Program) : Bool :=
  program.statements.isEmpty

theorem Program.isEmpty_iff (program : Program) : program.isEmpty ↔ program.statements = [] :=
  List.isEmpty_iff

end Pseudocod

import Pseudocod.Proofs.StatementWords

/-!
# Programs with other texts in their strings

What stands in the strings of a program has no influence on its shape: if the texts of all strings
change, the same ones change among its words, and the tree is still the one that is read from them.

* `Statement.blockWords_mapStrings`: the words of a block whose strings have changed.
* `Statement.blockCanonical_mapStrings`: strings do not matter to the grouping of a tree.
-/

namespace Pseudocod

/-- A word in which the text is changed if it is a string. -/
def Lexeme.mapString (f : String → String) (lexeme : Lexeme) : Lexeme :=
  if lexeme.kind = .string then { lexeme with text := f lexeme.text } else lexeme

theorem Lexeme.mapString_of_ne (f : String → String) {lexeme : Lexeme}
    (ne : lexeme.kind ≠ .string) : lexeme.mapString f = lexeme :=
  if_neg ne

theorem Lexeme.kind_mapString (f : String → String) (lexeme : Lexeme) :
    (lexeme.mapString f).kind = lexeme.kind := by
  unfold mapString
  split <;> rfl

@[simp] theorem Kind.mapString_word (f : String → String) (kind : Kind) (ne : kind ≠ .string) :
    kind.word.mapString f = kind.word :=
  Lexeme.mapString_of_ne f ne

@[simp] theorem Lexeme.mapString_ident (f : String → String) (name : String) :
    mapString f ⟨.ident, name⟩ = ⟨.ident, name⟩ := rfl

theorem map_joinWords {f : Lexeme → Lexeme} {separator : Kind}
    (fixed : f separator.word = separator.word) (items : List (List Lexeme)) :
    (joinWords separator items).map f = joinWords separator (items.map (List.map f)) := by
  induction items with
  | nil => rfl
  | cons words others ih =>
    cases others with
    | nil => rfl
    | cons next others =>
      rw [joinWords_cons (List.cons_ne_nil _ _), List.map_append, List.map_cons, fixed, ih]
      rfl

/-! ## Expressions -/

namespace Expr

/-- The expression in which `f` is applied to the texts of all strings. -/
def mapStrings (f : String → String) : Expr → Expr
  | .binary op left right => .binary op (left.mapStrings f) (right.mapStrings f)
  | .unary op operand => .unary op (operand.mapStrings f)
  | .string text => .string (f text)
  | .number text => .number text
  | .ident name => .ident name

variable (f : String → String)

theorem words_mapStrings (expr : Expr) :
    (expr.mapStrings f).words = expr.words.map (Lexeme.mapString f) := by
  induction expr with
  | binary op left right ihLeft ihRight =>
    have fixed : op.word.mapString f = op.word := by cases op <;> rfl
    rw [mapStrings, words, words, List.map_append, List.map_cons, fixed, ihLeft, ihRight]
  | unary op operand ih =>
    have fixed : op.word.mapString f = op.word := by cases op <;> rfl
    have closing : op.closingWords.map (Lexeme.mapString f) = op.closingWords := by
      cases op <;> rfl
    rw [mapStrings, words, words, List.map_cons, List.map_append, fixed, closing, ih]
  | number | string | ident => rfl

theorem isAtom_mapStrings (expr : Expr) : (expr.mapStrings f).isAtom = expr.isAtom := by
  cases expr <;> rfl

theorem tightness_mapStrings (expr : Expr) : (expr.mapStrings f).tightness = expr.tightness := by
  cases expr <;> rfl

theorem edgeHasNot_mapStrings (expr : Expr) :
    (expr.mapStrings f).edgeHasNot = expr.edgeHasNot := by
  induction expr with
  | binary op left right _ ihRight => rw [mapStrings, edgeHasNot, edgeHasNot, ihRight]
  | unary op operand => cases op <;> rfl
  | number | string | ident => rfl

theorem canonical_mapStrings (expr : Expr) :
    (expr.mapStrings f).Canonical ↔ expr.Canonical := by
  induction expr with
  | binary op left right ihLeft ihRight =>
    simp only [mapStrings, Canonical, Admits, ihLeft, ihRight, tightness_mapStrings,
      edgeHasNot_mapStrings]
  | unary op operand ih =>
    cases op <;> simp only [mapStrings, Canonical, ih, tightness_mapStrings, isAtom_mapStrings]
  | number | string | ident => rfl

end Expr

/-! ## Statements -/

namespace Statement

mutual

/-- The statement in which `f` is applied to the texts of all strings. -/
def mapStrings (f : String → String) : Statement → Statement
  | .assign name value => .assign name (value.mapStrings f)
  | .swap left right => .swap left right
  | .read names => .read names
  | .write values => .write (values.map (Expr.mapStrings f))
  | .ifThen condition body => .ifThen (condition.mapStrings f) (blockMapStrings f body)
  | .ifElse condition body alternative =>
    .ifElse (condition.mapStrings f) (blockMapStrings f body) (blockMapStrings f alternative)
  | .count name first last step body =>
    .count name (first.mapStrings f) (last.mapStrings f) (step.map (Expr.mapStrings f))
      (blockMapStrings f body)
  | .whileDo condition body => .whileDo (condition.mapStrings f) (blockMapStrings f body)
  | .doWhile body condition => .doWhile (blockMapStrings f body) (condition.mapStrings f)
  | .doUntil body condition => .doUntil (blockMapStrings f body) (condition.mapStrings f)
  | .sequence parts => .sequence (blockMapStrings f parts)

/-- The block in which `f` is applied to the texts of all strings. -/
def blockMapStrings (f : String → String) : List Statement → List Statement
  | [] => []
  | statement :: statements => statement.mapStrings f :: blockMapStrings f statements

end

variable (f : String → String)

theorem blockMapStrings_eq_map (statements : List Statement) :
    blockMapStrings f statements = statements.map (mapStrings f) := by
  induction statements with
  | nil => rw [blockMapStrings]; rfl
  | cons statement statements ih => rw [blockMapStrings, ih]; rfl

theorem isSimple_mapStrings (statement : Statement) :
    (statement.mapStrings f).isSimple = statement.isSimple := by
  cases statement <;> simp only [mapStrings, isSimple]

theorem headerWords_mapStrings (header : CountHeader) :
    headerWords ⟨header.name, header.first.mapStrings f, header.last.mapStrings f,
      header.step.map (Expr.mapStrings f)⟩ = (headerWords header).map (Lexeme.mapString f) := by
  obtain ⟨name, first, last, step⟩ := header
  cases step <;> simp [headerWords, Expr.words_mapStrings]

mutual

theorem words_mapStrings (statement : Statement) :
    (statement.mapStrings f).words = statement.words.map (Lexeme.mapString f) := by
  cases statement with
  | assign name value => simp [mapStrings, words, Expr.words_mapStrings]
  | swap left right => simp [mapStrings, words]
  | read names =>
    have comma : Kind.comma.word.mapString f = Kind.comma.word := rfl
    simp [mapStrings, words, map_joinWords comma, Function.comp_def]
  | write values =>
    have comma : Kind.comma.word.mapString f = Kind.comma.word := rfl
    simp [mapStrings, words, map_joinWords comma, Function.comp_def, Expr.words_mapStrings]
  | ifThen condition body | whileDo condition body | doWhile body condition
  | doUntil body condition =>
    simp [mapStrings, words, Expr.words_mapStrings, blockWords_mapStrings body]
  | ifElse condition body alternative =>
    simp [mapStrings, words, Expr.words_mapStrings, blockWords_mapStrings body,
      blockWords_mapStrings alternative]
  | count name first last step body =>
    have header := headerWords_mapStrings f ⟨name, first, last, step⟩
    simp [mapStrings, words, header, blockWords_mapStrings body]
  | sequence parts =>
    have semicolon : Kind.semicolon.word.mapString f = Kind.semicolon.word := rfl
    rw [mapStrings, words, words, map_joinWords semicolon, partWords_mapStrings parts]

/-- The words of a block whose strings have changed. -/
theorem blockWords_mapStrings (statements : List Statement) :
    blockWords (blockMapStrings f statements) =
      (blockWords statements).map (Lexeme.mapString f) := by
  cases statements with
  | nil => simp [blockMapStrings, blockWords]
  | cons statement statements =>
    rw [blockMapStrings, blockWords, blockWords, List.map_append, words_mapStrings statement,
      blockWords_mapStrings statements]

theorem partWords_mapStrings (parts : List Statement) :
    partWords (blockMapStrings f parts) =
      (partWords parts).map (List.map (Lexeme.mapString f)) := by
  cases parts with
  | nil => simp [blockMapStrings, partWords]
  | cons part parts =>
    rw [blockMapStrings, partWords, partWords, List.map_cons, words_mapStrings part,
      partWords_mapStrings parts]

end

mutual

theorem canonical_mapStrings (statement : Statement) :
    (statement.mapStrings f).Canonical ↔ statement.Canonical := by
  cases statement with
  | assign | swap | read => simp [mapStrings, Canonical, Expr.canonical_mapStrings]
  | write values => simp [mapStrings, Canonical, Expr.canonical_mapStrings]
  | ifThen condition body | whileDo condition body | doWhile body condition
  | doUntil body condition =>
    simp [mapStrings, Canonical, Expr.canonical_mapStrings, blockCanonical_mapStrings body]
  | ifElse condition body alternative =>
    simp [mapStrings, Canonical, Expr.canonical_mapStrings, blockCanonical_mapStrings body,
      blockCanonical_mapStrings alternative]
  | count name first last step body =>
    simp [mapStrings, Canonical, Expr.canonical_mapStrings, blockCanonical_mapStrings body]
  | sequence parts =>
    rw [mapStrings, Canonical, Canonical, blockCanonical_mapStrings parts, blockMapStrings_eq_map]
    simp [isSimple_mapStrings]

/-- Strings do not matter to the grouping of a tree. -/
theorem blockCanonical_mapStrings (statements : List Statement) :
    BlockCanonical (blockMapStrings f statements) ↔ BlockCanonical statements := by
  cases statements with
  | nil => simp [blockMapStrings, BlockCanonical]
  | cons statement statements =>
    rw [blockMapStrings, BlockCanonical, BlockCanonical, canonical_mapStrings statement,
      blockCanonical_mapStrings statements]

end

end Statement

/-- The program in which `f` is applied to the texts of all strings. -/
def Program.mapStrings (f : String → String) (program : Program) : Program :=
  { statements := Statement.blockMapStrings f program.statements }

theorem Program.blockWords_mapStrings (f : String → String) (program : Program) :
    Statement.blockWords (program.mapStrings f).statements =
      (Statement.blockWords program.statements).map (Lexeme.mapString f) :=
  Statement.blockWords_mapStrings f program.statements

end Pseudocod

import Pseudocod.Expr.Basic
import Pseudocod.Token.Basic
import Pseudocod.Token.Lexeme

/-!
# Words of expressions and canonical trees

`Expr.words` lists the words of an expression in the order in which they are written. A tree that
was not read from a text may group its operators in a way that its words do not show;
`Expr.Canonical` says of a tree that its grouping is the one which the levels of the operators give
to its words.

* `Token.plain`: a token as a word in its canonical spelling.
* `BinaryOp.binaryOp?_eq_some_iff`: one kind of token stands for each binary operator.
-/

namespace Pseudocod

/-- The word for which a token stands: its text, or the canonical spelling if its kind has one. -/
def Token.plain (token : Token) : Lexeme :=
  { kind := token.kind, text := token.kind.spelling?.getD token.text }

theorem Token.plain_of_spelling {token : Token} {kind : Kind} {text : String}
    (h : token.kind = kind) (spelled : kind.spelling? = some text) :
    token.plain = ⟨kind, text⟩ := by
  subst h
  rw [Token.plain, spelled]; rfl

theorem Token.plain_of_open {token : Token} {kind : Kind} (h : token.kind = kind)
    (unspelled : kind.spelling? = none) : token.plain = ⟨kind, token.text⟩ := by
  subst h
  rw [Token.plain, unspelled]; rfl

/-- The word of a kind with a canonical spelling. -/
def Kind.word (kind : Kind) : Lexeme :=
  { kind, text := kind.spelling?.getD "" }

theorem Kind.word_of_spelling {kind : Kind} {text : String} (h : kind.spelling? = some text) :
    kind.word = ⟨kind, text⟩ := by
  rw [word, h]; rfl

theorem Token.plain_of_kind {token : Token} {kind : Kind} (h : token.kind = kind)
    (spelled : kind.spelling?.isSome = true) : token.plain = kind.word := by
  obtain ⟨text, eq⟩ := Option.isSome_iff_exists.mp spelled
  rw [plain_of_spelling h eq, Kind.word_of_spelling eq]

/-- The kind of the tokens that stand for a binary operator. -/
def BinaryOp.kind : BinaryOp → Kind
  | .or => .or
  | .and => .and
  | .eq => .eq
  | .ne => .notEq
  | .lt => .lt
  | .le => .le
  | .gt => .gt
  | .ge => .ge
  | .add => .plus
  | .sub => .minus
  | .mul => .star
  | .div => .slash
  | .mod => .percent

theorem BinaryOp.binaryOp?_eq_some_iff (kind : Kind) (op : BinaryOp) :
    kind.binaryOp? = some op ↔ kind = op.kind := by
  cases op <;> cases kind <;> decide

/-- The word between the operands of a binary operator. -/
def BinaryOp.word (op : BinaryOp) : Lexeme :=
  { kind := op.kind, text := op.symbol }

theorem BinaryOp.spelling?_kind (op : BinaryOp) : op.kind.spelling? = some op.symbol :=
  Kind.spelling?_of_mem_binaryOp? _ _ ((BinaryOp.binaryOp?_eq_some_iff _ _).mpr rfl)

theorem BinaryOp.plain_of_kind {token : Token} {op : BinaryOp} (h : token.kind = op.kind) :
    token.plain = op.word :=
  Token.plain_of_spelling h op.spelling?_kind

/-- The word before the operand of an operator. -/
def UnaryOp.word : UnaryOp → Lexeme
  | .not => ⟨.not, "not"⟩
  | .neg => ⟨.minus, "-"⟩
  | .sqrt => ⟨.sqrt, "√"⟩
  | .floor => ⟨.leftBracket, "["⟩
  | .paren => ⟨.leftParen, "("⟩

/-- The words after the operand of an operator. -/
def UnaryOp.closingWords : UnaryOp → List Lexeme
  | .floor => [⟨.rightBracket, "]"⟩]
  | .paren => [⟨.rightParen, ")"⟩]
  | _ => []

theorem UnaryOp.plain_of_kind {token : Token} {op : UnaryOp} (h : token.kind = op.word.kind) :
    token.plain = op.word := by
  cases op <;> exact Token.plain_of_spelling h rfl

namespace Expr

/-- The words of an expression from left to right. -/
def words : Expr → List Lexeme
  | .binary op left right => left.words ++ op.word :: right.words
  | .unary op operand => op.word :: (operand.words ++ op.closingWords)
  | .number text => [⟨.number, text⟩]
  | .string text => [⟨.string, text⟩]
  | .ident name => [⟨.ident, name⟩]

theorem map_plain_unary {op : UnaryOp} {token : Token} {word closing : List Token} {operand : Expr}
    (h : token.kind = op.word.kind) (hw : word.map Token.plain = operand.words)
    (hClosing : closing.map Token.plain = op.closingWords) :
    (token :: (word ++ closing)).map Token.plain = (unary op operand).words := by
  rw [List.map_cons, List.map_append, UnaryOp.plain_of_kind h, hw, hClosing, words]

/-- The kinds of the words that stand in expressions. -/
def wordKinds : List Kind :=
  [.number, .string, .ident, .or, .and, .not, .eq, .notEq, .lt, .le, .gt, .ge, .plus, .minus, .star,
   .slash, .percent, .sqrt, .leftParen, .rightParen, .leftBracket, .rightBracket]

theorem kind_mem_wordKinds (expr : Expr) : ∀ lexeme ∈ expr.words, lexeme.kind ∈ wordKinds := by
  induction expr with
  | binary op left right ihLeft ihRight =>
    intro lexeme member
    simp only [words, List.mem_append, List.mem_cons] at member
    rcases member with h | rfl | h
    · exact ihLeft lexeme h
    · cases op <;> decide
    · exact ihRight lexeme h
  | unary op operand ih =>
    intro lexeme member
    simp only [words, List.mem_append, List.mem_cons] at member
    rcases member with rfl | h | h
    · cases op <;> decide
    · exact ih lexeme h
    · cases op <;> simp_all [UnaryOp.closingWords, wordKinds]
  | number | string | ident =>
    intro lexeme member
    rw [List.mem_singleton.mp member]
    simp [wordKinds]

theorem words_not_eof (expr : Expr) : ∀ lexeme ∈ expr.words, lexeme.kind ≠ .eof := by
  intro lexeme member eof
  have known := kind_mem_wordKinds expr lexeme member
  rw [eof] at known
  exact absurd known (by decide)

/-- The level of the operator at the top, if it is a binary one; all else binds more tightly. -/
def tightness : Expr → Nat
  | .binary op _ _ => op.level
  | _ => 7

/-- Whether there is a `not` on the right edge of a tree, which consists of the tree and the edge of
its right operand. -/
def edgeHasNot : Expr → Bool
  | .binary _ _ right => right.edgeHasNot
  | .unary .not _ => true
  | _ => false

/-- Whether `op` leaves an expression before it as it is: it does not bind more tightly than the
expression, and does not belong to the operand of a `not` at its right edge. -/
def Admits (expr : Expr) (op : BinaryOp) : Prop :=
  op.level ≤ expr.tightness ∧ (4 ≤ op.level → expr.edgeHasNot = false)

/-- Trees with the grouping that the levels of their operators give to their words. -/
def Canonical : Expr → Prop
  | .binary op left right =>
    left.Canonical ∧ right.Canonical ∧ left.Admits op ∧ op.level < right.tightness
  | .unary .not operand => operand.Canonical ∧ Operator.negation.level < operand.tightness
  | .unary .neg operand | .unary .sqrt operand => operand.isAtom
  | .unary .floor operand | .unary .paren operand => operand.Canonical
  | .number _ | .string _ | .ident _ => True

theorem canonical_of_isAtom {expr : Expr} (h : expr.isAtom) : expr.Canonical := by
  cases expr <;> simp_all [isAtom, Canonical]

end Expr

end Pseudocod

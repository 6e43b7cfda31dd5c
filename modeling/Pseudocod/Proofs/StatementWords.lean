import Pseudocod.Proofs.Grammar
import Pseudocod.Proofs.Lexical

/-!
# Words of statements and well-formed programs

`Statement.words` lists the words of a statement in the order in which they are written. As with
expressions, a tree that was not read from a text need not be what its words are read as, and its
names, numbers and strings may hold any text. `Statement.Canonical` says the first of a tree and
`Statement.Spelled` the second; a program is well formed if both hold of it.

* `Statement.blockWord_iff`: tokens stand for a canonical block if they are its words.
* `Statement.blockSpelled_iff`: the texts in a tree are right if its words can stand in a text.
-/

namespace Pseudocod

theorem Token.kind_of_plain {token : Token} {kind : Kind} (h : token.plain = kind.word) :
    token.kind = kind :=
  congrArg Lexeme.kind h

theorem Token.of_plain_ident {token : Token} {name : String} (h : token.plain = ⟨.ident, name⟩) :
    token.kind = .ident ∧ token.text = name := by
  have kind : token.kind = .ident := congrArg Lexeme.kind h
  rw [plain_of_open kind rfl] at h
  exact ⟨kind, congrArg Lexeme.text h⟩

theorem Kind.plain_word {kind : Kind} (spelled : kind.spelling?.isSome = true) :
    kind.word.Plain := by
  obtain ⟨text, eq⟩ := Option.isSome_iff_exists.mp spelled
  rw [word_of_spelling eq]
  exact .spelled eq

theorem Lexeme.plain_number_iff {text : String} : Plain ⟨.number, text⟩ ↔ IsNumeral text := by
  constructor
  · rintro (h | _ | _ | h)
    · exact h
    · cases h
  · exact .number

theorem Lexeme.plain_string_iff {text : String} : Plain ⟨.string, text⟩ ↔ IsQuotable text := by
  constructor
  · rintro (_ | h | _ | h)
    · exact h
    · cases h
  · exact .string

theorem Lexeme.plain_ident_iff {text : String} : Plain ⟨.ident, text⟩ ↔ IsName text := by
  constructor
  · rintro (_ | _ | h | h)
    · exact h
    · cases h
  · exact .ident

/-! ## Items with separators -/

/-- The words of several items with a separator between any two of them. -/
def joinWords (separator : Kind) : List (List Lexeme) → List Lexeme
  | [] => []
  | [words] => words
  | words :: others => words ++ separator.word :: joinWords separator others

theorem joinWords_cons {separator : Kind} {words : List Lexeme} {others : List (List Lexeme)}
    (ne : others ≠ []) :
    joinWords separator (words :: others) =
      words ++ separator.word :: joinWords separator others := by
  cases others with
  | nil => exact absurd rfl ne
  | cons => rfl

/-- If the items are told from their words, so are several of them. -/
theorem separatedBy_iff {α : Type} {separator : Kind} {Item : Language α} {words : α → List Lexeme}
    {p : α → Prop} (spelled : separator.spelling?.isSome = true)
    (item : ∀ word value, Item word value ↔ word.map Token.plain = words value ∧ p value)
    {word : List Token} {values : List α} :
    SeparatedBy separator Item word values ↔
      word.map Token.plain = joinWords separator (values.map words) ∧
        values ≠ [] ∧ ∀ value ∈ values, p value := by
  constructor
  · intro h
    induction h with
    | single hItem =>
      obtain ⟨eq, holds⟩ := (item _ _).mp hItem
      exact ⟨eq, List.cons_ne_nil _ _, by simpa using holds⟩
    | cons hItem kind _ ih =>
      obtain ⟨eq, holds⟩ := (item _ _).mp hItem
      obtain ⟨eqs, ne, hold⟩ := ih
      refine ⟨?_, List.cons_ne_nil _ _, List.forall_mem_cons.mpr ⟨holds, hold⟩⟩
      rw [List.map_cons, joinWords_cons (by simpa using ne), List.map_append, List.map_cons, eq,
        eqs, Token.plain_of_kind kind spelled]
  · rintro ⟨eq, ne, hold⟩
    induction values generalizing word with
    | nil => exact absurd rfl ne
    | cons value values ih =>
      obtain ⟨holds, hold⟩ := List.forall_mem_cons.mp hold
      cases values with
      | nil => exact .single ((item _ _).mpr ⟨eq, holds⟩)
      | cons next values =>
        rw [List.map_cons, joinWords_cons (by simp)] at eq
        obtain ⟨first, tail, rfl, eqFirst, eqTail⟩ := List.map_eq_append_iff.mp eq
        obtain ⟨token, more, rfl, plain, eqMore⟩ := List.map_eq_cons_iff.mp eqTail
        exact .cons ((item _ _).mpr ⟨eqFirst, holds⟩) (Token.kind_of_plain plain)
          (ih eqMore (List.cons_ne_nil _ _) hold)

theorem plain_joinWords_iff {separator : Kind} (spelled : separator.spelling?.isSome = true)
    {items : List (List Lexeme)} :
    (∀ lexeme ∈ joinWords separator items, lexeme.Plain) ↔
      ∀ words ∈ items, ∀ lexeme ∈ words, lexeme.Plain := by
  induction items with
  | nil => simp [joinWords]
  | cons words others ih =>
    cases others with
    | nil => simp [joinWords]
    | cons =>
      rw [joinWords_cons (by simp), List.forall_mem_append, List.forall_mem_cons, ih]
      simp only [Kind.plain_word spelled, true_and, List.forall_mem_cons]

/-! ## Expressions -/

/-- The texts in an expression are numbers, strings that can be written, and names. -/
def Expr.Spelled : Expr → Prop
  | .binary _ left right => left.Spelled ∧ right.Spelled
  | .unary _ operand => operand.Spelled
  | .number text => IsNumeral text
  | .string text => IsQuotable text
  | .ident name => IsName name

theorem Expr.spelled_iff (expr : Expr) : expr.Spelled ↔ ∀ lexeme ∈ expr.words, lexeme.Plain := by
  induction expr with
  | binary op left right ihLeft ihRight =>
    have plain : op.word.Plain := .spelled op.spelling?_kind
    rw [words, List.forall_mem_append, List.forall_mem_cons, Spelled, ihLeft, ihRight]
    simp only [plain, true_and]
  | unary op operand ih =>
    have plain : op.word.Plain := by cases op <;> exact .spelled (by decide)
    have closing : ∀ lexeme ∈ op.closingWords, lexeme.Plain := by
      cases op with
      | floor | paren => exact List.forall_mem_singleton.mpr (.spelled (by decide))
      | _ => exact List.forall_mem_nil _
    rw [words, List.forall_mem_cons, List.forall_mem_append, Spelled, ih]
    exact ⟨fun h => ⟨plain, h, closing⟩, fun h => h.2.1⟩
  | number text => rw [words, List.forall_mem_singleton]; exact Lexeme.plain_number_iff.symm
  | string text => rw [words, List.forall_mem_singleton]; exact Lexeme.plain_string_iff.symm
  | ident name => rw [words, List.forall_mem_singleton]; exact Lexeme.plain_ident_iff.symm

namespace Statement

/-! ## Words of statements -/

/-- The words between `pentru` and the block of a counting loop. -/
def headerWords (header : CountHeader) : List Lexeme :=
  ⟨.ident, header.name⟩ :: Kind.assign.word :: (header.first.words ++ Kind.comma.word ::
    (header.last.words ++
      match header.step with
      | some step => Kind.comma.word :: (step.words ++ [Kind.executa.word])
      | none => [Kind.executa.word]))

mutual

/-- The words of a statement from left to right. -/
def words : Statement → List Lexeme
  | .assign name value => ⟨.ident, name⟩ :: Kind.assign.word :: value.words
  | .swap left right => [⟨.ident, left⟩, Kind.swap.word, ⟨.ident, right⟩]
  | .read names => Kind.citeste.word :: joinWords .comma (names.map fun name => [⟨.ident, name⟩])
  | .write values => Kind.scrie.word :: joinWords .comma (values.map Expr.words)
  | .ifThen condition body =>
    Kind.daca.word :: (condition.words ++ Kind.atunci.word :: (blockWords body ++ [Kind.sf.word]))
  | .ifElse condition body alternative =>
    Kind.daca.word :: (condition.words ++ Kind.atunci.word ::
      (blockWords body ++ Kind.altfel.word :: (blockWords alternative ++ [Kind.sf.word])))
  | .count name first last step body =>
    Kind.pentru.word ::
      (headerWords ⟨name, first, last, step⟩ ++ (blockWords body ++ [Kind.sf.word]))
  | .whileDo condition body =>
    Kind.cat.word :: Kind.timp.word ::
      (condition.words ++ Kind.executa.word :: (blockWords body ++ [Kind.sf.word]))
  | .doWhile body condition =>
    Kind.executa.word :: (blockWords body ++ Kind.cat.word :: Kind.timp.word :: condition.words)
  | .doUntil body condition =>
    Kind.repeta.word :: (blockWords body ++ Kind.pana.word :: Kind.cand.word :: condition.words)
  | .sequence parts => joinWords .semicolon (partWords parts)

/-- The words of a block. -/
def blockWords : List Statement → List Lexeme
  | [] => []
  | statement :: statements => statement.words ++ blockWords statements

/-- The words of each part of a sequence. -/
def partWords : List Statement → List (List Lexeme)
  | [] => []
  | part :: parts => part.words :: partWords parts

end

theorem partWords_eq_map (parts : List Statement) : partWords parts = parts.map words := by
  induction parts with
  | nil => rw [partWords]; rfl
  | cons part parts ih => rw [partWords, ih]; rfl

theorem blockWords_eq_flatten (statements : List Statement) :
    blockWords statements = (partWords statements).flatten := by
  induction statements with
  | nil => rw [blockWords, partWords]; rfl
  | cons statement statements ih => rw [blockWords, partWords, List.flatten_cons, ih]

theorem blockWords_append (statements more : List Statement) :
    blockWords (statements ++ more) = blockWords statements ++ blockWords more := by
  simp only [blockWords_eq_flatten, partWords_eq_map, List.map_append, List.flatten_append]

/-! ## Well-formed trees -/

mutual

/-- Statements whose tree is what their words are read as: expressions are canonical, something is
read or written, and a sequence consists of two simple statements at least. -/
def Canonical : Statement → Prop
  | .assign _ value => value.Canonical
  | .swap _ _ => True
  | .read names => names ≠ []
  | .write values => values ≠ [] ∧ ∀ value ∈ values, value.Canonical
  | .ifThen condition body => condition.Canonical ∧ BlockCanonical body
  | .ifElse condition body alternative =>
    condition.Canonical ∧ BlockCanonical body ∧ BlockCanonical alternative
  | .count _ first last step body =>
    first.Canonical ∧ last.Canonical ∧ (∀ expr ∈ step, expr.Canonical) ∧ BlockCanonical body
  | .whileDo condition body => condition.Canonical ∧ BlockCanonical body
  | .doWhile body condition => BlockCanonical body ∧ condition.Canonical
  | .doUntil body condition => BlockCanonical body ∧ condition.Canonical
  | .sequence parts =>
    2 ≤ parts.length ∧ (∀ part ∈ parts, part.isSimple = true) ∧ BlockCanonical parts

/-- Blocks of such statements. -/
def BlockCanonical : List Statement → Prop
  | [] => True
  | statement :: statements => statement.Canonical ∧ BlockCanonical statements

end

mutual

/-- Statements in which the names are names, and the texts in expressions are right. -/
def Spelled : Statement → Prop
  | .assign name value => IsName name ∧ value.Spelled
  | .swap left right => IsName left ∧ IsName right
  | .read names => ∀ name ∈ names, IsName name
  | .write values => ∀ value ∈ values, value.Spelled
  | .ifThen condition body => condition.Spelled ∧ BlockSpelled body
  | .ifElse condition body alternative =>
    condition.Spelled ∧ BlockSpelled body ∧ BlockSpelled alternative
  | .count name first last step body =>
    IsName name ∧ first.Spelled ∧ last.Spelled ∧ (∀ expr ∈ step, expr.Spelled) ∧ BlockSpelled body
  | .whileDo condition body => condition.Spelled ∧ BlockSpelled body
  | .doWhile body condition => BlockSpelled body ∧ condition.Spelled
  | .doUntil body condition => BlockSpelled body ∧ condition.Spelled
  | .sequence parts => BlockSpelled parts

/-- Blocks of such statements. -/
def BlockSpelled : List Statement → Prop
  | [] => True
  | statement :: statements => statement.Spelled ∧ BlockSpelled statements

end

theorem blockCanonical_iff {statements : List Statement} :
    BlockCanonical statements ↔ ∀ statement ∈ statements, statement.Canonical := by
  induction statements with
  | nil => simp [BlockCanonical]
  | cons statement statements ih => rw [BlockCanonical, ih, List.forall_mem_cons]

theorem blockCanonical_append {statements more : List Statement} :
    BlockCanonical (statements ++ more) ↔ BlockCanonical statements ∧ BlockCanonical more := by
  simp only [blockCanonical_iff, List.forall_mem_append]

theorem blockSpelled_iff_forall {statements : List Statement} :
    BlockSpelled statements ↔ ∀ statement ∈ statements, statement.Spelled := by
  induction statements with
  | nil => simp [BlockSpelled]
  | cons statement statements ih => rw [BlockSpelled, ih, List.forall_mem_cons]

/-! ## Texts and words -/

theorem plain_headerWords_iff (header : CountHeader) :
    (∀ lexeme ∈ headerWords header, lexeme.Plain) ↔ IsName header.name ∧ header.first.Spelled ∧
      header.last.Spelled ∧ ∀ expr ∈ header.step, expr.Spelled := by
  obtain ⟨name, first, last, step⟩ := header
  cases step with
  | none =>
    simp (disch := decide) [headerWords, Kind.plain_word, Lexeme.plain_ident_iff, Expr.spelled_iff,
      or_imp, forall_and]
  | some step =>
    simp (disch := decide) [headerWords, Kind.plain_word, Lexeme.plain_ident_iff, Expr.spelled_iff,
      or_imp, forall_and]

mutual

theorem spelled_iff (statement : Statement) :
    statement.Spelled ↔ ∀ lexeme ∈ statement.words, lexeme.Plain := by
  cases statement with
  | assign name value =>
    simp (disch := decide) [Spelled, words, Kind.plain_word, Lexeme.plain_ident_iff,
      Expr.spelled_iff]
  | swap left right =>
    simp (disch := decide) [Spelled, words, Kind.plain_word, Lexeme.plain_ident_iff]
  | read names =>
    simp (disch := decide) [Spelled, words, Kind.plain_word, plain_joinWords_iff,
      Lexeme.plain_ident_iff]
  | write values =>
    simp (disch := decide) [Spelled, words, Kind.plain_word, plain_joinWords_iff,
      Expr.spelled_iff]
  | ifThen condition body | whileDo condition body | doWhile body condition
  | doUntil body condition =>
    simp (disch := decide) [Spelled, words, Kind.plain_word, Expr.spelled_iff,
      blockSpelled_iff body, or_imp, forall_and]
  | ifElse condition body alternative =>
    simp (disch := decide) [Spelled, words, Kind.plain_word, Expr.spelled_iff,
      blockSpelled_iff body, blockSpelled_iff alternative, or_imp, forall_and]
  | count name first last step body =>
    have header := plain_headerWords_iff ⟨name, first, last, step⟩
    simp (disch := decide) [Spelled, words, Kind.plain_word, header, blockSpelled_iff body, or_imp,
      forall_and, and_assoc]
  | sequence parts =>
    rw [Spelled, words, plain_joinWords_iff (by decide), blockSpelled_iff parts,
      blockWords_eq_flatten, List.forall_mem_flatten]

theorem blockSpelled_iff (statements : List Statement) :
    BlockSpelled statements ↔ ∀ lexeme ∈ blockWords statements, lexeme.Plain := by
  cases statements with
  | nil => simp [BlockSpelled, blockWords]
  | cons statement statements =>
    rw [BlockSpelled, blockWords, List.forall_mem_append, spelled_iff statement,
      blockSpelled_iff statements]

end

/-! ## Derivations and words -/

theorem namesWord_iff {word : List Token} {names : List String} :
    SeparatedBy .comma (Language.one .ident) word names ↔
      word.map Token.plain = joinWords .comma (names.map fun name => [⟨.ident, name⟩]) ∧
        names ≠ [] := by
  have item (word : List Token) (name : String) : Language.one .ident word name ↔
      word.map Token.plain = [⟨.ident, name⟩] ∧ True := by
    constructor
    · rintro ⟨token, rfl, kind, rfl⟩
      exact ⟨congrArg (fun lexeme => [lexeme]) (Token.plain_of_open kind rfl), trivial⟩
    · rintro ⟨eq, -⟩
      obtain ⟨token, rfl, plain⟩ := List.map_eq_singleton_iff.mp eq
      obtain ⟨kind, text⟩ := Token.of_plain_ident plain
      exact ⟨token, rfl, kind, text⟩
  rw [separatedBy_iff rfl item]
  simp

theorem valuesWord_iff {word : List Token} {values : List Expr} :
    SeparatedBy .comma Expr.Word word values ↔
      word.map Token.plain = joinWords .comma (values.map Expr.words) ∧
        values ≠ [] ∧ ∀ value ∈ values, value.Canonical := by
  have item (word : List Token) (value : Expr) : Expr.Word word value ↔
      word.map Token.plain = value.words ∧ value.Canonical := Expr.word_iff
  exact separatedBy_iff rfl item

theorem simpleWord_iff {word : List Token} {statement : Statement} :
    SimpleWord word statement ↔
      word.map Token.plain = statement.words ∧ statement.isSimple = true ∧ statement.Canonical := by
  constructor
  · intro h
    cases h with
    | assign hName hSign hValue =>
      obtain ⟨eq, canonical⟩ := Expr.word_iff.mp hValue
      refine ⟨?_, rfl, canonical⟩
      rw [List.map_cons, List.map_cons, Token.plain_of_open hName rfl,
        Token.plain_of_kind hSign rfl, eq, words]
    | swap hLeft hSign hRight =>
      refine ⟨?_, rfl, trivial⟩
      simp only [List.map_cons, List.map_nil, Token.plain_of_open hLeft rfl,
        Token.plain_of_kind hSign rfl, Token.plain_of_open hRight rfl, words]
    | read hCiteste hNames =>
      obtain ⟨eq, ne⟩ := namesWord_iff.mp hNames
      refine ⟨?_, rfl, ne⟩
      rw [List.map_cons, Token.plain_of_kind hCiteste rfl, eq, words]
    | write hScrie hValues =>
      obtain ⟨eq, canonical⟩ := valuesWord_iff.mp hValues
      refine ⟨?_, rfl, canonical⟩
      rw [List.map_cons, Token.plain_of_kind hScrie rfl, eq, words]
  · rintro ⟨eq, simple, canonical⟩
    cases statement with
    | assign name value =>
      simp only [words, List.map_eq_cons_iff] at eq
      obtain ⟨token, _, rfl, plain, sign, word, rfl, hSign, hValue⟩ := eq
      obtain ⟨kind, rfl⟩ := Token.of_plain_ident plain
      exact .assign kind (Token.kind_of_plain hSign) (Expr.word_iff.mpr ⟨hValue, canonical⟩)
    | swap left right =>
      simp only [words, List.map_eq_cons_iff, List.map_eq_nil_iff] at eq
      obtain ⟨first, _, rfl, hFirst, sign, _, rfl, hSign, second, _, rfl, hSecond, rfl⟩ := eq
      obtain ⟨kind, rfl⟩ := Token.of_plain_ident hFirst
      obtain ⟨kind', rfl⟩ := Token.of_plain_ident hSecond
      exact .swap kind (Token.kind_of_plain hSign) kind'
    | read names =>
      rw [words] at eq
      obtain ⟨citeste, word, rfl, hCiteste, hNames⟩ := List.map_eq_cons_iff.mp eq
      exact .read (Token.kind_of_plain hCiteste) (namesWord_iff.mpr ⟨hNames, canonical⟩)
    | write values =>
      rw [words] at eq
      obtain ⟨scrie, word, rfl, hScrie, hValues⟩ := List.map_eq_cons_iff.mp eq
      exact .write (Token.kind_of_plain hScrie) (valuesWord_iff.mpr ⟨hValues, canonical⟩)
    | _ => cases simple

/-- Simple statements on a line, as the statement they make. -/
theorem ofParts_cases {parts : List Statement} (ne : parts ≠ []) :
    (∃ part, parts = [part]) ∨ 2 ≤ parts.length ∧ ofParts parts = .sequence parts := by
  match parts with
  | [part] => exact .inl ⟨part, rfl⟩
  | first :: second :: others => exact .inr ⟨Nat.le_add_left 2 others.length, rfl⟩

theorem lineWord_iff {word : List Token} {statement : Statement} :
    LineWord word statement ↔ word.map Token.plain = statement.words ∧ statement.Canonical ∧
      (statement.isSimple = true ∨ ∃ parts, statement = .sequence parts) := by
  have item (word : List Token) (part : Statement) : SimpleWord word part ↔
      word.map Token.plain = part.words ∧ part.isSimple = true ∧ part.Canonical := simpleWord_iff
  constructor
  · rintro ⟨parts, hParts, rfl⟩
    obtain ⟨eq, ne, canonical⟩ := (separatedBy_iff rfl item).mp hParts
    rcases ofParts_cases ne with ⟨part, rfl⟩ | ⟨several, same⟩
    · obtain ⟨simple, canonical⟩ := canonical part List.mem_cons_self
      exact ⟨eq, canonical, .inl simple⟩
    · rw [same, words, partWords_eq_map]
      refine ⟨eq, ⟨several, fun part member => (canonical part member).1, ?_⟩, .inr ⟨parts, rfl⟩⟩
      exact blockCanonical_iff.mpr fun part member => (canonical part member).2
  · rintro ⟨eq, canonical, simple | ⟨parts, rfl⟩⟩
    · exact ⟨[statement], .single (simpleWord_iff.mpr ⟨eq, simple, canonical⟩), rfl⟩
    · obtain ⟨several, simple, canonical⟩ := canonical
      have ne : parts ≠ [] := by rintro rfl; cases several
      rw [words, partWords_eq_map] at eq
      refine ⟨parts, (separatedBy_iff rfl item).mpr ⟨eq, ne, fun part member =>
        ⟨simple part member, blockCanonical_iff.mp canonical part member⟩⟩, ?_⟩
      rcases ofParts_cases ne with ⟨part, rfl⟩ | ⟨-, same⟩
      · exact absurd several (by simp)
      · exact same

theorem headerWord_iff {word : List Token} {header : CountHeader} :
    HeaderWord word header ↔ word.map Token.plain = headerWords header ∧
      header.first.Canonical ∧ header.last.Canonical ∧ ∀ expr ∈ header.step, expr.Canonical := by
  constructor
  · intro h
    cases h with
    | plain hName hSign hFirst hComma hLast hExecuta =>
      obtain ⟨eq, canonical⟩ := Expr.word_iff.mp hFirst
      obtain ⟨eq', canonical'⟩ := Expr.word_iff.mp hLast
      refine ⟨?_, canonical, canonical', nofun⟩
      simp only [List.map_cons, List.map_append, List.map_nil, Token.plain_of_open hName rfl,
        Token.plain_of_kind hSign rfl, eq, Token.plain_of_kind hComma rfl, eq',
        Token.plain_of_kind hExecuta rfl, headerWords]
    | stepped hName hSign hFirst hComma hLast hComma' hStep hExecuta =>
      obtain ⟨eq, canonical⟩ := Expr.word_iff.mp hFirst
      obtain ⟨eq', canonical'⟩ := Expr.word_iff.mp hLast
      obtain ⟨eqStep, canonicalStep⟩ := Expr.word_iff.mp hStep
      refine ⟨?_, canonical, canonical', by simpa using canonicalStep⟩
      simp only [List.map_cons, List.map_append, List.map_nil, Token.plain_of_open hName rfl,
        Token.plain_of_kind hSign rfl, eq, Token.plain_of_kind hComma rfl, eq',
        Token.plain_of_kind hComma' rfl, eqStep, Token.plain_of_kind hExecuta rfl, headerWords]
  · obtain ⟨name, first, last, step⟩ := header
    rintro ⟨eq, canonical, canonical', canonicalStep⟩
    cases step with
    | none =>
      simp only [headerWords, List.map_eq_cons_iff, List.map_eq_append_iff,
        List.map_eq_nil_iff] at eq
      obtain ⟨token, _, rfl, hName, sign, _, rfl, hSign, word, _, rfl, hFirst, comma, _, rfl,
        hComma, word', _, rfl, hLast, executa, _, rfl, hExecuta, rfl⟩ := eq
      obtain ⟨kind, rfl⟩ := Token.of_plain_ident hName
      exact .plain kind (Token.kind_of_plain hSign) (Expr.word_iff.mpr ⟨hFirst, canonical⟩)
        (Token.kind_of_plain hComma) (Expr.word_iff.mpr ⟨hLast, canonical'⟩)
        (Token.kind_of_plain hExecuta)
    | some step =>
      simp only [headerWords, List.map_eq_cons_iff, List.map_eq_append_iff,
        List.map_eq_nil_iff] at eq
      obtain ⟨token, _, rfl, hName, sign, _, rfl, hSign, word, _, rfl, hFirst, comma, _, rfl,
        hComma, word', _, rfl, hLast, comma', _, rfl, hComma', word'', _, rfl, hStep, executa, _,
        rfl, hExecuta, rfl⟩ := eq
      obtain ⟨kind, rfl⟩ := Token.of_plain_ident hName
      exact .stepped kind (Token.kind_of_plain hSign) (Expr.word_iff.mpr ⟨hFirst, canonical⟩)
        (Token.kind_of_plain hComma) (Expr.word_iff.mpr ⟨hLast, canonical'⟩)
        (Token.kind_of_plain hComma') (Expr.word_iff.mpr ⟨hStep, canonicalStep step rfl⟩)
        (Token.kind_of_plain hExecuta)

mutual

theorem Word.plain {word : List Token} {statement : Statement} (h : Word word statement) :
    word.map Token.plain = statement.words ∧ statement.Canonical := by
  cases h with
  | line hLine =>
    obtain ⟨eq, canonical, -⟩ := lineWord_iff.mp hLine
    exact ⟨eq, canonical⟩
  | ifThen hDaca hCondition hAtunci hBody hSf =>
    obtain ⟨eq, canonical⟩ := Expr.word_iff.mp hCondition
    obtain ⟨eqBody, canonicalBody⟩ := hBody.plain
    refine ⟨?_, canonical, canonicalBody⟩
    simp only [List.map_cons, List.map_append, List.map_nil, Token.plain_of_kind hDaca rfl, eq,
      Token.plain_of_kind hAtunci rfl, eqBody, Token.plain_of_kind hSf rfl, words]
  | ifElse hDaca hCondition hAtunci hBody hAltfel hBody' hSf =>
    obtain ⟨eq, canonical⟩ := Expr.word_iff.mp hCondition
    obtain ⟨eqBody, canonicalBody⟩ := hBody.plain
    obtain ⟨eqBody', canonicalBody'⟩ := hBody'.plain
    refine ⟨?_, canonical, canonicalBody, canonicalBody'⟩
    simp only [List.map_cons, List.map_append, List.map_nil, Token.plain_of_kind hDaca rfl, eq,
      Token.plain_of_kind hAtunci rfl, eqBody, Token.plain_of_kind hAltfel rfl, eqBody',
      Token.plain_of_kind hSf rfl, words]
  | count hPentru hHeader hBody hSf =>
    obtain ⟨eq, first, last, step⟩ := headerWord_iff.mp hHeader
    obtain ⟨eqBody, canonicalBody⟩ := hBody.plain
    refine ⟨?_, first, last, step, canonicalBody⟩
    simp only [List.map_cons, List.map_append, List.map_nil, Token.plain_of_kind hPentru rfl, eq,
      eqBody, Token.plain_of_kind hSf rfl, words]
  | whileDo hCat hTimp hCondition hExecuta hBody hSf =>
    obtain ⟨eq, canonical⟩ := Expr.word_iff.mp hCondition
    obtain ⟨eqBody, canonicalBody⟩ := hBody.plain
    refine ⟨?_, canonical, canonicalBody⟩
    simp only [List.map_cons, List.map_append, List.map_nil, Token.plain_of_kind hCat rfl,
      Token.plain_of_kind hTimp rfl, eq, Token.plain_of_kind hExecuta rfl, eqBody,
      Token.plain_of_kind hSf rfl, words]
  | doWhile hExecuta hBody hCat hTimp hCondition =>
    obtain ⟨eq, canonical⟩ := Expr.word_iff.mp hCondition
    obtain ⟨eqBody, canonicalBody⟩ := hBody.plain
    refine ⟨?_, canonicalBody, canonical⟩
    simp only [List.map_cons, List.map_append, Token.plain_of_kind hExecuta rfl, eqBody,
      Token.plain_of_kind hCat rfl, Token.plain_of_kind hTimp rfl, eq, words]
  | doUntil hRepeta hBody hPana hCand hCondition =>
    obtain ⟨eq, canonical⟩ := Expr.word_iff.mp hCondition
    obtain ⟨eqBody, canonicalBody⟩ := hBody.plain
    refine ⟨?_, canonicalBody, canonical⟩
    simp only [List.map_cons, List.map_append, Token.plain_of_kind hRepeta rfl, eqBody,
      Token.plain_of_kind hPana rfl, Token.plain_of_kind hCand rfl, eq, words]

theorem BlockWord.plain {word : List Token} {statements : List Statement}
    (h : BlockWord word statements) :
    word.map Token.plain = blockWords statements ∧ BlockCanonical statements := by
  cases h with
  | nil => exact ⟨rfl, trivial⟩
  | cons hWord hWords =>
    obtain ⟨eq, canonical⟩ := hWord.plain
    obtain ⟨eqs, canonicals⟩ := hWords.plain
    refine ⟨?_, canonical, canonicals⟩
    rw [List.map_append, eq, eqs, blockWords]

end

mutual

theorem word_of_plain (statement : Statement) {word : List Token}
    (eq : word.map Token.plain = statement.words) (canonical : statement.Canonical) :
    Word word statement := by
  cases statement with
  | assign | swap | read | write => exact .line (lineWord_iff.mpr ⟨eq, canonical, .inl rfl⟩)
  | sequence parts => exact .line (lineWord_iff.mpr ⟨eq, canonical, .inr ⟨parts, rfl⟩⟩)
  | ifThen condition body =>
    simp only [words, List.map_eq_cons_iff, List.map_eq_append_iff, List.map_eq_nil_iff] at eq
    obtain ⟨daca, _, rfl, hDaca, word, _, rfl, hCondition, atunci, _, rfl, hAtunci, inner, _, rfl,
      hBody, sf, _, rfl, hSf, rfl⟩ := eq
    exact .ifThen (Token.kind_of_plain hDaca) (Expr.word_iff.mpr ⟨hCondition, canonical.1⟩)
      (Token.kind_of_plain hAtunci) (blockWord_of_plain body hBody canonical.2)
      (Token.kind_of_plain hSf)
  | ifElse condition body alternative =>
    simp only [words, List.map_eq_cons_iff, List.map_eq_append_iff, List.map_eq_nil_iff] at eq
    obtain ⟨daca, _, rfl, hDaca, word, _, rfl, hCondition, atunci, _, rfl, hAtunci, inner, _, rfl,
      hBody, altfel, _, rfl, hAltfel, inner', _, rfl, hBody', sf, _, rfl, hSf, rfl⟩ := eq
    exact .ifElse (Token.kind_of_plain hDaca) (Expr.word_iff.mpr ⟨hCondition, canonical.1⟩)
      (Token.kind_of_plain hAtunci) (blockWord_of_plain body hBody canonical.2.1)
      (Token.kind_of_plain hAltfel) (blockWord_of_plain alternative hBody' canonical.2.2)
      (Token.kind_of_plain hSf)
  | count name first last step body =>
    obtain ⟨canonicalFirst, canonicalLast, canonicalStep, canonicalBody⟩ := canonical
    simp only [words, List.map_eq_cons_iff, List.map_eq_append_iff, List.map_eq_nil_iff] at eq
    obtain ⟨pentru, _, rfl, hPentru, word, _, rfl, hHeader, inner, _, rfl, hBody, sf, _, rfl, hSf,
      rfl⟩ := eq
    have header : HeaderWord word ⟨name, first, last, step⟩ :=
      headerWord_iff.mpr ⟨hHeader, canonicalFirst, canonicalLast, canonicalStep⟩
    exact .count (Token.kind_of_plain hPentru) header
      (blockWord_of_plain body hBody canonicalBody) (Token.kind_of_plain hSf)
  | whileDo condition body =>
    simp only [words, List.map_eq_cons_iff, List.map_eq_append_iff, List.map_eq_nil_iff] at eq
    obtain ⟨cat, _, rfl, hCat, timp, _, rfl, hTimp, word, _, rfl, hCondition, executa, _, rfl,
      hExecuta, inner, _, rfl, hBody, sf, _, rfl, hSf, rfl⟩ := eq
    exact .whileDo (Token.kind_of_plain hCat) (Token.kind_of_plain hTimp)
      (Expr.word_iff.mpr ⟨hCondition, canonical.1⟩) (Token.kind_of_plain hExecuta)
      (blockWord_of_plain body hBody canonical.2) (Token.kind_of_plain hSf)
  | doWhile body condition =>
    simp only [words, List.map_eq_cons_iff, List.map_eq_append_iff] at eq
    obtain ⟨executa, _, rfl, hExecuta, inner, _, rfl, hBody, cat, _, rfl, hCat, timp, word, rfl,
      hTimp, hCondition⟩ := eq
    exact .doWhile (Token.kind_of_plain hExecuta) (blockWord_of_plain body hBody canonical.1)
      (Token.kind_of_plain hCat) (Token.kind_of_plain hTimp)
      (Expr.word_iff.mpr ⟨hCondition, canonical.2⟩)
  | doUntil body condition =>
    simp only [words, List.map_eq_cons_iff, List.map_eq_append_iff] at eq
    obtain ⟨repeta, _, rfl, hRepeta, inner, _, rfl, hBody, pana, _, rfl, hPana, cand, word, rfl,
      hCand, hCondition⟩ := eq
    exact .doUntil (Token.kind_of_plain hRepeta) (blockWord_of_plain body hBody canonical.1)
      (Token.kind_of_plain hPana) (Token.kind_of_plain hCand)
      (Expr.word_iff.mpr ⟨hCondition, canonical.2⟩)

theorem blockWord_of_plain (statements : List Statement) {word : List Token}
    (eq : word.map Token.plain = blockWords statements) (canonical : BlockCanonical statements) :
    BlockWord word statements := by
  cases statements with
  | nil =>
    obtain rfl := List.map_eq_nil_iff.mp eq
    exact .nil
  | cons statement statements =>
    rw [blockWords] at eq
    obtain ⟨first, others, rfl, hFirst, hOthers⟩ := List.map_eq_append_iff.mp eq
    exact .cons (word_of_plain statement hFirst canonical.1)
      (blockWord_of_plain statements hOthers canonical.2)

end

/-- Tokens stand for a block if and only if they are its words and the block is canonical. -/
theorem blockWord_iff {word : List Token} {statements : List Statement} :
    BlockWord word statements ↔
      word.map Token.plain = blockWords statements ∧ BlockCanonical statements :=
  ⟨BlockWord.plain, fun h => blockWord_of_plain statements h.1 h.2⟩

end Statement

/-- Programs whose tree is what their words are read as, and whose texts are right. -/
def Program.WellFormed (program : Program) : Prop :=
  Statement.BlockCanonical program.statements ∧ Statement.BlockSpelled program.statements

end Pseudocod

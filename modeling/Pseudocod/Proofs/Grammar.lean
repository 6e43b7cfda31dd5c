import Pseudocod.Proofs.Precedence
import Pseudocod.Statement.Parser

/-!
# The grammar of statements

Which tokens stand for which statements, one rule for each line of the grammar at the head of
`Pseudocod.Statement.Parser`. The rules say nothing about the order in which tokens are read, and
nothing about `cat timp` in the block of a loop opened by `executa`: there, a list of tokens may
stand for a block in as many ways as there are derivations.

* `Statement.Word.startsWith`: a statement is not empty, and its first token begins one.
* `Statement.Word.loop_of_executa`, `Statement.Word.body_of_cat`: what the first token says.
* `Statement.BlockWord.unended`: no token of a block ends the program.
-/

namespace Pseudocod

/-- No token of a list ends the program. -/
def Unended (word : List Token) : Prop :=
  ∀ token ∈ word, token.kind ≠ .eof

@[simp] theorem unended_nil : Unended [] := by
  rintro _ ⟨⟩

@[simp] theorem unended_cons {token : Token} {word : List Token} :
    Unended (token :: word) ↔ token.kind ≠ .eof ∧ Unended word :=
  List.forall_mem_cons

@[simp] theorem unended_append {word words : List Token} :
    Unended (word ++ words) ↔ Unended word ∧ Unended words :=
  List.forall_mem_append

namespace Statement

/-- Tokens that stand for a simple statement. -/
inductive SimpleWord : List Token → Statement → Prop where
  | assign {name sign : Token} {word : List Token} {value : Expr} :
    name.kind = .ident → sign.kind = .assign → Expr.Word word value →
      SimpleWord (name :: sign :: word) (.assign name.text value)
  | swap {left sign right : Token} :
    left.kind = .ident → sign.kind = .swap → right.kind = .ident →
      SimpleWord [left, sign, right] (.swap left.text right.text)
  | read {citeste : Token} {word : List Token} {names : List String} :
    citeste.kind = .citeste → SeparatedBy .comma (Language.one .ident) word names →
      SimpleWord (citeste :: word) (.read names)
  | write {scrie : Token} {word : List Token} {values : List Expr} :
    scrie.kind = .scrie → SeparatedBy .comma Expr.Word word values →
      SimpleWord (scrie :: word) (.write values)

/-- Tokens that stand for the simple statements on a line. -/
def LineWord : Language Statement :=
  Language.map ofParts (SeparatedBy .semicolon SimpleWord)

/-- Tokens between `pentru` and the block of a counting loop. -/
inductive HeaderWord : List Token → CountHeader → Prop where
  | plain {name sign comma executa : Token} {word word' : List Token} {first last : Expr} :
    name.kind = .ident → sign.kind = .assign → Expr.Word word first → comma.kind = .comma →
      Expr.Word word' last → executa.kind = .executa →
        HeaderWord (name :: sign :: (word ++ comma :: (word' ++ [executa])))
          ⟨name.text, first, last, none⟩
  | stepped {name sign comma comma' executa : Token} {word word' word'' : List Token}
      {first last step : Expr} :
    name.kind = .ident → sign.kind = .assign → Expr.Word word first → comma.kind = .comma →
      Expr.Word word' last → comma'.kind = .comma → Expr.Word word'' step →
        executa.kind = .executa →
          HeaderWord (name :: sign :: (word ++ comma :: (word' ++ comma' :: (word'' ++ [executa]))))
            ⟨name.text, first, last, some step⟩

mutual

/-- Tokens that stand for a statement. -/
inductive Word : List Token → Statement → Prop where
  | line {word : List Token} {statement : Statement} :
    LineWord word statement → Word word statement
  | ifThen {daca atunci sf : Token} {word inner : List Token} {condition : Expr}
      {body : List Statement} :
    daca.kind = .daca → Expr.Word word condition → atunci.kind = .atunci →
      BlockWord inner body → sf.kind = .sf →
        Word (daca :: (word ++ atunci :: (inner ++ [sf]))) (.ifThen condition body)
  | ifElse {daca atunci altfel sf : Token} {word inner inner' : List Token} {condition : Expr}
      {body alternative : List Statement} :
    daca.kind = .daca → Expr.Word word condition → atunci.kind = .atunci →
      BlockWord inner body → altfel.kind = .altfel → BlockWord inner' alternative →
        sf.kind = .sf →
          Word (daca :: (word ++ atunci :: (inner ++ altfel :: (inner' ++ [sf]))))
            (.ifElse condition body alternative)
  | count {pentru sf : Token} {word inner : List Token} {header : CountHeader}
      {body : List Statement} :
    pentru.kind = .pentru → HeaderWord word header → BlockWord inner body → sf.kind = .sf →
      Word (pentru :: (word ++ (inner ++ [sf])))
        (.count header.name header.first header.last header.step body)
  | whileDo {cat timp executa sf : Token} {word inner : List Token} {condition : Expr}
      {body : List Statement} :
    cat.kind = .cat → timp.kind = .timp → Expr.Word word condition → executa.kind = .executa →
      BlockWord inner body → sf.kind = .sf →
        Word (cat :: timp :: (word ++ executa :: (inner ++ [sf]))) (.whileDo condition body)
  | doWhile {executa cat timp : Token} {inner word : List Token} {body : List Statement}
      {condition : Expr} :
    executa.kind = .executa → BlockWord inner body → cat.kind = .cat → timp.kind = .timp →
      Expr.Word word condition →
        Word (executa :: (inner ++ cat :: timp :: word)) (.doWhile body condition)
  | doUntil {repeta pana cand : Token} {inner word : List Token} {body : List Statement}
      {condition : Expr} :
    repeta.kind = .repeta → BlockWord inner body → pana.kind = .pana → cand.kind = .cand →
      Expr.Word word condition →
        Word (repeta :: (inner ++ pana :: cand :: word)) (.doUntil body condition)

/-- Tokens that stand for statements one after another. -/
inductive BlockWord : List Token → List Statement → Prop where
  | nil : BlockWord [] []
  | cons {word words : List Token} {statement : Statement} {statements : List Statement} :
    Word word statement → BlockWord words statements →
      BlockWord (word ++ words) (statement :: statements)

end

/-- Tokens behind the word `executa` that opens a loop: its block and the clause that closes it. -/
def LoopWord : Language (List Statement × Expr) := fun word loop =>
  ∃ front cat timp back, word = front ++ cat :: timp :: back ∧ BlockWord front loop.1 ∧
    cat.kind = .cat ∧ timp.kind = .timp ∧ Expr.Word back loop.2

theorem SimpleWord.startsWith {word : List Token} {statement : Statement}
    (h : SimpleWord word statement) :
    ∃ token rest, word = token :: rest ∧
      (token.kind = .ident ∨ token.kind = .citeste ∨ token.kind = .scrie) := by
  cases h with
  | assign hName => exact ⟨_, _, rfl, .inl hName⟩
  | swap hLeft => exact ⟨_, _, rfl, .inl hLeft⟩
  | read hCiteste => exact ⟨_, _, rfl, .inr (.inl hCiteste)⟩
  | write hScrie => exact ⟨_, _, rfl, .inr (.inr hScrie)⟩

theorem LineWord.startsWith {word : List Token} {statement : Statement}
    (h : LineWord word statement) :
    ∃ token rest, word = token :: rest ∧
      (token.kind = .ident ∨ token.kind = .citeste ∨ token.kind = .scrie) := by
  obtain ⟨parts, hParts, rfl⟩ := h
  cases hParts with
  | single hPart => exact hPart.startsWith
  | cons hPart =>
    obtain ⟨token, rest, rfl, h⟩ := hPart.startsWith
    exact ⟨token, _, rfl, h⟩

/-- The first token of a statement begins one. -/
theorem Word.startsWith {word : List Token} {statement : Statement} (h : Word word statement) :
    ∃ token rest, word = token :: rest ∧ Statement.startsWith token.kind = true := by
  cases h with
  | line hLine =>
    obtain ⟨token, rest, rfl, h | h | h⟩ := hLine.startsWith <;>
      exact ⟨token, rest, rfl, by rw [h]; rfl⟩
  | ifThen h => exact ⟨_, _, rfl, by rw [h]; rfl⟩
  | ifElse h => exact ⟨_, _, rfl, by rw [h]; rfl⟩
  | count h => exact ⟨_, _, rfl, by rw [h]; rfl⟩
  | whileDo h => exact ⟨_, _, rfl, by rw [h]; rfl⟩
  | doWhile h => exact ⟨_, _, rfl, by rw [h]; rfl⟩
  | doUntil h => exact ⟨_, _, rfl, by rw [h]; rfl⟩

theorem LineWord.not_opened {token : Token} {rest : List Token} {statement : Statement}
    (h : LineWord (token :: rest) statement) (opened : token.kind = .executa ∨ token.kind = .cat) :
    False := by
  obtain ⟨_, _, ⟨⟩, kind⟩ := h.startsWith
  rcases opened with eq | eq <;> rw [eq] at kind <;> simp at kind

/-- A statement that begins with `executa` is a loop closed by its condition. -/
theorem Word.loop_of_executa {executa : Token} {rest : List Token} {statement : Statement}
    (h : Word (executa :: rest) statement) (kind : executa.kind = .executa) :
    ∃ body condition, LoopWord rest (body, condition) ∧ statement = .doWhile body condition := by
  cases h with
  | doWhile hExecuta hBody hCat hTimp hCondition =>
    exact ⟨_, _, ⟨_, _, _, _, rfl, hBody, hCat, hTimp, hCondition⟩, rfl⟩
  | line hLine => exact (hLine.not_opened (.inl kind)).elim
  | ifThen h | ifElse h | count h | whileDo h | doUntil h => rw [kind] at h; cases h

/-- A statement that begins with `cat` is a loop opened by its condition. -/
theorem Word.body_of_cat {cat : Token} {rest : List Token} {statement : Statement}
    (h : Word (cat :: rest) statement) (kind : cat.kind = .cat) :
    ∃ timp word executa inner sf condition body,
      rest = timp :: (word ++ executa :: (inner ++ [sf])) ∧ timp.kind = .timp ∧
        Expr.Word word condition ∧ executa.kind = .executa ∧ BlockWord inner body ∧
          sf.kind = .sf ∧ statement = .whileDo condition body := by
  cases h with
  | whileDo hCat hTimp hCondition hExecuta hBody hSf =>
    exact ⟨_, _, _, _, _, _, _, rfl, hTimp, hCondition, hExecuta, hBody, hSf, rfl⟩
  | line hLine => exact (hLine.not_opened (.inr kind)).elim
  | ifThen h | ifElse h | count h | doWhile h | doUntil h => rw [kind] at h; cases h

/-! ## No word of the grammar ends a program -/

theorem unended_exprWord {word : List Token} {expr : Expr} (h : Expr.Word word expr) :
    Unended word := by
  intro token member
  have : token.plain ∈ expr.words := (Expr.word_iff.mp h).1 ▸ List.mem_map_of_mem member
  exact expr.words_not_eof _ this

theorem unended_separated {α : Type} {separator : Kind} {Item : Language α}
    (ne : separator ≠ .eof) (hItem : ∀ {word value}, Item word value → Unended word)
    {words : List Token} {values : List α} (h : SeparatedBy separator Item words values) :
    Unended words := by
  induction h with
  | single hWord => exact hItem hWord
  | cons hWord hSeparator _ ih => simp [hItem hWord, hSeparator, ne, ih]

theorem SimpleWord.unended {word : List Token} {statement : Statement}
    (h : SimpleWord word statement) : Unended word := by
  cases h with
  | assign hName hSign hValue => simp [hName, hSign, unended_exprWord hValue]
  | swap hLeft hSign hRight => simp [hLeft, hSign, hRight]
  | read hCiteste hNames =>
    have names := unended_separated (by decide)
      (by rintro _ _ ⟨token, rfl, h, rfl⟩; simp [h]) hNames
    simp [hCiteste, names]
  | write hScrie hValues =>
    simp [hScrie, unended_separated (by decide) unended_exprWord hValues]

theorem HeaderWord.unended {word : List Token} {header : CountHeader} (h : HeaderWord word header) :
    Unended word := by
  cases h with
  | plain hName hSign hFirst hComma hLast hExecuta =>
    simp [hName, hSign, unended_exprWord hFirst, hComma, unended_exprWord hLast, hExecuta]
  | stepped hName hSign hFirst hComma hLast hComma' hStep hExecuta =>
    simp [hName, hSign, unended_exprWord hFirst, hComma, unended_exprWord hLast, hComma',
      unended_exprWord hStep, hExecuta]

mutual

theorem Word.unended {word : List Token} {statement : Statement} (h : Word word statement) :
    Unended word := by
  cases h with
  | line hLine =>
    obtain ⟨parts, hParts, -⟩ := hLine
    exact unended_separated (by decide) SimpleWord.unended hParts
  | ifThen hDaca hCondition hAtunci hBody hSf =>
    simp [hDaca, unended_exprWord hCondition, hAtunci, hBody.unended, hSf]
  | ifElse hDaca hCondition hAtunci hBody hAltfel hBody' hSf =>
    simp [hDaca, unended_exprWord hCondition, hAtunci, hBody.unended, hAltfel, hBody'.unended, hSf]
  | count hPentru hHeader hBody hSf =>
    simp [hPentru, hHeader.unended, hBody.unended, hSf]
  | whileDo hCat hTimp hCondition hExecuta hBody hSf =>
    simp [hCat, hTimp, unended_exprWord hCondition, hExecuta, hBody.unended, hSf]
  | doWhile hExecuta hBody hCat hTimp hCondition =>
    simp [hExecuta, hBody.unended, hCat, hTimp, unended_exprWord hCondition]
  | doUntil hRepeta hBody hPana hCand hCondition =>
    simp [hRepeta, hBody.unended, hPana, hCand, unended_exprWord hCondition]

theorem BlockWord.unended {words : List Token} {statements : List Statement}
    (h : BlockWord words statements) : Unended words := by
  cases h with
  | nil => simp
  | cons hWord hWords => simp [hWord.unended, hWords.unended]

end

end Statement

end Pseudocod

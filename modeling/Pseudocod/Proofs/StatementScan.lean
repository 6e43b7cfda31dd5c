import Pseudocod.Proofs.Grammar

/-!
# The readers of statements as scans

Each reader of statements is put together from the combinators of scans, and by this what it
consumes is derived from the grammar.

* `statementScan_eq`, `blockScan_eq`, `loopScan_eq`: the readers that call each other.
* `faithful_scans`: what they read, and what they consume before a failure.
-/

namespace Pseudocod.Statement

open Scan (map andThen one branch choose done fail attempt)

/-! ## Simple statements and headers -/

/-- Names with commas between them. -/
def namesScan : Scan (List String) :=
  Reader.scan (separated .comma (expect .ident .readName))

/-- Expressions with commas between them. -/
def valuesScan : Scan (List Expr) :=
  Reader.scan (separated .comma Expr.parse)

/-- An expression. -/
def exprScan : Scan Expr :=
  Reader.scan Expr.parse

/-- What follows on a name that is to get another value. -/
def updateScan (name : String) : Scan Statement :=
  branch .assign (fun _ => exprScan.map (.assign name)) <|
  branch .swap (fun _ => (one .ident .identifier).map (.swap name)) <|
  fail (.assignOrSwap name)

/-- A simple statement. -/
def simpleScan : Scan Statement :=
  branch .citeste (fun _ => namesScan.map .read) <|
  branch .scrie (fun _ => valuesScan.map .write) <|
  branch .ident updateScan <|
  fail .simpleStatement

/-- The simple statements on a line. -/
def lineScan : Scan Statement :=
  (Reader.scan (separated .semicolon parseSimple)).map ofParts

/-- What stands between `pentru` and the block of a counting loop. -/
def headerScan : Scan CountHeader :=
  (one .ident .loopName).andThen fun name =>
  (one .assign .loopAssign).andThen fun _ =>
  exprScan.andThen fun first =>
  (one .comma .loopComma).andThen fun _ =>
  exprScan.andThen fun last =>
  branch .comma
    (fun _ => exprScan.andThen fun step =>
      (one .executa .loopExecuta).map fun _ => ⟨name, first, last, some step⟩) <|
  (one .executa .loopExecuta).map fun _ => ⟨name, first, last, none⟩

theorem scan_parseSimple : Reader.scan parseSimple = simpleScan := by
  funext tokens
  cases tokens with
  | nil => rfl
  | cons token rest =>
    obtain ⟨kind, text, location⟩ := token
    cases kind with
    | citeste => exact outcome_map _ _ rfl
    | scrie => exact outcome_map _ _ rfl
    | ident =>
      rw [Reader.scan, parseSimple]
      change _ = updateScan text rest
      refine outcome_accept (fun next h => ?_) fun h => ?_
      · simp only [h]
        exact outcome_map _ _ rfl
      · simp only [h]
        refine outcome_accept (fun next h => ?_) fun h => ?_
        · simp only [h]
          exact outcome_map _ _ (outcome_expect _ _ _)
        · simp only [h]; rfl
    | _ => rfl

theorem scan_parseLine : Reader.scan parseLine = lineScan := by
  funext tokens
  exact outcome_map _ _ rfl

theorem outcome_condition {α : Type} {bound : Nat} {word : Kind} {expected : Expected}
    {tokens : List Token} {second : Parsed Expr tokens.length → Except Failure (Parsed α bound)}
    {more : Expr → Scan α}
    (hSecond : ∀ parsed, outcome (second parsed) = more parsed.value parsed.rest) :
    outcome (parseCondition word expected tokens >>= second) =
      (exprScan.andThen fun condition => (one word expected).andThen fun _ => more condition)
        tokens := by
  have condition : outcome (parseCondition word expected tokens) =
      (exprScan.andThen fun condition => (one word expected).map fun _ => condition) tokens :=
    outcome_bind rfl fun condition => outcome_map _ _ (outcome_expect _ _ _)
  rw [outcome_bind condition hSecond, Scan.andThen_andThen]
  simp only [Scan.andThen_map]

theorem scan_parseCountHeader : Reader.scan parseCountHeader = headerScan := by
  funext tokens
  refine outcome_bind (outcome_expect _ _ _) fun name => ?_
  refine outcome_bind (outcome_expect _ _ _) fun sign => ?_
  refine outcome_bind rfl fun first => ?_
  refine outcome_bind (outcome_expect _ _ _) fun comma => ?_
  refine outcome_bind rfl fun last => ?_
  refine outcome_accept (fun next h => ?_) fun h => ?_
  · simp only [h]
    exact outcome_bind rfl fun step => outcome_map _ _ (outcome_expect _ _ _)
  · simp only [h]
    exact outcome_map _ _ (outcome_expect _ _ _)

/-! ## Statements, blocks and loops -/

/-- The reader of a statement as a scan. -/
def statementScan : Scan Statement :=
  Reader.scan parse

/-- The statements up to the first token that does not begin one. -/
def blockScan : Scan (List Statement) := fun tokens =>
  outcome (parseBlock tokens)

/-- The block of a loop that was opened by `executa`, and the condition that closes the loop. -/
def loopScan : Scan (List Statement × Expr) :=
  Reader.scan parseLoop

/-- A block and the word that closes it. -/
def closedScan (word : Kind) (expected : Expected) : Scan (List Statement) :=
  blockScan.andThen fun body => (one word expected).map fun _ => body

/-- What follows on the condition of a loop opened by `cat timp`. -/
def bodyScan : Scan (List Statement) :=
  (one .executa .whileExecuta).andThen fun _ => closedScan .sf .closeCatTimp

/-- What follows on the condition of a statement opened by `daca`. -/
def branchesScan (condition : Expr) : Scan Statement :=
  blockScan.andThen fun body =>
    branch .altfel
      (fun _ => (closedScan .sf .closeDaca).map (.ifElse condition body)) <|
    (one .sf .closeDaca).map fun _ => .ifThen condition body

/-- A statement that is not opened by `executa`. -/
def otherScan : Scan Statement :=
  branch .daca (fun _ => exprScan.andThen fun condition =>
    (one .atunci .atunci).andThen fun _ => branchesScan condition) <|
  branch .pentru (fun _ => headerScan.andThen fun header =>
    (closedScan .sf .closePentru).map
      (.count header.name header.first header.last header.step)) <|
  branch .cat (fun _ => (one .timp .timp).andThen fun _ => exprScan.andThen fun condition =>
    bodyScan.map (.whileDo condition)) <|
  branch .repeta (fun _ => blockScan.andThen fun body =>
    (one .pana .closeRepeta).andThen fun _ => (one .cand .cand).andThen fun _ =>
      exprScan.map (.doUntil body)) <|
  lineScan

/-- What follows on a condition behind `cat timp` in the block of a loop opened by `executa`: a
block with the rest of the loop, or nothing if the condition closes the loop. -/
def clauseScan (condition : Expr) : Scan (List Statement × Expr) :=
  attempt bodyScan
    (fun body => loopScan.map fun loop => (.whileDo condition body :: loop.1, loop.2))
    ([], condition)

theorem blockScan_eq :
    blockScan = choose startsWith
      (statementScan.andThen fun first => blockScan.map (first :: ·)) (done []) := by
  funext tokens
  rw [blockScan, parseBlock]
  cases tokens with
  | nil => rfl
  | cons token rest =>
    by_cases h : startsWith token.kind
    · simp only [startsAt, h, choose, if_true]
      exact outcome_bind rfl fun first => outcome_map _ _ rfl
    · simp only [startsAt, h, choose]
      rfl

theorem outcome_closed {α : Type} {larger : Nat} {tokens : List Token} (word : Kind)
    (expected : Expected) (f : List Statement → α)
    (le : ∀ body : Parsed (List Statement) (tokens.length + 1), body.rest.length ≤ larger) :
    outcome (parseBlock tokens >>= fun body => expect word expected body.rest >>= fun close =>
      pure (close.mapWithin (fun _ => f body.value) (le body))) =
        (closedScan word expected).map f tokens := by
  rw [closedScan, Scan.map_andThen]
  refine outcome_bind rfl fun body => ?_
  rw [Scan.map_map]
  exact outcome_map _ _ (outcome_expect _ _ _)

theorem statementScan_eq :
    statementScan =
      branch .executa (fun _ => loopScan.map fun loop => .doWhile loop.1 loop.2) otherScan := by
  funext tokens
  rw [statementScan, Reader.scan, parse.eq_def]
  cases tokens with
  | nil => exact congrFun scan_parseLine []
  | cons token rest =>
    obtain ⟨kind, text, location⟩ := token
    cases kind with
    | executa => exact outcome_map _ _ rfl
    | daca =>
      refine outcome_condition fun condition => ?_
      refine outcome_bind rfl fun body => ?_
      refine outcome_accept (fun next h => ?_) fun h => ?_
      · simp only [h]
        exact outcome_closed _ _ (ifElse condition.value body.value) _
      · simp only [h]
        exact outcome_map _ _ (outcome_expect _ _ _)
    | pentru =>
      refine outcome_bind (congrFun scan_parseCountHeader _) fun header => ?_
      exact outcome_closed _ _ (count _ _ _ _) _
    | cat =>
      refine outcome_bind (outcome_expect _ _ _) fun timp => ?_
      simp only [bodyScan, Scan.map_andThen]
      refine outcome_condition fun condition => ?_
      exact outcome_closed _ _ (whileDo condition.value) _
    | repeta =>
      refine outcome_bind rfl fun body => ?_
      refine outcome_bind (outcome_expect _ _ _) fun pana => ?_
      refine outcome_bind (outcome_expect _ _ _) fun cand => ?_
      exact outcome_map _ _ rfl
    | _ => exact congrFun scan_parseLine _

theorem acceptCatTimp_eq_none {tokens : List Token}
    (h : ∀ cat timp rest, tokens = cat :: timp :: rest → cat.kind = .cat → timp.kind ≠ .timp) :
    acceptCatTimp tokens = none := by
  unfold acceptCatTimp accept
  cases tokens with
  | nil => rfl
  | cons cat tokens =>
    by_cases hCat : cat.kind = .cat
    · cases tokens with
      | nil => simp [hCat]
      | cons timp rest => simp [hCat, h cat timp rest rfl hCat]
    · simp [hCat]

theorem loopScan_catTimp {cat timp : Token} (rest : List Token) (hCat : cat.kind = .cat)
    (hTimp : timp.kind = .timp) :
    loopScan (cat :: timp :: rest) = exprScan.andThen clauseScan rest := by
  have clause : acceptCatTimp (cat :: timp :: rest) =
      some ⟨(), rest, Nat.lt_succ_of_lt (Nat.lt_succ_self _)⟩ := by
    unfold acceptCatTimp accept
    simp [hCat, hTimp, Parsed.mapWithin]
  rw [loopScan, Reader.scan, parseLoop]
  simp only [clause]
  refine outcome_bind rfl fun condition => ?_
  obtain ⟨condition, rest, shorter⟩ := condition
  simp only [clauseScan, attempt, bodyScan, closedScan, andThen, blockScan]
  cases rest with
  | nil => rfl
  | cons executa rest =>
    by_cases hExecuta : executa.kind = .executa
    · simp only [accept, one, branch, if_pos hExecuta, done]
      cases parseBlock rest with
      | error failure => rfl
      | ok body =>
        obtain ⟨body, rest, shorter'⟩ := body
        simp only [outcome, map]
        cases rest with
        | nil => rfl
        | cons sf rest =>
          by_cases hSf : sf.kind = .sf
          · simp only [branch, if_pos hSf, done]
            exact outcome_map _ _ rfl
          · simp only [branch, if_neg hSf, fail]
            rfl
    · simp only [accept, one, branch, if_neg hExecuta, fail]
      rfl

theorem loopScan_of_not_catTimp {tokens : List Token} (h : acceptCatTimp tokens = none) :
    loopScan tokens = choose startsWith
      (statementScan.andThen fun first => loopScan.map fun loop => (first :: loop.1, loop.2))
      (fail .closeExecuta) tokens := by
  rw [loopScan, Reader.scan, parseLoop]
  simp only [h]
  cases tokens with
  | nil => rfl
  | cons token rest =>
    by_cases h : startsWith token.kind
    · simp only [startsAt, h, choose, if_true]
      exact outcome_bind rfl fun first => outcome_map _ _ rfl
    · simp only [startsAt, h, choose]
      rfl

theorem loopScan_eq :
    loopScan = branch .cat
      (fun _ => (one .timp .timp).andThen fun _ => exprScan.andThen clauseScan)
      (choose startsWith
        (statementScan.andThen fun first => loopScan.map fun loop => (first :: loop.1, loop.2))
        (fail .closeExecuta)) := by
  funext tokens
  cases tokens with
  | nil => exact loopScan_of_not_catTimp rfl
  | cons cat rest =>
    by_cases hCat : cat.kind = .cat
    · rw [branch, if_pos hCat]
      rcases Scan.one_cases .timp .timp rest with ⟨timp, rest, rfl, hTimp, eq⟩ | ⟨hTimp, eq⟩
      · rw [loopScan_catTimp rest hCat hTimp]
        simp only [andThen, eq]
      · -- without `timp`, reading fails as it does for a statement
        have none : acceptCatTimp (cat :: rest) = none := acceptCatTimp_eq_none <| by
          rintro _ timp rest' ⟨⟩ -
          exact hTimp timp rfl
        rw [loopScan_of_not_catTimp none]
        simp only [choose, hCat, startsWith, if_true, andThen, statementScan_eq, branch, otherScan,
          reduceCtorEq, if_false, eq]
    · rw [branch, if_neg hCat]
      exact loopScan_of_not_catTimp <| acceptCatTimp_eq_none fun cat' timp rest eq h => by
        cases eq
        exact absurd h hCat

/-! ## By the first token -/

theorem statementScan_executa {executa : Token} (rest : List Token)
    (h : executa.kind = .executa) : statementScan (executa :: rest) =
      loopScan.map (fun loop => .doWhile loop.1 loop.2) rest := by
  rw [statementScan_eq, branch, if_pos h]

theorem statementScan_daca {daca : Token} (rest : List Token) (h : daca.kind = .daca) :
    statementScan (daca :: rest) = exprScan.andThen (fun condition =>
      (one .atunci .atunci).andThen fun _ => branchesScan condition) rest := by
  rw [statementScan_eq]
  simp only [branch, otherScan, h, reduceCtorEq, if_false, if_true]

theorem statementScan_pentru {pentru : Token} (rest : List Token) (h : pentru.kind = .pentru) :
    statementScan (pentru :: rest) = headerScan.andThen (fun header =>
      (closedScan .sf .closePentru).map
        (.count header.name header.first header.last header.step)) rest := by
  rw [statementScan_eq]
  simp only [branch, otherScan, h, reduceCtorEq, if_false, if_true]

theorem statementScan_repeta {repeta : Token} (rest : List Token) (h : repeta.kind = .repeta) :
    statementScan (repeta :: rest) = blockScan.andThen (fun body =>
      (one .pana .closeRepeta).andThen fun _ => (one .cand .cand).andThen fun _ =>
        exprScan.map (.doUntil body)) rest := by
  rw [statementScan_eq]
  simp only [branch, otherScan, h, reduceCtorEq, if_false, if_true]

theorem statementScan_line {token : Token} (rest : List Token)
    (h : token.kind = .ident ∨ token.kind = .citeste ∨ token.kind = .scrie) :
    statementScan (token :: rest) = lineScan (token :: rest) := by
  rw [statementScan_eq]
  rcases h with h | h | h <;> simp only [branch, otherScan, h, reduceCtorEq, if_false]

theorem statementScan_cat {cat : Token} (rest : List Token) (h : cat.kind = .cat) :
    statementScan (cat :: rest) = (one .timp .timp).andThen (fun _ =>
      exprScan.andThen fun condition => bodyScan.map (.whileDo condition)) rest := by
  rw [statementScan_eq]
  simp only [branch, otherScan, h, reduceCtorEq, if_false, if_true]

theorem blockScan_of_startsWith {token : Token} (rest : List Token)
    (h : startsWith token.kind = true) : blockScan (token :: rest) =
      statementScan.andThen (fun first => blockScan.map (first :: ·)) (token :: rest) :=
  (congrFun blockScan_eq _).trans (if_pos h)

theorem blockScan_of_not_startsWith {token : Token} (rest : List Token)
    (h : startsWith token.kind = false) :
    blockScan (token :: rest) = .ok ([], token :: rest) :=
  (congrFun blockScan_eq _).trans (if_neg (ne_true_of_eq_false h))

theorem blockScan_executa {executa : Token} (rest : List Token) (h : executa.kind = .executa) :
    blockScan (executa :: rest) =
      loopScan.andThen (fun loop => blockScan.map (.doWhile loop.1 loop.2 :: ·)) rest := by
  rw [blockScan_of_startsWith rest (by rw [h]; rfl),
    Scan.andThen_of_eq (statementScan_executa rest h), Scan.andThen_map]

theorem blockScan_cat {cat : Token} (rest : List Token) (h : cat.kind = .cat) :
    blockScan (cat :: rest) =
      (one .timp .timp).andThen (fun _ => exprScan.andThen fun condition =>
        bodyScan.andThen fun body => blockScan.map (.whileDo condition body :: ·)) rest := by
  rw [blockScan_of_startsWith rest (by rw [h]; rfl),
    Scan.andThen_of_eq (statementScan_cat rest h)]
  simp only [Scan.andThen_andThen, Scan.andThen_map]

theorem loopScan_of_startsWith {token : Token} (rest : List Token)
    (h : startsWith token.kind = true) (ne : token.kind ≠ .cat) : loopScan (token :: rest) =
      statementScan.andThen (fun first => loopScan.map fun loop => (first :: loop.1, loop.2))
        (token :: rest) :=
  (congrFun loopScan_eq _).trans ((if_neg ne).trans (if_pos h))

theorem loopScan_of_not_startsWith {token : Token} (rest : List Token)
    (h : startsWith token.kind = false) :
    loopScan (token :: rest) = .error { expected := .closeExecuta, rest := token :: rest } := by
  have ne : token.kind ≠ .cat := by
    intro eq
    rw [eq] at h
    cases h
  exact (congrFun loopScan_eq _).trans ((if_neg ne).trans (if_neg (ne_true_of_eq_false h)))

theorem loopScan_cat {cat : Token} (rest : List Token) (h : cat.kind = .cat) :
    loopScan (cat :: rest) =
      (one .timp .timp).andThen (fun _ => exprScan.andThen clauseScan) rest :=
  (congrFun loopScan_eq _).trans (if_pos h)

/-! ## What is read is derived -/

theorem faithful_exprScan {bound : Nat} : Faithful bound exprScan Expr.Word :=
  Expr.faithful_parse

theorem faithful_namesScan {bound : Nat} :
    Faithful bound namesScan (SeparatedBy .comma (Language.one .ident)) :=
  .separated fun bound => by
    rw [Reader.scan_expect]
    exact .one _ _

theorem faithful_valuesScan {bound : Nat} :
    Faithful bound valuesScan (SeparatedBy .comma Expr.Word) :=
  .separated fun _ => Expr.faithful_parse

/-- Tokens that make a simple statement of a name before them. -/
def UpdateWord (name : String) : Language Statement := fun word statement =>
  ∀ token : Token, token.kind = .ident → token.text = name → SimpleWord (token :: word) statement

theorem faithful_updateScan {bound : Nat} (name : String) :
    Faithful bound (updateScan name) (UpdateWord name) := by
  have le := Nat.le_succ bound
  have other : Faithful bound (fail (.assignOrSwap name)) (UpdateWord name) :=
    .fail _ ⟨[⟨.swap, "", .start⟩, ⟨.ident, "", .start⟩], .swap name "", by
      rintro token h rfl
      exact .swap h rfl rfl⟩
  refine .mono (.branch (fun _ => .map _ faithful_exprScan) le <|
    .branch (fun _ => .map _ (.one _ _)) le other) ?_
  rintro _ _ (⟨sign, word, rfl, hSign, value, hValue, rfl⟩ |
    ⟨sign, _, rfl, hSign, _, ⟨right, rfl, hRight, rfl⟩, rfl⟩ | h) token hToken rfl
  · exact .assign hToken hSign hValue
  · exact .swap hToken hSign hRight
  · exact h token hToken rfl

theorem faithful_simpleScan {bound : Nat} : Faithful bound simpleScan SimpleWord := by
  have le := Nat.le_succ bound
  have other : Faithful bound (fail .simpleStatement) SimpleWord :=
    .fail _ ⟨[⟨.ident, "", .start⟩, ⟨.swap, "", .start⟩, ⟨.ident, "", .start⟩], _,
      .swap rfl rfl rfl⟩
  refine .mono (.branch (fun _ => .map _ faithful_namesScan) le <|
    .branch (fun _ => .map _ faithful_valuesScan) le <|
    .branch faithful_updateScan le other) ?_
  rintro _ _ (⟨token, word, rfl, h, names, hNames, rfl⟩ |
    ⟨token, word, rfl, h, values, hValues, rfl⟩ | ⟨token, word, rfl, h, hWord⟩ | h)
  · exact .read h hNames
  · exact .write h hValues
  · exact hWord token h rfl
  · exact h

theorem faithful_lineScan {bound : Nat} : Faithful bound lineScan LineWord :=
  .map ofParts (.separated fun _ => scan_parseSimple ▸ faithful_simpleScan)

theorem faithful_headerScan {bound : Nat} : Faithful bound headerScan HeaderWord := by
  have le := Nat.le_succ bound
  refine .mono (.andThen (.one _ _) fun name => .andThen (.one _ _) fun _ =>
    .andThen faithful_exprScan fun first => .andThen (.one _ _) fun _ =>
    .andThen faithful_exprScan fun last => .branch
      (fun _ => .andThen faithful_exprScan fun step => .map _ (.one _ _)) le
      (.map _ (.one _ _))) ?_
  rintro _ _ ⟨_, _, _, rfl, ⟨name, rfl, hName, rfl⟩, _, _, _, rfl, ⟨sign, rfl, hSign, rfl⟩,
    word, first, _, rfl, hFirst, _, _, _, rfl, ⟨comma, rfl, hComma, rfl⟩, word', last, _, rfl,
    hLast, ⟨comma', _, rfl, hComma', word'', step, _, rfl, hStep, _, ⟨executa, rfl, hExecuta, rfl⟩,
      rfl⟩ |
    ⟨_, ⟨executa, rfl, hExecuta, rfl⟩, rfl⟩⟩
  · exact .stepped hName hSign hFirst hComma hLast hComma' hStep hExecuta
  · exact .plain hName hSign hFirst hComma hLast hExecuta

/-- Tokens that stand for a block, with a word of some kind behind them that closes it. -/
def ClosedWord (kind : Kind) : Language (List Statement) := fun word body =>
  ∃ inner close, word = inner ++ [close] ∧ BlockWord inner body ∧ close.kind = kind

/-- Tokens from `executa` to `sf`. -/
def BodyWord : Language (List Statement) := fun word body =>
  ∃ executa inner, word = executa :: inner ∧ executa.kind = .executa ∧ ClosedWord .sf inner body

section Bounded

variable {bound : Nat}

theorem faithful_closedScan (hBlock : Faithful bound blockScan BlockWord) (kind : Kind)
    (expected : Expected) : Faithful bound (closedScan kind expected) (ClosedWord kind) := by
  refine .mono (.andThen hBlock fun body => .map _ (.one kind expected)) ?_
  rintro _ _ ⟨inner, body, _, rfl, hInner, _, ⟨close, rfl, hClose, rfl⟩, rfl⟩
  exact ⟨inner, close, rfl, hInner, hClose⟩

theorem faithful_bodyScan (hBlock : Faithful bound blockScan BlockWord) :
    Faithful bound bodyScan BodyWord := by
  refine .mono (.andThen (.one _ _) fun _ => faithful_closedScan hBlock .sf _) ?_
  rintro _ _ ⟨_, _, inner, rfl, ⟨executa, rfl, hExecuta, rfl⟩, hInner⟩
  exact ⟨executa, inner, rfl, hExecuta, hInner⟩

theorem faithful_otherScan (hBlock : Faithful bound blockScan BlockWord) :
    Faithful (bound + 1) otherScan Word := by
  have le := Nat.le_refl (bound + 1)
  have branches (condition : Expr) : Faithful bound (branchesScan condition) _ :=
    .andThen hBlock fun body => .branch
      (fun _ => .map _ (faithful_closedScan hBlock .sf .closeDaca)) (Nat.le_succ _)
      (.map _ (.one .sf .closeDaca))
  refine .mono (.branch (fun _ => .andThen faithful_exprScan fun condition =>
      .andThen (.one _ _) fun _ => branches condition) le <|
    .branch (fun _ => .andThen faithful_headerScan fun header =>
      .map _ (faithful_closedScan hBlock .sf _)) le <|
    .branch (fun _ => .andThen (.one _ _) fun _ => .andThen faithful_exprScan fun condition =>
      .map _ (faithful_bodyScan hBlock)) le <|
    .branch (fun _ => .andThen hBlock fun body => .andThen (.one _ _) fun _ =>
      .andThen (.one _ _) fun _ => .map _ faithful_exprScan) le faithful_lineScan) ?_
  rintro _ _ (⟨daca, _, rfl, hDaca, word, condition, _, rfl, hCondition, _, _, _, rfl,
      ⟨atunci, rfl, hAtunci, rfl⟩, inner, body, _, rfl, hBody,
      ⟨altfel, _, rfl, hAltfel, _, ⟨inner', sf, rfl, hBody', hSf⟩, rfl⟩ |
      ⟨_, ⟨sf, rfl, hSf, rfl⟩, rfl⟩⟩ |
    ⟨pentru, _, rfl, hPentru, word, header, _, rfl, hHeader, _, ⟨inner, sf, rfl, hBody, hSf⟩, rfl⟩ |
    ⟨cat, _, rfl, hCat, _, _, _, rfl, ⟨timp, rfl, hTimp, rfl⟩, word, condition, _, rfl, hCondition,
      _, ⟨executa, _, rfl, hExecuta, inner, sf, rfl, hBody, hSf⟩, rfl⟩ |
    ⟨repeta, _, rfl, hRepeta, inner, body, _, rfl, hBody, _, _, _, rfl, ⟨pana, rfl, hPana, rfl⟩,
      _, _, word, rfl, ⟨cand, rfl, hCand, rfl⟩, condition, hCondition, rfl⟩ | hLine)
  · exact .ifElse hDaca hCondition hAtunci hBody hAltfel hBody' hSf
  · exact .ifThen hDaca hCondition hAtunci hBody hSf
  · exact .count hPentru hHeader hBody hSf
  · exact .whileDo hCat hTimp hCondition hExecuta hBody hSf
  · exact .doUntil hRepeta hBody hPana hCand hCondition
  · exact .line hLine

theorem faithful_statementScan (hBlock : Faithful bound blockScan BlockWord)
    (hLoop : Faithful bound loopScan LoopWord) : Faithful (bound + 1) statementScan Word := by
  rw [statementScan_eq]
  refine .mono (.branch (fun _ => .map _ hLoop) (Nat.le_refl _) (faithful_otherScan hBlock)) ?_
  rintro _ _ (⟨executa, _, rfl, hExecuta, _, ⟨inner, cat, timp, word, rfl, hBody, hCat, hTimp,
    hCondition⟩, rfl⟩ | h)
  · exact .doWhile hExecuta hBody hCat hTimp hCondition
  · exact h

theorem faithful_blockScan (hStatement : Faithful (bound + 1) statementScan Word)
    (hBlock : Faithful bound blockScan BlockWord) : Faithful (bound + 1) blockScan BlockWord := by
  rw [blockScan_eq]
  refine .choose (.mono (hStatement.andThenWithin (fun first => hBlock.map (first :: ·))
    Reader.lt_of_scan) ?_) (.mono (.done []) ?_)
  · rintro _ _ ⟨word, first, words, rfl, hFirst, others, hOthers, rfl⟩
    exact .cons hFirst hOthers
  · rintro _ _ ⟨rfl, rfl⟩
    exact .nil

theorem LoopWord.cons {word words : List Token} {first : Statement}
    {loop : List Statement × Expr} (hFirst : Word word first) (hLoop : LoopWord words loop) :
    LoopWord (word ++ words) (first :: loop.1, loop.2) := by
  obtain ⟨front, cat, timp, back, rfl, hFront, hCat, hTimp, hBack⟩ := hLoop
  exact ⟨word ++ front, cat, timp, back, by rw [List.append_assoc], .cons hFirst hFront, hCat,
    hTimp, hBack⟩

theorem faithful_loopScan (hStatement : Faithful (bound + 1) statementScan Word)
    (hBlock : Faithful bound blockScan BlockWord) (hLoop : Faithful bound loopScan LoopWord) :
    Faithful (bound + 1) loopScan LoopWord := by
  have hBody := faithful_bodyScan hBlock
  have clause (condition : Expr) : Faithful bound (clauseScan condition) _ :=
    hBody.attempt (fun body => hLoop.map _) hBody.length_lt
  have other : Faithful (bound + 1) (choose startsWith (statementScan.andThen fun first =>
      loopScan.map fun loop => (first :: loop.1, loop.2)) (fail .closeExecuta)) LoopWord := by
    refine .choose (.mono (hStatement.andThenWithin (fun first => hLoop.map _)
      Reader.lt_of_scan) ?_) (.fail _ hLoop.inhabited)
    rintro _ _ ⟨word, first, words, rfl, hFirst, loop, hLoop, rfl⟩
    exact hLoop.cons hFirst
  rw [loopScan_eq]
  refine .mono (.branch (fun _ => .andThen (.one _ _) fun _ => .andThen faithful_exprScan clause)
    (Nat.le_refl _) other) ?_
  rintro _ _ (⟨cat, _, rfl, hCat, _, _, _, rfl, ⟨timp, rfl, hTimp, rfl⟩, word, condition, _, rfl,
    hCondition, ⟨_, body, words, rfl, ⟨executa, _, rfl, hExecuta, inner, sf, rfl, hBody, hSf⟩,
      loop, hLoop, rfl⟩ | ⟨rfl, rfl⟩⟩ | h)
  · have hWhile := Word.whileDo hCat hTimp hCondition hExecuta hBody hSf
    have := hLoop.cons hWhile
    simpa using this
  · exact ⟨[], cat, timp, word, by simp, .nil, hCat, hTimp, hCondition⟩
  · exact h

end Bounded

/-- What a reader of statements consumes is derived from the grammar, and what it consumes before a
failure is the beginning of something that is. -/
theorem faithful_scans (bound : Nat) :
    Faithful bound statementScan Word ∧ Faithful bound blockScan BlockWord ∧
      Faithful bound loopScan LoopWord := by
  induction bound with
  | zero =>
    obtain ⟨line, statement, hLine⟩ := (faithful_lineScan : Faithful 0 lineScan LineWord).inhabited
    obtain ⟨word, condition, hWord⟩ := (faithful_exprScan : Faithful 0 exprScan Expr.Word).inhabited
    exact ⟨.zero ⟨line, statement, .line hLine⟩, .zero ⟨[], [], .nil⟩, .zero
      ⟨_, ([], condition), [], ⟨.cat, "", .start⟩, ⟨.timp, "", .start⟩, word, rfl, .nil, rfl, rfl,
        hWord⟩⟩
  | succ bound ih =>
    obtain ⟨-, hBlock, hLoop⟩ := ih
    have hStatement := faithful_statementScan hBlock hLoop
    exact ⟨hStatement, faithful_blockScan hStatement hBlock,
      faithful_loopScan hStatement hBlock hLoop⟩

end Pseudocod.Statement

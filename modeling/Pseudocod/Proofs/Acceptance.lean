import Pseudocod.Program
import Pseudocod.Proofs.StatementScan

/-!
# Programs are accepted by their grammar

The readers find every derivation from the grammar, and so there is at most one. The one choice that
they make without seeing what it leads to is that of `cat timp` and a condition in the block of a
loop opened by `executa`: a trial of a nested loop is taken up if it succeeds, and never again
reconsidered. It is right because where no nested loop can be opened behind a clause that closes a
loop, the trial of any block that reaches over the clause fails (`not_closes_append`).

* `complete_scans`: every derivation is found in front of what may follow on it.
* `Program.read_eq_ok_iff_blockWord`: a program is read from its derivations, which are unique.
-/

namespace Pseudocod.Statement

open Scan (map andThen one branch choose done fail attempt)

/-! ## Lines and headers -/

/-- Whether a token goes on with the last expression, or with the list, of a simple statement. -/
def goesOn (kind : Kind) : Bool :=
  kind.binaryOp?.isSome || kind = .comma

/-- Whether a token goes on with a line of simple statements. -/
def lineGoesOn (kind : Kind) : Bool :=
  goesOn kind || kind = .semicolon

theorem ended_of_goesOn {rest : List Token} (h : Clear goesOn rest) : Expr.Ended rest :=
  h.mono fun kind => by simp +contextual [goesOn]

theorem goesOn_of_lineGoesOn {rest : List Token} (h : Clear lineGoesOn rest) : Clear goesOn rest :=
  h.mono fun kind => by simp +contextual [lineGoesOn]

theorem exprScan_append {word rest : List Token} {expr : Expr} (h : Expr.Word word expr)
    (ended : Expr.Ended rest) : exprScan (word ++ rest) = .ok (expr, rest) :=
  Expr.complete_parse (Nat.lt_succ_self _) h ended

theorem namesScan_append {word rest : List Token} {names : List String}
    (h : SeparatedBy .comma (Language.one .ident) word names) (follow : Clear goesOn rest) :
    namesScan (word ++ rest) = .ok (names, rest) := by
  have item : Complete ((word ++ rest).length + 1) (Reader.scan (expect .ident .readName))
      (Language.one .ident) fun _ => Clear fun _ => false := by
    rintro _ _ rest - ⟨token, rfl, h, rfl⟩ -
    exact (outcome_expect _ _ _).trans (Scan.one_of_kind _ _ h)
  exact Complete.separated rfl item (Nat.lt_succ_self _) h
    (follow.mono fun kind => by simp +contextual [goesOn])

theorem valuesScan_append {word rest : List Token} {values : List Expr}
    (h : SeparatedBy .comma Expr.Word word values) (follow : Clear goesOn rest) :
    valuesScan (word ++ rest) = .ok (values, rest) :=
  Complete.separated rfl Expr.complete_parse (Nat.lt_succ_self _) h follow

theorem simpleScan_append {word rest : List Token} {statement : Statement}
    (h : SimpleWord word statement) (follow : Clear goesOn rest) :
    simpleScan (word ++ rest) = .ok (statement, rest) := by
  cases h with
  | assign hName hSign hValue =>
    have value := exprScan_append hValue (ended_of_goesOn follow)
    simp [simpleScan, updateScan, branch, map, hName, hSign, value]
  | swap hLeft hSign hRight =>
    simp [simpleScan, updateScan, branch, map, hLeft, hSign, Scan.one_of_kind _ _ hRight]
  | read hCiteste hNames =>
    simp [simpleScan, branch, map, hCiteste, namesScan_append hNames follow]
  | write hScrie hValues =>
    simp [simpleScan, branch, map, hScrie, valuesScan_append hValues follow]

theorem lineScan_append {word rest : List Token} {statement : Statement}
    (h : LineWord word statement) (follow : Clear lineGoesOn rest) :
    lineScan (word ++ rest) = .ok (statement, rest) := by
  obtain ⟨parts, hParts, rfl⟩ := h
  have item : Complete ((word ++ rest).length + 1) (Reader.scan parseSimple) SimpleWord fun _ =>
      Clear goesOn := by
    intro word statement rest _ h follow
    rw [scan_parseSimple]
    exact simpleScan_append h follow
  have read := Complete.separated rfl item (Nat.lt_succ_self _) hParts follow
  rw [lineScan, map, read]

theorem ended_of_kind {token : Token} (rest : List Token) {kind : Kind} (h : token.kind = kind)
    (none : kind.binaryOp? = none) : Expr.Ended (token :: rest) :=
  Expr.ended_cons (by rw [h, none]) rest

theorem headerScan_append {word : List Token} {header : CountHeader} (h : HeaderWord word header)
    (rest : List Token) : headerScan (word ++ rest) = .ok (header, rest) := by
  cases h with
  | plain hName hSign hFirst hComma hLast hExecuta =>
    have first := fun rest => exprScan_append hFirst (ended_of_kind rest hComma rfl)
    have last := fun rest => exprScan_append hLast (ended_of_kind rest hExecuta rfl)
    simp [headerScan, andThen, branch, map, Scan.one_of_kind _ _ hName, Scan.one_of_kind _ _ hSign,
      Scan.one_of_kind _ _ hComma, Scan.one_of_kind _ _ hExecuta, first, last, hExecuta]
  | stepped hName hSign hFirst hComma hLast hComma' hStep hExecuta =>
    have first := fun rest => exprScan_append hFirst (ended_of_kind rest hComma rfl)
    have last := fun rest => exprScan_append hLast (ended_of_kind rest hComma' rfl)
    have step := fun rest => exprScan_append hStep (ended_of_kind rest hExecuta rfl)
    simp [headerScan, andThen, branch, map, Scan.one_of_kind _ _ hName, Scan.one_of_kind _ _ hSign,
      Scan.one_of_kind _ _ hComma, Scan.one_of_kind _ _ hExecuta, first, last, step, hComma']

/-! ## What follows on statements, blocks and loops -/

/-- Tokens that make a loop of the condition behind `cat timp` on which they follow. -/
def Nested (rest : List Token) : Prop :=
  ∃ result, bodyScan rest = .ok result

/-- What may follow on a statement: nothing that goes on with it, and after a loop closed by its
condition nothing that opens a loop with this condition. -/
def Follow (statement : Statement) (rest : List Token) : Prop :=
  Clear lineGoesOn rest ∧ ∀ body condition, statement = .doWhile body condition → ¬ Nested rest

/-- What may follow on the statements of a block. -/
def BlockFollow (_ : List Statement) (rest : List Token) : Prop :=
  Clear (fun kind => startsWith kind || lineGoesOn kind) rest

/-- What may follow on the condition that closes a loop opened by `executa`. -/
def LoopFollow (_ : List Statement × Expr) (rest : List Token) : Prop :=
  Clear goesOn rest ∧ ¬ Nested rest

theorem blockFollow_of_kind {token : Token} (rest : List Token) {kind : Kind}
    (h : token.kind = kind) (closes : (startsWith kind || lineGoesOn kind) = false)
    {body : List Statement} : BlockFollow body (token :: rest) :=
  Clear.cons (by rw [h, closes])

section Bounded

variable {bound : Nat}

theorem complete_closedScan (hBlock : Complete bound blockScan BlockWord BlockFollow)
    {inner : List Token} {close : Token} {body : List Statement} {rest : List Token}
    (lt : (inner ++ close :: rest).length < bound) (hBody : BlockWord inner body) {kind : Kind}
    (expected : Expected) (h : close.kind = kind)
    (closes : (startsWith kind || lineGoesOn kind) = false) :
    closedScan kind expected (inner ++ close :: rest) = .ok (body, rest) := by
  rw [closedScan, andThen, hBlock lt hBody (blockFollow_of_kind rest h closes)]
  simp only [map, Scan.one_of_kind _ _ h]

theorem complete_bodyScan (hBlock : Complete bound blockScan BlockWord BlockFollow)
    {executa sf : Token} {inner : List Token} {body : List Statement} {rest : List Token}
    (lt : (inner ++ sf :: rest).length < bound) (hExecuta : executa.kind = .executa)
    (hBody : BlockWord inner body) (hSf : sf.kind = .sf) :
    bodyScan (executa :: (inner ++ sf :: rest)) = .ok (body, rest) := by
  simp only [bodyScan, andThen, Scan.one_of_kind _ _ hExecuta]
  exact complete_closedScan hBlock lt hBody _ hSf rfl

theorem complete_statementScan (hBlock : Complete bound blockScan BlockWord BlockFollow)
    (hLoop : Complete bound loopScan LoopWord LoopFollow) :
    Complete (bound + 1) statementScan Word Follow := by
  intro word statement rest lt hWord follow
  cases hWord with
  | line hLine =>
    obtain ⟨token, tokens, rfl, kind⟩ := hLine.startsWith
    rw [List.cons_append, statementScan_line _ kind]
    exact lineScan_append hLine follow.1
  | @ifThen daca atunci sf word inner condition body hDaca hCondition hAtunci hBody hSf =>
    simp only [List.cons_append, List.append_assoc, List.nil_append] at lt ⊢
    have read := fun rest => exprScan_append hCondition (ended_of_kind rest hAtunci rfl)
    have lt : (inner ++ sf :: rest).length < bound := by
      simp only [List.length_append, List.length_cons] at lt ⊢; omega
    have block := hBlock lt hBody (blockFollow_of_kind rest hSf rfl)
    rw [statementScan_daca _ hDaca]
    simp only [andThen, read, Scan.one_of_kind _ _ hAtunci, branchesScan, block, branch, hSf,
      reduceCtorEq, if_false, map, Scan.one_of_kind _ _ hSf]
  | @ifElse daca atunci altfel sf word inner inner' condition body alternative hDaca hCondition
      hAtunci hBody hAltfel hBody' hSf =>
    simp only [List.cons_append, List.append_assoc, List.nil_append] at lt ⊢
    have read := fun rest => exprScan_append hCondition (ended_of_kind rest hAtunci rfl)
    have lt₁ : (inner ++ altfel :: (inner' ++ sf :: rest)).length < bound := by
      simp only [List.length_append, List.length_cons] at lt ⊢; omega
    have lt₂ : (inner' ++ sf :: rest).length < bound := by
      simp only [List.length_append, List.length_cons] at lt ⊢; omega
    have block := hBlock lt₁ hBody (blockFollow_of_kind _ hAltfel rfl)
    have closed := complete_closedScan hBlock lt₂ hBody' .closeDaca hSf rfl
    rw [statementScan_daca _ hDaca]
    simp only [andThen, read, Scan.one_of_kind _ _ hAtunci, branchesScan, block, branch, hAltfel,
      if_true, map, closed]
  | @count pentru sf word inner header body hPentru hHeader hBody hSf =>
    simp only [List.cons_append, List.append_assoc, List.nil_append] at lt ⊢
    have lt : (inner ++ sf :: rest).length < bound := by
      simp only [List.length_append, List.length_cons] at lt ⊢; omega
    have closed := complete_closedScan hBlock lt hBody .closePentru hSf rfl
    rw [statementScan_pentru _ hPentru]
    simp only [andThen, headerScan_append hHeader, map, closed]
  | @whileDo cat timp executa sf word inner condition body hCat hTimp hCondition hExecuta hBody
      hSf =>
    simp only [List.cons_append, List.append_assoc, List.nil_append] at lt ⊢
    have read := fun rest => exprScan_append hCondition (ended_of_kind rest hExecuta rfl)
    have lt : (inner ++ sf :: rest).length < bound := by
      simp only [List.length_append, List.length_cons] at lt ⊢; omega
    have closed := complete_bodyScan hBlock lt hExecuta hBody hSf
    rw [statementScan_cat _ hCat]
    simp only [andThen, Scan.one_of_kind _ _ hTimp, read, map, closed]
  | @doWhile executa cat timp inner word body condition hExecuta hBody hCat hTimp hCondition =>
    rw [List.cons_append, List.length_cons] at lt
    have loop := hLoop (Nat.lt_of_succ_lt_succ lt)
      (show LoopWord _ (body, condition) from
        ⟨inner, cat, timp, word, rfl, hBody, hCat, hTimp, hCondition⟩)
      ⟨goesOn_of_lineGoesOn follow.1, follow.2 _ _ rfl⟩
    rw [List.cons_append, statementScan_executa _ hExecuta, map, loop]
  | @doUntil repeta pana cand inner word body condition hRepeta hBody hPana hCand hCondition =>
    simp only [List.cons_append, List.append_assoc] at lt ⊢
    have lt : (inner ++ pana :: cand :: (word ++ rest)).length < bound := by
      simp only [List.length_append, List.length_cons] at lt ⊢; omega
    have block := hBlock lt hBody (blockFollow_of_kind _ hPana rfl)
    have read := exprScan_append hCondition (ended_of_goesOn (goesOn_of_lineGoesOn follow.1))
    rw [statementScan_repeta _ hRepeta]
    simp only [andThen, block, Scan.one_of_kind _ _ hPana, Scan.one_of_kind _ _ hCand, map, read]

end Bounded

/-! ## Trials of clauses that close a loop -/

/-- Tokens that stand for a block closed by `sf`, with others behind it. -/
def Closes (tokens : List Token) : Prop :=
  ∃ result, closedScan .sf .closeCatTimp tokens = .ok result

theorem nested_iff {rest : List Token} :
    Nested rest ↔ ∃ executa tokens, rest = executa :: tokens ∧ executa.kind = .executa ∧
      Closes tokens := by
  unfold Nested Closes bodyScan andThen
  rcases Scan.one_cases .executa .whileExecuta rest with ⟨executa, tokens, rfl, h, eq⟩ | ⟨ne, eq⟩
  · simp only [eq]
    constructor
    · intro nested
      exact ⟨executa, tokens, rfl, h, nested⟩
    · rintro ⟨_, _, ⟨⟩, -, closes⟩
      exact closes
  · simp only [eq]
    constructor
    · rintro ⟨_, ⟨⟩⟩
    · rintro ⟨executa, tokens, rfl, h, -⟩
      exact absurd h (ne executa rfl)

theorem blockScan_append {word rest : List Token} {statement : Statement}
    (hWord : Word word statement) (read : statementScan (word ++ rest) = .ok (statement, rest)) :
    blockScan (word ++ rest) = blockScan.map (statement :: ·) rest := by
  obtain ⟨token, tokens, rfl, starts⟩ := hWord.startsWith
  rw [List.cons_append] at read ⊢
  rw [blockScan_of_startsWith _ starts, andThen, read]

theorem closes_of_append {word rest : List Token} {statement : Statement}
    (hWord : Word word statement) (read : statementScan (word ++ rest) = .ok (statement, rest))
    (closes : Closes (word ++ rest)) : Closes rest := by
  obtain ⟨result, h⟩ := closes
  rw [closedScan, andThen, blockScan_append hWord read, map] at h
  unfold Closes closedScan andThen
  cases found : blockScan rest with
  | error failure => simp [found] at h
  | ok inner =>
    simp only [found] at h ⊢
    unfold map at h ⊢
    cases close : one .sf .closeCatTimp inner.2 with
    | error failure => simp [close] at h
    | ok next => exact ⟨_, rfl⟩

theorem clear_append {kinds : Kind → Bool} {words rest : List Token} {statements : List Statement}
    (hBlock : BlockWord words statements) (clear : Clear kinds rest)
    (apart : ∀ kind, startsWith kind = true → kinds kind = false) :
    Clear kinds (words ++ rest) := by
  cases hBlock with
  | nil => exact clear
  | cons hWord _ =>
    obtain ⟨token, tokens, rfl, starts⟩ := hWord.startsWith
    exact Clear.cons (apart _ starts)

theorem lineGoesOn_of_startsWith (kind : Kind) (h : startsWith kind = true) :
    lineGoesOn kind = false := by
  cases kind <;> first | rfl | cases h

/-- Where no loop can be opened behind a clause that closes a loop, none can be opened before it. -/
theorem not_closes_append {bound : Nat} (hStatement : Complete bound statementScan Word Follow)
    {words clause rest : List Token} {body : List Statement} {condition : Expr} {cat timp : Token}
    (lt : (words ++ cat :: timp :: (clause ++ rest)).length < bound)
    (hBody : BlockWord words body) (hCat : cat.kind = .cat) (hTimp : timp.kind = .timp)
    (hClause : Expr.Word clause condition) (clear : Clear goesOn rest) (apart : ¬ Nested rest) :
    ¬ Closes (words ++ cat :: timp :: (clause ++ rest)) ∧
      ¬ Nested (words ++ cat :: timp :: (clause ++ rest)) := by
  generalize hn : words.length = n
  induction n using Nat.strongRecOn generalizing words clause rest body condition cat timp with
  | ind n ih =>
    subst hn
    cases hBody with
    | nil =>
      have read := exprScan_append hClause (ended_of_goesOn clear)
      constructor
      · -- the trial goes on behind the clause, where it fails
        rintro ⟨result, h⟩
        rw [List.nil_append, closedScan, andThen, blockScan_cat _ hCat] at h
        simp only [andThen, Scan.one_of_kind _ _ hTimp, read] at h
        cases found : bodyScan rest with
        | error failure => simp [found] at h
        | ok inner => exact apart ⟨inner, found⟩
      · intro nested
        obtain ⟨_, _, ⟨⟩, kind, -⟩ := nested_iff.mp nested
        rw [hCat] at kind
        cases kind
    | @cons word words statement statements hWord hWords =>
      rw [List.append_assoc] at lt ⊢
      have short : words.length < (word ++ words).length := by
        obtain ⟨token, tokens, rfl, -⟩ := hWord.startsWith
        simp only [List.length_append, List.length_cons]; omega
      obtain ⟨notClosed, notNested⟩ := ih _ short
        (by rw [List.length_append] at lt; omega) hWords hCat hTimp hClause clear apart rfl
      have clearLine : Clear lineGoesOn (words ++ cat :: timp :: (clause ++ rest)) :=
        clear_append hWords (.cons (by rw [hCat]; rfl)) lineGoesOn_of_startsWith
      have read := hStatement lt hWord ⟨clearLine, fun _ _ _ => notNested⟩
      refine ⟨fun closes => notClosed (closes_of_append hWord read closes), fun nested => ?_⟩
      -- only a loop that is closed by its condition begins like a nested one
      obtain ⟨executa, tokens, eq, kind, closes⟩ := nested_iff.mp nested
      obtain ⟨token, tokens', rfl, -⟩ := hWord.startsWith
      obtain ⟨rfl, rfl⟩ := List.cons.inj (List.cons_append ▸ eq)
      obtain ⟨body, condition, ⟨inner, cat', timp', clause', rfl, hInner, hCat', hTimp', hClause'⟩,
        rfl⟩ := hWord.loop_of_executa kind
      rw [List.append_assoc] at closes
      have shorter :
          inner.length < (token :: (inner ++ cat' :: timp' :: clause') ++ words).length := by
        simp only [List.length_append, List.length_cons]; omega
      refine (ih _ shorter ?_ hInner hCat' hTimp' hClause' (goesOn_of_lineGoesOn clearLine)
        notNested rfl).1 closes
      simp only [List.length_append, List.length_cons] at lt ⊢; omega

/-- No loop is opened by the statements of a block behind a condition. -/
theorem not_nested_append {bound : Nat} (hStatement : Complete bound statementScan Word Follow)
    {words rest : List Token} {body : List Statement} (lt : (words ++ rest).length < bound)
    (hBody : BlockWord words body) (follow : BlockFollow body rest) : ¬ Nested (words ++ rest) := by
  induction body generalizing words with
  | nil =>
    cases hBody
    intro nested
    obtain ⟨executa, tokens, rfl, kind, -⟩ := nested_iff.mp nested
    exact follow.ne (by decide) executa rfl kind
  | cons statement statements ih =>
    obtain _ | @⟨word, words, _, _, hWord, hWords⟩ := hBody
    rw [List.append_assoc] at lt ⊢
    intro nested
    obtain ⟨executa, tokens, eq, kind, closes⟩ := nested_iff.mp nested
    obtain ⟨token, tokens', rfl, -⟩ := hWord.startsWith
    obtain ⟨rfl, rfl⟩ := List.cons.inj (List.cons_append ▸ eq)
    obtain ⟨body, condition, ⟨inner, cat, timp, clause, rfl, hInner, hCat, hTimp, hClause⟩, rfl⟩ :=
      hWord.loop_of_executa kind
    have apart := ih (by rw [List.length_append] at lt; omega) hWords follow
    have clear : Clear goesOn (words ++ rest) := clear_append hWords
      (follow.mono fun kind => by simp +contextual [lineGoesOn])
      fun kind starts => by have := lineGoesOn_of_startsWith kind starts; simp_all [lineGoesOn]
    rw [List.append_assoc] at closes
    refine (not_closes_append hStatement ?_ hInner hCat hTimp hClause clear apart).1 closes
    simp only [List.length_append, List.length_cons] at lt ⊢; omega

theorem complete_blockScan {bound : Nat} (hStatement : Complete bound statementScan Word Follow) :
    Complete bound blockScan BlockWord BlockFollow := by
  intro words body rest lt hBody follow
  induction body generalizing words with
  | nil =>
    cases hBody
    cases rest with
    | nil => rw [List.nil_append, blockScan_eq]; rfl
    | cons token rest =>
      have starts := follow token rfl
      rw [Bool.or_eq_false_iff] at starts
      exact blockScan_of_not_startsWith rest starts.1
  | cons statement statements ih =>
    obtain _ | @⟨word, words, _, _, hWord, hWords⟩ := hBody
    rw [List.append_assoc] at lt ⊢
    have lt' : (words ++ rest).length < bound := by rw [List.length_append] at lt; omega
    have clear : Clear lineGoesOn (words ++ rest) := clear_append hWords
      (follow.mono fun kind => by simp +contextual) lineGoesOn_of_startsWith
    have read := hStatement lt hWord
      ⟨clear, fun _ _ _ => not_nested_append hStatement lt' hWords follow⟩
    rw [blockScan_append hWord read, map, ih lt' hWords follow]

theorem complete_loopScan {bound : Nat} (hStatement : Complete bound statementScan Word Follow)
    (hBlock : Complete bound blockScan BlockWord BlockFollow) :
    Complete bound loopScan LoopWord LoopFollow := by
  rintro _ ⟨body, condition⟩ rest lt ⟨words, cat, timp, clause, rfl, hBody, hCat, hTimp, hClause⟩
    ⟨clear, apart⟩
  change BlockWord words body at hBody
  change Expr.Word clause condition at hClause
  rw [List.append_assoc, List.cons_append, List.cons_append] at lt ⊢
  induction body generalizing words with
  | nil =>
    cases hBody
    rw [List.nil_append, loopScan_cat _ hCat]
    simp only [andThen, Scan.one_of_kind _ _ hTimp,
      exprScan_append hClause (ended_of_goesOn clear), clauseScan, attempt]
    cases found : bodyScan rest with
    | error failure => rfl
    | ok result => exact absurd ⟨result, found⟩ apart
  | cons statement statements ih =>
    obtain _ | @⟨word, words, _, _, hWord, hWords⟩ := hBody
    rw [List.append_assoc] at lt ⊢
    have lt' : (words ++ cat :: timp :: (clause ++ rest)).length < bound := by
      rw [List.length_append] at lt; omega
    have others := ih words lt' hWords
    obtain ⟨token, tokens, rfl, starts⟩ := hWord.startsWith
    by_cases kind : token.kind = .cat
    · -- the trial of its block succeeds
      obtain ⟨timp', clause', executa, inner, sf, condition', body', rfl, hTimp', hClause',
        hExecuta, hInner, hSf, rfl⟩ := hWord.body_of_cat kind
      have read := fun rest => exprScan_append hClause' (ended_of_kind rest hExecuta rfl)
      simp only [List.cons_append, List.append_assoc, List.nil_append] at lt ⊢
      have nested := complete_bodyScan hBlock
        (show (inner ++ sf :: (words ++ cat :: timp :: (clause ++ rest))).length < bound by
          simp only [List.length_append, List.length_cons] at lt ⊢; omega) hExecuta hInner hSf
      rw [loopScan_cat _ kind]
      simp only [andThen, Scan.one_of_kind _ _ hTimp', read, clauseScan, attempt, nested, map,
        others]
    · have clearLine : Clear lineGoesOn (words ++ cat :: timp :: (clause ++ rest)) :=
        clear_append hWords (.cons (by rw [hCat]; rfl)) lineGoesOn_of_startsWith
      have notNested :=
        (not_closes_append hStatement lt' hWords hCat hTimp hClause clear apart).2
      have read := hStatement lt hWord ⟨clearLine, fun _ _ _ => notNested⟩
      rw [List.cons_append] at read ⊢
      rw [loopScan_of_startsWith _ starts kind, andThen, read]
      simp only [map, others]

/-- Every derivation from the grammar is found. -/
theorem complete_scans (bound : Nat) :
    Complete bound statementScan Word Follow ∧ Complete bound blockScan BlockWord BlockFollow ∧
      Complete bound loopScan LoopWord LoopFollow := by
  induction bound with
  | zero =>
    exact ⟨fun _ _ _ lt => absurd lt (Nat.not_lt_zero _),
      fun _ _ _ lt => absurd lt (Nat.not_lt_zero _), fun _ _ _ lt => absurd lt (Nat.not_lt_zero _)⟩
  | succ bound ih =>
    have hStatement := complete_statementScan ih.2.1 ih.2.2
    have hBlock := complete_blockScan hStatement
    exact ⟨hStatement, hBlock, complete_loopScan hStatement hBlock⟩

end Pseudocod.Statement

namespace Pseudocod

/-- The stream of some tokens with one behind them that ends the program. -/
theorem TokenStream.ofTokens_append {tokens : List Token} {stop : Token}
    (inner : ∀ token ∈ tokens, token.kind ≠ .eof) (last : stop.kind = .eof) :
    TokenStream.ofTokens (tokens ++ [stop]) = { pending := tokens, stop := stop.location } :=
  untilEof_append_cons inner last _ []

namespace Program

open Scan (andThen)

/-- The end of the tokens. -/
def endScan (program : Program) : Scan Program
  | [] => .ok (program, [])
  | token :: rest => .error { expected := .statement, rest := token :: rest }

/-- A program as a scan. -/
def programScan : Scan Program :=
  Statement.blockScan.andThen fun statements => endScan { statements }

theorem parseTokens_eq (tokens : List Token) :
    parseTokens tokens = (programScan tokens).map Prod.fst := by
  unfold parseTokens programScan andThen Statement.blockScan
  cases Statement.parseBlock tokens with
  | error failure => rfl
  | ok parsed =>
    obtain ⟨statements, rest, shorter⟩ := parsed
    cases rest <;> rfl

theorem programScan_eq_ok_iff {tokens : List Token} {program : Program} {rest : List Token} :
    programScan tokens = .ok (program, rest) ↔
      Statement.BlockWord tokens program.statements ∧ rest = [] := by
  unfold programScan andThen
  constructor
  · intro h
    cases found : Statement.blockScan tokens with
    | error failure => simp [found] at h
    | ok result =>
      obtain ⟨statements, left⟩ := result
      obtain ⟨word, rfl, hWord⟩ :=
        (Statement.faithful_scans _).2.1.word_of_ok (Nat.lt_succ_self _) found
      cases left with
      | cons token left => simp [found, endScan] at h
      | nil =>
        rw [found] at h
        cases h
        rw [List.append_nil]
        exact ⟨hWord, rfl⟩
  · rintro ⟨hWord, rfl⟩
    have read := (Statement.complete_scans _).2.1 (Nat.lt_succ_self (tokens ++ []).length) hWord
      (Clear.nil _)
    rw [List.append_nil] at read
    rw [read]; rfl

theorem parseTokens_eq_ok_iff {tokens : List Token} {program : Program} :
    parseTokens tokens = .ok program ↔ Statement.BlockWord tokens program.statements := by
  rw [parseTokens_eq]
  constructor
  · intro h
    cases found : programScan tokens with
    | error failure => rw [found] at h; cases h
    | ok result =>
      rw [found] at h
      cases h
      exact (programScan_eq_ok_iff.mp found).1
  · intro h
    rw [programScan_eq_ok_iff.mpr ⟨h, rfl⟩]; rfl

theorem read_eq_ok_iff {stream : TokenStream} {program : Program} :
    (read stream).1 = .ok program ↔ Statement.BlockWord stream.pending program.statements := by
  rw [← parseTokens_eq_ok_iff]
  unfold read
  cases parseTokens stream.pending with
  | ok other => simp
  | error failure => exact ⟨nofun, nofun⟩

theorem blockWord_unique {tokens : List Token} {statements statements' : List Statement}
    (first : Statement.BlockWord tokens statements)
    (second : Statement.BlockWord tokens statements') : statements = statements' := by
  have found : parseTokens tokens = .ok { statements } := parseTokens_eq_ok_iff.mpr first
  rw [parseTokens_eq_ok_iff.mpr (show Statement.BlockWord tokens (Program.mk statements').statements
    from second)] at found
  cases found; rfl

/-- A list of tokens whose only token of kind `eof` is its last one is read as a program if and only
if the other tokens are derived from the grammar as that program, and there is only one that they
are derived as. -/
theorem read_eq_ok_iff_blockWord {tokens : List Token} {stop : Token}
    (inner : ∀ token ∈ tokens, token.kind ≠ .eof) (last : stop.kind = .eof) :
    (∀ program : Program, (read (.ofTokens (tokens ++ [stop]))).1 = .ok program ↔
      Statement.BlockWord tokens program.statements) ∧
    ∀ statements statements' : List Statement, Statement.BlockWord tokens statements →
      Statement.BlockWord tokens statements' → statements = statements' := by
  refine ⟨fun program => ?_, fun _ _ => blockWord_unique⟩
  rw [read_eq_ok_iff, TokenStream.ofTokens_append inner last]

/-- The tokens of `executa cat timp a executa sf cat timp b`. -/
def nestedLoop : List Token :=
  [⟨.executa, "executa", .start⟩, ⟨.cat, "cat", .start⟩, ⟨.timp, "timp", .start⟩,
   ⟨.ident, "a", .start⟩, ⟨.executa, "executa", .start⟩, ⟨.sf, "sf", .start⟩,
   ⟨.cat, "cat", .start⟩, ⟨.timp, "timp", .start⟩, ⟨.ident, "b", .start⟩]

/-- The first clause opens a loop in the block of the loop that the second one closes. -/
theorem read_nestedLoop :
    (∀ token ∈ nestedLoop, token.kind ≠ .eof) ∧
    (read (.ofTokens (nestedLoop ++ [.eof .start]))).1 =
      .ok { statements := [.doWhile [.whileDo (.ident "a") []] (.ident "b")] } ∧
    Statement.BlockWord nestedLoop [.doWhile [.whileDo (.ident "a") []] (.ident "b")] ∧
    ¬ Statement.BlockWord nestedLoop [.doWhile [] (.ident "a"), .doWhile [] (.ident "b")] := by
  have inner : ∀ token ∈ nestedLoop, token.kind ≠ .eof := by decide
  have found : (read (.ofTokens (nestedLoop ++ [.eof .start]))).1 =
      .ok { statements := [.doWhile [.whileDo (.ident "a") []] (.ident "b")] } := by cbv
  obtain ⟨accepts, unique⟩ := read_eq_ok_iff_blockWord inner
    (show (Token.eof .start).kind = .eof from rfl)
  have derived := (accepts _).mp found
  exact ⟨inner, found, derived, fun other => by simpa using unique _ _ derived other⟩

end Program

end Pseudocod

import Pseudocod.Expr.Parser
import Pseudocod.Statement.Basic

/-!
# Reading statements

    statement ::= simple (";" simple)* | if | count | while | do_while | do_until
    simple    ::= ident "<-" expr | ident "<->" ident
                | "citeste" ident ("," ident)* | "scrie" expr ("," expr)*
    if        ::= "daca" expr "atunci" statement* ("altfel" statement*)? "sf"
    count     ::= "pentru" ident "<-" expr "," expr ("," expr)? "executa" statement* "sf"
    while     ::= "cat" "timp" expr "executa" statement* "sf"
    do_while  ::= "executa" statement* "cat" "timp" expr
    do_until  ::= "repeta" statement* "pana" "cand" expr

In the block of a loop opened by `executa`, the words `cat timp` and a condition either close the
loop or open a loop of their own. They open one if `executa`, statements and `sf` follow; otherwise
they close the innermost loop that is open, and an `executa` behind them opens the next statement.

* `Statement.parseBlock_nil`: at the end of the tokens a block is complete.
-/

namespace Pseudocod.Statement

/-- Whether a token of this kind begins a statement. -/
def startsWith : Kind → Bool
  | .ident | .citeste | .scrie | .daca | .pentru | .cat | .executa | .repeta => true
  | _ => false

/-- Whether the first of some tokens begins a statement. -/
def startsAt : List Token → Bool
  | [] => false
  | token :: _ => startsWith token.kind

/-- The reader of a simple statement. -/
def parseSimple : Reader Statement
  | [] => .error { expected := .simpleStatement, rest := [] }
  | token :: rest =>
    match token.kind with
    | .citeste => do
      let names ← separated .comma (expect .ident .readName) rest
      return names.mapWithin .read (length_le_cons token rest)
    | .scrie => do
      let values ← separated .comma Expr.parse rest
      return values.mapWithin .write (length_le_cons token rest)
    | .ident =>
      match accept .assign rest with
      | some next => do
        let value ← Expr.parse next.rest
        return value.mapWithin (.assign token.text) (Nat.le_succ_of_le (Nat.le_of_lt next.shorter))
      | none =>
        match accept .swap rest with
        | some next => do
          let right ← expect .ident .identifier next.rest
          return right.mapWithin (.swap token.text) (Nat.le_succ_of_le (Nat.le_of_lt next.shorter))
        | none => .error { expected := .assignOrSwap token.text, rest }
    | _ => .error { expected := .simpleStatement, rest := token :: rest }

/-- Simple statements on one line: a lone one stands for itself, several make a sequence. -/
def ofParts : List Statement → Statement
  | [part] => part
  | parts => .sequence parts

/-- The reader of the simple statements on one line. -/
def parseLine : Reader Statement := fun tokens => do
  let parts ← separated .semicolon parseSimple tokens
  return parts.map ofParts

/-- The tokens after the words `cat timp`, if these come first. -/
def acceptCatTimp (tokens : List Token) : Option (Parsed Unit tokens.length) := do
  let cat ← accept .cat tokens
  let timp ← accept .timp cat.rest
  return timp.mapWithin (fun _ => ()) (Nat.le_of_lt cat.shorter)

/-- The parts of a counting loop that come before its block. -/
structure CountHeader where
  name : String
  first : Expr
  last : Expr
  step : Option Expr

/-- The reader of what stands between `pentru` and the block of a counting loop. -/
def parseCountHeader : Reader CountHeader := fun tokens => do
  let name ← expect .ident .loopName tokens
  let assign ← expect .assign .loopAssign name.rest
  let first ← Expr.parse assign.rest
  let comma ← expect .comma .loopComma first.rest
  let last ← Expr.parse comma.rest
  match accept .comma last.rest with
  | some next =>
    let step ← Expr.parse next.rest
    let opened ← expect .executa .loopExecuta step.rest
    return opened.mapWithin (fun _ => ⟨name.value, first.value, last.value, some step.value⟩) (by
      have := name.shorter; have := assign.shorter; have := first.shorter
      have := comma.shorter; have := last.shorter; have := next.shorter
      have := step.shorter; omega)
  | none =>
    let opened ← expect .executa .loopExecuta last.rest
    return opened.mapWithin (fun _ => ⟨name.value, first.value, last.value, none⟩) (by
      have := name.shorter; have := assign.shorter; have := first.shorter
      have := comma.shorter; have := last.shorter; omega)

/-- The reader of a condition and a word of kind `word` behind it. -/
def parseCondition (word : Kind) (expected : Expected) : Reader Expr := fun tokens => do
  let condition ← Expr.parse tokens
  let opened ← expect word expected condition.rest
  return opened.mapWithin (fun _ => condition.value) (Nat.le_of_lt condition.shorter)

mutual

/-- The reader of a statement. -/
def parse (tokens : List Token) : Except Failure (Parsed Statement tokens.length) :=
  match tokens with
  | [] => parseLine []
  | token :: rest =>
    match token.kind with
    | .daca => do
      let condition ← parseCondition .atunci .atunci rest
      let body ← parseBlock condition.rest
      match accept .altfel body.rest with
      | some next =>
        let alternative ← parseBlock next.rest
        let close ← expect .sf .closeDaca alternative.rest
        return close.mapWithin (fun _ => .ifElse condition.value body.value alternative.value) (by
          have := condition.shorter; have := body.shorter; have := next.shorter
          have := alternative.shorter; simp only [List.length_cons]; omega)
      | none =>
        let close ← expect .sf .closeDaca body.rest
        return close.mapWithin (fun _ => .ifThen condition.value body.value) (by
          have := condition.shorter; have := body.shorter; simp only [List.length_cons]; omega)
    | .pentru => do
      let header ← parseCountHeader rest
      let body ← parseBlock header.rest
      let close ← expect .sf .closePentru body.rest
      return close.mapWithin
        (fun _ => .count header.value.name header.value.first header.value.last header.value.step
          body.value) (by
          have := header.shorter; have := body.shorter; simp only [List.length_cons]; omega)
    | .cat => do
      let timp ← expect .timp .timp rest
      let condition ← parseCondition .executa .whileExecuta timp.rest
      let body ← parseBlock condition.rest
      let close ← expect .sf .closeCatTimp body.rest
      return close.mapWithin (fun _ => .whileDo condition.value body.value) (by
        have := timp.shorter; have := condition.shorter; have := body.shorter
        simp only [List.length_cons]; omega)
    | .executa => do
      let loop ← parseLoop rest
      return loop.mapWithin (fun loop => .doWhile loop.1 loop.2) (length_le_cons token rest)
    | .repeta => do
      let body ← parseBlock rest
      let pana ← expect .pana .closeRepeta body.rest
      let cand ← expect .cand .cand pana.rest
      let condition ← Expr.parse cand.rest
      return condition.mapWithin (.doUntil body.value) (by
        have := body.shorter; have := pana.shorter; have := cand.shorter
        simp only [List.length_cons]; omega)
    | _ => parseLine (token :: rest)
termination_by (tokens.length, 0)
decreasing_by
  · have := condition.shorter; apply Prod.Lex.left; simp only [List.length_cons]; omega
  · have := condition.shorter; have := body.shorter; have := next.shorter
    apply Prod.Lex.left; simp only [List.length_cons]; omega
  · have := header.shorter; apply Prod.Lex.left; simp only [List.length_cons]; omega
  · have := timp.shorter; have := condition.shorter
    apply Prod.Lex.left; simp only [List.length_cons]; omega
  · apply Prod.Lex.left; simp only [List.length_cons]; omega
  · apply Prod.Lex.left; simp only [List.length_cons]; omega

/-- The statements up to the first token that does not begin one. -/
def parseBlock (tokens : List Token) :
    Except Failure (Parsed (List Statement) (tokens.length + 1)) :=
  if startsAt tokens then do
    let first ← parse tokens
    let others ← parseBlock first.rest
    return others.mapWithin (first.value :: ·) (Nat.succ_le_succ (Nat.le_of_lt first.shorter))
  else .ok ⟨[], tokens, Nat.lt_succ_self _⟩
termination_by (tokens.length, 1)
decreasing_by
  · exact Prod.Lex.right _ Nat.zero_lt_one
  · exact Prod.Lex.left _ _ first.shorter

/-- The block of a loop that was opened by `executa`, and the condition that closes the loop. -/
def parseLoop (tokens : List Token) :
    Except Failure (Parsed (List Statement × Expr) tokens.length) :=
  match acceptCatTimp tokens with
  | some clause => do
    let condition ← Expr.parse clause.rest
    have lt : condition.rest.length < tokens.length :=
      Nat.lt_trans condition.shorter clause.shorter
    let closed : Parsed (List Statement × Expr) tokens.length :=
      ⟨([], condition.value), condition.rest, lt⟩
    match accept .executa condition.rest with
    | none => return closed
    | some opened =>
      match parseBlock opened.rest with
      | .error _ => return closed
      | .ok body =>
        match accept .sf body.rest with
        | none => return closed
        | some close =>
          let loop ← parseLoop close.rest
          return loop.mapWithin
            (fun loop => (.whileDo condition.value body.value :: loop.1, loop.2)) (by
              have := opened.shorter; have := body.shorter; have := close.shorter; omega)
  | none =>
    if startsAt tokens then do
      let first ← parse tokens
      let loop ← parseLoop first.rest
      return loop.mapWithin (fun loop => (first.value :: loop.1, loop.2))
        (Nat.le_of_lt first.shorter)
    else .error { expected := .closeExecuta, rest := tokens }
termination_by (tokens.length, 1)
decreasing_by
  · have := opened.shorter; apply Prod.Lex.left; omega
  · have := opened.shorter; have := body.shorter; have := close.shorter
    apply Prod.Lex.left; omega
  · exact Prod.Lex.right _ Nat.zero_lt_one
  · exact Prod.Lex.left _ _ first.shorter

end

theorem parseBlock_nil : parseBlock [] = .ok ⟨[], [], Nat.lt_succ_self _⟩ := by
  rw [parseBlock]; rfl

end Pseudocod.Statement

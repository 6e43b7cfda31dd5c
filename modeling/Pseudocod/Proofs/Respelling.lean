import Pseudocod.Proofs.EarliestError
import Pseudocod.Proofs.Scan.Uniform

/-!
# Programs in another spelling

A program can be written in many ways: with other gaps, comments and line breaks, and with another
spelling of a word that has several. What is read depends on none of this. Of two lists of tokens
that correspond either both are read as the same program, or both fail at tokens of the same number
with the same words for what was looked for.

* `Expr.uniform_scanFrom`, `Statement.uniform_scans`: the readers that call each other.
* `Program.failsAt_of_programScan`: the number of the token at which reading fails.
* `Program.parse_respelled`: corresponding tokens, and sources whose tokens correspond.
-/

namespace Pseudocod

/-! ## Expressions -/

namespace Expr

open Scan (andThen one done)

theorem uniform_leafScan {bound : Nat} (expected : Expected) : Uniform bound (leafScan expected) :=
  .branchOpen rfl (fun _ => .done _) (Nat.le_succ _) <|
    .branchOpen rfl (fun _ => .done _) (Nat.le_succ _) (.map _ (.one rfl _))

theorem uniform_primaryScan {bound : Nat} (ih : ∀ lowest, Uniform bound (scanFrom lowest)) :
    Uniform (bound + 1) primaryScan := by
  have le := Nat.le_refl (bound + 1)
  have bracketed (op : UnaryOp) (kind : Kind) (expected : Expected) :
      Uniform bound ((scanFrom 1).andThen fun operand =>
        (one kind expected).map fun _ => unary op operand) :=
    .andThen (ih 1) fun _ => .word _ _ _
  rw [primaryScan_eq]
  exact .branch (.map _ (ih 4)) le <| .branch (.map _ (uniform_leafScan _)) le <|
    .branch (.map _ (uniform_leafScan _)) le <| .branch (bracketed _ _ _) le <|
    .branch (bracketed _ _ _) le (uniform_leafScan _)

theorem uniform_climbScan {bound : Nat} (ih : ∀ lowest, Uniform bound (scanFrom lowest))
    (ihClimb : ∀ lowest left, Uniform bound (climbScan lowest left)) (lowest : Nat)
    (left : Expr) : Uniform (bound + 1) (climbScan lowest left) := by
  refine .ofFirst (Nat.le_refl _) ⟨done left, .done left, climbScan_nil lowest left⟩
    fun token token' alike => ?_
  have cons := climbScan_cons lowest left token
  have cons' := climbScan_cons lowest left token'
  rw [← alike.kind] at cons'
  cases hop : token.kind.binaryOp? with
  | none =>
    rw [hop] at cons cons'
    exact .inr ⟨done left, .done left, cons, cons'⟩
  | some op =>
    rw [hop] at cons cons'
    by_cases lt : op.level < lowest
    · exact .inr ⟨done left, .done left, fun rest => (cons rest).trans (if_pos lt),
        fun rest => (cons' rest).trans (if_pos lt)⟩
    · exact .inl ⟨_, .andThen (ih _) fun right => ihClimb lowest (.binary op left right),
        fun rest => (cons rest).trans (if_neg lt), fun rest => (cons' rest).trans (if_neg lt)⟩

/-- An expression is read alike in every spelling. -/
theorem uniform_scanFrom {bound : Nat} (lowest : Nat) : Uniform bound (scanFrom lowest) := by
  have both : (∀ lowest, Uniform bound (scanFrom lowest)) ∧
      ∀ lowest left, Uniform bound (climbScan lowest left) := by
    induction bound with
    | zero => exact ⟨fun _ => .zero _, fun _ _ => .zero _⟩
    | succ bound ih =>
      have climbs := uniform_climbScan ih.1 ih.2
      refine ⟨fun lowest => ?_, climbs⟩
      rw [scanFrom_eq]
      exact .andThen (uniform_primaryScan ih.1) (climbs lowest)
  exact both.1 lowest

end Expr

/-! ## Statements -/

namespace Statement

open Scan (andThen one)

section Bounded

variable {bound : Nat}

theorem uniform_exprScan : Uniform bound exprScan :=
  Expr.uniform_scanFrom 1

theorem uniform_namesScan : Uniform bound namesScan :=
  .separated fun bound => by
    rw [Reader.scan_expect]
    exact .one rfl _

theorem uniform_simpleScan : Uniform bound simpleScan := by
  have le := Nat.le_succ bound
  have values : Uniform bound valuesScan := .separated fun _ => uniform_exprScan
  exact .branch (.map _ uniform_namesScan) le <|
    .branch (.map _ values) le <|
    .branchOpen rfl (fun name => .branch (.map _ uniform_exprScan) le <|
      .branch (.map _ (.one rfl _)) le <| .fail _) le <| .fail _

theorem uniform_lineScan : Uniform bound lineScan :=
  .map ofParts (.separated fun _ => scan_parseSimple ▸ uniform_simpleScan)

theorem uniform_headerScan : Uniform bound headerScan :=
  .andThen (.one rfl _) fun _ => .behind _ _ <| .andThen uniform_exprScan fun _ =>
    .behind _ _ <| .andThen uniform_exprScan fun _ =>
      .branch (.andThen uniform_exprScan fun _ => .word _ _ _) (Nat.le_succ _) (.word _ _ _)

theorem uniform_closedScan (hBlock : Uniform bound blockScan) (word : Kind) (expected : Expected) :
    Uniform bound (closedScan word expected) :=
  .andThen hBlock fun _ => .word _ _ _

theorem uniform_bodyScan (hBlock : Uniform bound blockScan) : Uniform bound bodyScan :=
  .behind _ _ (uniform_closedScan hBlock _ _)

theorem uniform_otherScan (hBlock : Uniform bound blockScan) : Uniform (bound + 1) otherScan := by
  have le := Nat.le_refl (bound + 1)
  have branches (condition : Expr) : Uniform bound (branchesScan condition) :=
    .andThen hBlock fun _ => .branch (.map _ (uniform_closedScan hBlock _ _)) (Nat.le_succ _)
      (.word _ _ _)
  exact .branch (.andThen uniform_exprScan fun condition => .behind _ _ (branches condition)) le <|
    .branch (.andThen uniform_headerScan fun _ => .map _ (uniform_closedScan hBlock _ _)) le <|
    .branch (.behind _ _ (.andThen uniform_exprScan fun _ =>
      .map _ (uniform_bodyScan hBlock))) le <|
    .branch (.andThen hBlock fun _ => .behind _ _ (.behind _ _ (.map _ uniform_exprScan))) le
      uniform_lineScan

theorem uniform_statementScan (hBlock : Uniform bound blockScan)
    (hLoop : Uniform bound loopScan) : Uniform (bound + 1) statementScan := by
  rw [statementScan_eq]
  exact .branch (.map _ hLoop) (Nat.le_refl _) (uniform_otherScan hBlock)

theorem uniform_blockScan (hStatement : Uniform (bound + 1) statementScan)
    (hBlock : Uniform bound blockScan) : Uniform (bound + 1) blockScan := by
  rw [blockScan_eq]
  exact .choose (hStatement.andThenWithin (fun _ => .map _ hBlock) Reader.lt_of_scan) (.done [])

theorem uniform_loopScan (hStatement : Uniform (bound + 1) statementScan)
    (hBlock : Uniform bound blockScan) (hLoop : Uniform bound loopScan) :
    Uniform (bound + 1) loopScan := by
  have clause (condition : Expr) : Uniform bound (clauseScan condition) :=
    .attempt (uniform_bodyScan hBlock) (fun _ => .map _ hLoop) faithful_bodies.length_lt
  rw [loopScan_eq]
  exact .branch (.behind _ _ (.andThen uniform_exprScan clause)) (Nat.le_refl _) <|
    .choose (hStatement.andThenWithin (fun _ => .map _ hLoop) Reader.lt_of_scan) (.fail _)

end Bounded

/-- Statements are read alike in every spelling. -/
theorem uniform_scans (bound : Nat) : Uniform bound blockScan ∧ Uniform bound loopScan := by
  induction bound with
  | zero => exact ⟨.zero _, .zero _⟩
  | succ bound ih =>
    obtain ⟨hBlock, hLoop⟩ := ih
    have hStatement := uniform_statementScan hBlock hLoop
    exact ⟨uniform_blockScan hStatement hBlock, uniform_loopScan hStatement hBlock hLoop⟩

end Statement

/-! ## Streams -/

namespace TokenStream

theorem alike_pending {tokens others : List Token}
    (alike : List.Forall₂ Token.Alike tokens others) :
    List.Forall₂ Token.Alike (ofTokens tokens).pending (ofTokens others).pending := by
  rw [pending_ofTokens, pending_ofTokens]
  induction alike with
  | nil => exact .nil
  | cons first _ ih =>
    rw [List.takeWhile_cons, List.takeWhile_cons, first.kind]
    split
    · exact .cons first ih
    · exact .nil

/-- The token of the given number, counted from 0. Without one of kind `eof` among the tokens the
end of their stream comes behind the last one. -/
def tokenAt (tokens : List Token) (index : Nat) : Token :=
  match tokens[index]? with
  | none => (ofTokens tokens).eof
  | some token => if token.kind = .eof then .eof token.location else token

theorem pending_untilEof_getD (stop : Location) {tokens : List Token} {index : Nat}
    (le : index ≤ (untilEof stop tokens).pending.length) :
    (untilEof stop tokens).pending[index]?.getD (untilEof stop tokens).eof =
      match tokens[index]? with
      | none => (untilEof stop tokens).eof
      | some token => if token.kind = .eof then .eof token.location else token := by
  induction tokens generalizing index with
  | nil => rfl
  | cons token tokens ih =>
    by_cases last : token.kind = .eof
    · simp only [untilEof, if_pos last, List.length_nil, Nat.le_zero] at le ⊢
      subst le
      simp [last, eof]
    · simp only [untilEof, if_neg last, List.length_cons] at le ⊢
      cases index with
      | zero => simp [last]
      | succ index => exact ih (Nat.le_of_succ_le_succ le)

theorem pending_getD {tokens : List Token} {index : Nat}
    (le : index ≤ (ofTokens tokens).pending.length) :
    (ofTokens tokens).pending[index]?.getD (ofTokens tokens).eof = tokenAt tokens index :=
  pending_untilEof_getD _ le

end TokenStream

/-! ## Programs -/

namespace Program

open TokenStream (tokenAt)

theorem uniform_endScan {bound : Nat} (program : Program) : Uniform bound (endScan program) where
  rest_le {tokens} _ := by cases tokens <;> exact Nat.le_refl _
  alike corresponding _ := by
    cases corresponding with
    | nil => exact .ok .nil
    | cons first others => exact .error (.cons first others)

theorem uniform_programScan {bound : Nat} : Uniform bound programScan :=
  .andThen (Statement.uniform_scans bound).1 fun _ => uniform_endScan _

/-- Reading the tokens fails at the one of the given number, before which all tokens were used. -/
def FailsAt (tokens : List Token) (index : Nat) (expected : Expected) : Prop :=
  ∃ left, read (.ofTokens tokens) = (.error { expected, found := tokenAt tokens index }, left) ∧
    index + left.pending.length = (TokenStream.ofTokens tokens).pending.length

/-- There is one token only at which reading fails. -/
theorem FailsAt.unique {tokens : List Token} {index index' : Nat} {expected expected' : Expected}
    (fails : FailsAt tokens index expected) (fails' : FailsAt tokens index' expected') :
    index = index' ∧ expected = expected' := by
  obtain ⟨left, failed, count⟩ := fails
  obtain ⟨left', failed', count'⟩ := fails'
  obtain ⟨same, rfl⟩ := Prod.mk.inj (failed.symm.trans failed')
  exact ⟨by omega, congrArg ParseError.expected (Except.error.inj same)⟩

theorem read_of_programScan {stream : TokenStream} {program : Program} {rest : List Token}
    (found : programScan stream.pending = .ok (program, rest)) : (read stream).1 = .ok program := by
  rw [read, parseTokens_eq, found]
  rfl

/-- Where reading fails is said by how many tokens are left. -/
theorem failsAt_of_programScan {tokens : List Token} {failure : Failure}
    (found : programScan (TokenStream.ofTokens tokens).pending = .error failure) :
    FailsAt tokens ((TokenStream.ofTokens tokens).pending.length - failure.rest.length)
      failure.expected := by
  obtain ⟨before, _, _, eq, _⟩ :=
    faithful_programScan.begin_of_error (Nat.lt_succ_self _) found
  have index : (TokenStream.ofTokens tokens).pending.length - failure.rest.length =
      before.length := by
    rw [eq, List.length_append, Nat.add_sub_cancel]
  have le : before.length ≤ (TokenStream.ofTokens tokens).pending.length := by
    rw [eq, List.length_append]
    exact Nat.le_add_right _ _
  have place : failure.rest.head?.getD (TokenStream.ofTokens tokens).eof =
      tokenAt tokens before.length := by
    rw [← TokenStream.pending_getD le, eq, List.getElem?_append_right (Nat.le_refl _), Nat.sub_self,
      List.head?_eq_getElem?]
  rw [index]
  refine ⟨{ TokenStream.ofTokens tokens with pending := failure.rest }, ?_, ?_⟩
  · rw [read, parseTokens_eq, found, ← place]
    rfl
  · rw [eq, List.length_append]

/-- What becomes of tokens that correspond: the same program, or failures at tokens of the same
number with the same words for what was looked for. -/
theorem read_alike {tokens others : List Token} (alike : List.Forall₂ Token.Alike tokens others) :
    (∃ program, (read (.ofTokens tokens)).1 = .ok program ∧
      (read (.ofTokens others)).1 = .ok program) ∨
    ∃ index expected, FailsAt tokens index expected ∧ FailsAt others index expected := by
  have pending := TokenStream.alike_pending alike
  have outcomes := uniform_programScan.alike pending (Nat.lt_succ_self _)
  generalize found : programScan (TokenStream.ofTokens tokens).pending = outcome at outcomes
  generalize found' : programScan (TokenStream.ofTokens others).pending = outcome' at outcomes
  cases outcomes with
  | ok => exact .inl ⟨_, read_of_programScan found, read_of_programScan found'⟩
  | error rest =>
    have fails' := failsAt_of_programScan found'
    rw [← pending.length_eq, ← rest.length_eq] at fails'
    exact .inr ⟨_, _, failsAt_of_programScan found, fails'⟩

theorem parse_of_read {source : String} {tokens : List Token} {program : Program}
    (tokenized : tokenize source = .ok tokens) (h : (read (.ofTokens tokens)).1 = .ok program) :
    parse source = .ok program := by
  rw [parse, tokenized]
  exact congrArg (Except.mapError ParseError.toSyntaxError) h

theorem FailsAt.parse_eq {source : String} {tokens : List Token} {index : Nat}
    {expected : Expected} (fails : FailsAt tokens index expected)
    (tokenized : tokenize source = .ok tokens) :
    parse source = .error (.grammatical expected.message (tokenAt tokens index).describe
      (tokenAt tokens index).location) := by
  obtain ⟨left, failed, _⟩ := fails
  rw [parse, tokenized]
  exact congrArg (fun result => result.1.mapError ParseError.toSyntaxError) failed

/-- What is read depends neither on the layout nor on the spelling. Tokens that correspond are read
as the same program, or reading fails at tokens of the same number with the same words for what was
looked for. Two sources whose tokens correspond are the same program, or the error of each is at its
token of that number. -/
theorem parse_respelled {tokens others : List Token}
    (alike : List.Forall₂ Token.Alike tokens others) :
    ((∃ program, (read (.ofTokens tokens)).1 = .ok program ∧
        (read (.ofTokens others)).1 = .ok program) ∨
      ∃ index expected, FailsAt tokens index expected ∧ FailsAt others index expected) ∧
    ∀ source other : String, tokenize source = .ok tokens → tokenize other = .ok others →
      (∃ program, parse source = .ok program ∧ parse other = .ok program) ∨
      ∃ index expected, FailsAt tokens index expected ∧ FailsAt others index expected ∧
        parse source = .error (.grammatical expected.message (tokenAt tokens index).describe
          (tokenAt tokens index).location) ∧
        parse other = .error (.grammatical expected.message (tokenAt others index).describe
          (tokenAt others index).location) := by
  refine ⟨read_alike alike, fun source other tokenized tokenized' => ?_⟩
  rcases read_alike alike with ⟨program, h, h'⟩ | ⟨index, expected, fails, fails'⟩
  · exact .inl ⟨program, parse_of_read tokenized h, parse_of_read tokenized' h'⟩
  · exact .inr ⟨index, expected, fails, fails', fails.parse_eq tokenized,
      fails'.parse_eq tokenized'⟩

/-- The tokens of `x <-> y; a <- sau`. -/
def swapTokens : List Token :=
  [⟨.ident, "x", ⟨1, 1, 0⟩⟩, ⟨.swap, "<->", ⟨1, 3, 2⟩⟩, ⟨.ident, "y", ⟨1, 7, 6⟩⟩,
   ⟨.semicolon, ";", ⟨1, 8, 7⟩⟩, ⟨.ident, "a", ⟨1, 10, 9⟩⟩, ⟨.assign, "<-", ⟨1, 12, 11⟩⟩,
   ⟨.or, "sau", ⟨1, 15, 14⟩⟩, .eof ⟨1, 18, 17⟩]

/-- The same tokens in another spelling, spread over two lines. -/
def swapTokensRespelled : List Token :=
  [⟨.ident, "x", ⟨1, 1, 0⟩⟩, ⟨.swap, "<-->", ⟨1, 2, 1⟩⟩, ⟨.ident, "y", ⟨1, 6, 5⟩⟩,
   ⟨.semicolon, ";", ⟨1, 7, 6⟩⟩, ⟨.ident, "a", ⟨2, 3, 14⟩⟩, ⟨.assign, "<-", ⟨2, 5, 16⟩⟩,
   ⟨.or, "SAU", ⟨2, 8, 19⟩⟩, .eof ⟨2, 11, 22⟩]

theorem parse_respelled_sau :
    List.Forall₂ Token.Alike swapTokens swapTokensRespelled ∧
    FailsAt swapTokens 6 .expression ∧ FailsAt swapTokensRespelled 6 .expression ∧
    parse "x <-> y; a <- sau" = .error (.grammatical "expression" "'sau'" ⟨1, 15, 14⟩) ∧
    parse "x<-->y; # y\n  a <- SAU" = .error (.grammatical "expression" "'SAU'" ⟨2, 8, 19⟩) := by
  have alike : List.Forall₂ Token.Alike swapTokens swapTokensRespelled := by decide
  have tokenized : tokenize "x <-> y; a <- sau" = .ok swapTokens := by cbv
  have tokenized' : tokenize "x<-->y; # y\n  a <- SAU" = .ok swapTokensRespelled := by cbv
  have fails : FailsAt swapTokens 6 .expression :=
    ⟨⟨[⟨.or, "sau", ⟨1, 15, 14⟩⟩], ⟨1, 18, 17⟩⟩, by cbv, by cbv⟩
  rcases (parse_respelled alike).2 _ _ tokenized tokenized' with
    ⟨program, read, _⟩ | ⟨index, expected, same, fails', failed, failed'⟩
  · rw [fails.parse_eq tokenized] at read
    cases read
  · obtain ⟨rfl, rfl⟩ := fails.unique same
    exact ⟨alike, fails, fails', failed, failed'⟩

end Program

end Pseudocod

import Pseudocod.Proofs.Positions
import Pseudocod.Proofs.Resumption
import Pseudocod.Proofs.Scan.Quoting

/-!
# What messages quote

The message of an error names what was looked for and what was found in its place. It quotes a word
of the source, or a character with which no word begins, and so it is always on one line. An error
is in front of the word or character that it names, or at the end of the source.

* `Statement.quoting_scans`: the readers that call each other quote what they are given.
* `Lexeme.Legal.oneLine`, `Lexeme.fault_cases`: words and faults are on one line.
* `Program.parse_error_cases`: faults, and tokens that could not be used.
* `Program.oneLine_parse_error`, `Program.parse_error_place`: the message and the place of an error.
-/

namespace Pseudocod

/-! ## Expressions -/

namespace Expr

open Scan (andThen one done)

variable {names : List String} {bound : Nat}

theorem quoting_leafScan {expected : Expected} (plain : expected.quoted ⊆ names) :
    Quoting names bound (leafScan expected) :=
  .branch (fun _ => .done _) (Nat.le_succ _) <|
    .branch (fun _ => .done _) (Nat.le_succ _) (.map _ (.one plain))

theorem quoting_primaryScan (ih : ∀ lowest, Quoting names bound (scanFrom lowest)) :
    Quoting names (bound + 1) primaryScan := by
  have le := Nat.le_refl (bound + 1)
  have plain := List.nil_subset names
  have bracketed (op : UnaryOp) {kind : Kind} {expected : Expected} (h : expected.quoted ⊆ names) :
      Quoting names bound ((scanFrom 1).andThen fun operand =>
        (one kind expected).map fun _ => unary op operand) :=
    .andThen (ih 1) fun _ => .map _ (.one h)
  rw [primaryScan_eq]
  exact .branch (fun _ => .map _ (ih 4)) le <|
    .branch (fun _ => .map _ (quoting_leafScan plain)) le <|
    .branch (fun _ => .map _ (quoting_leafScan plain)) le <|
    .branch (fun _ => bracketed _ plain) le <|
    .branch (fun _ => bracketed _ plain) le (quoting_leafScan plain)

theorem quoting_climbScan (ih : ∀ lowest, Quoting names bound (scanFrom lowest))
    (ihClimb : ∀ lowest left, Quoting names bound (climbScan lowest left)) (lowest : Nat)
    (left : Expr) : Quoting names (bound + 1) (climbScan lowest left) := by
  refine .ofFirst (Nat.le_refl _) ⟨done left, .done left, climbScan_nil lowest left⟩ fun token => ?_
  have cons := climbScan_cons lowest left token
  cases hop : token.kind.binaryOp? with
  | none =>
    rw [hop] at cons
    exact .inr ⟨done left, .done left, cons⟩
  | some op =>
    rw [hop] at cons
    by_cases lt : op.level < lowest
    · exact .inr ⟨done left, .done left, fun rest => (cons rest).trans (if_pos lt)⟩
    · have onward := Quoting.andThen (ih (op.level + 1)) fun right =>
        ihClimb lowest (.binary op left right)
      exact .inl ⟨_, onward.weaken (List.subset_cons_self _ _),
        fun rest => (cons rest).trans (if_neg lt)⟩

theorem quoting_scanFrom (lowest : Nat) : Quoting names bound (scanFrom lowest) := by
  have both : (∀ lowest, Quoting names bound (scanFrom lowest)) ∧
      ∀ lowest left, Quoting names bound (climbScan lowest left) := by
    induction bound with
    | zero => exact ⟨fun _ => .zero _, fun _ _ => .zero _⟩
    | succ bound ih =>
      have climbs := quoting_climbScan ih.1 ih.2
      refine ⟨fun lowest => ?_, climbs⟩
      rw [scanFrom_eq]
      exact .andThen (quoting_primaryScan ih.1) (climbs lowest)
  exact both.1 lowest

end Expr

/-! ## Statements -/

namespace Statement

variable {names : List String} {bound : Nat}

theorem quoting_exprScan : Quoting names bound exprScan :=
  Expr.quoting_scanFrom 1

/-- A token of some kind for whose absence there are fixed words. -/
theorem quoting_word {kind : Kind} {expected : Expected} (plain : expected.quoted = []) :
    Quoting names bound (Scan.one kind expected) :=
  .one (plain ▸ List.nil_subset names)

theorem quoting_simpleScan : Quoting names bound simpleScan := by
  have le := Nat.le_succ bound
  have listed : Quoting names bound namesScan :=
    .separated fun bound => by
      rw [Reader.scan_expect]
      exact quoting_word rfl
  have values : Quoting names bound valuesScan := .separated fun _ => quoting_exprScan
  have update (name : String) : Quoting (name :: names) bound (updateScan name) :=
    .branch (fun _ => .map _ quoting_exprScan) le <|
      .branch (fun _ => .map _ (quoting_word rfl)) le <| .fail (by simp [Expected.quoted])
  exact .branch (fun _ => .map _ listed) le <| .branch (fun _ => .map _ values) le <|
    .branchName update le <| .fail (List.nil_subset names)

theorem quoting_lineScan : Quoting names bound lineScan :=
  .map ofParts (.separated fun _ => scan_parseSimple ▸ quoting_simpleScan)

theorem quoting_headerScan : Quoting names bound headerScan :=
  .andThen (quoting_word rfl) fun _ => .andThen (quoting_word rfl) fun _ =>
    .andThen quoting_exprScan fun _ => .andThen (quoting_word rfl) fun _ =>
    .andThen quoting_exprScan fun _ =>
      .branch (fun _ => .andThen quoting_exprScan fun _ => .map _ (quoting_word rfl))
        (Nat.le_succ _) (.map _ (quoting_word rfl))

theorem quoting_closedScan (hBlock : Quoting names bound blockScan) (word : Kind)
    {expected : Expected} (plain : expected.quoted = []) :
    Quoting names bound (closedScan word expected) :=
  .andThen hBlock fun _ => .map _ (quoting_word plain)

theorem quoting_bodyScan (hBlock : Quoting names bound blockScan) :
    Quoting names bound bodyScan :=
  .andThen (quoting_word rfl) fun _ => quoting_closedScan hBlock _ rfl

theorem quoting_otherScan (hBlock : Quoting names bound blockScan) :
    Quoting names (bound + 1) otherScan := by
  have le := Nat.le_refl (bound + 1)
  have branches (condition : Expr) : Quoting names bound (branchesScan condition) :=
    .andThen hBlock fun _ => .branch (fun _ => .map _ (quoting_closedScan hBlock _ rfl))
      (Nat.le_succ _) (.map _ (quoting_word rfl))
  exact .branch (fun _ => .andThen quoting_exprScan fun condition =>
      .andThen (quoting_word rfl) fun _ => branches condition) le <|
    .branch (fun _ => .andThen quoting_headerScan fun _ =>
      .map _ (quoting_closedScan hBlock _ rfl)) le <|
    .branch (fun _ => .andThen (quoting_word rfl) fun _ => .andThen quoting_exprScan fun _ =>
      .map _ (quoting_bodyScan hBlock)) le <|
    .branch (fun _ => .andThen hBlock fun _ => .andThen (quoting_word rfl) fun _ =>
      .andThen (quoting_word rfl) fun _ => .map _ quoting_exprScan) le quoting_lineScan

theorem quoting_statementScan (hBlock : Quoting names bound blockScan)
    (hLoop : Quoting names bound loopScan) : Quoting names (bound + 1) statementScan := by
  rw [statementScan_eq]
  exact .branch (fun _ => .map _ hLoop) (Nat.le_refl _) (quoting_otherScan hBlock)

theorem quoting_blockScan (hStatement : Quoting names (bound + 1) statementScan)
    (hBlock : Quoting names bound blockScan) : Quoting names (bound + 1) blockScan := by
  rw [blockScan_eq]
  exact .choose (hStatement.andThenWithin (fun _ => .map _ hBlock) Reader.lt_of_scan) (.done [])

theorem quoting_loopScan (hStatement : Quoting names (bound + 1) statementScan)
    (hBlock : Quoting names bound blockScan) (hLoop : Quoting names bound loopScan) :
    Quoting names (bound + 1) loopScan := by
  have clause (condition : Expr) : Quoting names bound (clauseScan condition) :=
    .attempt (quoting_bodyScan hBlock) fun _ => .map _ hLoop
  rw [loopScan_eq]
  exact .branch (fun _ => .andThen (quoting_word rfl) fun _ => .andThen quoting_exprScan clause)
      (Nat.le_refl _) <|
    .choose (hStatement.andThenWithin (fun _ => .map _ hLoop) Reader.lt_of_scan)
      (.fail (List.nil_subset names))

/-- The readers of statements quote what they are given, also behind a trial that failed. -/
theorem quoting_scans (names : List String) (bound : Nat) :
    Quoting names bound blockScan ∧ Quoting names bound loopScan := by
  induction bound with
  | zero => exact ⟨.zero _, .zero _⟩
  | succ bound ih =>
    obtain ⟨hBlock, hLoop⟩ := ih
    have hStatement := quoting_statementScan hBlock hLoop
    exact ⟨quoting_blockScan hStatement hBlock, quoting_loopScan hStatement hBlock hLoop⟩

end Statement

/-! ## Programs -/

namespace Program

theorem quoting_endScan {names : List String} {bound : Nat} (program : Program) :
    Quoting names bound (endScan program) where
  rest_suffix {tokens} _ := by cases tokens <;> exact List.suffix_rfl
  quoted_subset {tokens failure} _ found := by
    cases tokens with
    | nil => exact nomatch found
    | cons token rest =>
      cases found
      exact List.nil_subset _

theorem quoting_programScan {names : List String} {bound : Nat} :
    Quoting names bound programScan :=
  .andThen (Statement.quoting_scans names bound).1 fun _ => quoting_endScan _

/-- What the error of a program quotes is the text of a token that was read. -/
theorem quoted_of_read {stream : TokenStream} {error : ParseError}
    (h : (read stream).1 = .error error) :
    error.expected.quoted ⊆ stream.pending.map Token.text := by
  rw [read, parseTokens_eq] at h
  cases found : programScan stream.pending with
  | ok result => simp [found, Except.map] at h
  | error failure =>
    simp only [found, Except.map] at h
    cases h
    have quoting : Quoting [] (stream.pending.length + 1) programScan := quoting_programScan
    exact quoting.quoted_subset (Nat.lt_succ_self _) found

end Program

/-! ## Words on one line -/

/-- Texts without a newline. -/
def OneLine (text : String) : Prop :=
  '\n' ∉ text.toList

instance (text : String) : Decidable (OneLine text) :=
  inferInstanceAs (Decidable ('\n' ∉ text.toList))

theorem oneLine_append {text text' : String} :
    OneLine (text ++ text') ↔ OneLine text ∧ OneLine text' := by
  rw [OneLine, OneLine, OneLine, String.toList_append, List.mem_append, not_or]

theorem OneLine.within {text before after : String} (h : OneLine text)
    (fixed : OneLine before ∧ OneLine after) : OneLine (before ++ text ++ after) :=
  oneLine_append.mpr ⟨oneLine_append.mpr ⟨fixed.1, h⟩, fixed.2⟩

theorem oneLine_of_areDigits {digits : List Char} (h : AreDigits digits) :
    OneLine (String.ofList digits) := by
  rw [OneLine, String.toList_ofList]
  intro newline
  exact Bool.false_ne_true (h.2 _ newline)

theorem oneLine_toString (n : Nat) : OneLine (toString n) := by
  have digits : (toString n).toList = Nat.toDigits 10 n := by simp
  rw [OneLine, digits]
  intro newline
  exact Bool.false_ne_true (Nat.isDigit_of_mem_toDigits (by decide) (by decide) newline)

theorem Lexeme.Legal.oneLine {lexeme : Lexeme} (legal : lexeme.Legal) : OneLine lexeme.text := by
  cases legal with
  | number numeral =>
    rcases numeral with digits | ⟨whole, fraction, eq, hWhole, hFraction⟩
    · have := oneLine_of_areDigits digits
      rwa [String.ofList_toList] at this
    · have both := oneLine_append.mpr ⟨oneLine_of_areDigits hWhole, oneLine_append.mpr
        ⟨show OneLine "." by decide, oneLine_of_areDigits hFraction⟩⟩
      rw [OneLine] at both ⊢
      rw [eq]
      simpa using both
  | string quotable => exact quotable.1
  | ident isName =>
    obtain ⟨⟨first, rest, eq, start, parts⟩, -⟩ := isName
    intro newline
    rw [eq] at newline
    have part : Lexeme.isNamePart '\n' = true := by
      rcases List.mem_cons.mp newline with same | member
      · rw [same]
        exact isNamePart_of_isNameStart start
      · exact parts _ member
    exact absurd part (by decide)
  | spelled member =>
    have : ∀ entry ∈ keywords ++ symbols, OneLine entry.1 := by decide
    exact this _ member

/-- The faults with which no word is read. -/
theorem Lexeme.fault_cases {first : Char} {text : List Char} {fault : Fault}
    (h : (Lexeme.read first text).outcome = .error fault) :
    fault = strayFault first ∨ fault = .openString ∨
      ∃ digits, AreDigits digits ∧ fault = .barePoint (String.ofList digits) := by
  unfold read at h
  split at h
  next =>
    unfold readString at h
    split at h
    next => exact .inr (.inl (Except.error.inj h).symm)
    next =>
      split at h
      next => exact nomatch h
      next => exact .inr (.inl (Except.error.inj h).symm)
  next =>
    split at h
    next digit =>
      have digits := areDigits_takeWhile text digit
      unfold readNumber at h
      split at h
      next =>
        split at h
        next => exact .inr (.inr ⟨_, digits, (Except.error.inj h).symm⟩)
        next => exact nomatch h
      next => exact nomatch h
    next =>
      split at h
      next => exact nomatch h
      next =>
        unfold readSymbol at h
        split at h
        next => exact nomatch h
        next => exact .inl (Except.error.inj h).symm

theorem Fault.oneLine_message {first : Char} {text : List Char} {fault : Fault}
    (solid : IsSolid first) (h : (Lexeme.read first text).outcome = .error fault) :
    OneLine fault.message := by
  rcases Lexeme.fault_cases h with rfl | rfl | ⟨digits, areDigits, rfl⟩
  · unfold Lexeme.strayFault
    split
    next => decide
    next =>
      split
      next => decide
      next =>
        refine OneLine.within ?_ (by decide)
        intro newline
        rw [Char.toString_eq_singleton, String.toList_singleton, List.mem_singleton] at newline
        subst newline
        exact absurd solid (by decide)
  · decide
  · exact (oneLine_of_areDigits areDigits).within (by decide)

theorem Kind.oneLine_describe (kind : Kind) : OneLine kind.describe := by
  cases kind <;> decide

theorem Token.oneLine_describe {token : Token} (h : OneLine token.text) :
    OneLine token.describe := by
  unfold describe
  split
  next => exact oneLine_append.mpr ⟨by decide, h⟩
  next => exact h.within (by decide)
  next => exact h.within (by decide)
  next =>
    split
    next => exact h.within (by decide)
    next => exact token.kind.oneLine_describe

theorem Expected.oneLine_message {expected : Expected}
    (h : ∀ text ∈ expected.quoted, OneLine text) : OneLine expected.message := by
  cases expected with
  | assignOrSwap name =>
    exact (h name (List.mem_singleton_self name)).within (by decide)
  | _ => decide

/-! ## Errors of sources -/

theorem Mark.Stands.oneLine {token : Token} {written rest : List Char}
    (stands : Stands (.found token) written rest) : OneLine token.text := by
  cases stands with
  | eof => exact show OneLine "" by decide
  | word stands => exact stands.legal.oneLine

namespace Program

/-- The token of an error and what the error quotes are among the tokens that were read. -/
theorem mem_of_read_error {source : String} {tokens : List Token} {error : ParseError}
    (tokenized : tokenize source = .ok tokens) (h : (read (.ofTokens tokens)).1 = .error error) :
    error.found ∈ tokens ∧ error.expected.quoted ⊆ tokens.map Token.text := by
  have quoted := quoted_of_read h
  obtain ⟨taken, eq, -, outcome⟩ := read_leaves (.ofTokens tokens)
  rw [h] at outcome
  obtain ⟨words, stop, rfl, lexes⟩ := exists_words_of_tokenize tokenized
  have unended : ∀ token ∈ words, token.kind ≠ .eof :=
    fun token member => (lexes.legal _ (List.mem_map_of_mem member)).not_eof
  rw [TokenStream.ofTokens_append unended rfl] at quoted eq outcome
  refine ⟨?_, List.Subset.trans quoted ?_⟩
  · -- without a token that is left the end is the one of the error
    have found : error.found = (read ⟨words, stop⟩).2.pending.head?.getD (.eof stop) := outcome
    cases left : (read ⟨words, stop⟩).2.pending.head? with
    | none =>
      rw [found, left]
      exact List.mem_append_right _ (List.mem_singleton_self _)
    | some token =>
      rw [found, left]
      refine List.mem_append_left _ ?_
      change words = _ at eq
      rw [eq]
      exact List.mem_append_right _ (List.mem_of_head? left)
  · rw [List.map_append]
    exact List.subset_append_left _ _

/-- An error is a fault of the source, or it is at a token that could not be used. -/
theorem parse_error_cases {source : String} {error : SyntaxError}
    (h : parse source = .error error) :
    (∃ fault, Mark.fault fault ∈ Mark.ofOutcome (tokenize source) ∧ error = fault.toSyntaxError) ∨
      ∃ unusable : ParseError, Mark.found unusable.found ∈ Mark.ofOutcome (tokenize source) ∧
        OneLine unusable.expected.message ∧ error = unusable.toSyntaxError := by
  unfold parse at h
  cases tokenized : tokenize source with
  | error fault =>
    rw [tokenized] at h
    exact .inl ⟨fault, List.mem_singleton_self _, (Except.error.inj h).symm⟩
  | ok tokens =>
    rw [tokenized] at h
    cases failed : (read (.ofTokens tokens)).1 with
    | ok program => simp [failed, Except.mapError] at h
    | error unusable =>
      simp only [failed, Except.mapError] at h
      obtain ⟨found, quoted⟩ := mem_of_read_error tokenized failed
      refine .inr ⟨unusable, List.mem_map_of_mem found, ?_, (Except.error.inj h).symm⟩
      refine Expected.oneLine_message fun text member => ?_
      obtain ⟨token, inside, rfl⟩ := List.mem_map.mp (quoted member)
      have mark : Mark.found token ∈ Mark.ofOutcome (tokenize source) := by
        rw [tokenized]
        exact List.mem_map_of_mem inside
      obtain ⟨_, _, _, -, -, stands⟩ := Cursor.exists_place_of_tokenize mark
      exact stands.oneLine

/-- A message is on one line. -/
theorem oneLine_parse_error {source : String} {error : SyntaxError}
    (h : parse source = .error error) : OneLine error.message := by
  rcases parse_error_cases h with ⟨fault, mark, rfl⟩ | ⟨unusable, mark, expected, rfl⟩
  · obtain ⟨_, _, _, -, -, stands⟩ := Cursor.exists_place_of_tokenize mark
    cases stands with
    | fault solid read => exact Fault.oneLine_message solid read
  · obtain ⟨_, _, _, -, -, stands⟩ := Cursor.exists_place_of_tokenize mark
    exact oneLine_append.mpr
      ⟨expected.within (by decide), Token.oneLine_describe stands.oneLine⟩

/-- An error is in front of a character at which no gap begins, or else the end of the source was
found in place of what was looked for. -/
theorem parse_error_place {source : String} {error : SyntaxError}
    (h : parse source = .error error) :
    ∃ before rest, source.toList = before ++ rest ∧ error.location = Location.start.after before ∧
      (∀ c ∈ rest.head?, IsSolid c) ∧
      (rest = [] → ∃ expected, error = .grammatical expected "end of input" error.location) := by
  rcases parse_error_cases h with ⟨fault, mark, rfl⟩ | ⟨unusable, mark, -, rfl⟩
  · obtain ⟨before, written, rest, whole, place, stands⟩ := Cursor.exists_place_of_tokenize mark
    refine ⟨before, written ++ rest, whole, place, stands.isSolid, ?_⟩
    intro none
    cases stands with
    | fault => cases none
  · obtain ⟨before, written, rest, whole, place, stands⟩ := Cursor.exists_place_of_tokenize mark
    refine ⟨before, written ++ rest, whole, place, stands.isSolid, ?_⟩
    intro none
    obtain ⟨rfl, rfl⟩ := List.append_eq_nil_iff.mp none
    have last : unusable.found.kind = .eof := stands.shows.isEnd_of_nil.1
    refine ⟨unusable.expected.message, ?_⟩
    rw [← Token.describe_of_eof last]
    rfl

end Program

end Pseudocod

import Pseudocod.Proofs.Acceptance
import Pseudocod.Proofs.Scan.Prompt

/-!
# Errors at the earliest token

An error is reported at the first token that keeps a list of tokens from being the beginning of a
program. The failure of a trial, which is forgotten, takes nothing away from this: what is read in
its place goes on at least as far as the trial did.

* `Statement.beyond_loopScan_le`, `Statement.length_blockScan_le`: how far the reading goes that
  takes the place of a trial.
* `Statement.prompt_scans`: what a block is read as depends on no token behind the first one left.
* `Program.read_error_earliest`: the token of an error and the tokens before it.
-/

namespace Pseudocod

/-! ## How far readers get -/

section Length

variable {α β γ : Type}

theorem Outcome.beyond_map (horizon : List Token → List Token) (f : α → β) (scan : Scan α)
    (tokens : List Token) : (scan.map f tokens).beyond horizon = (scan tokens).beyond horizon := by
  unfold Scan.map
  cases scan tokens <;> rfl

theorem Outcome.rest_map (f : α → β) (scan : Scan α) (tokens : List Token) :
    (scan.map f tokens).rest = (scan tokens).rest := by
  unfold Scan.map
  cases scan tokens <;> rfl

/-- If one scan gets at least as far as another one behind the same beginning, then with the
beginning it does as well. -/
theorem Scan.beyond_andThen_le {horizon : List Token → List Token} {first : Scan α}
    {second : α → Scan β} {third : α → Scan γ} {tokens : List Token}
    (h : ∀ middle rest, first tokens = .ok (middle, rest) →
      ((second middle rest).beyond horizon).length ≤ (third middle rest).rest.length) :
    ((first.andThen second tokens).beyond horizon).length ≤
      (first.andThen third tokens).rest.length := by
  unfold Scan.andThen
  cases found : first tokens with
  | error failure => exact Nat.le_refl _
  | ok result => exact h result.1 result.2 found

theorem Faithful.length_le_of_ok {scan : Scan α} {Word : Language α}
    (h : ∀ {bound}, Faithful bound scan Word) {tokens rest : List Token} {value : α}
    (found : scan tokens = .ok (value, rest)) : rest.length ≤ tokens.length :=
  Nat.le_of_lt_succ (h.length_lt (Nat.lt_succ_self _) found)

end Length

namespace Statement

open Scan (map andThen one branch choose done fail attempt)

/-- Where reading stops at the latest if some tokens follow on a condition behind `cat timp`: where
the trial of a block ends. -/
def horizon : List Token → List Token :=
  Prompt.trialEnd bodyScan

theorem faithful_blocks {bound : Nat} : Faithful bound blockScan BlockWord :=
  (faithful_scans bound).2.1

theorem faithful_bodies {bound : Nat} : Faithful bound bodyScan BodyWord :=
  faithful_bodyScan faithful_blocks

/-- The loop that a trial takes for a block reads as far as the trial. -/
theorem beyond_loopScan_le (tokens : List Token) :
    ((loopScan tokens).beyond horizon).length ≤ (blockScan tokens).rest.length := by
  generalize hn : tokens.length = n
  induction n using Nat.strongRecOn generalizing tokens with
  | ind n ih =>
    subst hn
    cases tokens with
    | nil =>
      rw [loopScan_eq, blockScan_eq]
      exact Nat.le_refl _
    | cons token rest =>
      cases starts : startsWith token.kind with
      | false =>
        rw [loopScan_of_not_startsWith rest starts, blockScan_of_not_startsWith rest starts]
        exact Nat.le_refl _
      | true =>
        by_cases hCat : token.kind = .cat
        · rw [loopScan_cat rest hCat, blockScan_cat rest hCat]
          refine Scan.beyond_andThen_le fun _ rest₁ h₁ => ?_
          refine Scan.beyond_andThen_le fun condition rest₂ h₂ => ?_
          have le₁ := Faithful.length_le_of_ok (.one .timp .timp) h₁
          have le₂ := Faithful.length_le_of_ok faithful_exprScan h₂
          unfold clauseScan attempt andThen
          cases found : bodyScan rest₂ with
          | error failure =>
            -- the block fails where the trial of its loop does
            simp only [Outcome.beyond, horizon, Prompt.trialEnd, found]
            exact Nat.le_refl _
          | ok result =>
            have le₃ := Faithful.length_le_of_ok faithful_bodies found
            simp only
            rw [Outcome.beyond_map, Outcome.rest_map]
            exact ih _ (by rw [List.length_cons]; omega) _ rfl
        · rw [loopScan_of_startsWith rest starts hCat, blockScan_of_startsWith rest starts]
          refine Scan.beyond_andThen_le fun first rest₁ h₁ => ?_
          rw [Outcome.beyond_map, Outcome.rest_map]
          exact ih _ (Reader.length_lt_of_scan h₁) _ rfl

theorem rest_of_closedScan {word : Kind} {expected : Expected} {tokens : List Token}
    {failure : Failure} (h : closedScan word expected tokens = .error failure) :
    failure.rest = (blockScan tokens).rest := by
  unfold closedScan andThen map at h
  cases found : blockScan tokens with
  | error failure' =>
    rw [found] at h
    cases h; rfl
  | ok result =>
    simp only [found] at h
    rcases Scan.one_cases word expected result.2 with ⟨close, rest, -, -, eq⟩ | ⟨-, eq⟩
    · rw [eq] at h
      cases h
    · rw [eq] at h
      cases h; rfl

/-- The statements behind a loop are read as far as the trial that took the loop for a block. -/
theorem length_blockScan_le (tokens : List Token) :
    (blockScan tokens).rest.length ≤ (horizon tokens).length := by
  generalize hn : tokens.length = n
  induction n using Nat.strongRecOn generalizing tokens with
  | ind n ih =>
    subst hn
    have le : (blockScan tokens).rest.length ≤ tokens.length :=
      faithful_blocks.length_le (Nat.lt_succ_self tokens.length)
    unfold horizon Prompt.trialEnd
    cases found : bodyScan tokens with
    | ok result => exact le
    | error failure =>
      rw [bodyScan, andThen] at found
      rcases Scan.one_cases .executa .whileExecuta tokens with
        ⟨executa, rest, rfl, h, eq⟩ | ⟨-, eq⟩
      · rw [eq] at found
        have furthest := beyond_loopScan_le rest
        rw [← rest_of_closedScan found] at furthest
        rw [blockScan_executa rest h, andThen]
        cases hLoop : loopScan rest with
        | error failure' =>
          rw [hLoop] at furthest
          exact furthest
        | ok result =>
          rw [hLoop] at furthest
          have shorter := Reader.length_lt_of_scan hLoop
          simp only
          rw [Outcome.rest_map]
          exact Nat.le_trans (ih _ (Nat.lt_succ_of_lt shorter) result.2 rfl) furthest
      · rw [eq] at found
        cases found
        exact le

/-! ## What readers find does not depend on what they leave -/

theorem horizon_le (tokens : List Token) : (horizon tokens).length ≤ tokens.length := by
  have := faithful_bodies.length_le (Nat.lt_succ_self tokens.length)
  unfold horizon Prompt.trialEnd
  cases found : bodyScan tokens with
  | ok result => exact Nat.le_refl _
  | error failure => rw [found] at this; exact this

section Bounded

variable {bound : Nat}

theorem prompt_exprScan : Prompt bound id exprScan :=
  Expr.prompt_parse

theorem prompt_namesScan : Prompt bound id namesScan :=
  .separated fun bound => by
    rw [Reader.scan_expect]
    exact .one _ _

theorem prompt_simpleScan : Prompt bound id simpleScan := by
  have le := Nat.le_succ bound
  have values : Prompt bound id valuesScan := .separated fun _ => Expr.prompt_parse
  exact .branch (fun _ => .map _ prompt_namesScan) le <|
    .branch (fun _ => .map _ values) le <|
    .branch (fun name => .branch (fun _ => .map _ prompt_exprScan) le <|
      .branch (fun _ => .map _ (.one _ _)) le <| .fail _) le <| .fail _

theorem prompt_lineScan : Prompt bound id lineScan :=
  .map ofParts (.separated fun _ => scan_parseSimple ▸ prompt_simpleScan)

theorem prompt_headerScan : Prompt bound id headerScan :=
  .andThen (.one _ _) fun _ => .andThen (.one _ _) fun _ => .andThen prompt_exprScan fun _ =>
    .andThen (.one _ _) fun _ => .andThen prompt_exprScan fun _ =>
      .branch (fun _ => .andThen prompt_exprScan fun _ => .map _ (.one _ _)) (Nat.le_succ _)
        (.map _ (.one _ _))

theorem prompt_closedScan (hBlock : Prompt bound id blockScan) (word : Kind)
    (expected : Expected) : Prompt bound id (closedScan word expected) :=
  .andThen hBlock fun _ => .map _ (.one _ _)

theorem prompt_bodyScan (hBlock : Prompt bound id blockScan) : Prompt bound id bodyScan :=
  .andThen (.one _ _) fun _ => prompt_closedScan hBlock _ _

theorem prompt_otherScan (hBlock : Prompt bound id blockScan) :
    Prompt (bound + 1) id otherScan := by
  have le := Nat.le_refl (bound + 1)
  have branches (condition : Expr) : Prompt bound id (branchesScan condition) :=
    .andThen hBlock fun _ => .branch (fun _ => .map _ (prompt_closedScan hBlock _ _))
      (Nat.le_succ _) (.map _ (.one _ _))
  exact .branch (fun _ => .andThen prompt_exprScan fun condition =>
      .andThen (.one _ _) fun _ => branches condition) le <|
    .branch (fun _ => .andThen prompt_headerScan fun _ =>
      .map _ (prompt_closedScan hBlock _ _)) le <|
    .branch (fun _ => .andThen (.one _ _) fun _ => .andThen prompt_exprScan fun _ =>
      .map _ (prompt_bodyScan hBlock)) le <|
    .branch (fun _ => .andThen hBlock fun _ => .andThen (.one _ _) fun _ =>
      .andThen (.one _ _) fun _ => .map _ prompt_exprScan) le prompt_lineScan

theorem prompt_statementScan (hBlock : Prompt bound id blockScan)
    (hLoop : Prompt bound horizon loopScan) : Prompt (bound + 1) horizon statementScan := by
  rw [statementScan_eq]
  exact .branch (fun _ => .map _ hLoop) (Nat.le_refl _)
    ((prompt_otherScan hBlock).weaken horizon_le)

theorem prompt_blockScan (hStatement : Prompt (bound + 1) horizon statementScan)
    (hBlock : Prompt bound id blockScan) : Prompt (bound + 1) id blockScan := by
  rw [blockScan_eq]
  refine .choose (hStatement.andThenWithin (fun _ => .map _ hBlock) Reader.lt_of_scan ?_) (.done [])
  intro first rest _
  rw [Outcome.beyond_map, Outcome.beyond_id]
  exact length_blockScan_le rest

theorem prompt_loopScan (hStatement : Prompt (bound + 1) horizon statementScan)
    (hBlock : Prompt bound id blockScan) (hLoop : Prompt bound horizon loopScan) :
    Prompt (bound + 1) horizon loopScan := by
  have clause (condition : Expr) : Prompt bound horizon (clauseScan condition) :=
    .attempt (prompt_bodyScan hBlock) (fun _ => .map _ hLoop) faithful_bodies.length_lt
  rw [loopScan_eq]
  refine .branch (fun _ => .andThen (.one _ _) fun _ => .andThen prompt_exprScan clause)
    (Nat.le_refl _) <|
    .choose (hStatement.andThenWithin (fun _ => .map _ hLoop) Reader.lt_of_scan ?_) (.fail _)
  intro first rest lt
  rw [Outcome.beyond_map]
  exact Nat.le_trans (beyond_loopScan_le rest) (length_blockScan_le rest)

end Bounded

/-- What a block is read as does not depend on anything behind the first token that is left. -/
theorem prompt_scans (bound : Nat) :
    Prompt bound id blockScan ∧ Prompt bound horizon loopScan := by
  induction bound with
  | zero => exact ⟨.zero _ _, .zero _ _⟩
  | succ bound ih =>
    obtain ⟨hBlock, hLoop⟩ := ih
    have hStatement := prompt_statementScan hBlock hLoop
    exact ⟨prompt_blockScan hStatement hBlock, prompt_loopScan hStatement hBlock hLoop⟩

end Statement

/-! ## Programs -/

namespace Program

/-- Tokens of which the last one, and no other one, is of kind `eof`. -/
def Terminated (tokens : List Token) : Prop :=
  ∃ inner stop, tokens = inner ++ [stop] ∧ Unended inner ∧ stop.kind = .eof

theorem Terminated.append_cons {front more : List Token} {token : Token}
    (h : Terminated (front ++ token :: more)) :
    token.kind = .eof ∧ more = [] ∨
      ∃ between stop, more = between ++ [stop] ∧ Unended (front ++ token :: between) ∧
        stop.kind = .eof := by
  obtain ⟨inner, stop, eq, unended, last⟩ := h
  rcases List.eq_nil_or_concat more with rfl | ⟨between, stop', rfl⟩
  · obtain ⟨-, ⟨⟩⟩ := List.append_inj' eq rfl
    exact .inl ⟨last, rfl⟩
  · rw [List.concat_eq_append, ← List.cons_append, ← List.append_assoc] at eq
    obtain ⟨rfl, ⟨⟩⟩ := List.append_inj' eq rfl
    exact .inr ⟨between, stop, List.concat_eq_append, unended, last⟩

theorem prompt_endScan {bound : Nat} (program : Program) : Prompt bound id (endScan program) where
  beyond_le {tokens} _ := by cases tokens <;> exact Nat.le_refl _
  settled {token rest other tokens others} agree _ _ := by
    cases agree with
    | here => exact ⟨_, rfl, .here⟩
    | there first agree => exact ⟨_, rfl, .there first agree⟩

theorem prompt_programScan {bound : Nat} : Prompt bound id programScan :=
  .andThen (Statement.prompt_scans bound).1 fun _ => prompt_endScan _

theorem faithful_endScan {bound : Nat} (program : Program) :
    Faithful bound (endScan program) (Language.done program) where
  inhabited := ⟨[], program, rfl, rfl⟩
  word_of_ok {tokens value rest} _ found := by
    cases tokens with
    | nil => cases found; exact ⟨[], rfl, rfl, rfl⟩
    | cons => cases found
  begin_of_error {tokens failure} _ found := by
    cases tokens with
    | nil => cases found
    | cons => cases found; exact ⟨[], [], program, rfl, rfl, rfl⟩

theorem faithful_programScan {bound : Nat} :
    Faithful bound programScan fun word program => Statement.BlockWord word program.statements := by
  refine .mono (.andThen Statement.faithful_blocks fun _ => faithful_endScan _) ?_
  rintro _ _ ⟨word, statements, _, rfl, hWord, rfl, rfl⟩
  rw [List.append_nil]
  exact hWord

/-- A failure before a token is the same whatever is behind the token. -/
theorem programScan_error_of_agree {before rest other : List Token} {token : Token}
    {failure : Failure} (found : programScan (before ++ token :: rest) = .error failure)
    (reached : failure.rest = token :: rest) :
    ∃ failure', programScan (before ++ token :: other) = .error failure' := by
  have settled := prompt_programScan.settled (agree_append token rest other before)
    (Nat.lt_succ_self _)
  rw [found] at settled
  obtain ⟨left, eq, -⟩ := settled (by rw [Outcome.beyond, reached]; exact Nat.lt_succ_self _)
  exact ⟨_, eq⟩

theorem read_terminated {inner : List Token} {stop : Token} (unended : Unended inner)
    (last : stop.kind = .eof) {program : Program} :
    (read (.ofTokens (inner ++ [stop]))).1 = .ok program ↔
      programScan inner = .ok (program, []) := by
  rw [read_eq_ok_iff, TokenStream.ofTokens_append unended last, programScan_eq_ok_iff]
  exact (and_iff_left rfl).symm

theorem read_error {inner : List Token} {stop : Token} (unended : Unended inner)
    (last : stop.kind = .eof) {error : ParseError} {left : TokenStream}
    (failed : read (.ofTokens (inner ++ [stop])) = (.error error, left)) :
    ∃ failure, programScan inner = .error failure ∧ left.pending = failure.rest ∧
      error.found = failure.rest.head?.getD (.eof stop.location) := by
  rw [TokenStream.ofTokens_append unended last, read, parseTokens_eq] at failed
  cases found : programScan inner with
  | ok result => simp [found, Except.map] at failed
  | error failure =>
    simp only [found, Except.map] at failed
    cases failed
    exact ⟨failure, rfl, rfl, rfl⟩

/-- An error is reported at the first token which keeps the tokens up to it from being the beginning
of a program. -/
theorem read_error_earliest {tokens : List Token} (terminated : Terminated tokens)
    {error : ParseError} {left : TokenStream}
    (failed : read (.ofTokens tokens) = (.error error, left)) :
    ∃ k token, tokens[k]? = some token ∧ k + left.pending.length + 1 = tokens.length ∧
      error.found = (if token.kind = .eof then .eof token.location else token) ∧
      (∃ more program, Terminated (tokens.take k ++ more) ∧
        (read (.ofTokens (tokens.take k ++ more))).1 = .ok program) ∧
      ∀ more program, Terminated (tokens.take (k + 1) ++ more) →
        (read (.ofTokens (tokens.take (k + 1) ++ more))).1 ≠ .ok program := by
  obtain ⟨inner, stop, rfl, unended, last⟩ := terminated
  obtain ⟨failure, found, hLeft, hFound⟩ := read_error unended last failed
  obtain ⟨before, after, program, eq, hWord⟩ :=
    faithful_programScan.begin_of_error (Nat.lt_succ_self _) found
  have completion : ∃ more program, Terminated (before ++ more) ∧
      (read (.ofTokens (before ++ more))).1 = .ok program := by
    have unended' := hWord.unended
    refine ⟨after ++ [stop], program, ⟨before ++ after, stop, by simp, unended', last⟩, ?_⟩
    rw [← List.append_assoc, read_terminated unended' last]
    exact programScan_eq_ok_iff.mpr ⟨hWord, rfl⟩
  refine ⟨before.length, failure.rest.head?.getD stop, ?_⟩
  cases reached : failure.rest with
  | nil =>
    rw [reached, List.append_nil] at eq
    subst eq
    refine ⟨by simp, by simp [hLeft, reached], ?_, by simpa using completion, ?_⟩
    · simp [hFound, reached, last]
    · intro more program terminated accepted
      rw [List.take_of_length_le (by simp), List.append_assoc] at terminated accepted
      obtain ⟨-, rfl⟩ | ⟨between, stop', -, unended', -⟩ := terminated.append_cons
      · rw [List.singleton_append, read_terminated unended last, found] at accepted
        cases accepted
      · exact unended' stop (by simp) last
  | cons token rest =>
    rw [reached] at eq
    subst eq
    refine ⟨by simp, by simp [hLeft, reached]; omega, ?_, by simpa using completion, ?_⟩
    · have ne : token.kind ≠ .eof := unended token (by simp)
      simp [hFound, reached, ne]
    · intro more program terminated accepted
      have front : (before ++ token :: rest ++ [stop]).take (before.length + 1) ++ more =
          before ++ token :: more := by
        rw [List.append_assoc, List.take_length_add_append, List.append_assoc]; rfl
      rw [front] at terminated accepted
      obtain ⟨eof, -⟩ | ⟨between, stop', rfl, unended', last'⟩ := terminated.append_cons
      · exact unended token (by simp) eof
      · obtain ⟨failure', found'⟩ := programScan_error_of_agree found reached
        rw [← List.cons_append, ← List.append_assoc, read_terminated unended' last',
          found'] at accepted
        cases accepted

/-- The tokens of `executa cat timp a executa b sf`. -/
def brokenTrial : List Token :=
  [⟨.executa, "executa", .start⟩, ⟨.cat, "cat", .start⟩, ⟨.timp, "timp", .start⟩,
   ⟨.ident, "a", .start⟩, ⟨.executa, "executa", .start⟩, ⟨.ident, "b", .start⟩,
   ⟨.sf, "sf", .start⟩, .eof .start]

/-- Here a trial fails, and reading starts anew at the second `executa`. -/
theorem read_brokenTrial : Terminated brokenTrial ∧
    (read (.ofTokens brokenTrial)).1 = .error ⟨.assignOrSwap "b", ⟨.sf, "sf", .start⟩⟩ ∧
    (∃ more program, Terminated (brokenTrial.take 6 ++ more) ∧
      (read (.ofTokens (brokenTrial.take 6 ++ more))).1 = .ok program) ∧
    ∀ more program, Terminated (brokenTrial.take 7 ++ more) →
      (read (.ofTokens (brokenTrial.take 7 ++ more))).1 ≠ .ok program := by
  have terminated : Terminated brokenTrial := ⟨brokenTrial.dropLast, .eof .start, rfl, by
    show ∀ token ∈ _, _
    decide, rfl⟩
  have failed : read (.ofTokens brokenTrial) =
      (.error ⟨.assignOrSwap "b", ⟨.sf, "sf", .start⟩⟩, ⟨[⟨.sf, "sf", .start⟩], .start⟩) := by cbv
  obtain ⟨k, token, -, place, -, completion, rejection⟩ := read_error_earliest terminated failed
  have place : k + 2 = 8 := place
  obtain rfl : k = 6 := by omega
  exact ⟨terminated, congrArg Prod.fst failed, completion, rejection⟩

end Program

end Pseudocod

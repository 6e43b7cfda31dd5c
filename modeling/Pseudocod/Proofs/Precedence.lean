import Mathlib
import Pseudocod.Expr.Parser
import Pseudocod.Proofs.Canonical
import Pseudocod.Proofs.Scan.Complete
import Pseudocod.Proofs.Scan.Faithful
import Pseudocod.Proofs.Scan.Prompt

/-!
# Reading expressions by precedence

What the reader of expressions consumes spells the tree that it returns, and the tree is canonical.
In the other direction every canonical tree is read from its words, as long as no binary operator
follows that would take it, or a part of it, for an operand.

* `explains_scanFrom`: what is read is canonical, and what was consumed before a failure begins an
  expression.
* `scanFrom_append`: a canonical tree is read from its words.
* `prompt_scanFrom`: no token behind the first one left has a part in the outcome.
* `word_iff`: a list of tokens is read as an expression if and only if the tokens are the words of
  that expression and it is canonical.
* `parse_eq_ok_iff_canonical`: what is read off the front of some tokens, and where reading stops.
-/

namespace Pseudocod.Expr

open Scan (map andThen one branch done fail)

/-! ## The readers as scans -/

/-- A number, a string or a name. -/
def leafScan (expected : Expected) : Scan Expr :=
  branch .number (fun text => done (.number text)) <|
  branch .string (fun text => done (.string text)) <|
  (one .ident expected).map .ident

/-- An expression whose operators have at least a given level. -/
def scanFrom (lowest : Nat) : Scan Expr :=
  Reader.scan (parseFrom lowest)

/-- An operand. -/
def primaryScan : Scan Expr :=
  Reader.scan parsePrimary

/-- The operators of at least a given level behind an expression. -/
def climbScan (lowest : Nat) (left : Expr) : Scan Expr := fun tokens =>
  outcome (climb lowest left tokens)

theorem scan_parseLeaf (expected : Expected) :
    Reader.scan (parseLeaf expected) = leafScan expected := by
  funext tokens
  cases tokens with
  | nil => rfl
  | cons token rest =>
    obtain ⟨kind, text, location⟩ := token
    cases kind <;> rfl

theorem scanFrom_eq (lowest : Nat) : scanFrom lowest = primaryScan.andThen (climbScan lowest) := by
  funext tokens
  rw [scanFrom, Reader.scan, parseFrom]
  refine outcome_bind rfl fun left => ?_
  rw [climbScan]
  cases climb lowest left.value left.rest <;> rfl

theorem climbScan_nil (lowest : Nat) (left : Expr) :
    climbScan lowest left [] = .ok (left, []) := by
  rw [climbScan, climb_nil]; rfl

theorem climbScan_cons (lowest : Nat) (left : Expr) (token : Token) (rest : List Token) :
    climbScan lowest left (token :: rest) =
      match token.kind.binaryOp? with
      | none => .ok (left, token :: rest)
      | some op =>
        if op.level < lowest then .ok (left, token :: rest)
        else (scanFrom (op.level + 1)).andThen
          (fun right => climbScan lowest (.binary op left right)) rest := by
  rw [climbScan, climb]
  cases token.kind.binaryOp? with
  | none => rfl
  | some op =>
    by_cases h : op.level < lowest
    · simp only [if_pos h]; rfl
    · simp only [if_neg h]
      refine outcome_bind rfl fun right => ?_
      rw [climbScan]
      cases climb lowest (.binary op left right.value) right.rest <;> rfl

/-- An operand that is no negation of a truth value. -/
def operandScan : Scan Expr :=
  branch .minus (fun _ => (leafScan .negatedAtom).map (unary .neg)) <|
  branch .sqrt (fun _ => (leafScan .rootedAtom).map (unary .sqrt)) <|
  branch .leftBracket (fun _ => (scanFrom 1).andThen fun operand =>
    (one .rightBracket .closeBracket).map fun _ => unary .floor operand) <|
  branch .leftParen (fun _ => (scanFrom 1).andThen fun operand =>
    (one .rightParen .closeParen).map fun _ => unary .paren operand) <|
  leafScan .expression

theorem primaryScan_eq :
    primaryScan = branch .not (fun _ => (scanFrom 4).map (unary .not)) operandScan := by
  funext tokens
  rw [primaryScan, Reader.scan, parsePrimary.eq_def]
  cases tokens with
  | nil => rfl
  | cons token rest =>
    obtain ⟨kind, text, location⟩ := token
    cases kind with
    | not => exact outcome_map (unary .not) _ rfl
    | minus => exact outcome_map (unary .neg) _ (congrFun (scan_parseLeaf _) rest)
    | sqrt => exact outcome_map (unary .sqrt) _ (congrFun (scan_parseLeaf _) rest)
    | leftBracket =>
      exact outcome_bind rfl fun operand => outcome_map _ _ (outcome_expect _ _ operand.rest)
    | leftParen =>
      exact outcome_bind rfl fun operand => outcome_map _ _ (outcome_expect _ _ operand.rest)
    | _ => exact congrFun (scan_parseLeaf .expression) _

/-! ## What is read is canonical -/

/-- The words of canonical expressions in which the operator at the top has at least a level. -/
def WordAt (lowest : Nat) : Language Expr := fun word expr =>
  word.map Token.plain = expr.words ∧ expr.Canonical ∧ lowest ≤ expr.tightness

/-- No operator of at least a level comes first. -/
def Stops (lowest : Nat) (rest : List Token) : Prop :=
  ∀ token ∈ rest.head?, ∀ op ∈ token.kind.binaryOp?, op.level < lowest

/-- An operator that comes first leaves the expression before it as it is. -/
def Ends (expr : Expr) (rest : List Token) : Prop :=
  ∀ token ∈ rest.head?, ∀ op ∈ token.kind.binaryOp?, expr.Admits op

/-- What an outcome says about the tokens from which it came. -/
def Explains (lowest : Nat) (tokens : List Token) : Outcome Expr → Prop
  | .ok (expr, rest) =>
    (∃ word, tokens = word ++ rest ∧ WordAt lowest word expr) ∧ Stops lowest rest ∧ expr.Ends rest
  | .error failure =>
    ∃ before after expr, tokens = before ++ failure.rest ∧ WordAt lowest (before ++ after) expr

theorem faithful_of_explains {bound lowest : Nat} {scan : Scan Expr}
    (h : ∀ tokens, tokens.length < bound → Explains lowest tokens (scan tokens))
    (le : lowest ≤ 7) : Faithful bound scan (WordAt lowest) where
  inhabited := ⟨[⟨.number, "", .start⟩], .number "", rfl, trivial, le⟩
  word_of_ok {tokens expr rest} lt found := by
    have := h tokens lt
    rw [found] at this
    exact this.1
  begin_of_error {tokens failure} lt found := by
    have := h tokens lt
    rwa [found] at this

theorem faithful_leafScan {bound : Nat} (expected : Expected) :
    Faithful bound (leafScan expected) fun word expr =>
      word.map Token.plain = expr.words ∧ expr.isAtom := by
  refine .mono (.branch (fun text => .done (number text)) (Nat.le_succ _) (.branch
    (fun text => .done (string text)) (Nat.le_succ _) (.map _ (.one _ _)))) ?_
  rintro _ _ (⟨token, _, rfl, h, rfl, rfl⟩ | ⟨token, _, rfl, h, rfl, rfl⟩ |
    ⟨_, ⟨token, rfl, h, rfl⟩, rfl⟩)
  all_goals exact ⟨congrArg ([·]) (Token.plain_of_open h rfl), rfl⟩

theorem faithful_operandScan {bound : Nat}
    (ih : Faithful bound (scanFrom 1) (WordAt 1)) :
    Faithful (bound + 1) operandScan fun word expr =>
      WordAt 7 word expr ∧ expr.edgeHasNot = false := by
  have bracketed : ∀ (op : UnaryOp) (kind : Kind) (expected : Expected),
      Faithful bound ((scanFrom 1).andThen fun operand =>
        (one kind expected).map fun _ => unary op operand) _ := fun op kind expected =>
    .andThen ih fun operand => .map (fun _ => unary op operand) (.one kind expected)
  refine .mono (.branch (fun _ => .map _ (faithful_leafScan _)) (Nat.le_refl _) (.branch
    (fun _ => .map _ (faithful_leafScan _)) (Nat.le_refl _) (.branch
    (fun _ => bracketed _ _ _) (Nat.le_refl _) (.branch
    (fun _ => bracketed _ _ _) (Nat.le_refl _) (faithful_leafScan _))))) ?_
  rintro _ expr (⟨token, word, rfl, h, operand, ⟨hw, ha⟩, rfl⟩ |
    ⟨token, word, rfl, h, operand, ⟨hw, ha⟩, rfl⟩ |
    ⟨token, _, rfl, h, word, operand, _, rfl, ⟨hw, hc, -⟩, _, ⟨close, rfl, h', -⟩, rfl⟩ |
    ⟨token, _, rfl, h, word, operand, _, rfl, ⟨hw, hc, -⟩, _, ⟨close, rfl, h', -⟩, rfl⟩ |
    ⟨hw, ha⟩)
  · refine ⟨⟨?_, ha, Nat.le_refl _⟩, rfl⟩
    rw [← List.append_nil word]
    exact map_plain_unary h hw rfl
  · refine ⟨⟨?_, ha, Nat.le_refl _⟩, rfl⟩
    rw [← List.append_nil word]
    exact map_plain_unary h hw rfl
  · refine ⟨⟨?_, hc, Nat.le_refl _⟩, rfl⟩
    exact map_plain_unary h hw (congrArg ([·]) (Token.plain_of_spelling h' rfl))
  · refine ⟨⟨?_, hc, Nat.le_refl _⟩, rfl⟩
    exact map_plain_unary h hw (congrArg ([·]) (Token.plain_of_spelling h' rfl))
  · refine ⟨⟨hw, canonical_of_isAtom ha, ?_⟩, ?_⟩
    · cases expr <;> simp_all [isAtom, tightness]
    · cases expr <;> simp_all [isAtom, edgeHasNot]

theorem explains_primaryScan {bound : Nat}
    (ih : ∀ tokens, tokens.length < bound → ∀ lowest ≤ 7,
      Explains lowest tokens (scanFrom lowest tokens))
    {tokens : List Token} (lt : tokens.length < bound + 1) :
    Explains 7 tokens (primaryScan tokens) := by
  have stops (rest : List Token) : Stops 7 rest := by
    intro token _ op _
    exact Nat.lt_succ_of_le op.level_le
  have faithful : Faithful bound (scanFrom 1) (WordAt 1) :=
    faithful_of_explains (fun tokens lt => ih tokens lt 1 (by omega)) (by omega)
  have other {tokens : List Token} (lt : tokens.length < bound + 1) :
      Explains 7 tokens (operandScan tokens) := by
    cases found : operandScan tokens with
    | ok result =>
      obtain ⟨word, eq, hw, edge⟩ := (faithful_operandScan faithful).word_of_ok lt found
      refine ⟨⟨word, eq, hw⟩, stops _, fun token _ op _ => ⟨?_, fun _ => edge⟩⟩
      exact Nat.le_trans (Nat.le_succ_of_le op.level_le) hw.2.2
    | error failure =>
      obtain ⟨before, after, expr, eq, hw, -⟩ :=
        (faithful_operandScan faithful).begin_of_error lt found
      exact ⟨before, after, expr, eq, hw⟩
  rw [primaryScan_eq]
  cases tokens with
  | nil => exact other lt
  | cons token tokens =>
    by_cases h : token.kind = .not
    · have inner := ih tokens (by rw [List.length_cons] at lt; omega) 4 (by omega)
      simp only [branch, if_pos h, map]
      -- the words of the operand are all that follows on the token
      have spelled {word : List Token} {operand : Expr}
          (hw : word.map Token.plain = operand.words) :
          (token :: word).map Token.plain = (unary .not operand).words := by
        rw [← List.append_nil word]
        exact map_plain_unary h hw rfl
      cases found : scanFrom 4 tokens with
      | ok result =>
        rw [found] at inner
        obtain ⟨⟨word, rfl, hw, hc, hl⟩, hs, -⟩ := inner
        refine ⟨⟨token :: word, rfl, spelled hw, ⟨hc, hl⟩, Nat.le_refl _⟩, stops _, ?_⟩
        intro token ht op hop
        have := hs token ht op hop
        exact ⟨Nat.le_succ_of_le op.level_le, fun _ => by omega⟩
      | error failure =>
        rw [found] at inner
        obtain ⟨before, after, expr, rfl, hw, hc, hl⟩ := inner
        exact ⟨token :: before, after, unary .not expr, rfl, spelled hw, ⟨hc, hl⟩, Nat.le_refl _⟩
    · simp only [branch, if_neg h]
      exact other lt

theorem explains_climbScan {bound : Nat}
    (ih : ∀ tokens, tokens.length < bound → ∀ lowest ≤ 7,
      Explains lowest tokens (scanFrom lowest tokens))
    {lowest : Nat} :
    ∀ {count : Nat} {tokens front : List Token} {left : Expr}, tokens.length < count →
      count ≤ bound + 1 → WordAt lowest front left → left.Ends tokens →
        Explains lowest (front ++ tokens) (climbScan lowest left tokens) := by
  intro count
  induction count with
  | zero => intro _ _ _ lt; exact absurd lt (Nat.not_lt_zero _)
  | succ count ihCount =>
    intro tokens front left lt le hw ends
    -- without an operator to join, `left` is the whole expression
    have whole (stops : Stops lowest tokens) :
        Explains lowest (front ++ tokens) (.ok (left, tokens)) :=
      ⟨⟨front, rfl, hw⟩, stops, ends⟩
    cases tokens with
    | nil =>
      rw [climbScan_nil]
      exact whole (by rintro _ ⟨⟩)
    | cons token rest =>
      rw [climbScan_cons]
      cases hop : token.kind.binaryOp? with
      | none => exact whole (by rintro _ ⟨⟩ op hop'; rw [hop] at hop'; cases hop')
      | some op =>
        simp only
        split
        next lt => exact whole (by rintro _ ⟨⟩ op' hop'; rw [hop] at hop'; cases hop'; exact lt)
        next ge =>
          have inner := ih rest (by rw [List.length_cons] at lt; omega) (op.level + 1)
            (Nat.succ_le_succ op.level_le)
          have admits : left.Admits op := ends token rfl op hop
          have plain : token.plain = op.word :=
            BinaryOp.plain_of_kind ((BinaryOp.binaryOp?_eq_some_iff _ _).mp hop)
          -- the operator, its operands and their words make an expression again
          have joined {word : List Token} {right : Expr} (h : WordAt (op.level + 1) word right) :
              WordAt lowest (front ++ token :: word) (.binary op left right) := by
            refine ⟨?_, ⟨hw.2.1, h.2.1, admits, h.2.2⟩, Nat.le_of_not_lt ge⟩
            simp [words, hw.1, h.1, plain]
          unfold andThen
          cases found : scanFrom (op.level + 1) rest with
          | error failure =>
            rw [found] at inner
            obtain ⟨before, after, right, rfl, h⟩ := inner
            exact ⟨front ++ token :: before, after, _, by simp, by simpa using joined h⟩
          | ok result =>
            obtain ⟨right, rest₁⟩ := result
            rw [found] at inner
            obtain ⟨⟨word, rfl, h⟩, stops, ends'⟩ := inner
            have shorter : rest₁.length < count := by
              simp only [List.length_append, List.length_cons] at lt ⊢; omega
            have := ihCount shorter (by omega) (joined h)
              fun token ht op' hop' => ⟨Nat.le_of_lt_succ (stops token ht op' hop'),
                (ends' token ht op' hop').2⟩
            simpa using this

theorem explains_scanFrom {lowest : Nat} (le : lowest ≤ 7) (tokens : List Token) :
    Explains lowest tokens (scanFrom lowest tokens) := by
  generalize hn : tokens.length = n
  induction n using Nat.strongRecOn generalizing tokens lowest with
  | ind n ih =>
    subst hn
    have ih' : ∀ others, others.length < tokens.length → ∀ lowest ≤ 7,
        Explains lowest others (scanFrom lowest others) := by
      intro others lt lowest le
      exact ih _ lt le others rfl
    have primary := explains_primaryScan ih' (Nat.lt_succ_self _)
    rw [scanFrom_eq]
    unfold andThen
    cases found : primaryScan tokens with
    | error failure =>
      rw [found] at primary
      obtain ⟨before, after, expr, eq, hw, hc, hl⟩ := primary
      exact ⟨before, after, expr, eq, hw, hc, Nat.le_trans le hl⟩
    | ok result =>
      obtain ⟨left, rest⟩ := result
      rw [found] at primary
      obtain ⟨⟨word, eq, hw, hc, hl⟩, -, ends⟩ := primary
      rw [eq] at ih' ⊢
      exact explains_climbScan ih' (Nat.lt_succ_self _) (by simp) ⟨hw, hc, Nat.le_trans le hl⟩ ends

/-! ## Canonical expressions are read from their words -/

/-- A token that is no binary operator ends every expression. -/
def Ended (rest : List Token) : Prop :=
  Clear (fun kind => kind.binaryOp?.isSome) rest

theorem Ended.stops {rest : List Token} (ended : Ended rest) (lowest : Nat) :
    Stops lowest rest := by
  intro token ht op hop
  have none := ended token ht
  rw [Option.isSome_eq_false_iff, Option.isNone_iff_eq_none] at none
  rw [none] at hop
  cases hop

theorem Ended.ends {rest : List Token} (ended : Ended rest) (expr : Expr) : expr.Ends rest := by
  intro token ht op hop
  exact absurd (ended.stops 0 token ht op hop) (Nat.not_lt_zero _)

theorem ended_cons {token : Token} (h : token.kind.binaryOp? = none) (rest : List Token) :
    Ended (token :: rest) :=
  Clear.cons (congrArg Option.isSome h)

theorem climbScan_of_stops {lowest : Nat} {rest : List Token} (stops : Stops lowest rest)
    (expr : Expr) : climbScan lowest expr rest = .ok (expr, rest) := by
  cases rest with
  | nil => exact climbScan_nil _ _
  | cons token rest =>
    rw [climbScan_cons]
    cases hop : token.kind.binaryOp? with
    | none => rfl
    | some op => exact if_pos (stops token rfl op hop)

theorem scanFrom_of_primaryScan {lowest : Nat} {tokens rest : List Token} {expr : Expr}
    (h : primaryScan tokens = .ok (expr, rest)) :
    scanFrom lowest tokens = climbScan lowest expr rest := by
  rw [scanFrom_eq, andThen, h]

theorem leafScan_append {word rest : List Token} {expr : Expr} (expected : Expected)
    (hWord : word.map Token.plain = expr.words) (atom : expr.isAtom) :
    leafScan expected (word ++ rest) = .ok (expr, rest) := by
  cases expr with
  | binary => cases atom
  | unary => cases atom
  | _ =>
    obtain ⟨token, rfl, plain⟩ := List.map_eq_singleton_iff.mp hWord
    obtain ⟨kind, text, location⟩ := token
    obtain rfl : kind = _ := congrArg Lexeme.kind plain
    obtain rfl : text = _ := congrArg Lexeme.text plain
    rfl

theorem primaryScan_leaf {word rest : List Token} {expr : Expr}
    (hWord : word.map Token.plain = expr.words) (atom : expr.isAtom) :
    primaryScan (word ++ rest) = .ok (expr, rest) := by
  have leaf : leafScan .expression (word ++ rest) = .ok (expr, rest) :=
    leafScan_append _ hWord atom
  rw [primaryScan_eq]
  cases expr with
  | binary => cases atom
  | unary => cases atom
  | _ =>
    obtain ⟨token, rfl, plain⟩ := List.map_eq_singleton_iff.mp hWord
    have kind : token.kind = _ := congrArg Lexeme.kind plain
    simpa [operandScan, branch, kind] using leaf

theorem primaryScan_bracketed {op : UnaryOp} {open_ close : Token} {tokens rest : List Token}
    {operand : Expr} {last : Kind} (hOpen : open_.kind = op.word.kind)
    (hClosing : op.closingWords.map Lexeme.kind = [last]) (hClose : close.kind = last)
    (h : scanFrom 1 tokens = .ok (operand, close :: rest)) :
    primaryScan (open_ :: tokens) = .ok (unary op operand, rest) := by
  rw [primaryScan_eq]
  cases op with
  | not | neg | sqrt => cases hClosing
  | floor | paren =>
    cases hClosing
    simp [operandScan, branch, andThen, map, one, done, hOpen, hClose, UnaryOp.word, h]

theorem one_le_tightness (expr : Expr) : 1 ≤ expr.tightness := by
  cases expr with
  | binary op => exact lowestLevel_le (.binary op)
  | _ => exact Nat.le_add_left 1 6

/-- Behind a canonical expression, reading goes on as if it had been read as a whole. -/
theorem scanFrom_append {word : List Token} {expr : Expr} {lowest : Nat} {rest : List Token}
    (hWord : word.map Token.plain = expr.words) (canonical : expr.Canonical)
    (le : lowest ≤ expr.tightness) (ends : expr.Ends rest) :
    scanFrom lowest (word ++ rest) = climbScan lowest expr rest := by
  induction expr generalizing word lowest rest with
  | binary op left right ihLeft ihRight =>
    obtain ⟨word₁, tail, rfl, hw₁, hTail⟩ := List.map_eq_append_iff.mp hWord
    obtain ⟨token, word₂, rfl, plain, hw₂⟩ := List.map_eq_cons_iff.mp hTail
    obtain ⟨hcl, hcr, admits, lt⟩ := canonical
    have kind : token.kind = op.kind := congrArg Lexeme.kind plain
    have hop : token.kind.binaryOp? = some op := (BinaryOp.binaryOp?_eq_some_iff _ _).mpr kind
    have endsLeft : left.Ends (token :: (word₂ ++ rest)) := by
      rintro _ ⟨⟩ op' hop'
      rw [hop] at hop'
      cases hop'
      exact admits
    have endsRight : right.Ends rest := by
      intro next ht op' hop'
      obtain ⟨le', free⟩ := ends next ht op' hop'
      exact ⟨by change op'.level ≤ op.level at le'; omega, free⟩
    have stops : Stops (op.level + 1) rest := by
      intro next ht op' hop'
      exact Nat.lt_succ_of_le (ends next ht op' hop').1
    rw [List.append_assoc, List.cons_append, ihLeft hw₁ hcl (Nat.le_trans le admits.1) endsLeft,
      climbScan_cons, hop]
    simp only
    rw [if_neg (show ¬ op.level < lowest from Nat.not_lt.mpr le), andThen,
      ihRight hw₂ hcr lt endsRight, climbScan_of_stops stops]
  | unary op operand ih =>
    obtain ⟨token, tail, rfl, plain, hTail⟩ := List.map_eq_cons_iff.mp hWord
    obtain ⟨inner, closing, rfl, hw, hClosing⟩ := List.map_eq_append_iff.mp hTail
    have kind : token.kind = op.word.kind := congrArg Lexeme.kind plain
    apply scanFrom_of_primaryScan
    rw [List.cons_append, List.append_assoc]
    cases op with
    | not =>
      obtain rfl := List.map_eq_nil_iff.mp hClosing
      obtain ⟨hc, hl⟩ : operand.Canonical ∧ 4 ≤ operand.tightness := canonical
      -- a comparison would belong to the operand, so only a looser operator follows
      have loose : Stops 4 rest := by
        intro next ht op hop
        apply Nat.lt_of_not_le
        intro tight
        exact Bool.noConfusion ((ends next ht op hop).2 tight)
      have endsInner : operand.Ends rest := by
        intro next ht op hop
        have lt := loose next ht op hop
        exact ⟨by omega, by omega⟩
      rw [primaryScan_eq, branch, if_pos (show token.kind = .not from kind), map, List.nil_append,
        ih hw hc hl endsInner, climbScan_of_stops loose]
    | neg | sqrt =>
      obtain rfl := List.map_eq_nil_iff.mp hClosing
      rw [primaryScan_eq]
      simp [operandScan, branch, map, kind, UnaryOp.word, leafScan_append _ hw canonical]
    | floor | paren =>
      obtain ⟨close, rfl, plain'⟩ := List.map_eq_singleton_iff.mp hClosing
      have kind' : close.kind = _ := congrArg Lexeme.kind plain'
      have ended : Ended (close :: rest) := ended_cons (by rw [kind']; rfl) rest
      refine primaryScan_bracketed kind rfl kind' ?_
      rw [List.singleton_append, ih hw canonical (one_le_tightness operand) (ended.ends _)]
      exact climbScan_of_stops (ended.stops 1) operand
  | number text => exact scanFrom_of_primaryScan (primaryScan_leaf hWord rfl)
  | string text => exact scanFrom_of_primaryScan (primaryScan_leaf hWord rfl)
  | ident name => exact scanFrom_of_primaryScan (primaryScan_leaf hWord rfl)

/-! ## No token behind the first one left is looked at -/

theorem prompt_leafScan {bound : Nat} (expected : Expected) : Prompt bound id (leafScan expected) :=
  .branch (fun _ => .done _) (Nat.le_succ _) <|
    .branch (fun _ => .done _) (Nat.le_succ _) (.map _ (.one _ _))

theorem prompt_primaryScan {bound : Nat} (ih : ∀ lowest, Prompt bound id (scanFrom lowest)) :
    Prompt (bound + 1) id primaryScan := by
  have le := Nat.le_refl (bound + 1)
  have bracketed (op : UnaryOp) (kind : Kind) (expected : Expected) :
      Prompt bound id ((scanFrom 1).andThen fun operand =>
        (one kind expected).map fun _ => unary op operand) :=
    .andThen (ih 1) fun _ => .map _ (.one _ _)
  rw [primaryScan_eq]
  exact .branch (fun _ => .map _ (ih 4)) le <| .branch (fun _ => .map _ (prompt_leafScan _)) le <|
    .branch (fun _ => .map _ (prompt_leafScan _)) le <| .branch (fun _ => bracketed _ _ _) le <|
    .branch (fun _ => bracketed _ _ _) le (prompt_leafScan _)

theorem prompt_climbScan {bound : Nat} (ih : ∀ lowest, Prompt bound id (scanFrom lowest))
    (ihClimb : ∀ lowest left, Prompt bound id (climbScan lowest left)) (lowest : Nat)
    (left : Expr) : Prompt (bound + 1) id (climbScan lowest left) := by
  refine .ofFirst (Nat.le_refl _) (by rw [climbScan_nil]; rfl) fun token => ?_
  have cons := climbScan_cons lowest left token
  cases hop : token.kind.binaryOp? with
  | none =>
    rw [hop] at cons
    exact .inr ⟨done left, .done left, cons⟩
  | some op =>
    rw [hop] at cons
    by_cases lt : op.level < lowest
    · exact .inr ⟨done left, .done left, fun rest => (cons rest).trans (if_pos lt)⟩
    · exact .inl ⟨_, .andThen (ih _) fun right => ihClimb lowest (.binary op left right),
        fun rest => (cons rest).trans (if_neg lt)⟩

theorem prompt_scanFrom {bound : Nat} (lowest : Nat) : Prompt bound id (scanFrom lowest) := by
  have both : (∀ lowest, Prompt bound id (scanFrom lowest)) ∧
      ∀ lowest left, Prompt bound id (climbScan lowest left) := by
    induction bound with
    | zero => exact ⟨fun _ => .zero _ _, fun _ _ => .zero _ _⟩
    | succ bound ih =>
      have climbs := prompt_climbScan ih.1 ih.2
      refine ⟨fun lowest => ?_, climbs⟩
      rw [scanFrom_eq]
      exact .andThen (prompt_primaryScan ih.1) (climbs lowest)
  exact both.1 lowest

/-! ## Whole expressions -/

/-- What `parse` reads as an expression. -/
def Word : Language Expr := fun word expr =>
  Reader.scan parse word = .ok (expr, [])

theorem word_iff {word : List Token} {expr : Expr} :
    Word word expr ↔ word.map Token.plain = expr.words ∧ expr.Canonical := by
  constructor
  · intro h
    have explains := explains_scanFrom (show 1 ≤ 7 by omega) word
    rw [show scanFrom 1 word = .ok (expr, []) from h] at explains
    obtain ⟨⟨all, rfl, hw, canonical, -⟩, -, -⟩ := explains
    rw [List.append_nil]
    exact ⟨hw, canonical⟩
  · rintro ⟨hw, canonical⟩
    have ended : Ended [] := Clear.nil _
    have := scanFrom_append hw canonical (one_le_tightness expr) (ended.ends expr)
    rw [List.append_nil, climbScan_of_stops (ended.stops 1)] at this
    exact this

theorem faithful_parse {bound : Nat} : Faithful bound (Reader.scan parse) Word :=
  .mono (faithful_of_explains (fun tokens _ => explains_scanFrom (show 1 ≤ 7 by omega) tokens)
    (by omega))
    fun h => word_iff.mpr ⟨h.1, h.2.1⟩

theorem prompt_parse {bound : Nat} : Prompt bound id (Reader.scan parse) :=
  prompt_scanFrom 1

theorem complete_parse {bound : Nat} :
    Complete bound (Reader.scan parse) Word fun _ => Ended := by
  intro word expr rest _ hw ended
  obtain ⟨hw, canonical⟩ := word_iff.mp hw
  have read := scanFrom_append hw canonical (one_le_tightness expr) (ended.ends expr)
  rw [climbScan_of_stops (ended.stops 1)] at read
  exact read

/-! ## Reading finds the canonical tree of its words -/

/-- There is a list of tokens for the words of every expression. -/
theorem exists_map_plain (expr : Expr) :
    ∃ word : List Token, word.map Token.plain = expr.words := by
  induction expr with
  | binary op left right ihLeft ihRight =>
    obtain ⟨front, eq⟩ := ihLeft
    obtain ⟨back, eq'⟩ := ihRight
    have sign : Token.plain ⟨op.kind, op.symbol, .start⟩ = op.word := BinaryOp.plain_of_kind rfl
    exact ⟨front ++ ⟨op.kind, op.symbol, .start⟩ :: back, by
      rw [List.map_append, List.map_cons, eq, eq', sign, words]⟩
  | unary op operand ih =>
    obtain ⟨word, eq⟩ := ih
    have closing : ∃ closing : List Token, closing.map Token.plain = op.closingWords := by
      cases op with
      | floor => exact ⟨[⟨.rightBracket, "]", .start⟩], rfl⟩
      | paren => exact ⟨[⟨.rightParen, ")", .start⟩], rfl⟩
      | _ => exact ⟨[], rfl⟩
    obtain ⟨closing, hClosing⟩ := closing
    exact ⟨⟨op.word.kind, "", .start⟩ :: (word ++ closing), map_plain_unary rfl eq hClosing⟩
  | number text => exact ⟨[⟨.number, text, .start⟩], rfl⟩
  | string text => exact ⟨[⟨.string, text, .start⟩], rfl⟩
  | ident name => exact ⟨[⟨.ident, name, .start⟩], rfl⟩

theorem Canonical.eq_of_words {first second : Expr} (canonical : first.Canonical)
    (canonical' : second.Canonical) (same : first.words = second.words) : first = second := by
  obtain ⟨word, eq⟩ := exists_map_plain first
  have read : Reader.scan parse word = .ok (first, []) := word_iff.mpr ⟨eq, canonical⟩
  have read' : Reader.scan parse word = .ok (second, []) :=
    word_iff.mpr ⟨eq.trans same, canonical'⟩
  rw [read] at read'
  cases read'
  rfl

theorem scan_parse_eq_ok_iff {tokens rest : List Token} {expr : Expr} :
    Reader.scan parse tokens = .ok (expr, rest) ↔
      (∃ word, tokens = word ++ rest ∧ word.map Token.plain = expr.words) ∧ Ended rest ∧
        expr.Canonical := by
  constructor
  · intro found
    have explains := explains_scanFrom (show 1 ≤ 7 by omega) tokens
    rw [show scanFrom 1 tokens = .ok (expr, rest) from found] at explains
    obtain ⟨⟨word, eq, hw, canonical, -⟩, stops, -⟩ := explains
    refine ⟨⟨word, eq, hw⟩, ?_, canonical⟩
    -- every binary operator has at least the lowest level
    intro token ht
    rw [Option.isSome_eq_false_iff, Option.isNone_iff_eq_none, Option.eq_none_iff_forall_ne_some]
    intro op hop
    exact Nat.not_lt.mpr (lowestLevel_le (.binary op)) (stops token ht op hop)
  · rintro ⟨⟨word, rfl, hw⟩, ended, canonical⟩
    exact complete_parse (Nat.lt_succ_self _) (word_iff.mpr ⟨hw, canonical⟩) ended

/-- An expression is read off tokens if and only if it is canonical, its words are the tokens that
are consumed, and the next token is no binary operator; no two canonical expressions have the same
words. -/
theorem parse_eq_ok_iff_canonical :
    (∀ (tokens rest : List Token) (expr : Expr),
      (∃ parsed, parse tokens = .ok parsed ∧ parsed.value = expr ∧ parsed.rest = rest) ↔
        (∃ word, tokens = word ++ rest ∧ word.map Token.plain = expr.words) ∧
          (∀ token ∈ rest.head?, token.kind.binaryOp? = none) ∧ expr.Canonical) ∧
    ∀ first second : Expr, first.Canonical → second.Canonical →
      first.words = second.words → first = second := by
  refine ⟨fun tokens rest expr => ?_, fun _ _ => Canonical.eq_of_words⟩
  have scanned : (∃ parsed, parse tokens = .ok parsed ∧ parsed.value = expr ∧ parsed.rest = rest) ↔
      Reader.scan parse tokens = .ok (expr, rest) := by
    unfold Reader.scan
    cases parse tokens with
    | error failure => simp [outcome]
    | ok parsed => simp [outcome]
  have ended : Ended rest ↔ ∀ token ∈ rest.head?, token.kind.binaryOp? = none := by
    simp only [Ended, Clear, Option.isSome_eq_false_iff, Option.isNone_iff_eq_none]
  rw [scanned, scan_parse_eq_ok_iff, ended]

/-- The tree of `a + not b = c - d sau e`. -/
def negatedOperand : Expr :=
  .binary .or
    (.binary .add (.ident "a")
      (.unary .not (.binary .eq (.ident "b") (.binary .sub (.ident "c") (.ident "d")))))
    (.ident "e")

/-- The tree of `(a + not b) = c - d sau e` without its brackets. -/
def negatedLeft : Expr :=
  .binary .or
    (.binary .eq (.binary .add (.ident "a") (.unary .not (.ident "b")))
      (.binary .sub (.ident "c") (.ident "d")))
    (.ident "e")

/-- The negation takes the comparison as its operand, though it is an operand of the sum itself. The
tree in which the sum is compared has the same words, but is not canonical. -/
theorem parse_negatedOperand :
    negatedOperand.Canonical ∧
    (∃ parsed, parse
      [⟨.ident, "a", .start⟩, ⟨.plus, "+", .start⟩, ⟨.not, "NOT", .start⟩, ⟨.ident, "b", .start⟩,
       ⟨.eq, "=", .start⟩, ⟨.ident, "c", .start⟩, ⟨.minus, "-", .start⟩, ⟨.ident, "d", .start⟩,
       ⟨.or, "SAU", .start⟩, ⟨.ident, "e", .start⟩, ⟨.rightParen, ")", .start⟩] = .ok parsed ∧
      parsed.value = negatedOperand ∧ parsed.rest = [⟨.rightParen, ")", .start⟩]) ∧
    negatedOperand.words = negatedLeft.words ∧ ¬ negatedLeft.Canonical := by
  have canonical : negatedOperand.Canonical := by
    simp [negatedOperand, Canonical, Admits, tightness, edgeHasNot, BinaryOp.level, BinaryOp.family,
      BinaryOp.Family.level, Operator.level]
  obtain ⟨read, unique⟩ := parse_eq_ok_iff_canonical
  refine ⟨canonical, (read _ _ _).mpr ⟨?_, ?_, canonical⟩, rfl, fun other => ?_⟩
  · exact ⟨_, (List.take_append_drop 10 _).symm, rfl⟩
  · rintro _ ⟨⟩
    rfl
  · exact absurd (unique _ _ canonical other rfl) (by decide)

end Pseudocod.Expr

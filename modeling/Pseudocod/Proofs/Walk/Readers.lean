import Pseudocod.Proofs.EarliestError
import Pseudocod.Proofs.Walk.Basic

/-!
# Readers as walks

Expressions, statements and programs are read as well by walks over a buffer, which stand at a
position and move it. A walk that calls itself, or goes round in a loop, uses up a step with each
call and each round. In the block of a loop opened by `executa`, the words `cat timp` and a condition
are walked over twice if `executa` follows: to the end of the condition, and then again, from where
they start, as a loop of their own. Only if this fails the walk returns to the end of the condition.

Each walk does what the scan does. It needs no more steps than there are tokens up to the first end.

* `Expr.follows_walk`, `Statement.follows_walk`, `Program.follows_walk`: the walks do what the scans
  do.
* `Statement.follows_loopStep`: a round of a loop opened by `executa`, which may go back.
-/

namespace Pseudocod

open Walk (Follows Arrives here moveTo peek peekAhead advance branch choose one done fail attempt
  unfinished)

/-! ## Expressions -/

namespace Expr

/-- A number, a string or a name. -/
def leafWalk (expected : Expected) : Walk Expr :=
  branch .number (fun text => done (.number text)) <|
  branch .string (fun text => done (.string text)) <|
  (one .ident expected).map .ident

/-- An operand, by the walks of expressions whose operators have at least a level. -/
def operandWalk (inner : (lowest : Nat) → Walk Expr) : Walk Expr :=
  branch .not (fun _ => (inner (Operator.negation.level + 1)).map (unary .not)) <|
  branch .minus (fun _ => (leafWalk .negatedAtom).map (unary .neg)) <|
  branch .sqrt (fun _ => (leafWalk .rootedAtom).map (unary .sqrt)) <|
  branch .leftBracket (fun _ => (inner lowestLevel).andThen fun operand =>
    (one .rightBracket .closeBracket).map fun _ => unary .floor operand) <|
  branch .leftParen (fun _ => (inner lowestLevel).andThen fun operand =>
    (one .rightParen .closeParen).map fun _ => unary .paren operand) <|
  leafWalk .expression

mutual

/-- An expression whose operators have at least a given level. -/
def walkFrom : (steps lowest : Nat) → Walk Expr
  | 0, _ => unfinished
  | steps + 1, lowest => (operandWalk (walkFrom steps)).andThen (climbWalk steps lowest)

/-- The operators of at least a given level behind an expression. -/
def climbWalk : (steps lowest : Nat) → Expr → Walk Expr
  | 0, _, _ => unfinished
  | steps + 1, lowest, left => peek.andThen fun token =>
    match token.kind.binaryOp? with
    | none => done left
    | some op =>
      if op.level < lowest then done left
      else advance.andThen fun _ => (walkFrom steps (op.level + 1)).andThen fun right =>
        climbWalk steps lowest (.binary op left right)

end

/-- A whole expression. -/
def walk (steps : Nat) : Walk Expr :=
  walkFrom steps lowestLevel

section

variable {bound : Nat}

theorem follows_leafWalk (expected : Expected) :
    Follows bound (leafWalk expected) (leafScan expected) :=
  .branch (by decide) (fun _ => .done _) (Nat.le_succ bound) <|
    .branch (by decide) (fun _ => .done _) (Nat.le_succ bound) <|
    .map _ (.one (by decide) expected)

theorem follows_operandWalk {inner : Nat → Walk Expr}
    (hInner : ∀ lowest, Follows bound (inner lowest) (scanFrom lowest)) :
    Follows (bound + 1) (operandWalk inner) primaryScan := by
  have bracketed (op : UnaryOp) {kind : Kind} (ne : kind ≠ .eof) (expected : Expected) :
      Follows bound
        ((inner lowestLevel).andThen fun operand =>
          (one kind expected).map fun _ => unary op operand)
        ((scanFrom 1).andThen fun operand =>
          (Scan.one kind expected).map fun _ => unary op operand) :=
    .andThen (hInner 1) fun _ => .map _ (.one ne expected)
  have le := Nat.le_refl (bound + 1)
  rw [primaryScan_eq]
  exact .branch (by decide) (fun _ => .map _ (hInner 4)) le <|
    .branch (by decide) (fun _ => .map _ (follows_leafWalk _)) le <|
    .branch (by decide) (fun _ => .map _ (follows_leafWalk _)) le <|
    .branch (by decide) (fun _ => bracketed .floor (by decide) _) le <|
    .branch (by decide) (fun _ => bracketed .paren (by decide) _) le <|
    follows_leafWalk _

/-- Operators behind an expression: a right operand is walked over behind each of them. -/
theorem follows_climbWalk {steps lowest : Nat}
    (hRight : ∀ lowest, Follows steps (walkFrom steps lowest) (scanFrom lowest))
    (hClimb : ∀ left, Follows steps (climbWalk steps lowest left) (climbScan lowest left))
    (left : Expr) :
    Follows (steps + 1) (climbWalk (steps + 1) lowest left) (climbScan lowest left) := by
  intro place visited lt
  have whole : Arrives place visited (.ok (left, place.pending))
      (done left place.buffer (place.track visited)) := .done place visited left
  rw [climbWalk, Walk.peek_andThen]
  cases pending : place.pending with
  | nil =>
    have stays : place.token.kind.binaryOp? = none := by
      rw [Place.token_of_nil pending, place.eof]
      rfl
    rw [pending] at whole
    rw [stays, climbScan_nil]
    exact whole
  | cons token rest =>
    rw [pending] at whole
    rw [Place.token_of_cons pending, climbScan_cons]
    cases token.kind.binaryOp? with
    | none => exact whole
    | some op =>
      by_cases loose : op.level < lowest
      · simp only [if_pos loose]
        exact whole
      · simp only [if_neg loose]
        have joined : Follows steps
            ((walkFrom steps (op.level + 1)).andThen fun right =>
              climbWalk steps lowest (.binary op left right))
            ((scanFrom (op.level + 1)).andThen fun right =>
              climbScan lowest (.binary op left right)) :=
          (hRight _).andThen fun right => hClimb _
        rw [pending, List.length_cons] at lt
        have shorter : rest.length < steps := by omega
        exact .advance pending (joined (place.next pending) _ shorter)

theorem follows_walks (steps : Nat) :
    (∀ lowest, Follows steps (walkFrom steps lowest) (scanFrom lowest)) ∧
      ∀ lowest left, Follows steps (climbWalk steps lowest left) (climbScan lowest left) := by
  induction steps with
  | zero => exact ⟨fun _ => .zero, fun _ _ => .zero⟩
  | succ steps ih =>
    obtain ⟨hWalk, hClimb⟩ := ih
    refine ⟨fun lowest => ?_, fun lowest left => follows_climbWalk hWalk (hClimb lowest) left⟩
    rw [scanFrom_eq, walkFrom]
    exact (follows_operandWalk hWalk).andThenWithin (hClimb lowest) Reader.lt_of_scan

theorem follows_walk (steps : Nat) : Follows steps (walk steps) Statement.exprScan :=
  (follows_walks steps).1 lowestLevel

end

end Expr

/-! ## Statements -/

namespace Statement

/-- Names with commas between them. -/
def namesWalk (steps : Nat) : Walk (List String) :=
  Walk.separated .comma (one .ident .readName) steps

/-- Expressions with commas between them. -/
def valuesWalk (steps : Nat) : Walk (List Expr) :=
  Walk.separated .comma (Expr.walk steps) steps

/-- What follows on a name that is to get another value. -/
def updateWalk (steps : Nat) (name : String) : Walk Statement :=
  branch .assign (fun _ => (Expr.walk steps).map (.assign name)) <|
  branch .swap (fun _ => (one .ident .identifier).map (.swap name)) <|
  fail (.assignOrSwap name)

/-- A simple statement. -/
def simpleWalk (steps : Nat) : Walk Statement :=
  branch .citeste (fun _ => (namesWalk steps).map .read) <|
  branch .scrie (fun _ => (valuesWalk steps).map .write) <|
  branch .ident (updateWalk steps) <|
  fail .simpleStatement

/-- The simple statements on a line. -/
def lineWalk (steps : Nat) : Walk Statement :=
  (Walk.separated .semicolon (simpleWalk steps) steps).map ofParts

/-- What stands between `pentru` and the block of a counting loop. -/
def headerWalk (steps : Nat) : Walk CountHeader :=
  (one .ident .loopName).andThen fun name =>
  (one .assign .loopAssign).andThen fun _ =>
  (Expr.walk steps).andThen fun first =>
  (one .comma .loopComma).andThen fun _ =>
  (Expr.walk steps).andThen fun last =>
  branch .comma
    (fun _ => (Expr.walk steps).andThen fun step =>
      (one .executa .loopExecuta).map fun _ => ⟨name, first, last, some step⟩) <|
  (one .executa .loopExecuta).map fun _ => ⟨name, first, last, none⟩

/-- A block and the word that closes it. -/
def closedWalk (block : Walk (List Statement)) (word : Kind) (expected : Expected) :
    Walk (List Statement) :=
  block.andThen fun body => (one word expected).map fun _ => body

/-- What follows on the word `cat` of a loop. -/
def whileWalk (steps : Nat) (block : Walk (List Statement)) : Walk Statement :=
  (one .timp .timp).andThen fun _ => (Expr.walk steps).andThen fun condition =>
    ((one .executa .whileExecuta).andThen fun _ => closedWalk block .sf .closeCatTimp).map
      (.whileDo condition)

/-- What follows on the condition of a statement opened by `daca`. -/
def branchesWalk (block : Walk (List Statement)) (condition : Expr) : Walk Statement :=
  block.andThen fun body =>
    branch .altfel
      (fun _ => (closedWalk block .sf .closeDaca).map (.ifElse condition body)) <|
    (one .sf .closeDaca).map fun _ => .ifThen condition body

/-- A statement, by the walks of a block and of a loop opened by `executa`. -/
def stepWalk (steps : Nat) (block : Walk (List Statement))
    (loop : Walk (List Statement × Expr)) : Walk Statement :=
  branch .executa (fun _ => loop.map fun loop => .doWhile loop.1 loop.2) <|
  branch .daca (fun _ => (Expr.walk steps).andThen fun condition =>
    (one .atunci .atunci).andThen fun _ => branchesWalk block condition) <|
  branch .pentru (fun _ => (headerWalk steps).andThen fun header =>
    (closedWalk block .sf .closePentru).map
      (.count header.name header.first header.last header.step)) <|
  branch .cat (fun _ => whileWalk steps block) <|
  branch .repeta (fun _ => block.andThen fun body =>
    (one .pana .closeRepeta).andThen fun _ => (one .cand .cand).andThen fun _ =>
      (Expr.walk steps).map (.doUntil body)) <|
  lineWalk steps

/-- What follows on a condition behind `cat timp` in the block of a loop opened by `executa`. Before
`executa` the walk goes back to `cat`, where it started, and tries a loop; if there is none, it
returns to the end of the condition, which closes the loop that is open. -/
def closingWalk (steps : Nat) (block : Walk (List Statement))
    (loop : Walk (List Statement × Expr)) (saved : Nat) (condition : Expr) :
    Walk (List Statement × Expr) :=
  choose (· = .executa)
    (here.andThen fun behind => (moveTo saved).andThen fun _ =>
      attempt (advance.andThen fun _ => whileWalk steps block)
        (fun nested => loop.map fun loop => (nested :: loop.1, loop.2))
        ((moveTo behind).andThen fun _ => done ([], condition)))
    (done ([], condition))

/-- The words `cat timp` with a condition in the block of a loop opened by `executa`, and what
follows on them. -/
def clauseWalk (steps : Nat) (block : Walk (List Statement))
    (loop : Walk (List Statement × Expr)) : Walk (List Statement × Expr) :=
  here.andThen fun saved =>
    (advance.andThen fun _ => advance.andThen fun _ => Expr.walk steps).andThen fun condition =>
      closingWalk steps block loop saved condition

/-- A statement in the block of a loop opened by `executa`, and what follows on it. -/
def roundWalk (steps : Nat) (block : Walk (List Statement))
    (loop : Walk (List Statement × Expr)) : Walk (List Statement × Expr) :=
  choose startsWith
    ((stepWalk steps block loop).andThen fun first =>
      loop.map fun loop => (first :: loop.1, loop.2))
    (fail .closeExecuta)

/-- A round of a loop opened by `executa`, and the rounds behind it. -/
def loopStep (steps : Nat) (block : Walk (List Statement))
    (loop : Walk (List Statement × Expr)) : Walk (List Statement × Expr) :=
  peek.andThen fun token => peekAhead.andThen fun next =>
    if token.kind = .cat ∧ next.map Token.kind = some .timp then clauseWalk steps block loop
    else roundWalk steps block loop

mutual

/-- The statements up to the first token that does not begin one. -/
def blockWalk : (steps : Nat) → Walk (List Statement)
  | 0 => unfinished
  | steps + 1 => choose startsWith
    ((stepWalk (steps + 1) (blockWalk steps) (loopWalk steps)).andThen fun first =>
      (blockWalk steps).map (first :: ·))
    (done [])

/-- The block of a loop that was opened by `executa`, and the condition that closes the loop. -/
def loopWalk : (steps : Nat) → Walk (List Statement × Expr)
  | 0 => unfinished
  | steps + 1 => loopStep (steps + 1) (blockWalk steps) (loopWalk steps)

end

/-- A statement. -/
def walk (steps : Nat) : Walk Statement :=
  stepWalk steps (blockWalk steps) (loopWalk steps)

section

variable {steps : Nat}

theorem follows_namesWalk : Follows steps (namesWalk steps) namesScan := by
  refine .separated (by decide) ?_ (Nat.le_refl steps)
  rw [Reader.scan_expect]
  exact .one (by decide) _

theorem follows_valuesWalk : Follows steps (valuesWalk steps) valuesScan :=
  .separated (by decide) (Expr.follows_walk steps) (Nat.le_refl steps)

theorem follows_simpleWalk : Follows steps (simpleWalk steps) simpleScan := by
  have le := Nat.le_succ steps
  have update (name : String) : Follows steps (updateWalk steps name) (updateScan name) :=
    .branch (by decide) (fun _ => .map _ (Expr.follows_walk steps)) le <|
    .branch (by decide) (fun _ => .map _ (.one (by decide) _)) le <|
    .fail _
  exact .branch (by decide) (fun _ => .map _ follows_namesWalk) le <|
    .branch (by decide) (fun _ => .map _ follows_valuesWalk) le <|
    .branch (by decide) update le <|
    .fail _

theorem follows_lineWalk : Follows steps (lineWalk steps) lineScan :=
  .map ofParts <| .separated (by decide) (scan_parseSimple ▸ follows_simpleWalk) (Nat.le_refl steps)

theorem follows_headerWalk : Follows steps (headerWalk steps) headerScan :=
  .andThen (.one (by decide) _) fun _ =>
  .andThen (.one (by decide) _) fun _ =>
  .andThen (Expr.follows_walk steps) fun _ =>
  .andThen (.one (by decide) _) fun _ =>
  .andThen (Expr.follows_walk steps) fun _ =>
  .branch (by decide)
    (fun _ => .andThen (Expr.follows_walk steps) fun _ => .map _ (.one (by decide) _))
    (Nat.le_succ steps)
    (.map _ (.one (by decide) _))

end

section Steps

variable {steps : Nat} {block : Walk (List Statement)} {loop : Walk (List Statement × Expr)}

theorem follows_closedWalk (hBlock : Follows steps block blockScan) {word : Kind} (ne : word ≠ .eof)
    (expected : Expected) :
    Follows steps (closedWalk block word expected) (closedScan word expected) :=
  .andThen hBlock fun _ => .map _ (.one ne expected)

/-- What follows on the word `cat` of a loop, as a scan. -/
def whileScan : Scan Statement :=
  (Scan.one .timp .timp).andThen fun _ => exprScan.andThen fun condition =>
    bodyScan.map (.whileDo condition)

theorem follows_whileWalk (hBlock : Follows steps block blockScan) :
    Follows steps (whileWalk (steps + 1) block) whileScan :=
  .andThen (.one (by decide) _) fun _ =>
  .andThen ((Expr.follows_walk (steps + 1)).mono (Nat.le_succ steps)) fun _ =>
  .map _ <| .andThen (.one (by decide) _) fun _ => follows_closedWalk hBlock (by decide) _

theorem follows_stepWalk (hBlock : Follows steps block blockScan)
    (hLoop : Follows steps loop loopScan) :
    Follows (steps + 1) (stepWalk (steps + 1) block loop) statementScan := by
  have le := Nat.le_refl (steps + 1)
  have expr : Follows steps (Expr.walk (steps + 1)) exprScan :=
    (Expr.follows_walk (steps + 1)).mono (Nat.le_succ steps)
  have branches (condition : Expr) :
      Follows steps (branchesWalk block condition) (branchesScan condition) :=
    .andThen hBlock fun _ =>
    .branch (by decide) (fun _ => .map _ (follows_closedWalk hBlock (by decide) _))
      (Nat.le_succ steps) (.map _ (.one (by decide) _))
  rw [statementScan_eq]
  exact .branch (by decide) (fun _ => .map _ hLoop) le <|
    .branch (by decide) (fun _ => .andThen expr fun condition =>
      .andThen (.one (by decide) _) fun _ => branches condition) le <|
    .branch (by decide) (fun _ => .andThen (follows_headerWalk.mono (Nat.le_succ steps)) fun _ =>
      .map _ (follows_closedWalk hBlock (by decide) _)) le <|
    .branch (by decide) (fun _ => follows_whileWalk hBlock) le <|
    .branch (by decide) (fun _ => .andThen hBlock fun _ => .andThen (.one (by decide) _) fun _ =>
      .andThen (.one (by decide) _) fun _ => .map _ expr) le <|
    follows_lineWalk

/-- The two words that can close a loop, by the token at a place and the one behind it. -/
theorem catTimp_iff (place : Place) :
    (place.token.kind = .cat ∧ place.buffer[place.position + 1]?.map Token.kind = some .timp) ↔
      ∃ cat timp rest, place.pending = cat :: timp :: rest ∧ cat.kind = .cat ∧
        timp.kind = .timp := by
  cases pending : place.pending with
  | nil =>
    rw [Place.token_of_nil pending, place.eof]
    simp
  | cons cat others =>
    rw [Place.token_of_cons pending, Place.getElem?_succ pending]
    cases others with
    | nil =>
      have last : (place.next pending).token = place.last := Place.token_of_nil rfl
      rw [last]
      simp [place.eof]
    | cons timp rest =>
      have next : (place.next pending).token = timp := Place.token_of_cons rfl
      rw [next]
      simp

section Clause

variable {place later : Place} {visited seen : List Nat} {cat timp : Token} {rest : List Token}
  {condition : Expr}

/-- Behind the condition the walk finds what is read there, although it goes back to `cat` if
`executa` follows. -/
theorem arrives_closingWalk (hBlock : Follows steps block blockScan)
    (hLoop : Follows steps loop loopScan) (pending : place.pending = cat :: timp :: rest)
    (hTimp : timp.kind = .timp) (lt : (timp :: rest).length < steps)
    (found : exprScan rest = .ok (condition, later.pending)) (onward : place.Onward later)
    (inside : place.Covers seen) :
    Arrives place visited (clauseScan condition later.pending)
      (closingWalk (steps + 1) block loop place.position condition place.buffer
        (later.track (seen ++ visited))) := by
  have start : place.Covers [place.position] := (Place.Onward.refl place).covers_position
  rw [closingWalk, choose, ← onward.buffer_eq, Walk.peek_andThen, onward.buffer_eq]
  unfold clauseScan Scan.attempt
  by_cases executa : later.token.kind = .executa
  · rw [if_pos (by simp [executa])]
    -- a loop is tried from `cat` on, over the same condition
    have same : whileScan (timp :: rest) = bodyScan.map (.whileDo condition) later.pending := by
      simp only [whileScan, Scan.andThen, Scan.one_of_kind _ _ hTimp, found]
    have trial : Arrives place (place.position :: seen ++ visited)
        (bodyScan.map (.whileDo condition) later.pending)
        ((advance.andThen fun _ => whileWalk (steps + 1) block) place.buffer
          (place.track (place.position :: seen ++ visited))) := by
      rw [← same]
      exact .advance pending (follows_whileWalk hBlock (place.next pending) _ lt)
    refine trial.attempt (start.append inside) ?_ ?_
    · intro nested after more tried onward' inside'
      obtain ⟨body, read, rfl⟩ := Scan.map_eq_ok_iff.mp tried
      have shorter : later.pending.length < steps :=
        Nat.lt_trans (Reader.length_lt_of_scan found) (Nat.lt_of_succ_lt lt)
      rw [read]
      refine .behind onward' inside' ?_
      rw [← onward'.buffer_eq]
      exact hLoop.map _ after _ (faithful_bodies.length_lt shorter read)
    · -- the walk returns to the end of the condition
      intro failure after more failed inside'
      rw [Scan.map_eq_error_iff.mp failed]
      exact .found onward (onward.covers_position.append inside') ([], condition)
  · rw [if_neg (by simp [executa])]
    have fails : bodyScan later.pending =
        .error { expected := .whileExecuta, rest := later.pending } := by
      have other : ∀ token ∈ later.pending.head?, token.kind ≠ .executa := by
        intro token first
        rwa [Place.token, Option.mem_def.mp first] at executa
      rw [bodyScan, Scan.andThen, Scan.one_of_not_mem _ other]
    rw [fails]
    exact .found onward inside _

theorem arrives_clauseWalk (hBlock : Follows steps block blockScan)
    (hLoop : Follows steps loop loopScan) (pending : place.pending = cat :: timp :: rest)
    (hTimp : timp.kind = .timp) (lt : (timp :: rest).length < steps) :
    Arrives place visited (exprScan.andThen clauseScan rest)
      (clauseWalk (steps + 1) block loop place.buffer (place.track visited)) := by
  have behind : (place.next pending).pending = timp :: rest := rfl
  have expr : Arrives place visited (exprScan rest)
      ((advance.andThen fun _ => advance.andThen fun _ => Expr.walk (steps + 1)) place.buffer
        (place.track visited)) := by
    refine .advance pending (.advance behind ?_)
    refine Expr.follows_walk (steps + 1) ((place.next pending).next behind) _ ?_
    show rest.length < steps + 1
    rw [List.length_cons] at lt
    omega
  exact expr.step fun condition later seen found onward inside =>
    arrives_closingWalk hBlock hLoop pending hTimp lt found onward inside

end Clause

theorem follows_loopStep (hBlock : Follows steps block blockScan)
    (hLoop : Follows steps loop loopScan) :
    Follows (steps + 1) (loopStep (steps + 1) block loop) loopScan := by
  intro place visited lt
  rw [loopStep, Walk.peek_andThen, Walk.peekAhead_andThen]
  by_cases words : place.token.kind = .cat ∧
      place.buffer[place.position + 1]?.map Token.kind = some .timp
  · obtain ⟨cat, timp, rest, pending, hCat, hTimp⟩ := (catTimp_iff place).mp words
    rw [if_pos words, pending, loopScan_catTimp rest hCat hTimp]
    rw [pending, List.length_cons] at lt
    exact arrives_clauseWalk hBlock hLoop pending hTimp (by omega)
  · have none : acceptCatTimp place.pending = none := acceptCatTimp_eq_none <| by
      intro cat timp rest pending hCat hTimp
      exact words ((catTimp_iff place).mpr ⟨cat, timp, rest, pending, hCat, hTimp⟩)
    have round : Follows (steps + 1) (roundWalk (steps + 1) block loop)
        (Scan.choose startsWith
          (statementScan.andThen fun first => loopScan.map fun loop => (first :: loop.1, loop.2))
          (Scan.fail .closeExecuta)) :=
      .choose rfl ((follows_stepWalk hBlock hLoop).andThenWithin (fun _ => .map _ hLoop)
        Reader.lt_of_scan) (.fail _)
    rw [if_neg words, loopScan_of_not_catTimp none]
    exact round place visited lt

theorem follows_blockStep (hBlock : Follows steps block blockScan)
    (hLoop : Follows steps loop loopScan) :
    Follows (steps + 1)
      (choose startsWith
        ((stepWalk (steps + 1) block loop).andThen fun first => block.map (first :: ·)) (done []))
      blockScan := by
  rw [blockScan_eq]
  exact .choose rfl ((follows_stepWalk hBlock hLoop).andThenWithin (fun _ => .map _ hBlock)
    Reader.lt_of_scan) (.done [])

end Steps

/-- The walks of blocks and loops do what the scans do, with as many steps as there are tokens. -/
theorem follows_walks (steps : Nat) :
    Follows steps (blockWalk steps) blockScan ∧ Follows steps (loopWalk steps) loopScan := by
  induction steps with
  | zero => exact ⟨.zero, .zero⟩
  | succ steps ih =>
    obtain ⟨hBlock, hLoop⟩ := ih
    rw [blockWalk, loopWalk]
    exact ⟨follows_blockStep hBlock hLoop, follows_loopStep hBlock hLoop⟩

theorem follows_walk (steps : Nat) : Follows steps (walk steps) statementScan := by
  cases steps with
  | zero => exact .zero
  | succ steps =>
    obtain ⟨hBlock, hLoop⟩ := follows_walks (steps + 1)
    exact follows_stepWalk (hBlock.mono (Nat.le_succ steps)) (hLoop.mono (Nat.le_succ steps))

end Statement

/-! ## Programs -/

namespace Program

/-- The statements up to the end. -/
def walk : (steps : Nat) → Walk Program
  | 0 => unfinished
  | steps + 1 => choose (· ≠ .eof)
    (choose Statement.startsWith
      ((Statement.walk (steps + 1)).andThen fun first =>
        (walk steps).map fun others => ⟨first :: others.statements⟩)
      (fail .statement))
    (done ⟨[]⟩)

/-- A program is a statement and the rest of the program, or there is nothing left. -/
theorem programScan_eq :
    programScan = Scan.choose Statement.startsWith
      (Statement.statementScan.andThen fun first =>
        programScan.map fun others => ⟨first :: others.statements⟩)
      (endScan ⟨[]⟩) := by
  have behind (first : Statement) :
      (Statement.blockScan.map (first :: ·)).andThen (fun statements => endScan ⟨statements⟩) =
        programScan.map fun others => ⟨first :: others.statements⟩ := by
    rw [Scan.andThen_map, programScan, Scan.map_andThen]
    congr 1
    funext others tokens
    cases tokens <;> rfl
  calc programScan
      = (Scan.choose Statement.startsWith
          (Statement.statementScan.andThen fun first => Statement.blockScan.map (first :: ·))
          (Scan.done [])).andThen fun statements => endScan ⟨statements⟩ :=
        congrArg (Scan.andThen · fun statements => endScan ⟨statements⟩) Statement.blockScan_eq
    _ = Scan.choose Statement.startsWith
          ((Statement.statementScan.andThen fun first =>
            Statement.blockScan.map (first :: ·)).andThen fun statements => endScan ⟨statements⟩)
          ((Scan.done []).andThen fun statements => endScan ⟨statements⟩) :=
        Scan.choose_andThen _ _ _ _
    _ = _ := by
        rw [Scan.andThen_andThen]
        simp only [behind]
        rfl

theorem follows_walk (steps : Nat) : Walk.Follows steps (walk steps) programScan := by
  induction steps with
  | zero => exact .zero
  | succ steps ih =>
    have whole : Walk.Follows (steps + 1) (walk (steps + 1))
        (Scan.choose (· ≠ .eof)
          (Scan.choose Statement.startsWith
            (Statement.statementScan.andThen fun first =>
              programScan.map fun others => ⟨first :: others.statements⟩)
            (Scan.fail .statement))
          (Scan.done ⟨[]⟩)) :=
      .choose rfl (.choose rfl ((Statement.follows_walk (steps + 1)).andThenWithin
        (fun _ => .map _ ih) Reader.lt_of_scan) (.fail _)) (.done _)
    intro place visited lt
    have arrives := whole place visited lt
    cases pending : place.pending with
    | nil =>
      rw [pending] at arrives
      rw [programScan_eq]
      exact arrives
    | cons token rest =>
      rw [pending, Scan.choose, if_pos (by simp [Place.ne_eof pending])] at arrives
      rw [programScan_eq]
      exact arrives

end Program

end Pseudocod

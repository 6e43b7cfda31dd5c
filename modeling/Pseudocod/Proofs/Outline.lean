import Pseudocod.Proofs.LineBreaks
import Pseudocod.Proofs.LineRoles

/-!
# The outline of a laid-out program

The lines of a program and the statements of its tree are in the same order. A statement with no
block takes one line, and one with a block a line that opens it and one that closes it, and one more
if it has a second block. In the layout every line is read apart from the others, so that the words
of a line are the tokens on it. They are behind the blanks of the line, of which there are four for
each block around it, and so a statement starts at the column that its depth says.

* `Statement.lines_eq_map`: the lines of a statement, by what they are for.
* `Statement.rowWords_outline`: the words of a statement are those of its lines.
* `Statement.located_nodes`: each statement of a tree starts with a line.
* `Cursor.tokenize_rows`: the tokens of a text are on its lines.
* `Program.render_laid_out`: the lines, the statements and the tokens of a laid-out program.
-/

namespace Pseudocod

/-- A line of a program by what it is for, and how many blocks are around it. -/
structure Row where
  depth : Nat
  role : Role

/-- The line as it is laid out. -/
def Row.line (row : Row) : Line :=
  { depth := row.depth, text := row.role.text }

/-- The words of several lines. -/
def rowWords (rows : List Row) : List Lexeme :=
  rows.flatMap fun row => row.role.words

theorem rowWords_append (rows rows' : List Row) :
    rowWords (rows ++ rows') = rowWords rows ++ rowWords rows' :=
  List.flatMap_append

theorem rowWords_cons (row : Row) (rows : List Row) :
    rowWords (row :: rows) = row.role.words ++ rowWords rows :=
  List.flatMap_cons

/-- A statement of a tree that is not part of a sequence: how many blocks are around it, and the
words in front of it. -/
structure Node where
  depth : Nat
  front : List Lexeme
  statement : Statement

namespace Statement

/-! ## Lines -/

/-- The lines of a statement with a block: one that opens it, those inside, and one that closes
it. -/
def blockRows (depth : Nat) (opening : Opening) (inner : List Row) (closing : Closing) :
    List Row :=
  ⟨depth, .opens opening⟩ :: (inner ++ [⟨depth, .closes closing⟩])

mutual

/-- The lines of a statement with `depth` blocks around it, by what they are for. -/
def outline (depth : Nat) : Statement → List Row
  | .ifThen condition body =>
    blockRows depth (.ifThen condition) (blockOutline (depth + 1) body) .sf
  | .ifElse condition body alternative =>
    blockRows depth (.ifThen condition)
      (blockOutline (depth + 1) body ++ ⟨depth, .divides⟩ :: blockOutline (depth + 1) alternative)
      .sf
  | .count name first last step body =>
    blockRows depth (.count ⟨name, first, last, step⟩) (blockOutline (depth + 1) body) .sf
  | .whileDo condition body =>
    blockRows depth (.whileDo condition) (blockOutline (depth + 1) body) .sf
  | .doWhile body condition =>
    blockRows depth .doWhile (blockOutline (depth + 1) body) (.whileTest condition)
  | .doUntil body condition =>
    blockRows depth .doUntil (blockOutline (depth + 1) body) (.untilTest condition)
  | statement => [⟨depth, .whole statement⟩]

/-- The lines of the statements of a block that has `depth` blocks around its statements. -/
def blockOutline (depth : Nat) : List Statement → List Row
  | [] => []
  | statement :: statements => statement.outline depth ++ blockOutline depth statements

end

mutual

theorem lines_eq_map (depth : Nat) (statement : Statement) :
    statement.lines depth = (statement.outline depth).map Row.line := by
  cases statement with
  | assign | swap | read | write | sequence =>
    simp only [lines, outline, partText, Row.line, Role.text, List.map_cons, List.map_nil]
  | ifElse condition body alternative =>
    simp [lines, outline, blockRows, Row.line, Role.text, Opening.text, Closing.text,
      blockLines_eq_map (depth + 1) body, blockLines_eq_map (depth + 1) alternative]
  | ifThen _ body | count _ _ _ _ body | whileDo _ body | doWhile body | doUntil body =>
    simp [lines, outline, blockRows, Row.line, Role.text, Opening.text, Closing.text,
      blockLines_eq_map (depth + 1) body]

theorem blockLines_eq_map (depth : Nat) (statements : List Statement) :
    blockLines depth statements = (blockOutline depth statements).map Row.line := by
  cases statements with
  | nil => rfl
  | cons statement statements =>
    rw [blockLines, blockOutline, List.map_append, lines_eq_map depth statement,
      blockLines_eq_map depth statements]

end

theorem rowWords_blockRows (depth : Nat) (opening : Opening) (inner : List Row)
    (closing : Closing) : rowWords (blockRows depth opening inner closing) =
      opening.words ++ (rowWords inner ++ closing.words) := by
  have last : rowWords [⟨depth, .closes closing⟩] = closing.words := List.flatMap_singleton _ _
  rw [blockRows, rowWords_cons, rowWords_append, last, Role.words]

mutual

/-- The words of a statement are those of its lines. -/
theorem rowWords_outline (depth : Nat) (statement : Statement) :
    rowWords (statement.outline depth) = statement.words := by
  cases statement with
  | assign | swap | read | write | sequence =>
    simp only [outline, rowWords, List.flatMap_singleton, Role.words]
  | ifElse condition body alternative =>
    simp [outline, rowWords_blockRows, rowWords_append, rowWords_cons, words, Role.words,
      Opening.words, Closing.words, rowWords_blockOutline (depth + 1) body,
      rowWords_blockOutline (depth + 1) alternative]
  | ifThen _ body | count _ _ _ _ body | whileDo _ body | doWhile body | doUntil body =>
    simp [outline, rowWords_blockRows, words, Opening.words, Closing.words,
      rowWords_blockOutline (depth + 1) body]

theorem rowWords_blockOutline (depth : Nat) (statements : List Statement) :
    rowWords (blockOutline depth statements) = blockWords statements := by
  cases statements with
  | nil => rfl
  | cons statement statements =>
    rw [blockOutline, rowWords_append, rowWords_outline depth statement,
      rowWords_blockOutline depth statements, blockWords]

end

/-- Rows of which the roles are right. -/
def RowsWellFormed (rows : List Row) : Prop :=
  ∀ row ∈ rows, row.role.WellFormed

theorem RowsWellFormed.append {rows rows' : List Row} (first : RowsWellFormed rows)
    (others : RowsWellFormed rows') : RowsWellFormed (rows ++ rows') :=
  List.forall_mem_append.mpr ⟨first, others⟩

theorem RowsWellFormed.cons {row : Row} {rows : List Row} (first : row.role.WellFormed)
    (others : RowsWellFormed rows) : RowsWellFormed (row :: rows) :=
  List.forall_mem_cons.mpr ⟨first, others⟩

theorem RowsWellFormed.block {inner : List Row} {opening : Opening} {closing : Closing}
    (opens : opening.WellFormed) (inside : RowsWellFormed inner) (closes : closing.WellFormed)
    (depth : Nat) : RowsWellFormed (blockRows depth opening inner closing) :=
  .cons opens (inside.append (.cons closes nofun))

mutual

theorem wellFormed_outline (depth : Nat) (statement : Statement) (canonical : statement.Canonical)
    (spelled : statement.Spelled) : RowsWellFormed (statement.outline depth) := by
  cases statement with
  | assign | swap | read | write =>
    simp only [outline]
    exact .cons ⟨.inl rfl, canonical, spelled⟩ nofun
  | sequence parts =>
    simp only [outline]
    exact .cons ⟨.inr ⟨parts, rfl⟩, canonical, spelled⟩ nofun
  | ifThen condition body =>
    have inside := wellFormed_blockOutline (depth + 1) body canonical.2 spelled.2
    have opens : (Opening.ifThen condition).WellFormed := ⟨canonical.1, spelled.1⟩
    have closes : Closing.sf.WellFormed := trivial
    rw [outline]
    exact .block opens inside closes depth
  | ifElse condition body alternative =>
    have inside := wellFormed_blockOutline (depth + 1) body canonical.2.1 spelled.2.1
    have others := wellFormed_blockOutline (depth + 1) alternative canonical.2.2 spelled.2.2
    have opens : (Opening.ifThen condition).WellFormed := ⟨canonical.1, spelled.1⟩
    have divides : Role.divides.WellFormed := trivial
    have closes : Closing.sf.WellFormed := trivial
    rw [outline]
    exact .block opens (inside.append (.cons divides others)) closes depth
  | count name first last step body =>
    obtain ⟨hFirst, hLast, hStep, hBody⟩ := canonical
    obtain ⟨hName, hFirst', hLast', hStep', hBody'⟩ := spelled
    have inside := wellFormed_blockOutline (depth + 1) body hBody hBody'
    have opens : (Opening.count ⟨name, first, last, step⟩).WellFormed :=
      ⟨hName, ⟨hFirst, hFirst'⟩, ⟨hLast, hLast'⟩, fun expr member =>
        ⟨hStep expr member, hStep' expr member⟩⟩
    have closes : Closing.sf.WellFormed := trivial
    rw [outline]
    exact .block opens inside closes depth
  | whileDo condition body =>
    have inside := wellFormed_blockOutline (depth + 1) body canonical.2 spelled.2
    have opens : (Opening.whileDo condition).WellFormed := ⟨canonical.1, spelled.1⟩
    have closes : Closing.sf.WellFormed := trivial
    rw [outline]
    exact .block opens inside closes depth
  | doWhile body condition =>
    have inside := wellFormed_blockOutline (depth + 1) body canonical.1 spelled.1
    have opens : Opening.doWhile.WellFormed := trivial
    have closes : (Closing.whileTest condition).WellFormed := ⟨canonical.2, spelled.2⟩
    rw [outline]
    exact .block opens inside closes depth
  | doUntil body condition =>
    have inside := wellFormed_blockOutline (depth + 1) body canonical.1 spelled.1
    have opens : Opening.doUntil.WellFormed := trivial
    have closes : (Closing.untilTest condition).WellFormed := ⟨canonical.2, spelled.2⟩
    rw [outline]
    exact .block opens inside closes depth

theorem wellFormed_blockOutline (depth : Nat) (statements : List Statement)
    (canonical : BlockCanonical statements) (spelled : BlockSpelled statements) :
    RowsWellFormed (blockOutline depth statements) := by
  cases statements with
  | nil => exact nofun
  | cons statement statements =>
    exact (wellFormed_outline depth statement canonical.1 spelled.1).append
      (wellFormed_blockOutline depth statements canonical.2 spelled.2)

end

/-! ## Statements -/

mutual

/-- The statements of a tree but for the parts of sequences, from the first word to the last: the
statement itself, with `depth` blocks around it and `front` in front of it, and those in its
blocks. -/
def nodes (depth : Nat) (front : List Lexeme) : Statement → List Node
  | .ifThen condition body =>
    ⟨depth, front, .ifThen condition body⟩ ::
      blockNodes (depth + 1) (front ++ (Opening.ifThen condition).words) body
  | .ifElse condition body alternative =>
    ⟨depth, front, .ifElse condition body alternative⟩ ::
      (blockNodes (depth + 1) (front ++ (Opening.ifThen condition).words) body ++
        blockNodes (depth + 1)
          (front ++ (Opening.ifThen condition).words ++ (blockWords body ++ [Kind.altfel.word]))
          alternative)
  | .count name first last step body =>
    ⟨depth, front, .count name first last step body⟩ ::
      blockNodes (depth + 1) (front ++ (Opening.count ⟨name, first, last, step⟩).words) body
  | .whileDo condition body =>
    ⟨depth, front, .whileDo condition body⟩ ::
      blockNodes (depth + 1) (front ++ (Opening.whileDo condition).words) body
  | .doWhile body condition =>
    ⟨depth, front, .doWhile body condition⟩ ::
      blockNodes (depth + 1) (front ++ Opening.doWhile.words) body
  | .doUntil body condition =>
    ⟨depth, front, .doUntil body condition⟩ ::
      blockNodes (depth + 1) (front ++ Opening.doUntil.words) body
  | statement => [⟨depth, front, statement⟩]

/-- The statements in a block with `depth` blocks around its statements. -/
def blockNodes (depth : Nat) (front : List Lexeme) : List Statement → List Node
  | [] => []
  | statement :: statements =>
    statement.nodes depth front ++ blockNodes depth (front ++ statement.words) statements

end

/-- The lines that a statement adds to those of the statements in its blocks. -/
def ownLines : Statement → Nat
  | .ifThen .. | .count .. | .whileDo .. | .doWhile .. | .doUntil .. => 2
  | .ifElse .. => 3
  | _ => 1

/-- The lines that some statements of a tree add up to. -/
def lineSum (nodes : List Node) : Nat :=
  (nodes.map fun node => node.statement.ownLines).sum

theorem lineSum_append (nodes nodes' : List Node) :
    lineSum (nodes ++ nodes') = lineSum nodes + lineSum nodes' := by
  rw [lineSum, List.map_append, List.sum_append]
  rfl

theorem lineSum_cons (node : Node) (nodes : List Node) :
    lineSum (node :: nodes) = node.statement.ownLines + lineSum nodes :=
  List.sum_cons

theorem length_blockRows (depth : Nat) (opening : Opening) (inner : List Row) (closing : Closing) :
    (blockRows depth opening inner closing).length = inner.length + 2 := by
  rw [blockRows, List.length_cons, List.length_append, List.length_singleton]

mutual

/-- The lines of a statement are those that it and the statements in its blocks add. -/
theorem length_outline (depth : Nat) (front : List Lexeme) (statement : Statement) :
    (statement.outline depth).length = lineSum (statement.nodes depth front) := by
  cases statement with
  | assign | swap | read | write | sequence => simp only [outline, nodes]; rfl
  | ifElse condition body alternative =>
    rw [outline, nodes, length_blockRows, lineSum_cons, lineSum_append,
      ← length_blockOutline (depth + 1) _ body, ← length_blockOutline (depth + 1) _ alternative,
      List.length_append, List.length_cons, ownLines]
    omega
  | ifThen _ body | count _ _ _ _ body | whileDo _ body | doWhile body | doUntil body =>
    rw [outline, nodes, length_blockRows, lineSum_cons, length_blockOutline (depth + 1) _ body,
      ownLines, Nat.add_comm]

theorem length_blockOutline (depth : Nat) (front : List Lexeme) (statements : List Statement) :
    (blockOutline depth statements).length = lineSum (blockNodes depth front statements) := by
  cases statements with
  | nil => rfl
  | cons statement statements =>
    rw [blockOutline, blockNodes, List.length_append, lineSum_append,
      length_outline depth front statement,
      length_blockOutline depth (front ++ statement.words) statements]

end

/-- A statement of a tree starts with a line: the words in front of it are in front of the line,
there are as many blocks around it, and its first word is that of the line. -/
def Located (rows : List Row) (front : List Lexeme) (node : Node) : Prop :=
  ∃ above row below, rows = above ++ row :: below ∧ node.front = front ++ rowWords above ∧
    row.depth = node.depth ∧ row.role.words.head? = node.statement.words.head?

namespace Located

variable {inner : List Row} {front : List Lexeme} {node : Node}

theorem append (located : Located inner front node) (below : List Row) :
    Located (inner ++ below) front node := by
  obtain ⟨above, row, after, rfl, eq, depth, head⟩ := located
  exact ⟨above, row, after ++ below, List.append_assoc .., eq, depth, head⟩

theorem behind {above : List Row} (located : Located inner (front ++ rowWords above) node) :
    Located (above ++ inner) front node := by
  obtain ⟨before, row, after, rfl, eq, depth, head⟩ := located
  refine ⟨above ++ before, row, after, (List.append_assoc ..).symm, ?_, depth, head⟩
  rw [eq, rowWords_append, List.append_assoc]

theorem block {depth : Nat} {opening : Opening}
    (located : Located inner (front ++ opening.words) node) (closing : Closing) :
    Located (blockRows depth opening inner closing) front node := by
  have opened : rowWords [⟨depth, .opens opening⟩] = opening.words := List.flatMap_singleton _ _
  rw [← opened] at located
  exact (located.append [⟨depth, .closes closing⟩]).behind

/-- A statement with a block starts with the line that opens the block. -/
theorem opens (depth : Nat) {opening : Opening} {statement : Statement}
    (head : opening.words.head? = statement.words.head?) (inner : List Row) (closing : Closing)
    (front : List Lexeme) :
    Located (blockRows depth opening inner closing) front ⟨depth, front, statement⟩ :=
  ⟨[], _, _, rfl, (List.append_nil front).symm, rfl, head⟩

theorem whole (depth : Nat) (front : List Lexeme) (statement : Statement) :
    Located [⟨depth, .whole statement⟩] front ⟨depth, front, statement⟩ :=
  ⟨[], _, [], rfl, (List.append_nil front).symm, rfl, rfl⟩

end Located

mutual

/-- Each statement of a tree starts with a line. -/
theorem located_nodes (depth : Nat) (front : List Lexeme) (statement : Statement) :
    ∀ node ∈ statement.nodes depth front, Located (statement.outline depth) front node := by
  cases statement with
  | assign | swap | read | write | sequence =>
    simp only [nodes, outline, List.forall_mem_singleton]
    exact .whole depth front _
  | ifThen _ body | count _ _ _ _ body | whileDo _ body | doWhile body | doUntil body =>
    rw [nodes, outline]
    refine List.forall_mem_cons.mpr ⟨.opens depth (by rw [words]; rfl) _ _ front, ?_⟩
    exact fun node member => (located_blockNodes _ _ body node member).block _
  | ifElse condition body alternative =>
    -- in front of the second block are the first one and the line that divides them
    have above : rowWords (blockOutline (depth + 1) body ++ [⟨depth, .divides⟩]) =
        blockWords body ++ [Kind.altfel.word] := by
      rw [rowWords_append, rowWords_blockOutline]
      rfl
    rw [nodes, outline, ← above]
    refine List.forall_mem_cons.mpr ⟨.opens depth (by rw [words]; rfl) _ _ front, ?_⟩
    refine List.forall_mem_append.mpr ⟨fun node member => ?_, fun node member => ?_⟩
    · exact ((located_blockNodes _ _ body node member).append _).block .sf
    · have inner := (located_blockNodes _ _ alternative node member).behind
      rw [List.append_assoc] at inner
      exact inner.block .sf

theorem located_blockNodes (depth : Nat) (front : List Lexeme) (statements : List Statement) :
    ∀ node ∈ blockNodes depth front statements,
      Located (blockOutline depth statements) front node := by
  cases statements with
  | nil => exact nofun
  | cons statement statements =>
    rw [blockNodes, blockOutline, List.forall_mem_append]
    refine ⟨fun node member => ?_, fun node member => ?_⟩
    · exact (located_nodes depth front statement node member).append _
    · have located := located_blockNodes depth _ statements node member
      rw [← rowWords_outline depth statement] at located
      exact located.behind

end

end Statement

/-! ## Tokens -/

/-- The tokens are those of the lines, of which the first one has the number `line`: on each line
are those of its words, and in front of them four blanks for each block around the line. -/
inductive OnLines : (line : Nat) → List Row → List Token → Prop where
  | nil {line : Nat} : OnLines line [] []
  | cons {line : Nat} {row : Row} {rows : List Row} {first : Token} {group tokens : List Token} :
    (first :: group).map Token.lexeme = row.role.words →
      first.location.column = 4 * row.depth + 1 →
        (∀ token ∈ first :: group, token.location.line = line) →
          OnLines (line + 1) rows tokens → OnLines line (row :: rows) (first :: group ++ tokens)

theorem IsGap.eq_nil {gap rest : List Char} (isGap : IsGap gap rest)
    (solid : ∀ c ∈ (gap ++ rest).head?, IsSolid c) : gap = [] := by
  cases isGap with
  | nil => rfl
  | blank blank => exact absurd (solid _ rfl).1 (by rw [blank]; exact Bool.noConfusion)
  | comment => exact absurd (solid '#' rfl) (by decide)

theorem Location.after_blanks (place : Location) (count : Nat) :
    (place.after (List.replicate count ' ')).line = place.line ∧
      (place.after (List.replicate count ' ')).column = place.column + count := by
  induction count generalizing place with
  | zero => exact ⟨rfl, rfl⟩
  | succ count ih =>
    obtain ⟨line, column⟩ := ih (place.next ' ')
    rw [List.replicate_succ, after_cons, line, column]
    exact ⟨rfl, Nat.add_right_comm ..⟩

theorem Row.toList_render (row : Row) :
    row.line.render.toList = List.replicate (4 * row.depth) ' ' ++ row.role.text.toList := by
  rw [Line.render, String.toList_append, String.toList_ofList]
  rfl

theorem Row.oneLine_render {row : Row} (wellFormed : row.role.WellFormed) :
    OneLine row.line.render := by
  rw [OneLine, row.toList_render, List.mem_append, not_or]
  refine ⟨fun newline => ?_, (Role.framed wellFormed).oneLine⟩
  exact absurd (List.eq_of_mem_replicate newline) (by decide)

namespace Cursor

/-- The tokens of a text without a newline are on the line where it starts. -/
theorem line_of_mem_tokenize {text : List Char} (oneLine : '\n' ∉ text) {place : Location}
    {tokens : List Token} (eq : (⟨text, place⟩ : Cursor).tokenize.1 = .ok tokens) :
    ∀ token ∈ tokens, token.location.line = place.line := by
  intro token member
  have trail := (⟨text, place⟩ : Cursor).tokenize_trail
  rw [eq] at trail
  obtain ⟨before, written, rest, whole, here, -⟩ :=
    trail.exists_place (List.mem_map_of_mem member)
  have whole : text = before ++ (written ++ rest) := whole
  have here : token.location = place.after before := here
  rw [whole, List.mem_append, not_or] at oneLine
  rw [here, Location.line_after, List.count_eq_zero_of_not_mem oneLine.1, Nat.add_zero]

/-- If a text begins with a word, its first token is where it starts. -/
theorem tokenize_solid {text : List Char} {words : List Lexeme} (lexes : Lexes text words)
    (solid : ∃ c ∈ text.head?, IsSolid c) (place : Location) :
    ∃ first group stop, (⟨text, place⟩ : Cursor).tokenize.1 = .ok (first :: group ++ [.eof stop]) ∧
      (first :: group).map Token.lexeme = words ∧ first.location = place := by
  obtain ⟨pieces, last, split, rfl⟩ := lexes.exists_split
  have found := tokenize_of_split ⟨text, place⟩ split
  obtain ⟨c, head, solid⟩ := solid
  have front : ∀ d ∈ text.head?, IsSolid d := by
    intro d head'
    rw [head] at head'
    exact Option.some.inj head' ▸ solid
  -- a gap in front of the first word would begin with a blank or with the sign of a comment
  generalize none : ([] : List Char) = rest at split
  cases split with
  | last isGap =>
    subst none
    obtain rfl := isGap.eq_nil front
    cases head
  | @piece gap written text last rest lexeme pieces isGap stands split =>
    obtain rfl := isGap.eq_nil front
    obtain ⟨words, stop, eq, same⟩ :=
      Piece.exists_tokens_eq (place.after ([] ++ written)) pieces last
    have tokens : Piece.tokens place (⟨[], written, lexeme⟩ :: pieces) last =
        lexeme.token place :: words ++ [.eof stop] := congrArg (lexeme.token place :: ·) eq
    refine ⟨lexeme.token place, words, stop, found.trans (congrArg _ tokens), ?_, rfl⟩
    rw [List.map_cons, same]
    rfl

/-- The tokens of a line: the first one is behind its blanks. -/
theorem tokenize_row {row : Row} (wellFormed : row.role.WellFormed) {place : Location}
    (column : place.column = 1) : ∃ first group stop,
      (⟨row.line.render.toList, place⟩ : Cursor).tokenize.1 =
        .ok (first :: group ++ [.eof stop]) ∧
      (first :: group).map Token.lexeme = row.role.words ∧
        first.location.column = 4 * row.depth + 1 ∧
          ∀ token ∈ first :: group, token.location.line = place.line := by
  have gap : IsGap (List.replicate (4 * row.depth) ' ') row.role.text.toList := by
    refine .of_blanks fun c member => ?_
    rw [List.eq_of_mem_replicate member]
    decide
  obtain ⟨first, group, stop, found, same, start⟩ := tokenize_solid (Role.lexes wellFormed)
    (Role.framed wellFormed).begins (place.after (List.replicate (4 * row.depth) ' '))
  rw [← tokenize_gap gap, ← row.toList_render] at found
  have onLine := line_of_mem_tokenize (Row.oneLine_render wellFormed) found
  refine ⟨first, group, stop, found, same, ?_, fun token member => ?_⟩
  · rw [start, (place.after_blanks _).2, column, Nat.add_comm]
  · exact onLine token (List.mem_append_left _ member)

/-- The tokens of several lines. A newline parts what is read, so that each line has its own. -/
theorem tokenize_rows {rows : List Row} (wellFormed : Statement.RowsWellFormed rows)
    {place : Location} (column : place.column = 1) : ∃ tokens stop,
      (⟨(Text.unlines (rows.map fun row => row.line.render)).toList, place⟩ : Cursor).tokenize.1 =
        .ok (tokens ++ [.eof stop]) ∧ OnLines place.line rows tokens := by
  induction rows generalizing place with
  | nil => exact ⟨[], place, congrArg Prod.fst (tokenize_nil place), .nil⟩
  | cons row rows ih =>
    obtain ⟨first, others⟩ := List.forall_mem_cons.mp wellFormed
    have whole : (Text.unlines ((row :: rows).map fun row => row.line.render)).toList =
        row.line.render.toList ++
          '\n' :: (Text.unlines (rows.map fun row => row.line.render)).toList := by
      simp [Text.unlines]
    obtain ⟨token, group, stop, found, same, start, onLine⟩ := tokenize_row first column
    let next := (place.after row.line.render.toList).next '\n'
    have nextLine : next.line = place.line + 1 := by
      have same := place.line_after row.line.render.toList
      rw [List.count_eq_zero_of_not_mem (Row.oneLine_render first), Nat.add_zero] at same
      exact congrArg (· + 1) same
    obtain ⟨tokens, stop', found', onLines⟩ := ih others (show next.column = 1 from rfl)
    refine ⟨token :: group ++ tokens, stop', ?_, .cons same start onLine (nextLine ▸ onLines)⟩
    rw [whole, tokenize_append_newline, found]
    show Except.map _ (Cursor.tokenize ⟨_, next⟩).1 = _
    rw [found', List.dropLast_concat, List.append_assoc]
    rfl

end Cursor

/-- Where a line has its tokens. -/
theorem OnLines.exists_tokens {line : Nat} {above below : List Row} {row : Row}
    {tokens : List Token} (onLines : OnLines line (above ++ row :: below) tokens) :
    ∃ before first after, tokens = before ++ first :: after ∧
      before.map Token.lexeme = rowWords above ∧ some first.lexeme = row.role.words.head? ∧
        first.location.column = 4 * row.depth + 1 ∧ first.location.line = line + above.length ∧
          ∀ token ∈ before, token.location.line < line + above.length := by
  induction above generalizing line tokens with
  | nil =>
    cases onLines with
    | @cons _ _ _ first group tokens same column onLine _ =>
      refine ⟨[], first, group ++ tokens, rfl, rfl, ?_, column, onLine _ List.mem_cons_self, nofun⟩
      rw [← same]
      rfl
  | cons other above ih =>
    cases onLines with
    | @cons _ _ _ first group tokens same column onLine others =>
      obtain ⟨before, token, after, rfl, words, head, column', line', earlier⟩ := ih others
      rw [Nat.add_assoc, Nat.add_comm 1] at line' earlier
      refine ⟨first :: group ++ before, token, after, (List.append_assoc ..).symm, ?_, head,
        column', line', List.forall_mem_append.mpr ⟨fun earlier member => ?_, earlier⟩⟩
      · rw [List.map_append, same, words, rowWords_cons]
      · rw [onLine earlier member]
        exact Nat.lt_add_of_pos_right (Nat.succ_pos _)

/-! ## Programs -/

theorem Text.splitLines_unlines {lines : List String} (h : ∀ line ∈ lines, OneLine line) :
    splitLines (unlines lines).toList = lines.map String.toList ++ [[]] := by
  induction lines with
  | nil => rfl
  | cons line lines ih =>
    obtain ⟨oneLine, others⟩ := List.forall_mem_cons.mp h
    have text : (unlines (line :: lines)).toList =
        line.toList ++ '\n' :: (unlines lines).toList := by
      simp [unlines]
    rw [text, splitLines_append_newline, splitLines_of_not_mem oneLine, ih others]
    rfl

/-- The first token of a statement is behind those of the words in front of it. It is at the column
that its depth says, and the tokens in front of it are on lines above. -/
def Node.StartsIn (node : Node) (tokens : List Token) : Prop :=
  ∃ before first after, tokens = before ++ first :: after ∧
    before.map Token.lexeme = node.front ∧ some first.lexeme = node.statement.words.head? ∧
    first.location.column = 4 * node.depth + 1 ∧
    ∀ token ∈ before, token.location.line < first.location.line

theorem Statement.Located.startsIn {rows : List Row} {node : Node}
    (located : Located rows [] node) {line : Nat} {tokens : List Token}
    (onLines : OnLines line rows tokens) : node.StartsIn tokens := by
  obtain ⟨above, row, below, rfl, front, depth, head⟩ := located
  obtain ⟨before, first, after, rfl, words, head', column, here, earlier⟩ := onLines.exists_tokens
  refine ⟨before, first, after, rfl, words.trans front.symm, head'.trans head, ?_, ?_⟩
  · rw [column, depth]
  · rw [here]
    exact earlier

namespace Program

/-- The lines of a program, by what they are for. -/
def outline (program : Program) : List Row :=
  Statement.blockOutline 0 program.statements

/-- The statements of a program but for the parts of sequences. -/
def nodes (program : Program) : List Node :=
  Statement.blockNodes 0 [] program.statements

theorem render_eq_unlines (program : Program) :
    program.render = Text.unlines (program.outline.map fun row => row.line.render) := by
  rw [render, lines, Statement.blockLines_eq_map, List.map_map]
  rfl

/-- A program that was read is laid out in lines with a newline behind each of them. A line has four
blanks for each block around it, and behind them a text that begins with a word and has no blank at
its end: a whole statement, or what opens, divides or closes a block, and only one of these. There
are as many lines as the statements add up to. The tokens are on their lines, and so each statement
begins a line, at the column that its depth says. -/
theorem render_laid_out {source : String} {program : Program} (h : parse source = .ok program) :
    Text.splitLines program.render.toList =
      program.outline.map (fun row =>
        List.replicate (4 * row.depth) ' ' ++ row.role.text.toList) ++ [[]] ∧
    (∀ row ∈ program.outline, row.role.WellFormed ∧
      (∀ role : Role, role.WellFormed → role.text = row.role.text → role = row.role) ∧
      (∃ c ∈ row.role.text.toList.head?, IsSolid c) ∧
      ∃ c ∈ row.role.text.toList.getLast?, Text.isBlank c = false) ∧
    program.outline.length = (program.nodes.map fun node => node.statement.ownLines).sum ∧
    ∃ tokens stop, tokenize program.render = .ok (tokens ++ [.eof stop]) ∧
      OnLines 1 program.outline tokens ∧ ∀ node ∈ program.nodes, node.StartsIn tokens := by
  obtain ⟨canonical, spelled⟩ := wellFormed_of_parse h
  have wellFormed : Statement.RowsWellFormed program.outline :=
    Statement.wellFormed_blockOutline 0 program.statements canonical spelled
  refine ⟨?_, fun row member => ?_, Statement.length_blockOutline 0 [] program.statements, ?_⟩
  · have oneLine : ∀ line ∈ program.outline.map fun row => row.line.render, OneLine line := by
      rw [List.forall_mem_map]
      exact fun row member => Row.oneLine_render (wellFormed row member)
    rw [render_eq_unlines, Text.splitLines_unlines oneLine, List.map_map]
    exact congrArg (· ++ [[]]) (List.map_congr_left fun row _ => row.toList_render)
  · have right := wellFormed row member
    have framed := Role.framed right
    exact ⟨right, fun role right' same => Role.text_inj right' right same, framed.begins,
      framed.ends⟩
  · have start : Location.start.column = 1 := rfl
    obtain ⟨tokens, stop, found, onLines⟩ := Cursor.tokenize_rows wellFormed start
    rw [← render_eq_unlines] at found
    refine ⟨tokens, stop, found, onLines, fun node member => ?_⟩
    exact (Statement.located_blockNodes 0 [] program.statements node member).startsIn onLines

/-- A loop and two statements on a line in one branch of a choice, and a statement in the other. The
sign of a comment is in a string. -/
def branching : String :=
  "daca a='#' atunci repeta b<-a;scrie b,1 pana cand NOT b altfel citeste a sf"

def branchingProgram : Program where
  statements :=
    [.ifElse (.binary .eq (.ident "a") (.string "#"))
      [.doUntil [.sequence [.assign "b" (.ident "a"), .write [.ident "b", .number "1"]]]
        (.unary .not (.ident "b"))]
      [.read ["a"]]]

theorem render_laid_out_branching :
    parse branching = .ok branchingProgram ∧
    branchingProgram.outline.map Row.line =
      [⟨0, "daca a = \"#\" atunci"⟩, ⟨1, "repeta"⟩, ⟨2, "b <- a; scrie b, 1"⟩,
        ⟨1, "pana cand not b"⟩, ⟨0, "altfel"⟩, ⟨1, "citeste a"⟩, ⟨0, "sf"⟩] ∧
    branchingProgram.nodes.map Node.depth = [0, 1, 2, 1] ∧
    ∃ tokens stop, tokenize branchingProgram.render = .ok (tokens ++ [.eof stop]) ∧
      OnLines 1 branchingProgram.outline tokens ∧
        ∀ node ∈ branchingProgram.nodes, node.StartsIn tokens := by
  have read : parse branching = .ok branchingProgram := by cbv
  obtain ⟨-, -, -, tokens⟩ := render_laid_out read
  exact ⟨read, by cbv, by cbv, tokens⟩

end Program

end Pseudocod

import Pseudocod.Proofs.Messages
import Pseudocod.Proofs.RoundTrip

/-!
# What the lines of a program are for

A line of a laid-out program is written for a whole statement, or it opens, divides or closes a
block. What is written on it begins with a word, ends with one and is on one line; and it is told
from it what the line is for, down to the expressions. For this the words of the line are enough:
only a line that opens a loop and one that closes a loop can begin alike, and the first of them ends
with a word that no expression has.

* `Role.lexes`, `Role.framed`: the words of a line, and how its text begins and ends.
* `Statement.words_inj`: a statement is told from its words.
* `Role.text_inj`: what a line is for is told from its text.
-/

namespace Pseudocod

/-! ## Texts on a line -/

/-- Texts at whose front there is a word. -/
def BeginsSolid (text : String) : Prop :=
  ∃ c ∈ text.toList.head?, IsSolid c

/-- Texts with no blank at the end. -/
def EndsFirm (text : String) : Prop :=
  ∃ c ∈ text.toList.getLast?, Text.isBlank c = false

instance (text : String) : Decidable (BeginsSolid text) :=
  Option.decidableExistsMem _

instance (text : String) : Decidable (EndsFirm text) :=
  Option.decidableExistsMem _

/-- A text as it stands on a line behind its blanks: with a word at the front, no blank at the end
and no newline. -/
structure Framed (text : String) : Prop where
  begins : BeginsSolid text
  ends : EndsFirm text
  oneLine : OneLine text

instance (text : String) : Decidable (Framed text) :=
  decidable_of_iff (BeginsSolid text ∧ EndsFirm text ∧ OneLine text)
    ⟨fun h => ⟨h.1, h.2.1, h.2.2⟩, fun h => ⟨h.begins, h.ends, h.oneLine⟩⟩

theorem BeginsSolid.append {text : String} (begins : BeginsSolid text) (more : String) :
    BeginsSolid (text ++ more) := by
  obtain ⟨c, front, solid⟩ := begins
  refine ⟨c, ?_, solid⟩
  rw [String.toList_append, List.head?_append, Option.mem_def.mp front]
  rfl

theorem EndsFirm.behind {text : String} (ends : EndsFirm text) (front : String) :
    EndsFirm (front ++ text) := by
  obtain ⟨c, last, firm⟩ := ends
  refine ⟨c, ?_, firm⟩
  rw [String.toList_append, List.getLast?_append, Option.mem_def.mp last]
  rfl

namespace Framed

variable {text text' : String}

/-- Behind a word and blanks. -/
theorem behind (h : Framed text) {opening : String}
    (fixed : BeginsSolid opening ∧ OneLine opening) : Framed (opening ++ text) :=
  ⟨fixed.1.append text, h.ends.behind opening, oneLine_append.mpr ⟨fixed.2, h.oneLine⟩⟩

/-- In front of blanks and a word. -/
theorem before (h : Framed text) {closing : String} (fixed : EndsFirm closing ∧ OneLine closing) :
    Framed (text ++ closing) :=
  ⟨h.begins.append closing, fixed.1.behind text, oneLine_append.mpr ⟨h.oneLine, fixed.2⟩⟩

theorem before_empty (h : Framed text) : Framed (text ++ "") := by
  rwa [String.append_empty]

theorem between (first : Framed text) {separator : String} (fixed : OneLine separator)
    (second : Framed text') : Framed (text ++ separator ++ text') :=
  ⟨(first.begins.append separator).append text', second.ends.behind _,
    oneLine_append.mpr ⟨oneLine_append.mpr ⟨first.oneLine, fixed⟩, second.oneLine⟩⟩

theorem join {separator : String} (fixed : OneLine separator) {texts : List String}
    (ne : texts ≠ []) (each : ∀ text ∈ texts, Framed text) :
    Framed (Text.joinWith separator texts) := by
  induction texts with
  | nil => exact absurd rfl ne
  | cons text texts ih =>
    obtain ⟨first, each⟩ := List.forall_mem_cons.mp each
    cases texts with
    | nil => exact first
    | cons next texts => exact first.between fixed (ih (List.cons_ne_nil _ _) each)

theorem of_solid (ne : text ≠ "") (solid : ∀ c ∈ text.toList, IsSolid c) : Framed text := by
  have chars : text.toList ≠ [] := mt String.toList_eq_nil_iff.mp ne
  refine ⟨⟨_, List.head?_eq_some_head chars, solid _ (List.head_mem chars)⟩,
    ⟨_, List.getLast?_eq_some_getLast chars, (solid _ (List.getLast_mem chars)).1⟩, ?_⟩
  intro newline
  exact absurd (solid _ newline) (by decide)

end Framed

theorem framed_of_isName {name : String} (h : IsName name) : Framed name := by
  obtain ⟨⟨first, rest, eq, start, parts⟩, -⟩ := h
  refine .of_solid ?_ ?_
  · rintro rfl
    cases eq
  · rw [eq]
    refine List.forall_mem_cons.mpr ⟨?_, fun c member => ?_⟩
    · exact (Lexeme.class_of_isNamePart (Lexeme.isNamePart_of_isNameStart start)).1
    · exact (Lexeme.class_of_isNamePart (parts c member)).1

theorem AreDigits.isSolid {digits : List Char} (h : AreDigits digits) :
    ∀ c ∈ digits, IsSolid c := by
  intro c member
  exact (Lexeme.class_of_isNamePart (Lexeme.isNamePart_of_isDigit (h.2 c member))).1

theorem framed_of_isNumeral {text : String} (h : IsNumeral text) : Framed text := by
  rcases h with digits | ⟨whole, fraction, eq, hWhole, hFraction⟩
  · exact .of_solid (mt String.toList_eq_nil_iff.mpr digits.1) digits.isSolid
  · refine .of_solid ?_ ?_
    · rintro rfl
      simp at eq
    · rw [eq]
      refine List.forall_mem_append.mpr ⟨hWhole.isSolid, List.forall_mem_cons.mpr ⟨by decide, ?_⟩⟩
      exact hFraction.isSolid

theorem framed_string {text : String} (h : IsQuotable text) :
    Framed (Expr.string text).render := by
  have quotes : Framed (Expr.quoteFor text).toString := by
    unfold Expr.quoteFor
    split <;> decide
  exact quotes.between h.1 quotes

theorem Expr.framed_render {expr : Expr} (spelled : expr.Spelled) : Framed expr.render := by
  induction expr with
  | binary op left right ihLeft ihRight =>
    have symbol : Framed op.symbol := by cases op <;> decide
    exact ((ihLeft spelled.1).between (by decide) symbol).between (by decide) (ihRight spelled.2)
  | unary op operand ih =>
    have opened := (ih spelled).behind (show BeginsSolid op.opening ∧ OneLine op.opening by
      cases op <;> decide)
    cases op with
    | floor | paren => exact opened.before (by decide)
    | not | neg | sqrt => exact opened.before_empty
  | number text => exact framed_of_isNumeral spelled
  | string text => exact framed_string spelled
  | ident name => exact framed_of_isName spelled

/-! ## Roles -/

/-- Expressions whose tree is what their words are read as, and whose texts are right. -/
def Expr.WellFormed (expr : Expr) : Prop :=
  expr.Canonical ∧ expr.Spelled

/-- Statements whose tree is what their words are read as, and whose texts are right. -/
def Statement.WellFormed (statement : Statement) : Prop :=
  statement.Canonical ∧ statement.Spelled

/-- What opens the block of a statement. -/
inductive Opening where
  | ifThen (condition : Expr)
  | count (header : Statement.CountHeader)
  | whileDo (condition : Expr)
  | doWhile
  | doUntil

/-- What closes the block of a statement. -/
inductive Closing where
  | sf
  | whileTest (condition : Expr)
  | untilTest (condition : Expr)

/-- What a line is for: a whole statement, or the block of a statement that is opened, divided or
closed. -/
inductive Role where
  | whole (statement : Statement)
  | opens (opening : Opening)
  | divides
  | closes (closing : Closing)

namespace Opening

/-- What is written on a line that opens a block. -/
def text : Opening → String
  | .ifThen condition => "daca " ++ condition.render ++ " atunci"
  | .count header =>
    "pentru " ++ Statement.countHeader header.name header.first header.last header.step ++
      " executa"
  | .whileDo condition => "cat timp " ++ condition.render ++ " executa"
  | .doWhile => "executa"
  | .doUntil => "repeta"

/-- The words of a line that opens a block. -/
def words : Opening → List Lexeme
  | .ifThen condition => Kind.daca.word :: (condition.words ++ [Kind.atunci.word])
  | .count header => Kind.pentru.word :: Statement.headerWords header
  | .whileDo condition =>
    Kind.cat.word :: Kind.timp.word :: (condition.words ++ [Kind.executa.word])
  | .doWhile => [Kind.executa.word]
  | .doUntil => [Kind.repeta.word]

/-- The trees and texts on the line are right. -/
def WellFormed : Opening → Prop
  | .ifThen condition | .whileDo condition => condition.WellFormed
  | .count header =>
    IsName header.name ∧ header.first.WellFormed ∧ header.last.WellFormed ∧
      ∀ expr ∈ header.step, expr.WellFormed
  | .doWhile | .doUntil => True

end Opening

namespace Closing

/-- What is written on a line that closes a block. -/
def text : Closing → String
  | .sf => "sf"
  | .whileTest condition => "cat timp " ++ condition.render
  | .untilTest condition => "pana cand " ++ condition.render

/-- The words of a line that closes a block. -/
def words : Closing → List Lexeme
  | .sf => [Kind.sf.word]
  | .whileTest condition => Kind.cat.word :: Kind.timp.word :: condition.words
  | .untilTest condition => Kind.pana.word :: Kind.cand.word :: condition.words

/-- The trees and texts on the line are right. -/
def WellFormed : Closing → Prop
  | .sf => True
  | .whileTest condition | .untilTest condition => condition.WellFormed

end Closing

namespace Role

/-- What is written on a line, behind its blanks. -/
def text : Role → String
  | .whole statement => statement.partText
  | .opens opening => opening.text
  | .divides => "altfel"
  | .closes closing => closing.text

/-- The words that are written on a line. -/
def words : Role → List Lexeme
  | .whole statement => statement.words
  | .opens opening => opening.words
  | .divides => [Kind.altfel.word]
  | .closes closing => closing.words

/-- A whole statement on a line is simple or a sequence, and trees and texts are right. -/
def WellFormed : Role → Prop
  | .whole statement =>
    (statement.isSimple = true ∨ ∃ parts, statement = .sequence parts) ∧ statement.WellFormed
  | .opens opening => opening.WellFormed
  | .divides => True
  | .closes closing => closing.WellFormed

end Role

namespace Statement

theorem spells_whole {statement : Statement} (wellFormed : (Role.whole statement).WellFormed) :
    Spells Delimited statement.partText statement.words := by
  obtain ⟨simple | ⟨parts, rfl⟩, canonical, spelled⟩ := wellFormed
  · exact spells_partText simple spelled
  · rw [partText, lines, words]
    exact spells_parts canonical.2.1 spelled

theorem framed_simple {statement : Statement} (simple : statement.isSimple = true)
    (canonical : statement.Canonical) (spelled : statement.Spelled) :
    Framed statement.partText := by
  cases statement with
  | assign name value =>
    rw [partText, lines]
    exact (framed_of_isName spelled.1).between (by decide) (Expr.framed_render spelled.2)
  | swap left right =>
    rw [partText, lines]
    exact (framed_of_isName spelled.1).between (by decide) (framed_of_isName spelled.2)
  | read names =>
    have each : ∀ name ∈ names, Framed name := fun name member =>
      framed_of_isName (spelled name member)
    rw [partText, lines]
    exact (Framed.join (by decide) canonical each).behind (by decide)
  | write values =>
    have each : ∀ text ∈ values.map Expr.render, Framed text := by
      rw [List.forall_mem_map]
      exact fun value member => Expr.framed_render (spelled value member)
    rw [partText, lines]
    exact (Framed.join (by decide) (mt List.map_eq_nil_iff.mp canonical.1) each).behind (by decide)
  | _ => cases simple

theorem framed_whole {statement : Statement} (wellFormed : (Role.whole statement).WellFormed) :
    Framed statement.partText := by
  obtain ⟨simple | ⟨parts, rfl⟩, canonical, spelled⟩ := wellFormed
  · exact framed_simple simple canonical spelled
  · obtain ⟨several, simple, canonical⟩ := canonical
    have ne : parts ≠ [] := by rintro rfl; cases several
    have each : ∀ text ∈ parts.map partText, Framed text := by
      rw [List.forall_mem_map]
      intro part member
      exact framed_simple (simple part member) (blockCanonical_iff.mp canonical part member)
        (blockSpelled_iff_forall.mp spelled part member)
    rw [partText, lines, partTexts_eq_map]
    exact .join (by decide) (mt List.map_eq_nil_iff.mp ne) each

theorem framed_countHeader {header : CountHeader} (wellFormed : (Opening.count header).WellFormed) :
    Framed (countHeader header.name header.first header.last header.step) := by
  obtain ⟨name, first, last, step⟩ := wellFormed
  have sign : OneLine " <- " := by decide
  have comma : OneLine ", " := by decide
  have bounds := ((framed_of_isName name).between sign (Expr.framed_render first.2)).between comma
    (Expr.framed_render last.2)
  unfold countHeader
  split
  next expr eq =>
    have stepped := bounds.between comma (Expr.framed_render (step expr eq).2)
    rwa [String.append_assoc] at stepped
  next => exact bounds.before_empty

end Statement

/-! ### Texts and words of lines -/

theorem Opening.spells {opening : Opening} (wellFormed : opening.WellFormed) :
    Spells Delimited opening.text opening.words := by
  cases opening with
  | ifThen condition => exact Statement.spells_condition wellFormed.2
  | count header =>
    obtain ⟨name, first, last, step⟩ := wellFormed
    exact Statement.spells_countHeader name first.2 last.2 fun expr member => (step expr member).2
  | whileDo condition => exact Statement.spells_whileHeader wellFormed.2
  | doWhile | doUntil => exact .fixed (by decide)

theorem Closing.spells {closing : Closing} (wellFormed : closing.WellFormed) :
    Spells Delimited closing.text closing.words := by
  cases closing with
  | sf => exact .fixed (by decide)
  | whileTest condition => exact Statement.spells_catTimp.append (Expr.spells_render wellFormed.2)
  | untilTest condition => exact Statement.spells_panaCand.append (Expr.spells_render wellFormed.2)

theorem Opening.framed {opening : Opening} (wellFormed : opening.WellFormed) :
    Framed opening.text := by
  cases opening with
  | ifThen condition | whileDo condition =>
    exact ((Expr.framed_render wellFormed.2).behind (by decide)).before (by decide)
  | count header =>
    exact ((Statement.framed_countHeader wellFormed).behind (by decide)).before (by decide)
  | doWhile | doUntil => exact show Framed _ by decide

theorem Closing.framed {closing : Closing} (wellFormed : closing.WellFormed) :
    Framed closing.text := by
  cases closing with
  | sf => exact show Framed "sf" by decide
  | whileTest condition | untilTest condition =>
    exact (Expr.framed_render wellFormed.2).behind (by decide)

namespace Role

variable {role role' : Role}

/-- The words of a line are read from its text. -/
theorem lexes (wellFormed : role.WellFormed) : Lexes role.text.toList role.words := by
  have spells : Spells Delimited role.text role.words := by
    cases role with
    | whole statement => exact Statement.spells_whole wellFormed
    | opens opening => exact opening.spells wellFormed
    | divides => exact .fixed (by decide)
    | closes closing => exact closing.spells wellFormed
  exact spells.lexes_alone nofun

theorem framed (wellFormed : role.WellFormed) : Framed role.text := by
  cases role with
  | whole statement => exact Statement.framed_whole wellFormed
  | opens opening => exact opening.framed wellFormed
  | divides => exact show Framed "altfel" by decide
  | closes closing => exact closing.framed wellFormed

end Role

/-! ## From words to roles -/

/-- A text is read as its words in one way only. -/
theorem Lexes.unique {text : List Char} {lexemes lexemes' : List Lexeme}
    (first : Lexes text lexemes) (second : Lexes text lexemes') : lexemes = lexemes' := by
  obtain ⟨pieces, last, split, rfl⟩ := first.exists_split
  obtain ⟨pieces', last', split', rfl⟩ := second.exists_split
  rw [(split.unique stuck_nil split' stuck_nil).1]

theorem Expr.executa_notMem_words (expr : Expr) : Kind.executa.word ∉ expr.words := by
  intro member
  have known := kind_mem_wordKinds expr _ member
  exact absurd known (by decide)

namespace Statement

/-- A statement is told from its words. -/
theorem words_inj {statement statement' : Statement} (wellFormed : statement.WellFormed)
    (wellFormed' : statement'.WellFormed) (same : statement.words = statement'.words) :
    statement = statement' := by
  obtain ⟨canonical, spelled⟩ := wellFormed
  let tokens := statement.words.map (Lexeme.token · .start)
  have plain : tokens.map Token.plain = statement.words := by
    calc tokens.map Token.plain
        = statement.words.map fun lexeme => (lexeme.token .start).plain := List.map_map
      _ = statement.words.map id := List.map_congr_left fun lexeme member =>
          Token.plain_eq_lexeme ((spelled_iff statement).mp spelled lexeme member)
      _ = statement.words := List.map_id _
  have derived {statement : Statement} (words : tokens.map Token.plain = statement.words)
      (canonical : statement.Canonical) : BlockWord tokens [statement] := by
    refine blockWord_iff.mpr ⟨?_, canonical, trivial⟩
    rw [words, blockWords, blockWords, List.append_nil]
  exact List.singleton_inj.mp (Program.blockWord_unique (derived plain canonical)
    (derived (plain.trans same) wellFormed'.1))

/-- A counting loop with nothing in it. -/
theorem wellFormed_count {header : CountHeader} (wellFormed : (Opening.count header).WellFormed) :
    (count header.name header.first header.last header.step []).WellFormed := by
  obtain ⟨name, first, last, step⟩ := wellFormed
  exact ⟨⟨first.1, last.1, fun expr member => (step expr member).1, trivial⟩,
    name, first.2, last.2, fun expr member => (step expr member).2, trivial⟩

theorem headerWords_inj {header header' : CountHeader}
    (wellFormed : (Opening.count header).WellFormed)
    (wellFormed' : (Opening.count header').WellFormed)
    (same : headerWords header = headerWords header') : header = header' := by
  have loops := words_inj (wellFormed_count wellFormed) (wellFormed_count wellFormed')
    (by rw [words, words]; exact congrArg (fun front => Kind.pentru.word :: (front ++ _)) same)
  cases header
  cases header'
  cases loops
  rfl

end Statement

/-- The kind of the word with which a line begins that opens a block. -/
def Opening.lead : Opening → Kind
  | .ifThen _ => .daca
  | .count _ => .pentru
  | .whileDo _ => .cat
  | .doWhile => .executa
  | .doUntil => .repeta

/-- The kind of the word with which a line begins that closes a block. -/
def Closing.lead : Closing → Kind
  | .sf => .sf
  | .whileTest _ => .cat
  | .untilTest _ => .pana

theorem Opening.head?_words (opening : Opening) :
    opening.words.head?.map Lexeme.kind = some opening.lead := by
  cases opening <;> rfl

theorem Closing.head?_words (closing : Closing) :
    closing.words.head?.map Lexeme.kind = some closing.lead := by
  cases closing <;> rfl

theorem Opening.words_inj {opening opening' : Opening} (wellFormed : opening.WellFormed)
    (wellFormed' : opening'.WellFormed) (same : opening.words = opening'.words) :
    opening = opening' := by
  have lead : some opening.lead = some opening'.lead := by
    rw [← head?_words, ← head?_words, same]
  cases opening with
  | ifThen condition =>
    cases opening' with
    | ifThen condition' =>
      have conditions := List.append_inj_left' (List.cons.inj same).2 rfl
      rw [wellFormed.1.eq_of_words wellFormed'.1 conditions]
    | _ => cases lead
  | count header =>
    cases opening' with
    | count header' =>
      rw [Statement.headerWords_inj wellFormed wellFormed' (List.cons.inj same).2]
    | _ => cases lead
  | whileDo condition =>
    cases opening' with
    | whileDo condition' =>
      have conditions := List.append_inj_left' (List.cons.inj (List.cons.inj same).2).2 rfl
      rw [wellFormed.1.eq_of_words wellFormed'.1 conditions]
    | _ => cases lead
  | doWhile =>
    cases opening' with
    | doWhile => rfl
    | _ => cases lead
  | doUntil =>
    cases opening' with
    | doUntil => rfl
    | _ => cases lead

theorem Closing.words_inj {closing closing' : Closing} (wellFormed : closing.WellFormed)
    (wellFormed' : closing'.WellFormed) (same : closing.words = closing'.words) :
    closing = closing' := by
  have lead : some closing.lead = some closing'.lead := by
    rw [← head?_words, ← head?_words, same]
  cases closing with
  | sf =>
    cases closing' with
    | sf => rfl
    | _ => cases lead
  | whileTest condition =>
    cases closing' with
    | whileTest condition' =>
      rw [wellFormed.1.eq_of_words wellFormed'.1 (List.cons.inj (List.cons.inj same).2).2]
    | _ => cases lead
  | untilTest condition =>
    cases closing' with
    | untilTest condition' =>
      rw [wellFormed.1.eq_of_words wellFormed'.1 (List.cons.inj (List.cons.inj same).2).2]
    | _ => cases lead

/-- A line that opens a block is not one that closes a block: where both begin alike, the word that
opens the block is at the end. -/
theorem Opening.words_ne (opening : Opening) (closing : Closing) :
    opening.words ≠ closing.words := by
  intro same
  have lead : some opening.lead = some closing.lead := by
    rw [← head?_words, ← Closing.head?_words, same]
  cases opening with
  | whileDo condition =>
    cases closing with
    | whileTest condition' =>
      refine condition'.executa_notMem_words ?_
      rw [← (List.cons.inj (List.cons.inj same).2).2]
      exact List.mem_append_right _ List.mem_cons_self
    | _ => cases lead
  | _ => cases closing <;> cases lead

namespace Role

variable {role role' : Role}

/-- The kinds of the words with which a line begins that holds a whole statement. -/
def wholeLeads : List Kind :=
  [.ident, .citeste, .scrie]

theorem head?_simple {statement : Statement} (simple : statement.isSimple = true) :
    ∃ lead ∈ wholeLeads, statement.words.head?.map Lexeme.kind = some lead := by
  cases statement with
  | assign | swap => exact ⟨.ident, by decide, by rw [Statement.words]; rfl⟩
  | read => exact ⟨.citeste, by decide, by rw [Statement.words]; rfl⟩
  | write => exact ⟨.scrie, by decide, by rw [Statement.words]; rfl⟩
  | _ => cases simple

theorem head?_whole {statement : Statement} (wellFormed : (whole statement).WellFormed) :
    ∃ lead ∈ wholeLeads, statement.words.head?.map Lexeme.kind = some lead := by
  obtain ⟨simple | ⟨parts, rfl⟩, canonical, -⟩ := wellFormed
  · exact head?_simple simple
  · obtain ⟨several, simple, -⟩ := canonical
    match parts with
    | first :: second :: others =>
      obtain ⟨lead, member, head⟩ := head?_simple (simple first List.mem_cons_self)
      refine ⟨lead, member, ?_⟩
      rw [← head, Statement.words, Statement.partWords, Statement.partWords,
        joinWords_cons (List.cons_ne_nil _ _), List.head?_append]
      cases words : first.words with
      | nil => rw [words] at head; cases head
      | cons => rfl

theorem words_ne_whole {statement : Statement} (wellFormed : (whole statement).WellFormed)
    {words : List Lexeme} {lead : Kind} (head : words.head?.map Lexeme.kind = some lead)
    (other : lead ∉ wholeLeads) : words ≠ statement.words := by
  rintro rfl
  obtain ⟨lead', member, head'⟩ := head?_whole wellFormed
  rw [head] at head'
  exact other (Option.some.inj head' ▸ member)

/-- The words of a line that does not hold a whole statement are not those of one that does. -/
theorem eq_whole_of_words {statement : Statement} (wellFormed : (whole statement).WellFormed)
    (same : role.words = statement.words) : ∃ statement', role = whole statement' := by
  cases role with
  | whole statement' => exact ⟨statement', rfl⟩
  | opens opening =>
    have other : opening.lead ∉ wholeLeads := by cases opening <;> simp [Opening.lead, wholeLeads]
    exact absurd same (words_ne_whole wellFormed opening.head?_words other)
  | divides => exact absurd same (words_ne_whole wellFormed rfl (by decide))
  | closes closing =>
    have other : closing.lead ∉ wholeLeads := by cases closing <;> simp [Closing.lead, wholeLeads]
    exact absurd same (words_ne_whole wellFormed closing.head?_words other)

theorem opening_words_ne_altfel (opening : Opening) : opening.words ≠ [Kind.altfel.word] := by
  intro same
  have lead := opening.head?_words
  rw [same] at lead
  cases opening <;> cases lead

theorem closing_words_ne_altfel (closing : Closing) : closing.words ≠ [Kind.altfel.word] := by
  intro same
  have lead := closing.head?_words
  rw [same] at lead
  cases closing <;> cases lead

/-- What a line is for is told from its words. -/
theorem words_inj (wellFormed : role.WellFormed) (wellFormed' : role'.WellFormed)
    (same : role.words = role'.words) : role = role' := by
  cases role with
  | whole statement =>
    obtain ⟨statement', rfl⟩ := eq_whole_of_words wellFormed same.symm
    rw [Statement.words_inj wellFormed.2 wellFormed'.2 same]
  | opens opening =>
    cases role' with
    | whole statement' =>
      obtain ⟨_, eq⟩ := eq_whole_of_words wellFormed' same
      cases eq
    | opens opening' => rw [opening.words_inj wellFormed wellFormed' same]
    | divides => exact absurd same (opening_words_ne_altfel opening)
    | closes closing => exact absurd same (opening.words_ne closing)
  | divides =>
    cases role' with
    | whole statement' =>
      obtain ⟨_, eq⟩ := eq_whole_of_words wellFormed' same
      cases eq
    | opens opening => exact absurd same.symm (opening_words_ne_altfel opening)
    | divides => rfl
    | closes closing => exact absurd same.symm (closing_words_ne_altfel closing)
  | closes closing =>
    cases role' with
    | whole statement' =>
      obtain ⟨_, eq⟩ := eq_whole_of_words wellFormed' same
      cases eq
    | opens opening => exact absurd same.symm (opening.words_ne closing)
    | divides => exact absurd same (closing_words_ne_altfel closing)
    | closes closing' => rw [closing.words_inj wellFormed wellFormed' same]

/-- What a line is for is told from its text. -/
theorem text_inj (wellFormed : role.WellFormed) (wellFormed' : role'.WellFormed)
    (same : role.text = role'.text) : role = role' := by
  have read := lexes wellFormed
  rw [same] at read
  exact words_inj wellFormed wellFormed' (read.unique (lexes wellFormed'))

end Role

end Pseudocod

import Pseudocod.Proofs.RoundTrip

/-!
# Programs in programs

The text of a program can be put in front of the text of another one, and into a block, as long as
it stands on lines of its own. Nothing is carried over the end of a line when words are read; and as
the words of a block can be derived in one way only, those of a block in a program are read as those
of the block alone, also where a loop could go on behind the end of the text.

* `Program.parse_eq_ok_iff_reads`: the text of a program is one that has the words of its tree.
* `Program.parse_lines`: programs one after another, and in the blocks of every statement.
-/

namespace Pseudocod

/-! ## Texts and the words of trees -/

/-- A word in its canonical spelling. -/
def Lexeme.plain (lexeme : Lexeme) : Lexeme :=
  { kind := lexeme.kind, text := lexeme.kind.spelling?.getD lexeme.text }

theorem Lexeme.Plain.plain_eq {lexeme : Lexeme} (h : lexeme.Plain) : lexeme.plain = lexeme := by
  have same : (lexeme.token .start).plain = (lexeme.token .start).lexeme := Token.plain_eq_lexeme h
  exact same

/-- A text with blanks on both sides. -/
def Text.padded (margin : Nat) (text : String) : String :=
  let blanks := String.ofList (List.replicate margin ' ')
  blanks ++ text ++ blanks

/-- The text has the words, whatever their spelling. -/
def Reads (text : String) (words : List Lexeme) : Prop :=
  ∃ lexemes, lexemes.map Lexeme.plain = words ∧ Lexes text.toList lexemes

namespace Reads

variable {text text' : String} {words words' : List Lexeme}

theorem of_lexes (lexes : Lexes text.toList words) (plain : ∀ lexeme ∈ words, lexeme.Plain) :
    Reads text words := by
  refine ⟨words, ?_, lexes⟩
  calc words.map Lexeme.plain
      = words.map id := List.map_congr_left fun lexeme member => (plain lexeme member).plain_eq
    _ = words := List.map_id words

theorem of_spells (spells : Spells Delimited text words) (plain : ∀ lexeme ∈ words, lexeme.Plain) :
    Reads text words :=
  of_lexes (spells.lexes_alone nofun) plain

/-- A word of a kind with one spelling, alone on a line. -/
theorem fixed {kind : Kind} (h : kind.spelling? = some text) : Reads text [kind.word] :=
  .of_spells (.fixed h) (List.forall_mem_singleton.mpr (Kind.plain_word (by rw [h]; rfl)))

/-- One line after another. -/
theorem append (first : Reads text words) (others : Reads text' words') :
    Reads (text ++ "\n" ++ text') (words ++ words') := by
  obtain ⟨lexemes, rfl, lexes⟩ := first
  obtain ⟨lexemes', rfl, lexes'⟩ := others
  refine ⟨lexemes ++ lexemes', List.map_append, ?_⟩
  have whole := lexes.append (lineOver_newline _) (lexes'.cons_of_isBlank (by decide))
  simpa using whole

theorem line (h : Reads text words) : Reads (Text.joinWith "\n" [text]) words :=
  h

theorem lines {next : String} {texts : List String} (first : Reads text words)
    (others : Reads (Text.joinWith "\n" (next :: texts)) words') :
    Reads (Text.joinWith "\n" (text :: next :: texts)) (words ++ words') :=
  first.append others

theorem padded (h : Reads text words) (margin : Nat) : Reads (Text.padded margin text) words := by
  obtain ⟨lexemes, rfl, lexes⟩ := h
  refine ⟨lexemes, rfl, ?_⟩
  have behind := (Spells.blanks margin).lexes_alone trivial
  rw [String.toList_ofList] at behind
  have inner := lexes.append (lineOver_blanks margin) behind
  have whole := (Spells.blanks margin).lexes trivial inner
  simpa [Text.padded] using whole

end Reads

namespace Program

/-- The text of a program is one that is read as the words of its tree. -/
theorem parse_eq_ok_iff_reads {source : String} {program : Program} :
    parse source = .ok program ↔
      Reads source (Statement.blockWords program.statements) ∧
        Statement.BlockCanonical program.statements := by
  rw [parse_eq_ok_iff]
  constructor
  · rintro ⟨tokens, stop, -, lexes, derived⟩
    obtain ⟨words, canonical⟩ := Statement.blockWord_iff.mp derived
    exact ⟨⟨_, by rw [List.map_map]; exact words, lexes⟩, canonical⟩
  · rintro ⟨⟨lexemes, words, lexes⟩, canonical⟩
    obtain ⟨tokens, stop, found, rfl⟩ := exists_tokenize_of_lexes lexes
    rw [List.map_map] at words
    exact ⟨tokens, stop, found, lexes, Statement.blockWord_iff.mpr ⟨words, canonical⟩⟩

/-- Blanks around a program make no difference. -/
theorem parse_padded {source : String} {program : Program} (h : parse source = .ok program)
    (margin : Nat) : parse (Text.padded margin source) = .ok program := by
  obtain ⟨reads, canonical⟩ := parse_eq_ok_iff_reads.mp h
  exact parse_eq_ok_iff_reads.mpr ⟨reads.padded margin, canonical⟩

/-- Two programs, one after the other, are read as the statements of both. -/
theorem parse_append {a b : String} {p q : Program} (hA : parse a = .ok p)
    (hB : parse b = .ok q) :
    parse (a ++ "\n" ++ b) = .ok ⟨p.statements ++ q.statements⟩ := by
  obtain ⟨readsA, canonicalA⟩ := parse_eq_ok_iff_reads.mp hA
  obtain ⟨readsB, canonicalB⟩ := parse_eq_ok_iff_reads.mp hB
  refine parse_eq_ok_iff_reads.mpr ⟨?_, ?_⟩
  · rw [Statement.blockWords_append]
    exact readsA.append readsB
  · exact Statement.blockCanonical_append.mpr ⟨canonicalA, canonicalB⟩

theorem parse_of_reads {source : String} {words : List Lexeme} {statement : Statement}
    (reads : Reads source words) (eq : words = statement.words)
    (canonical : statement.Canonical) : parse source = .ok ⟨[statement]⟩ := by
  refine parse_eq_ok_iff_reads.mpr ⟨?_, canonical, trivial⟩
  rwa [Statement.blockWords, Statement.blockWords, List.append_nil, ← eq]

/-! ## Programs in blocks -/

section Blocks

variable {a b : String} {p q : Program} {condition : Expr}

theorem reads_daca (spelled : condition.Spelled) :
    Reads ("daca " ++ condition.render ++ " atunci")
      (Kind.daca.word :: (condition.words ++ [Kind.atunci.word])) := by
  refine .of_spells (Statement.spells_condition spelled) ?_
  simpa (disch := decide) [Kind.plain_word, or_imp, forall_and] using
    condition.spelled_iff.mp spelled

theorem reads_catTimp (spelled : condition.Spelled) :
    Reads ("cat timp " ++ condition.render)
      ([Kind.cat.word, Kind.timp.word] ++ condition.words) := by
  refine .of_spells (Statement.spells_catTimp.append (Expr.spells_render spelled)) ?_
  simpa (disch := decide) [Kind.plain_word] using condition.spelled_iff.mp spelled

theorem reads_panaCand (spelled : condition.Spelled) :
    Reads ("pana cand " ++ condition.render)
      ([Kind.pana.word, Kind.cand.word] ++ condition.words) := by
  refine .of_spells (Statement.spells_panaCand.append (Expr.spells_render spelled)) ?_
  simpa (disch := decide) [Kind.plain_word] using condition.spelled_iff.mp spelled

theorem reads_while (spelled : condition.Spelled) :
    Reads ("cat timp " ++ condition.render ++ " executa")
      (Kind.cat.word :: Kind.timp.word :: (condition.words ++ [Kind.executa.word])) := by
  refine .of_spells (Statement.spells_whileHeader spelled) ?_
  simpa (disch := decide) [Kind.plain_word, or_imp, forall_and] using
    condition.spelled_iff.mp spelled

theorem reads_sf : Reads "sf" [Kind.sf.word] :=
  .fixed (by decide)

theorem parse_ifThen (hA : parse a = .ok p) (spelled : condition.Spelled)
    (canonical : condition.Canonical) :
    parse (Text.joinWith "\n" ["daca " ++ condition.render ++ " atunci", a, "sf"]) =
      .ok ⟨[.ifThen condition p.statements]⟩ := by
  obtain ⟨readsA, canonicalA⟩ := parse_eq_ok_iff_reads.mp hA
  have reads := (reads_daca spelled).lines (readsA.lines reads_sf.line)
  exact parse_of_reads reads (by simp [Statement.words]) ⟨canonical, canonicalA⟩

theorem parse_ifElse (hA : parse a = .ok p) (hB : parse b = .ok q) (spelled : condition.Spelled)
    (canonical : condition.Canonical) :
    parse (Text.joinWith "\n" ["daca " ++ condition.render ++ " atunci", a, "altfel", b, "sf"]) =
      .ok ⟨[.ifElse condition p.statements q.statements]⟩ := by
  obtain ⟨readsA, canonicalA⟩ := parse_eq_ok_iff_reads.mp hA
  obtain ⟨readsB, canonicalB⟩ := parse_eq_ok_iff_reads.mp hB
  have altfel : Reads "altfel" [Kind.altfel.word] := .fixed (by decide)
  have reads := (reads_daca spelled).lines
    (readsA.lines (altfel.lines (readsB.lines reads_sf.line)))
  exact parse_of_reads reads (by simp [Statement.words]) ⟨canonical, canonicalA, canonicalB⟩

theorem parse_count {name : String} {first last : Expr} {step : Option Expr}
    (hA : parse a = .ok p) (hName : IsName name) (hFirst : first.Spelled ∧ first.Canonical)
    (hLast : last.Spelled ∧ last.Canonical) (hStep : ∀ expr ∈ step, expr.Spelled ∧ expr.Canonical) :
    parse (Text.joinWith "\n"
      ["pentru " ++ Statement.countHeader name first last step ++ " executa", a, "sf"]) =
        .ok ⟨[.count name first last step p.statements]⟩ := by
  obtain ⟨readsA, canonicalA⟩ := parse_eq_ok_iff_reads.mp hA
  have spelled : ∀ expr ∈ step, expr.Spelled := fun expr member => (hStep expr member).1
  have canonical : ∀ expr ∈ step, expr.Canonical := fun expr member => (hStep expr member).2
  have plain := (Statement.plain_headerWords_iff ⟨name, first, last, step⟩).mpr
    ⟨hName, hFirst.1, hLast.1, spelled⟩
  have header := Statement.spells_countHeader hName hFirst.1 hLast.1 spelled
  have pentru := Reads.of_spells header
    (List.forall_mem_cons.mpr ⟨Kind.plain_word (by decide), plain⟩)
  have reads := pentru.lines (readsA.lines reads_sf.line)
  exact parse_of_reads reads (by simp [Statement.words])
    ⟨hFirst.2, hLast.2, canonical, canonicalA⟩

theorem parse_whileDo (hA : parse a = .ok p) (spelled : condition.Spelled)
    (canonical : condition.Canonical) :
    parse (Text.joinWith "\n" ["cat timp " ++ condition.render ++ " executa", a, "sf"]) =
      .ok ⟨[.whileDo condition p.statements]⟩ := by
  obtain ⟨readsA, canonicalA⟩ := parse_eq_ok_iff_reads.mp hA
  have reads := (reads_while spelled).lines (readsA.lines reads_sf.line)
  exact parse_of_reads reads (by simp [Statement.words]) ⟨canonical, canonicalA⟩

theorem parse_doWhile (hA : parse a = .ok p) (spelled : condition.Spelled)
    (canonical : condition.Canonical) :
    parse (Text.joinWith "\n" ["executa", a, "cat timp " ++ condition.render]) =
      .ok ⟨[.doWhile p.statements condition]⟩ := by
  obtain ⟨readsA, canonicalA⟩ := parse_eq_ok_iff_reads.mp hA
  have executa : Reads "executa" [Kind.executa.word] := .fixed (by decide)
  have reads := executa.lines (readsA.lines (reads_catTimp spelled).line)
  exact parse_of_reads reads (by simp [Statement.words]) ⟨canonicalA, canonical⟩

theorem parse_doUntil (hA : parse a = .ok p) (spelled : condition.Spelled)
    (canonical : condition.Canonical) :
    parse (Text.joinWith "\n" ["repeta", a, "pana cand " ++ condition.render]) =
      .ok ⟨[.doUntil p.statements condition]⟩ := by
  obtain ⟨readsA, canonicalA⟩ := parse_eq_ok_iff_reads.mp hA
  have repeta : Reads "repeta" [Kind.repeta.word] := .fixed (by decide)
  have reads := repeta.lines (readsA.lines (reads_panaCand spelled).line)
  exact parse_of_reads reads (by simp [Statement.words]) ⟨canonicalA, canonical⟩

end Blocks

/-- The texts of two programs, one after the other, are read as the statements of both; and with a
name for all that is not a block, the block of every statement is read as the program in it. -/
theorem parse_lines {a b c : String} {p q : Program} (hA : parse a = .ok p)
    (hB : parse b = .ok q) (hC : IsName c) (margin : Nat) :
    parse (a ++ "\n" ++ b) = .ok ⟨p.statements ++ q.statements⟩ ∧
    parse (Text.joinWith "\n" ["daca " ++ c ++ " atunci", Text.padded margin a, "altfel",
      Text.padded margin b, "sf"]) = .ok ⟨[.ifElse (.ident c) p.statements q.statements]⟩ ∧
    parse (Text.joinWith "\n" ["daca " ++ c ++ " atunci", Text.padded margin a, "sf"]) =
      .ok ⟨[.ifThen (.ident c) p.statements]⟩ ∧
    parse (Text.joinWith "\n" ["pentru " ++ c ++ " <- " ++ c ++ ", " ++ c ++ " executa",
      Text.padded margin a, "sf"]) =
        .ok ⟨[.count c (.ident c) (.ident c) none p.statements]⟩ ∧
    parse (Text.joinWith "\n" ["cat timp " ++ c ++ " executa", Text.padded margin a, "sf"]) =
      .ok ⟨[.whileDo (.ident c) p.statements]⟩ ∧
    parse (Text.joinWith "\n" ["executa", Text.padded margin a, "cat timp " ++ c]) =
      .ok ⟨[.doWhile p.statements (.ident c)]⟩ ∧
    parse (Text.joinWith "\n" ["repeta", Text.padded margin a, "pana cand " ++ c]) =
      .ok ⟨[.doUntil p.statements (.ident c)]⟩ := by
  have inA := parse_padded hA margin
  have inB := parse_padded hB margin
  have spelled : (Expr.ident c).Spelled := hC
  have canonical : (Expr.ident c).Canonical := trivial
  have ifElse := parse_ifElse inA inB spelled canonical
  have ifThen := parse_ifThen inA spelled canonical
  have noStep : ∀ expr ∈ (none : Option Expr), expr.Spelled ∧ expr.Canonical := nofun
  have count := parse_count inA hC ⟨spelled, canonical⟩ ⟨spelled, canonical⟩ noStep
  have whileDo := parse_whileDo inA spelled canonical
  have doWhile := parse_doWhile inA spelled canonical
  have doUntil := parse_doUntil inA spelled canonical
  simp only [Statement.countHeader, Expr.render] at ifElse ifThen count whileDo doWhile doUntil
  rw [String.append_empty] at count
  simp only [String.append_assoc] at count ifElse ifThen whileDo ⊢
  exact ⟨by simpa only [String.append_assoc] using parse_append hA hB, ifElse, ifThen, count,
    whileDo, doWhile, doUntil⟩

/-- A loop that could go on, with a comment behind it, in front of a loop and in the blocks. -/
theorem parse_lines_loops :
    parse "executa x <- 1 cat timp x # y" =
      .ok ⟨[.doWhile [.assign "x" (.number "1")] (.ident "x")]⟩ ∧
    parse "executa cat timp z executa sf cat timp y" =
      .ok ⟨[.doWhile [.whileDo (.ident "z") []] (.ident "y")]⟩ ∧
    IsName "n" ∧
    parse "executa x <- 1 cat timp x # y\nexecuta cat timp z executa sf cat timp y" =
      .ok ⟨[.doWhile [.assign "x" (.number "1")] (.ident "x"),
        .doWhile [.whileDo (.ident "z") []] (.ident "y")]⟩ ∧
    parse "executa\n executa x <- 1 cat timp x # y \ncat timp n" =
      .ok ⟨[.doWhile [.doWhile [.assign "x" (.number "1")] (.ident "x")] (.ident "n")]⟩ := by
  have hA : parse "executa x <- 1 cat timp x # y" =
      .ok ⟨[.doWhile [.assign "x" (.number "1")] (.ident "x")]⟩ := by cbv
  have hB : parse "executa cat timp z executa sf cat timp y" =
      .ok ⟨[.doWhile [.whileDo (.ident "z") []] (.ident "y")]⟩ := by cbv
  have hC : IsName "n" := ⟨⟨'n', [], by decide, by decide, List.forall_mem_nil _⟩, by decide⟩
  obtain ⟨both, -, -, -, -, doWhile, -⟩ := parse_lines hA hB hC 1
  exact ⟨hA, hB, hC, both, doWhile⟩

end Program

end Pseudocod

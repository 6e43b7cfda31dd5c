import Pseudocod.Proofs.Acceptance
import Pseudocod.Proofs.RenderedText
import Pseudocod.Proofs.Tokenization

/-!
# Laying out programs and reading them again

A program that was read from a text is well formed, and a well-formed program is read again from its
layout: its words are laid out apart, and the tree is the one that is read from them.

* `Program.tokenize_render`: the tokens of a text are those of the layout of its program.
* `Program.parse_render_iff`: the well-formed programs are those that are read from their layout.
-/

namespace Pseudocod

theorem Token.plain_eq_lexeme {token : Token} (plain : token.lexeme.Plain) :
    token.plain = token.lexeme := by
  obtain ⟨kind, text, location⟩ := token
  cases plain with
  | number | string | ident => rfl
  | spelled h => exact plain_of_spelling rfl h

theorem mapError_eq_ok_iff {ε ε' α : Type} {f : ε → ε'} {result : Except ε α} {value : α} :
    result.mapError f = .ok value ↔ result = .ok value := by
  cases result <;> simp [Except.mapError]

namespace Program

/-- What is read from a text is derived from its tokens, whose words are the words of the text. -/
theorem parse_eq_ok_iff {source : String} {program : Program} :
    parse source = .ok program ↔ ∃ tokens stop, tokenize source = .ok (tokens ++ [.eof stop]) ∧
      Lexes source.toList (tokens.map Token.lexeme) ∧
        Statement.BlockWord tokens program.statements := by
  have read {tokens : List Token} {stop : Location} (lexes : Lexes source.toList
      (tokens.map Token.lexeme)) (found : tokenize source = .ok (tokens ++ [.eof stop])) :
      parse source = .ok program ↔ Statement.BlockWord tokens program.statements := by
    have inner : ∀ token ∈ tokens, token.kind ≠ .eof := by
      intro token member
      exact (lexes.legal _ (List.mem_map_of_mem member)).not_eof
    have stream := TokenStream.ofTokens_append inner (show (Token.eof stop).kind = .eof from rfl)
    rw [parse, found]
    simp only [stream]
    exact mapError_eq_ok_iff.trans read_eq_ok_iff
  constructor
  · intro h
    cases found : tokenize source with
    | error error => rw [parse, found] at h; cases h
    | ok all =>
      obtain ⟨tokens, stop, rfl, lexes⟩ := exists_words_of_tokenize found
      exact ⟨tokens, stop, rfl, lexes, (read lexes found).mp h⟩
  · rintro ⟨tokens, stop, found, lexes, derived⟩
    exact (read lexes found).mpr derived

theorem wellFormed_of_parse {source : String} {program : Program}
    (h : parse source = .ok program) : program.WellFormed := by
  obtain ⟨tokens, stop, -, lexes, derived⟩ := parse_eq_ok_iff.mp h
  obtain ⟨eq, canonical⟩ := Statement.blockWord_iff.mp derived
  refine ⟨canonical, (Statement.blockSpelled_iff _).mpr ?_⟩
  rw [← eq]
  intro lexeme member
  obtain ⟨token, found, rfl⟩ := List.mem_map.mp member
  exact Token.plain_of_legal (lexes.legal _ (List.mem_map_of_mem found))

/-- The tokens of the layout of a well-formed program are its words, and it is read from them. -/
theorem tokenize_of_wellFormed {program : Program} (wellFormed : program.WellFormed) :
    ∃ tokens stop, tokenize program.render = .ok (tokens ++ [.eof stop]) ∧
      tokens.map Token.lexeme = Statement.blockWords program.statements ∧
        parse program.render = .ok program := by
  have lexes := lexes_render wellFormed
  obtain ⟨tokens, stop, found, eq⟩ := exists_tokenize_of_lexes lexes
  refine ⟨tokens, stop, found, eq, ?_⟩
  have same : tokens.map Token.plain = tokens.map Token.lexeme := by
    apply List.map_congr_left
    intro token member
    apply Token.plain_eq_lexeme
    apply (Statement.blockSpelled_iff _).mp wellFormed.2
    rw [← eq]
    exact List.mem_map_of_mem member
  refine parse_eq_ok_iff.mpr ⟨tokens, stop, found, ?_, ?_⟩
  · rw [eq]
    exact lexes
  · exact Statement.blockWord_iff.mpr ⟨same.trans eq, wellFormed.1⟩

/-- The layout of a program that was read from a text has the tokens of the text one by one, but for
the case of logical words and the sign of swaps, and the program is read again from it. -/
theorem tokenize_render {source : String} {program : Program} (h : parse source = .ok program) :
    ∃ tokens again, tokenize source = .ok tokens ∧ tokenize program.render = .ok again ∧
      again.map Token.lexeme = tokens.map Token.respelled ∧
        parse program.render = .ok program := by
  obtain ⟨tokens, stop, found, lexes, derived⟩ := parse_eq_ok_iff.mp h
  obtain ⟨again, stop', foundAgain, eq, parsed⟩ := tokenize_of_wellFormed (wellFormed_of_parse h)
  refine ⟨_, _, found, foundAgain, ?_, parsed⟩
  have respelled : tokens.map Token.plain = tokens.map Token.respelled := by
    apply List.map_congr_left
    intro token member
    exact Token.plain_eq_respelled (lexes.legal _ (List.mem_map_of_mem member))
  rw [List.map_append, List.map_append, eq, ← respelled, (Statement.blockWord_iff.mp derived).1]
  rfl

/-- A loop in the block of another one, behind a swap with the long sign, logical words in capitals
and a string in which a quote stands. -/
def crowded : String :=
  "executa a<-->b;scrie NOT a SAU -b<'\"' cat timp a executa sf cat timp b"

/-- The program of this source. -/
def crowdedProgram : Program where
  statements :=
    [.doWhile
      [.sequence [.swap "a" "b", .write [.binary .or (.unary .not (.ident "a"))
        (.binary .lt (.unary .neg (.ident "b")) (.string "\""))]],
       .whileDo (.ident "a") []]
      (.ident "b")]

theorem tokenize_render_crowded :
    parse crowded = .ok crowdedProgram ∧
    crowdedProgram.render =
      "executa\n    a <-> b; scrie not a sau -b < '\"'\n" ++
        "    cat timp a executa\n    sf\ncat timp b\n" ∧
    ∃ tokens again, tokenize crowded = .ok tokens ∧
      tokenize crowdedProgram.render = .ok again ∧
        again.map Token.lexeme = tokens.map Token.respelled ∧
          parse crowdedProgram.render = .ok crowdedProgram := by
  have read : parse crowded = .ok crowdedProgram := by cbv
  exact ⟨read, by cbv, tokenize_render read⟩

/-- The well-formed programs are those that are read from their own layout. -/
theorem parse_render_iff (program : Program) :
    parse program.render = .ok program ↔ program.WellFormed := by
  constructor
  · exact wellFormed_of_parse
  · intro wellFormed
    obtain ⟨_, _, _, _, parsed⟩ := tokenize_of_wellFormed wellFormed
    exact parsed

end Program

end Pseudocod

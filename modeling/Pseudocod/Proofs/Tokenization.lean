import Pseudocod.Proofs.Spelling

/-!
# Splitting a text into words and gaps

The lexical grammar, said without reading: a text is a list of pieces, each a gap and a word that
stands behind it, and a last gap. What stands somewhere is read there and what is read stands there,
so that reading a text finds its only split, or gets as far as any split of a part of it.

* `IsGap.gapLength_append`: no gap goes past the one that is skipped.
* `Split.furthest`: a split that is stuck is the longest one, and the only one that is stuck.
* `Cursor.tokenize_cases`: what a reading finds first.
* `Cursor.exists_split`: reading finds a split that is stuck.
* `Lexes.append`: the words of a text do not change if a new line begins behind it.
* `tokenize_split`: a text has tokens if and only if it can be split, in one way; and a fault lies
  where the longest split of a part of the text ends.
-/

namespace Pseudocod

/-! ## Gaps -/

/-- What lies between two words, in front of `rest`: blanks, and comments that go on up to the end
of a line or of the text. -/
inductive IsGap : (gap rest : List Char) → Prop where
  | nil {rest : List Char} : IsGap [] rest
  | blank {c : Char} {gap rest : List Char} :
    Text.isBlank c = true → IsGap gap rest → IsGap (c :: gap) rest
  | comment {body gap rest : List Char} :
    (∀ c ∈ body, Lexeme.isLineEnd c = false) →
      (∀ c ∈ (gap ++ rest).head?, Lexeme.isLineEnd c = true) →
        IsGap gap rest → IsGap ('#' :: (body ++ gap)) rest

theorem isBlank_of_isLineEnd {c : Char} (h : Lexeme.isLineEnd c = true) :
    Text.isBlank c = true := by
  simp only [Lexeme.isLineEnd, Bool.or_eq_true, decide_eq_true_eq] at h
  rcases h with rfl | rfl <;> decide

/-- A comment is over at the end of its line. -/
theorem gapLength_of_comment {body text : List Char}
    (inside : ∀ c ∈ body, Lexeme.isLineEnd c = false)
    (stop : ∀ c ∈ text.head?, Lexeme.isLineEnd c = true) :
    gapLength true (body ++ text) = body.length + gapLength false text := by
  induction body with
  | nil =>
    cases text with
    | nil => rfl
    | cons c text =>
      rw [List.nil_append, gapLength, if_pos (stop c rfl),
        gapLength_of_isBlank (isBlank_of_isLineEnd (stop c rfl)), List.length_nil]
      omega
  | cons c body ih =>
    obtain ⟨going, others⟩ := List.forall_mem_cons.mp inside
    rw [List.cons_append, gapLength, if_neg (by simp [going]), ih others, List.length_cons]
    omega

theorem gapLength_hash (text : List Char) :
    gapLength false ('#' :: text) = gapLength true text + 1 := by
  rw [gapLength, if_neg (by decide), if_pos rfl, Nat.add_comm]

theorem IsGap.gapLength_append {gap rest : List Char} (h : IsGap gap rest) :
    gapLength false (gap ++ rest) = gap.length + gapLength false rest := by
  induction h with
  | nil => simp
  | blank isBlank _ ih =>
    rw [List.cons_append, gapLength_of_isBlank isBlank, ih, List.length_cons]
    omega
  | comment inside stop _ ih =>
    rw [List.cons_append, List.append_assoc, gapLength_hash, gapLength_of_comment inside stop, ih,
      List.length_cons, List.length_append]
    omega

/-- In front of a solid character there is one gap only. -/
theorem IsGap.length_eq {gap rest : List Char} (h : IsGap gap rest)
    (solid : ∀ c ∈ rest.head?, IsSolid c) : gapLength false (gap ++ rest) = gap.length := by
  rw [h.gapLength_append]
  cases rest with
  | nil => rfl
  | cons c rest => rw [gapLength_of_isSolid (solid c rfl), Nat.add_zero]

/-- In front of a text lies a gap that ends at a solid character, or with the text. -/
theorem exists_isGap (text : List Char) :
    ∃ gap rest, text = gap ++ rest ∧ IsGap gap rest ∧ ∀ c ∈ rest.head?, IsSolid c := by
  generalize hn : text.length = n
  induction n using Nat.strongRecOn generalizing text with
  | ind n ih =>
    subst hn
    cases text with
    | nil => exact ⟨[], [], rfl, .nil, nofun⟩
    | cons c text =>
      by_cases blank : Text.isBlank c = true
      · obtain ⟨gap, rest, rfl, isGap, solid⟩ := ih _ (Nat.lt_succ_self _) text rfl
        exact ⟨c :: gap, rest, rfl, .blank blank isGap, solid⟩
      · by_cases hash : c = '#'
        · -- the comment is over where its line is; what follows may be a gap again
          let goesOn := fun c => !Lexeme.isLineEnd c
          have shorter : (text.dropWhile goesOn).length < (c :: text).length :=
            Nat.lt_succ_of_le (List.dropWhile_suffix goesOn).length_le
          obtain ⟨gap, rest, eq, isGap, solid⟩ := ih _ shorter _ rfl
          refine ⟨'#' :: (text.takeWhile goesOn ++ gap), rest, ?_, .comment ?_ ?_ isGap, solid⟩
          · rw [List.cons_append, List.append_assoc, ← eq, List.takeWhile_append_dropWhile, hash]
          · intro c member
            simpa [goesOn] using Lexeme.mem_takeWhile_imp member
          · rw [← eq]
            intro c head
            simpa [goesOn] using Lexeme.head?_dropWhile head
        · refine ⟨[], c :: text, rfl, .nil, ?_⟩
          rintro _ ⟨⟩
          exact ⟨Bool.eq_false_iff.mpr blank, hash⟩

/-! ## Splits -/

/-- A word as it stands in a text, with the gap in front of it. -/
structure Piece where
  gap : List Char
  written : List Char
  lexeme : Lexeme

namespace Piece

/-- The text of some pieces and a gap. -/
def text : List Piece → (last : List Char) → List Char
  | [], last => last
  | piece :: pieces, last => piece.gap ++ (piece.written ++ text pieces last)

/-- The tokens of some pieces and the end, where the text starts at `place`. -/
def tokens (place : Location) : List Piece → (last : List Char) → List Token
  | [], last => [.eof (place.after last)]
  | piece :: pieces, last =>
    piece.lexeme.token (place.after piece.gap) ::
      tokens (place.after (piece.gap ++ piece.written)) pieces last

end Piece

/-- A text is split: pieces, a last gap, and `rest`. What follows on a gap or a word is looked at as
far as it is in the text. -/
inductive Split : (text : List Char) → List Piece → (last rest : List Char) → Prop where
  | last {last rest : List Char} : IsGap last rest → Split (last ++ rest) [] last rest
  | piece {gap written text last rest : List Char} {lexeme : Lexeme} {pieces : List Piece} :
    IsGap gap (written ++ text) → lexeme.Stands written text → Split text pieces last rest →
      Split (gap ++ (written ++ text)) (⟨gap, written, lexeme⟩ :: pieces) last rest

/-- No gap and no word stands in front of the text. -/
def Stuck (text : List Char) : Prop :=
  (∀ c ∈ text.head?, IsSolid c) ∧
    ∀ lexeme written rest, text = written ++ rest → ¬ Lexeme.Stands lexeme written rest

theorem Lexeme.Stands.isSolid {lexeme : Lexeme} {written rest : List Char}
    (stands : Stands lexeme written rest) : ∀ c ∈ (written ++ rest).head?, IsSolid c := by
  obtain ⟨first, tail, rfl, solid, -⟩ := stands.found
  rintro _ ⟨⟩
  exact solid

/-- At one place stands one word. -/
theorem Lexeme.Stands.unique {lexeme lexeme' : Lexeme} {written written' rest rest' : List Char}
    (stands : Stands lexeme written rest) (stands' : Stands lexeme' written' rest')
    (same : written ++ rest = written' ++ rest') :
    lexeme = lexeme' ∧ written = written' ∧ rest = rest' := by
  obtain ⟨first, tail, rfl, -, read⟩ := stands.found
  obtain ⟨first', tail', rfl, -, read'⟩ := stands'.found
  rw [List.cons_append, List.cons_append] at same
  obtain ⟨rfl, tails⟩ := List.cons.inj same
  rw [tails, read'] at read
  obtain ⟨ok, length⟩ := Reading.mk.inj read
  obtain rfl := Except.ok.inj ok
  obtain ⟨rfl, rfl⟩ := List.append_inj tails length.symm
  exact ⟨rfl, rfl, rfl⟩

theorem stuck_nil : Stuck [] := by
  refine ⟨nofun, ?_⟩
  rintro lexeme written rest eq stands
  obtain ⟨first, tail, rfl, -, -⟩ := stands.found
  exact nomatch eq

theorem stuck_of_read {first : Char} {rest : List Char} {fault : Fault} (solid : IsSolid first)
    (h : (Lexeme.read first rest).outcome = .error fault) : Stuck (first :: rest) := by
  refine ⟨by rintro _ ⟨⟩; exact solid, ?_⟩
  intro lexeme written after eq stands
  obtain ⟨first', tail, rfl, -, read⟩ := stands.found
  rw [List.cons_append] at eq
  obtain ⟨rfl, rfl⟩ := List.cons.inj eq
  rw [read] at h
  exact nomatch h

namespace Split

variable {text last last' rest rest' : List Char} {pieces pieces' : List Piece}

theorem text_eq (split : Split text pieces last rest) : text = Piece.text pieces last ++ rest := by
  induction split with
  | last => rfl
  | piece _ _ _ ih => simp only [Piece.text, List.append_assoc, ← ih]

/-- A split that is stuck goes at least as far as any other, and is the only one that is stuck. -/
theorem furthest (split' : Split text pieces' last' rest') :
    ∀ {pieces last rest}, Split text pieces last rest → Stuck rest →
      rest.length ≤ rest'.length ∧
        (Stuck rest' → pieces' = pieces ∧ last' = last ∧ rest' = rest) := by
  induction split' with
  | @last last' rest' isGap' =>
    intro pieces last rest split stuck
    generalize whole : last' ++ rest' = text at split
    have length := congrArg List.length whole
    have skipped := isGap'.gapLength_append
    rw [whole] at skipped
    cases split with
    | last isGap =>
      rw [isGap.length_eq stuck.1] at skipped
      rw [List.length_append, List.length_append] at length
      refine ⟨by omega, fun stuck' => ?_⟩
      have same := isGap'.length_eq stuck'.1
      rw [whole, isGap.length_eq stuck.1] at same
      obtain ⟨rfl, rfl⟩ := List.append_inj whole same.symm
      exact ⟨rfl, rfl, rfl⟩
    | @piece gap written text _ _ lexeme pieces isGap stands others =>
      rw [isGap.length_eq stands.isSolid] at skipped
      have shorter := congrArg List.length others.text_eq
      simp only [List.length_append] at length shorter
      refine ⟨by omega, fun stuck' => ?_⟩
      have same := isGap'.length_eq stuck'.1
      rw [whole, isGap.length_eq stands.isSolid] at same
      obtain ⟨-, rest_eq⟩ := List.append_inj whole same.symm
      exact absurd stands (stuck'.2 _ _ _ rest_eq)
  | @piece gap' written' text' last' rest' lexeme' pieces' isGap' stands' _ ih =>
    intro pieces last rest split stuck
    generalize whole : gap' ++ (written' ++ text') = text at split
    have skipped := isGap'.length_eq stands'.isSolid
    rw [whole] at skipped
    cases split with
    | last isGap =>
      rw [isGap.length_eq stuck.1] at skipped
      obtain ⟨-, rfl⟩ := List.append_inj whole skipped.symm
      exact absurd stands' (stuck.2 _ _ _ rfl)
    | @piece gap written text _ _ lexeme pieces isGap stands others =>
      rw [isGap.length_eq stands.isSolid] at skipped
      obtain ⟨rfl, same⟩ := List.append_inj whole skipped.symm
      obtain ⟨rfl, rfl, rfl⟩ := stands'.unique stands same
      obtain ⟨further, unique⟩ := ih others stuck
      refine ⟨further, fun stuck' => ?_⟩
      obtain ⟨rfl, rfl, rfl⟩ := unique stuck'
      exact ⟨rfl, rfl, rfl⟩

theorem unique (split : Split text pieces last rest) (stuck : Stuck rest)
    (split' : Split text pieces' last' rest') (stuck' : Stuck rest') :
    pieces = pieces' ∧ last = last' ∧ rest = rest' :=
  (split.furthest split' stuck').2 stuck

end Split

/-! ## Reading finds the split -/

namespace Cursor

/-- What is skipped is a gap that ends at a solid character, or with the text. -/
theorem exists_skipGap (cursor : Cursor) :
    ∃ gap rest, cursor.rest = gap ++ rest ∧ IsGap gap rest ∧ (∀ c ∈ rest.head?, IsSolid c) ∧
      cursor.skipGap = ⟨rest, cursor.location.after gap⟩ := by
  obtain ⟨gap, rest, whole, isGap, solid⟩ := exists_isGap cursor.rest
  refine ⟨gap, rest, whole, isGap, solid, ?_⟩
  rw [skipGap, advance, whole, isGap.length_eq solid, List.drop_left, List.take_left]

/-- Behind a gap a reading finds the end, a fault, or a word behind which it goes on. -/
theorem tokenize_cases (cursor : Cursor) :
    ∃ gap rest, cursor.rest = gap ++ rest ∧ IsGap gap rest ∧ (∀ c ∈ rest.head?, IsSolid c) ∧
      ((rest = [] ∧
          cursor.tokenize =
            (.ok [.eof (cursor.location.after gap)], ⟨[], cursor.location.after gap⟩)) ∨
        (∃ first tail behind fault, rest = first :: tail ++ behind ∧
          (Lexeme.read first (tail ++ behind)).outcome = .error fault ∧
          cursor.tokenize = (.error { fault, location := cursor.location.after gap },
            ⟨behind, (cursor.location.after gap).after (first :: tail)⟩)) ∨
        ∃ written behind lexeme, rest = written ++ behind ∧ Lexeme.Stands lexeme written behind ∧
          let next : Cursor := ⟨behind, (cursor.location.after gap).after written⟩
          cursor.tokenize =
            (next.tokenize.1.map (lexeme.token (cursor.location.after gap) :: ·),
              next.tokenize.2)) := by
  obtain ⟨gap, rest, whole, isGap, solid, skipped⟩ := cursor.exists_skipGap
  refine ⟨gap, rest, whole, isGap, solid, ?_⟩
  cases rest with
  | nil =>
    refine .inl ⟨rfl, ?_⟩
    rw [tokenize_eq_of_done (by rw [skipped]), skipped]
  | cons first text =>
    rw [tokenize_eq_of_word (by rw [skipped]), skipped]
    generalize length : (Lexeme.read first text).more = more
    cases read : (Lexeme.read first text).outcome with
    | error fault =>
      refine .inr (.inl ⟨first, text.take more, text.drop more, fault, ?_, ?_, rfl⟩)
      · rw [List.cons_append, List.take_append_drop]
      · rw [List.take_append_drop, read]
    | ok lexeme =>
      obtain ⟨tail, behind, rfl, more_eq, stands⟩ := Lexeme.sound_read first text lexeme read
      have next : Cursor.advance ⟨first :: (tail ++ behind), cursor.location.after gap⟩ (more + 1) =
          ⟨behind, (cursor.location.after gap).after (first :: tail)⟩ := by
        rw [← length, more_eq]
        simp [advance]
      refine .inr (.inr ⟨first :: tail, behind, lexeme, rfl, stands, ?_⟩)
      rw [next]

/-- Reading splits a text up to its end, or to a place where it is stuck. -/
theorem exists_split (cursor : Cursor) :
    ∃ pieces last rest, Split cursor.rest pieces last rest ∧ Stuck rest ∧
      ((rest = [] ∧ cursor.tokenize.1 = .ok (Piece.tokens cursor.location pieces last)) ∨
        (rest ≠ [] ∧ ∃ fault, cursor.tokenize.1 =
          .error { fault, location := cursor.location.after (Piece.text pieces last) })) := by
  generalize hn : cursor.rest.length = n
  induction n using Nat.strongRecOn generalizing cursor with
  | ind n ih =>
    subst hn
    obtain ⟨gap, rest, whole, isGap, solid, ⟨rfl, eq⟩ | ⟨first, tail, behind, fault, rfl, read, eq⟩ |
      ⟨written, behind, lexeme, rfl, stands, eq⟩⟩ := cursor.tokenize_cases
    · refine ⟨[], gap, [], by rw [whole]; exact .last isGap, stuck_nil, .inl ⟨rfl, ?_⟩⟩
      rw [eq]
      rfl
    · refine ⟨[], gap, first :: tail ++ behind, by rw [whole]; exact .last isGap,
        stuck_of_read (solid first rfl) read, .inr ⟨nofun, fault, ?_⟩⟩
      rw [eq]
      rfl
    · have shorter : behind.length < cursor.rest.length := by
        obtain ⟨first, tail, rfl, -⟩ := stands.found
        rw [whole]
        simp only [List.length_append, List.length_cons]
        omega
      obtain ⟨pieces, last, rest, split, stuck, outcome⟩ :=
        ih _ shorter ⟨behind, cursor.location.after (gap ++ written)⟩ rfl
      refine ⟨⟨gap, written, lexeme⟩ :: pieces, last, rest, ?_, stuck, ?_⟩
      · rw [whole]
        exact .piece isGap stands split
      · rw [eq, ← Location.after_append]
        rcases outcome with ⟨rfl, eq⟩ | ⟨ne, fault, eq⟩
        · exact .inl ⟨rfl, by rw [eq]; rfl⟩
        · refine .inr ⟨ne, fault, ?_⟩
          rw [eq, Piece.text, ← List.append_assoc, Location.after_append _ (gap ++ _)]
          rfl

/-- A split up to the end of the text is the one that reading finds. -/
theorem tokenize_of_split (cursor : Cursor) {pieces : List Piece} {last : List Char}
    (split : Split cursor.rest pieces last []) :
    cursor.tokenize.1 = .ok (Piece.tokens cursor.location pieces last) := by
  obtain ⟨pieces', last', rest, split', stuck, outcome⟩ := cursor.exists_split
  obtain ⟨rfl, rfl, rfl⟩ := split.unique stuck_nil split' stuck
  rcases outcome with ⟨-, eq⟩ | ⟨ne, -⟩
  · exact eq
  · exact absurd rfl ne

theorem split_of_tokenize {cursor : Cursor} {tokens : List Token}
    (h : cursor.tokenize.1 = .ok tokens) :
    ∃ pieces last, Split cursor.rest pieces last [] ∧
      tokens = Piece.tokens cursor.location pieces last := by
  obtain ⟨pieces, last, rest, split, -, ⟨rfl, eq⟩ | ⟨-, fault, eq⟩⟩ := cursor.exists_split
  · exact ⟨pieces, last, split, Except.ok.inj (h.symm.trans eq)⟩
  · exact nomatch h.symm.trans eq

/-- A fault lies where the text is stuck. -/
theorem stuck_of_tokenize {cursor : Cursor} {error : LexError}
    (h : cursor.tokenize.1 = .error error) :
    ∃ pieces last rest, Split cursor.rest pieces last rest ∧ rest ≠ [] ∧ Stuck rest ∧
      error.location = cursor.location.after (Piece.text pieces last) := by
  obtain ⟨pieces, last, rest, split, stuck, ⟨rfl, eq⟩ | ⟨ne, fault, eq⟩⟩ := cursor.exists_split
  · exact nomatch h.symm.trans eq
  · refine ⟨pieces, last, rest, split, ne, stuck, ?_⟩
    rw [Except.error.inj (h.symm.trans eq)]

end Cursor

/-- The tokens of a split text are its words, and the end. -/
theorem Piece.exists_tokens_eq (place : Location) (pieces : List Piece) (last : List Char) :
    ∃ words stop, Piece.tokens place pieces last = words ++ [.eof stop] ∧
      words.map Token.lexeme = pieces.map Piece.lexeme := by
  induction pieces generalizing place with
  | nil => exact ⟨[], _, rfl, rfl⟩
  | cons piece pieces ih =>
    obtain ⟨words, stop, eq, same⟩ := ih (place.after (piece.gap ++ piece.written))
    refine ⟨piece.lexeme.token (place.after piece.gap) :: words, stop, ?_, ?_⟩
    · rw [Piece.tokens, eq, List.cons_append]
    · rw [List.map_cons, List.map_cons, same]
      rfl

/-! ## Texts on lines of their own -/

/-- Nothing but blanks is left on the line. -/
def LineOver (text : List Char) : Prop :=
  ∃ blanks rest, text = blanks ++ rest ∧ (∀ c ∈ blanks, c = ' ') ∧ ∀ c ∈ rest.head?, c = '\n'

theorem LineOver.delimited {text : List Char} (ends : LineOver text) : Delimited text := by
  obtain ⟨blanks, rest, rfl, blank, newline⟩ := ends
  rintro c head
  cases blanks with
  | nil => rw [newline c head]; decide
  | cons d blanks =>
    obtain rfl := Option.some.inj head
    rw [blank d List.mem_cons_self]
    decide

theorem lineOver_nil : LineOver [] :=
  ⟨[], [], rfl, nofun, nofun⟩

theorem lineOver_newline (text : List Char) : LineOver ('\n' :: text) :=
  ⟨[], _, rfl, nofun, by rintro _ ⟨⟩; rfl⟩

theorem lineOver_blanks (count : Nat) : LineOver (List.replicate count ' ') :=
  ⟨_, [], (List.append_nil _).symm, fun _ member => List.eq_of_mem_replicate member, nofun⟩

namespace IsGap

variable {gap rest : List Char}

theorem lexes_iff (h : IsGap gap rest) {lexemes : List Lexeme} :
    Lexes (gap ++ rest) lexemes ↔ Lexes rest lexemes := by
  have same : (gap ++ rest).drop (gapLength false (gap ++ rest)) =
      rest.drop (gapLength false rest) := by
    rw [h.gapLength_append, ← List.drop_drop, List.drop_left]
  exact ⟨.of_skipped same, .of_skipped same.symm⟩

theorem of_blanks (h : ∀ c ∈ gap, Text.isBlank c = true) : IsGap gap rest := by
  induction gap with
  | nil => exact .nil
  | cons c gap ih => exact .blank (h c List.mem_cons_self) (ih fun d member => h d (.tail c member))

/-- A gap in front of a word does not depend on what is behind the word. -/
theorem append (h : IsGap gap rest) (ne : rest ≠ []) (more : List Char) :
    IsGap gap (rest ++ more) := by
  induction h with
  | nil => exact .nil
  | blank blank _ ih => exact .blank blank (ih ne)
  | @comment body gap rest inside stop _ ih =>
    refine .comment inside ?_ (ih ne)
    obtain ⟨c, rest, rfl⟩ := List.exists_cons_of_ne_nil ne
    cases gap <;> exact stop

/-- At the end of a text a comment takes in the blanks up to the end of the line. -/
theorem lexes_append (h : IsGap gap []) {rest : List Char} (ends : LineOver rest)
    {lexemes : List Lexeme} (lexes : Lexes rest lexemes) : Lexes (gap ++ rest) lexemes := by
  generalize none : ([] : List Char) = text at h
  induction h with
  | nil => exact lexes
  | blank blank _ ih => exact (ih none).cons_of_isBlank blank
  | @comment body gap text inside stop _ ih =>
    cases gap with
    | cons c gap =>
      have closed : IsGap ('#' :: (body ++ [])) (c :: gap ++ rest) :=
        .comment inside (by rintro _ ⟨⟩; exact stop c rfl) .nil
      have whole := closed.lexes_iff.mpr (ih none)
      simpa using whole
    | nil =>
      obtain ⟨blanks, rest, rfl, blank, newline⟩ := ends
      have gaps : IsGap blanks rest := .of_blanks fun c member => by rw [blank c member]; decide
      have open_ : IsGap ('#' :: (body ++ blanks ++ [])) rest := by
        refine .comment ?_ ?_ .nil
        · refine List.forall_mem_append.mpr ⟨inside, fun c member => ?_⟩
          rw [blank c member]
          decide
        · intro c head
          rw [newline c head]
          decide
      have whole := open_.lexes_iff.mpr (gaps.lexes_iff.mp lexes)
      simpa using whole

end IsGap

/-- The words of a split text are those of its pieces, also if a new line begins behind it. -/
theorem Split.lexes_append {text last : List Char} {pieces : List Piece}
    (split : Split text pieces last []) {rest : List Char} {more : List Lexeme}
    (ends : LineOver rest) (lexes : Lexes rest more) :
    Lexes (text ++ rest) (pieces.map Piece.lexeme ++ more) := by
  generalize none : ([] : List Char) = after at split
  induction split with
  | last isGap =>
    subst none
    rw [List.append_nil]
    exact isGap.lexes_append ends lexes
  | @piece gap written text _ _ lexeme pieces isGap stands _ ih =>
    have found := (stands.append_delimited ends.delimited).found
    have ne : written ++ text ≠ [] := by
      obtain ⟨first, tail, rfl, -⟩ := found
      exact List.cons_ne_nil _ _
    have whole := (isGap.append ne rest).lexes_iff.mpr (by
      rw [List.append_assoc]
      exact found.lexes (ih none))
    rwa [← List.append_assoc] at whole

theorem Lexes.exists_split {text : List Char} {lexemes : List Lexeme} (h : Lexes text lexemes) :
    ∃ pieces last, Split text pieces last [] ∧ pieces.map Piece.lexeme = lexemes := by
  induction h with
  | @done text none =>
    obtain ⟨gap, rest, rfl, isGap, solid⟩ := exists_isGap text
    rw [isGap.length_eq solid, List.drop_left] at none
    subst none
    exact ⟨[], gap, .last isGap, rfl⟩
  | @word text rest first lexeme lexemes front read _ ih =>
    obtain ⟨gap, after, rfl, isGap, solid⟩ := exists_isGap text
    rw [isGap.length_eq solid, List.drop_left] at front
    subst front
    obtain ⟨tail, after, rfl, more, stands⟩ := Lexeme.sound_read first rest lexeme read
    rw [more, List.drop_left] at ih
    obtain ⟨pieces, last, split, rfl⟩ := ih
    exact ⟨⟨gap, first :: tail, lexeme⟩ :: pieces, last, .piece isGap stands split, rfl⟩

/-- The words of a text do not change if a new line begins behind it. -/
theorem Lexes.append {text rest : List Char} {lexemes more : List Lexeme} (h : Lexes text lexemes)
    (ends : LineOver rest) (lexes : Lexes rest more) : Lexes (text ++ rest) (lexemes ++ more) := by
  obtain ⟨pieces, last, split, rfl⟩ := h.exists_split
  exact split.lexes_append ends lexes

/-- The tokens of a text are its words with their locations, and the end. -/
theorem exists_words_of_tokenize {source : String} {tokens : List Token}
    (h : tokenize source = .ok tokens) :
    ∃ words stop, tokens = words ++ [.eof stop] ∧
      Lexes source.toList (words.map Token.lexeme) := by
  obtain ⟨pieces, last, split, rfl⟩ := Cursor.split_of_tokenize h
  obtain ⟨words, stop, eq, same⟩ := Piece.exists_tokens_eq .start pieces last
  refine ⟨words, stop, eq, ?_⟩
  have lexes := split.lexes_append lineOver_nil .nil
  rw [List.append_nil, List.append_nil] at lexes
  rw [same]
  exact lexes

theorem exists_tokenize_of_lexes {source : String} {lexemes : List Lexeme}
    (h : Lexes source.toList lexemes) :
    ∃ tokens stop, tokenize source = .ok (tokens ++ [.eof stop]) ∧
      tokens.map Token.lexeme = lexemes := by
  obtain ⟨pieces, last, split, rfl⟩ := h.exists_split
  obtain ⟨words, stop, eq, same⟩ := Piece.exists_tokens_eq .start pieces last
  exact ⟨words, stop, by rw [← eq]; exact (Cursor.ofSource source).tokenize_of_split split, same⟩

/-! ## The lexical grammar -/

/-- A text has tokens if and only if it can be split up to its end, and they are the words of that
split and the end. There is at most one such split. A fault of a text lies where the longest split
of a part of it ends, and there stands no word. -/
theorem tokenize_split (source : String) :
    (∀ tokens, tokenize source = .ok tokens ↔
      ∃ pieces last, Split source.toList pieces last [] ∧
        tokens = Piece.tokens .start pieces last) ∧
    (∀ pieces pieces' last last', Split source.toList pieces last [] →
      Split source.toList pieces' last' [] → pieces = pieces' ∧ last = last') ∧
    (∀ error, tokenize source = .error error →
      ∃ pieces last rest, Split source.toList pieces last rest ∧ rest ≠ [] ∧ Stuck rest ∧
        error.location = Location.start.after (Piece.text pieces last) ∧
        ∀ pieces' last' rest', Split source.toList pieces' last' rest' →
          (Piece.text pieces' last').length ≤ (Piece.text pieces last).length) := by
  refine ⟨fun tokens => ⟨Cursor.split_of_tokenize, ?_⟩, ?_, ?_⟩
  · rintro ⟨pieces, last, split, rfl⟩
    exact (Cursor.ofSource source).tokenize_of_split split
  · intro pieces pieces' last last' split split'
    obtain ⟨rfl, rfl, -⟩ := split.unique stuck_nil split' stuck_nil
    exact ⟨rfl, rfl⟩
  · intro error h
    obtain ⟨pieces, last, rest, split, ne, stuck, place⟩ := Cursor.stuck_of_tokenize h
    refine ⟨pieces, last, rest, split, ne, stuck, place, ?_⟩
    intro pieces' last' rest' split'
    have further := (split'.furthest split stuck).1
    have length := congrArg List.length (split.text_eq.symm.trans split'.text_eq)
    simp only [List.length_append] at length
    omega

/-- In the first text a sign is cut before the longest one, and a comment ends at a carriage return;
the second one is stuck at a number that breaks off. -/
theorem tokenize_split_crowded :
    (∃ pieces last, Split "a<--1#<->\r'x'".toList pieces last [] ∧
      (Piece.tokens .start pieces last).map Token.text = ["a", "<-", "-", "1", "x", ""] ∧
      ∀ pieces' last', Split "a<--1#<->\r'x'".toList pieces' last' [] →
        pieces' = pieces ∧ last' = last) ∧
    ∃ pieces last rest, Split "b<-3.;".toList pieces last rest ∧ Stuck rest ∧
      Location.start.after (Piece.text pieces last) = ⟨1, 4, 3⟩ ∧
      ∀ pieces' last' rest', Split "b<-3.;".toList pieces' last' rest' →
        (Piece.text pieces' last').length ≤ (Piece.text pieces last).length := by
  obtain ⟨found, unique, -⟩ := tokenize_split "a<--1#<->\r'x'"
  obtain ⟨-, -, fault⟩ := tokenize_split "b<-3.;"
  constructor
  · have read : tokenize "a<--1#<->\r'x'" = .ok
        [⟨.ident, "a", ⟨1, 1, 0⟩⟩, ⟨.assign, "<-", ⟨1, 2, 1⟩⟩, ⟨.minus, "-", ⟨1, 4, 3⟩⟩,
          ⟨.number, "1", ⟨1, 5, 4⟩⟩, ⟨.string, "x", ⟨1, 11, 10⟩⟩, .eof ⟨1, 14, 13⟩] := by cbv
    obtain ⟨pieces, last, split, tokens⟩ := (found _).mp read
    refine ⟨pieces, last, split, by rw [← tokens]; rfl, ?_⟩
    intro pieces' last' split'
    exact unique _ _ _ _ split' split
  · have read : tokenize "b<-3.;" = .error ⟨.barePoint "3", ⟨1, 4, 3⟩⟩ := by cbv
    obtain ⟨pieces, last, rest, split, -, stuck, place, longest⟩ := fault _ read
    exact ⟨pieces, last, rest, split, stuck, place.symm, longest⟩

end Pseudocod

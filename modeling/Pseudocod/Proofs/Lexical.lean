import Pseudocod.Proofs.Canonical
import Pseudocod.Token.Cursor

/-!
# The words of a text

Which words can stand in a text, and which ones a given text has. `Lexeme.Stands` has a rule for
each class of words, which says how a word is written and what must not follow on it. The relation
`Lexes` says which words a text has, without their locations: they are read one after another, each
behind a gap.

* `Lexeme.sound_read`: a word that is read stands there.
* `Lexeme.Stands.legal`: words that stand somewhere are legal.
* `Token.plain_eq_respelled`: few kinds of words have more than one spelling.
-/

namespace Pseudocod

/-- What holds of all members of a list is decided on the list, and not on all the characters there
are if the members are characters. -/
instance (priority := 2000) decidableForallMem {α : Type} (p : α → Prop) [DecidablePred p]
    (xs : List α) : Decidable (∀ x ∈ xs, p x) :=
  List.decidableBAll p xs

/-- Texts that are names: a letter or `_` with letters, digits and `_`, and no keyword. -/
def IsName (text : String) : Prop :=
  (∃ first rest, text.toList = first :: rest ∧ Lexeme.isNameStart first = true ∧
    ∀ c ∈ rest, Lexeme.isNamePart c = true) ∧ Kind.keyword? text = none

/-- One digit or more. -/
def AreDigits (text : List Char) : Prop :=
  text ≠ [] ∧ ∀ c ∈ text, c.isDigit = true

/-- Texts that are numbers: digits, or digits on both sides of a point. -/
def IsNumeral (text : String) : Prop :=
  AreDigits text.toList ∨ ∃ whole fraction, text.toList = whole ++ '.' :: fraction ∧
    AreDigits whole ∧ AreDigits fraction

/-- Texts that can stand in quotes: they are on one line and lack one of the two quotes. -/
def IsQuotable (text : String) : Prop :=
  '\n' ∉ text.toList ∧ '\r' ∉ text.toList ∧ ¬ ('"' ∈ text.toList ∧ '\'' ∈ text.toList)

/-- A token without its location. -/
def Token.lexeme (token : Token) : Lexeme :=
  { kind := token.kind, text := token.text }

namespace Lexeme

/-- A word with the location where it starts. -/
def token (lexeme : Lexeme) (location : Location) : Token :=
  { kind := lexeme.kind, text := lexeme.text, location }

/-- Words that can stand in a text. -/
inductive Legal : Lexeme → Prop where
  | number {text : String} : IsNumeral text → Legal ⟨.number, text⟩
  | string {text : String} : IsQuotable text → Legal ⟨.string, text⟩
  | ident {text : String} : IsName text → Legal ⟨.ident, text⟩
  | spelled {kind : Kind} {text : String} : (text, kind) ∈ keywords ++ symbols → Legal ⟨kind, text⟩

/-- Words that can stand in a text and have the canonical spelling, if their kind has one. -/
inductive Plain : Lexeme → Prop where
  | number {text : String} : IsNumeral text → Plain ⟨.number, text⟩
  | string {text : String} : IsQuotable text → Plain ⟨.string, text⟩
  | ident {text : String} : IsName text → Plain ⟨.ident, text⟩
  | spelled {kind : Kind} {text : String} : kind.spelling? = some text → Plain ⟨kind, text⟩

/-! ## Words in front of a text -/

/-- Texts that would make another sign of a sign in front of them. -/
def barred : Kind → List (List Char)
  | .assign => [['>'], ['-', '>']]
  | .lt => [['-'], ['=']]
  | .gt => [['=']]
  | _ => []

/-- How a word is written in front of `rest`: one rule for each class of words, which says as well
what must not follow. -/
inductive Stands : Lexeme → (written rest : List Char) → Prop where
  | name {written rest : List Char} :
    IsName (String.ofList written) → (∀ c ∈ rest.head?, isNamePart c = false) →
      Stands ⟨.ident, String.ofList written⟩ written rest
  | keyword {kind : Kind} {written rest : List Char} :
    (String.ofList written, kind) ∈ keywords → (∀ c ∈ rest.head?, isNamePart c = false) →
      Stands ⟨kind, String.ofList written⟩ written rest
  | whole {written rest : List Char} :
    AreDigits written → (∀ c ∈ rest.head?, c.isDigit = false ∧ c ≠ '.') →
      Stands ⟨.number, String.ofList written⟩ written rest
  | fraction {whole fraction rest : List Char} :
    AreDigits whole → AreDigits fraction → (∀ c ∈ rest.head?, c.isDigit = false) →
      Stands ⟨.number, String.ofList (whole ++ '.' :: fraction)⟩ (whole ++ '.' :: fraction) rest
  | string {quote : Char} {content rest : List Char} :
    isQuote quote = true → (∀ c ∈ content, c ≠ quote ∧ c ≠ '\n' ∧ c ≠ '\r') →
      Stands ⟨.string, String.ofList content⟩ (quote :: (content ++ [quote])) rest
  | sign {kind : Kind} {written rest : List Char} :
    (String.ofList written, kind) ∈ symbols → (∀ tail ∈ barred kind, ¬ tail <+: rest) →
      Stands ⟨kind, String.ofList written⟩ written rest

/-- Words that stand somewhere are legal. -/
theorem Stands.legal {lexeme : Lexeme} {written rest : List Char}
    (stands : Stands lexeme written rest) : lexeme.Legal := by
  cases stands with
  | name isName => exact .ident isName
  | keyword member => exact .spelled (List.mem_append_left _ member)
  | whole digits => exact .number (.inl (by rwa [String.toList_ofList]))
  | fraction hWhole hFraction =>
    exact .number (.inr ⟨_, _, String.toList_ofList, hWhole, hFraction⟩)
  | @string quote content _ quotes inside =>
    apply Legal.string
    rw [IsQuotable, String.toList_ofList]
    refine ⟨?_, ?_, ?_⟩
    · intro newline
      exact (inside _ newline).2.1 rfl
    · intro return_
      exact (inside _ return_).2.2 rfl
    · intro both
      simp only [isQuote, Bool.or_eq_true, decide_eq_true_eq] at quotes
      rcases quotes with rfl | rfl
      · exact (inside _ both.1).1 rfl
      · exact (inside _ both.2).1 rfl
  | sign member => exact .spelled (List.mem_append_right _ member)

/-- The text of a word is part of what is written. -/
theorem Stands.text_subset {lexeme : Lexeme} {written rest : List Char}
    (stands : Stands lexeme written rest) : lexeme.text.toList ⊆ written := by
  cases stands with
  | string =>
    rw [String.toList_ofList]
    intro c member
    exact .tail _ (List.mem_append_left _ member)
  | name | keyword | whole | fraction | sign =>
    rw [String.toList_ofList]
    exact List.Subset.refl _

/-! ## What is read stands in the text -/

theorem mem_takeWhile_imp {p : Char → Bool} {text : List Char} {c : Char}
    (h : c ∈ text.takeWhile p) : p c = true :=
  List.all_eq_true.mp List.all_takeWhile c h

theorem head?_dropWhile {p : Char → Bool} {text : List Char} {c : Char}
    (h : c ∈ (text.dropWhile p).head?) : p c = false := by
  have stop := List.head?_dropWhile_not p text
  rw [Option.mem_def.mp h] at stop
  exact stop

theorem areDigits_takeWhile {first : Char} (text : List Char) (digit : first.isDigit = true) :
    AreDigits (first :: text.takeWhile Char.isDigit) := by
  refine ⟨List.cons_ne_nil _ _, ?_⟩
  intro c member
  rcases List.mem_cons.mp member with rfl | member
  · exact digit
  · exact mem_takeWhile_imp member

/-- The lexeme that was found behind the character `first` stands there. -/
def Sound (first : Char) (text : List Char) (reading : Reading) : Prop :=
  ∀ lexeme, reading.outcome = .ok lexeme → ∃ tail rest, text = tail ++ rest ∧
    reading.more = tail.length ∧ Stands lexeme (first :: tail) rest

theorem sound_readName {first : Char} (start : isNameStart first = true) (text : List Char) :
    Sound first text (readName first text) := by
  rintro _ ⟨⟩
  refine ⟨_, _, List.takeWhile_append_dropWhile.symm, rfl, ?_⟩
  have follow : ∀ c ∈ (text.dropWhile isNamePart).head?, isNamePart c = false :=
    fun c head => head?_dropWhile head
  cases found : Kind.keyword? (String.ofList (first :: text.takeWhile isNamePart)) with
  | none =>
    refine .name ⟨⟨first, _, String.toList_ofList, start, ?_⟩, found⟩ follow
    intro c member
    exact mem_takeWhile_imp member
  | some kind =>
    obtain ⟨before, after, eq, -⟩ := List.lookup_eq_some_iff.mp found
    refine .keyword ?_ follow
    rw [eq]
    simp

theorem sound_readNumber {first : Char} (digit : first.isDigit = true) (text : List Char) :
    Sound first text (readNumber first text) := by
  have hWhole := areDigits_takeWhile text digit
  have cut := (List.takeWhile_append_dropWhile (p := Char.isDigit) (l := text)).symm
  unfold readNumber
  split
  next rest dropped =>
    rw [dropped] at cut
    split
    next => exact nofun
    next fraction ne =>
      rintro _ ⟨⟩
      refine ⟨text.takeWhile Char.isDigit ++ '.' :: rest.takeWhile Char.isDigit,
        rest.dropWhile Char.isDigit, ?_, ?_, ?_⟩
      · rw [List.append_assoc, List.cons_append, List.takeWhile_append_dropWhile, ← cut]
      · simp only [List.length_append, List.length_cons]; omega
      · exact .fraction hWhole ⟨ne, fun c member => mem_takeWhile_imp member⟩
          fun c head => head?_dropWhile head
  next other =>
    rintro _ ⟨⟩
    refine ⟨_, _, cut, rfl, .whole hWhole fun c head => ⟨head?_dropWhile head, ?_⟩⟩
    rintro rfl
    obtain ⟨rest, dropped⟩ := List.head?_eq_some_iff.mp head
    exact other rest dropped

theorem sound_readString {quote : Char} (quotes : isQuote quote = true) (text : List Char) :
    Sound quote text (readString quote text) := by
  have cut := (List.takeWhile_append_dropWhile (p := isContent quote) (l := text)).symm
  unfold readString
  split
  next => exact nofun
  next c rest dropped =>
    split
    next closing =>
      subst closing
      rintro _ ⟨⟩
      refine ⟨text.takeWhile (isContent c) ++ [c], rest, ?_, by simp, .string quotes ?_⟩
      · rw [List.append_assoc, List.singleton_append, ← dropped, ← cut]
      · intro d member
        simpa [isContent, isLineEnd] using mem_takeWhile_imp member
    next => exact nofun

/-- Where a sign is barred by what follows on it, an earlier one of the table stands. -/
theorem exists_earlier_sign {earlier later : List (String × Kind)} {entry : String × Kind}
    (eq : symbols = earlier ++ entry :: later) {tail : List Char} (bars : tail ∈ barred entry.2) :
    ∃ other ∈ earlier, other.1.toList <+: entry.1.toList ++ tail := by
  have known : ∀ entry ∈ symbols, ∀ tail ∈ barred entry.2,
      ∃ other ∈ symbols.takeWhile (· ≠ entry), other.1.toList <+: entry.1.toList ++ tail := by
    decide
  obtain ⟨other, member, front⟩ := known entry (by rw [eq]; simp) tail bars
  refine ⟨other, ?_, front⟩
  rw [eq, List.takeWhile_append] at member
  split at member
  next => simpa using member
  next => exact List.takeWhile_subset _ member

theorem sound_readSymbol (first : Char) (text : List Char) :
    Sound first text (readSymbol first text) := by
  unfold readSymbol
  split
  next spelling kind found =>
    rintro _ ⟨⟩
    obtain ⟨front, earlier, later, eq, none⟩ := List.find?_eq_some_iff_append.mp found
    obtain ⟨rest, whole⟩ := List.isPrefixOf_iff_prefix.mp front
    have member : (spelling, kind) ∈ symbols := List.mem_of_find?_eq_some found
    have nonempty : ∀ entry ∈ symbols, entry.1.toList ≠ [] := by decide
    obtain ⟨c, tail, written⟩ := List.exists_cons_of_ne_nil (nonempty _ member)
    rw [written, List.cons_append] at whole
    obtain ⟨rfl, rfl⟩ := List.cons.inj whole
    have spelled : String.ofList (c :: tail) = spelling := by
      rw [← written, String.ofList_toList]
    refine ⟨tail, rest, rfl, ?_, ?_⟩
    · rw [← String.length_toList, written]; rfl
    · rw [← spelled] at member ⊢
      refine .sign member ?_
      rintro bar bars ⟨more, rfl⟩
      obtain ⟨other, before, front'⟩ := exists_earlier_sign eq bars
      have absent := none other before
      rw [Bool.not_eq_true', ← Bool.not_eq_true, List.isPrefixOf_iff_prefix] at absent
      apply absent
      rw [written] at front'
      exact front'.trans ⟨more, by simp⟩
  next => exact nofun

theorem sound_read (first : Char) (text : List Char) : Sound first text (read first text) := by
  unfold read
  split
  next quotes => exact sound_readString quotes text
  next =>
    split
    next digit => exact sound_readNumber digit text
    next =>
      split
      next start => exact sound_readName start text
      next => exact sound_readSymbol first text

/-- What is read is legal. -/
theorem legal_of_read {first : Char} {text : List Char} {lexeme : Lexeme}
    (h : (read first text).outcome = .ok lexeme) : lexeme.Legal := by
  obtain ⟨tail, rest, -, -, stands⟩ := sound_read first text lexeme h
  exact stands.legal

theorem Legal.not_eof {lexeme : Lexeme} (legal : lexeme.Legal) : lexeme.kind ≠ .eof := by
  cases legal with
  | number | string | ident => exact nofun
  | @spelled kind text member =>
    have : ∀ entry ∈ keywords ++ symbols, entry.2 ≠ .eof := by decide
    exact this _ member

end Lexeme

/-! ## The words of a text -/

/-- The words of a text, each of which is read behind a gap. -/
inductive Lexes : List Char → List Lexeme → Prop where
  | done {text : List Char} : text.drop (gapLength false text) = [] → Lexes text []
  | word {text rest : List Char} {first : Char} {lexeme : Lexeme} {lexemes : List Lexeme} :
    text.drop (gapLength false text) = first :: rest →
      (Lexeme.read first rest).outcome = .ok lexeme →
        Lexes (rest.drop (Lexeme.read first rest).more) lexemes → Lexes text (lexeme :: lexemes)

theorem Lexes.nil : Lexes [] [] :=
  .done rfl

theorem Lexes.legal {text : List Char} {lexemes : List Lexeme} (h : Lexes text lexemes) :
    ∀ lexeme ∈ lexemes, lexeme.Legal := by
  induction h with
  | done => exact nofun
  | word _ read _ ih => exact List.forall_mem_cons.mpr ⟨Lexeme.legal_of_read read, ih⟩

namespace Cursor

theorem tokenize_eq_of_done {cursor : Cursor} (h : cursor.skipGap.rest = []) :
    cursor.tokenize = (.ok [.eof cursor.skipGap.location], cursor.skipGap) := by
  rw [tokenize]
  split
  next => rfl
  next found => rw [h] at found; cases found

/-- A reading goes on behind a word, and stops behind a fault. -/
theorem tokenize_eq_of_word {cursor : Cursor} {first : Char} {rest : List Char}
    (h : cursor.skipGap.rest = first :: rest) :
    let next := cursor.skipGap.advance ((Lexeme.read first rest).more + 1)
    cursor.tokenize =
      match (Lexeme.read first rest).outcome with
      | .error fault => (.error { fault, location := cursor.skipGap.location }, next)
      | .ok lexeme =>
        (next.tokenize.1.map (lexeme.token cursor.skipGap.location :: ·), next.tokenize.2) := by
  rw [tokenize]
  split
  next found => rw [h] at found; cases found
  next found =>
    rw [h] at found
    cases found
    cases outcome : (Lexeme.read first rest).outcome with
    | error fault => simp only [outcome]
    | ok lexeme => simp only [outcome]; rfl

end Cursor

/-! ## Spellings -/

namespace Token

/-- A token as a word in which logical words are in lower case and a swap has the short sign. -/
def respelled (token : Token) : Lexeme where
  kind := token.kind
  text :=
    match token.kind with
    | .or => "sau"
    | .and => "si"
    | .not => "not"
    | .swap => "<->"
    | _ => token.text

/-- All other kinds have at most one spelling. -/
theorem plain_eq_respelled {token : Token} (legal : token.lexeme.Legal) :
    token.plain = token.respelled := by
  obtain ⟨kind, text, location⟩ := token
  cases legal with
  | number | string | ident => rfl
  | spelled member =>
    have : ∀ entry ∈ keywords ++ symbols,
        plain ⟨entry.2, entry.1, .start⟩ = respelled ⟨entry.2, entry.1, .start⟩ := by decide
    exact this _ member

theorem plain_of_legal {token : Token} (legal : token.lexeme.Legal) : token.plain.Plain := by
  obtain ⟨kind, text, location⟩ := token
  cases legal with
  | number h => exact .number h
  | string h => exact .string h
  | ident h => exact .ident h
  | spelled member =>
    have : ∀ entry ∈ keywords ++ symbols,
        entry.2.spelling? = some (plain ⟨entry.2, entry.1, .start⟩).text := by decide
    exact .spelled (this _ member)

end Token

end Pseudocod

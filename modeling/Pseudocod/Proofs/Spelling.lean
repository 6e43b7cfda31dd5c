import Mathlib
import Pseudocod.Expr.Printer
import Pseudocod.Proofs.Lexical

/-!
# Reading written words

A word that stands in a text is the one that is read there. In the layout of a program a word ends
at a delimiter, unless it is a sign with which no other begins.

* `Lexeme.Stands.found`: a word is read where it stands.
* `Lexeme.Stands.append_delimited`: a word still stands in a text if a delimiter follows on it.
* `Spells.lexes`: a text is read as the words that it spells.
-/

namespace Pseudocod

/-- Characters at which a word ends. -/
def delimiters : List Char :=
  [' ', '\n', ')', ']', ',', ';']

/-- Nothing goes on with a word behind which such a text stands. -/
def Delimited (text : List Char) : Prop :=
  ∀ c ∈ text.head?, c ∈ delimiters

theorem Delimited.cons {c : Char} (h : c ∈ delimiters) (text : List Char) :
    Delimited (c :: text) := by
  rintro _ ⟨⟩
  exact h

/-! ## Characters -/

/-- A character at which no gap begins. -/
def IsSolid (c : Char) : Prop :=
  Text.isBlank c = false ∧ c ≠ '#'

instance (c : Char) : Decidable (IsSolid c) :=
  inferInstanceAs (Decidable (_ ∧ _))

theorem gapLength_of_isSolid {first : Char} (h : IsSolid first) (text : List Char) :
    gapLength false (first :: text) = 0 := by
  rw [gapLength, if_neg (by rw [h.1]; exact Bool.false_ne_true), if_neg h.2]

theorem gapLength_of_isBlank {first : Char} (h : Text.isBlank first = true) (text : List Char) :
    gapLength false (first :: text) = gapLength false text + 1 := by
  rw [gapLength, if_pos h, Nat.add_comm]

/-- Whether a character of ASCII has a property can be found by trying all of them. -/
theorem forall_ascii {p : Char → Prop} (h : ∀ n < 128, p (Char.ofNat n)) :
    ∀ c : Char, c.toNat < 128 → p c := by
  intro c lt
  rw [← Char.ofNat_toNat c]
  exact h _ lt

namespace Lexeme

theorem toNat_lt_of_isNamePart {c : Char} (h : isNamePart c = true) : c.toNat < 128 := by
  simp only [isNamePart, Char.isAlphanum, Char.isAlpha, Char.isUpper, Char.isLower, Char.isDigit,
    Bool.or_eq_true, Bool.and_eq_true, decide_eq_true_eq, UInt32.le_iff_toNat_le] at h
  rcases h with ((h | h) | h) | rfl
  · exact Nat.lt_of_le_of_lt h.2 (by decide)
  · exact Nat.lt_of_le_of_lt h.2 (by decide)
  · exact Nat.lt_of_le_of_lt h.2 (by decide)
  · decide

theorem class_of_isNamePart {c : Char} (h : isNamePart c = true) :
    IsSolid c ∧ isQuote c = false ∧ (isNameStart c = true → c.isDigit = false) := by
  have all : ∀ c : Char, c.toNat < 128 → isNamePart c = true →
      IsSolid c ∧ isQuote c = false ∧ (isNameStart c = true → c.isDigit = false) := by
    apply forall_ascii
    decide
  exact all c (toNat_lt_of_isNamePart h) h

theorem isNamePart_of_isNameStart {c : Char} (h : isNameStart c = true) : isNamePart c = true := by
  simp only [isNameStart, isNamePart, Char.isAlphanum, Bool.or_eq_true] at h ⊢
  exact h.imp_left .inl

theorem isNamePart_of_isDigit {c : Char} (h : c.isDigit = true) : isNamePart c = true := by
  simp only [isNamePart, Char.isAlphanum, Bool.or_eq_true]
  exact .inl (.inr h)

/-! ## Words are found -/

theorem takeWhile_stop {p : Char → Bool} {word rest : List Char} (h : ∀ c ∈ word, p c = true)
    (stop : ∀ c ∈ rest.head?, p c = false) :
    (word ++ rest).takeWhile p = word ∧ (word ++ rest).dropWhile p = rest := by
  rw [List.takeWhile_append_of_pos h, List.dropWhile_append_of_pos h]
  cases rest with
  | nil => simp
  | cons c rest => simp [stop c rfl]

/-- The word `text` is read in front of `rest`, as the lexeme. -/
def Found (lexeme : Lexeme) (text rest : List Char) : Prop :=
  ∃ first tail, text = first :: tail ∧ IsSolid first ∧
    read first (tail ++ rest) = ⟨.ok lexeme, tail.length⟩

theorem found_name {first : Char} {tail rest : List Char} (start : isNameStart first = true)
    (parts : ∀ c ∈ tail, isNamePart c = true) (stop : ∀ c ∈ rest.head?, isNamePart c = false)
    {kind : Kind} (h : (Kind.keyword? (String.ofList (first :: tail))).getD .ident = kind) :
    Found ⟨kind, String.ofList (first :: tail)⟩ (first :: tail) rest := by
  have ⟨solid, noQuote, noDigit⟩ := class_of_isNamePart (isNamePart_of_isNameStart start)
  have ⟨taken, _⟩ := takeWhile_stop parts stop
  refine ⟨first, tail, rfl, solid, ?_⟩
  rw [read, if_neg (by simp [noQuote]), if_neg (by simp [noDigit start]), if_pos start, readName]
  simp only [taken, h]

theorem exists_cons_of_areDigits {text : List Char} (h : AreDigits text) :
    ∃ first tail, text = first :: tail ∧ first.isDigit = true ∧ ∀ c ∈ tail, c.isDigit = true := by
  obtain ⟨first, tail, rfl⟩ := List.exists_cons_of_ne_nil h.1
  exact ⟨first, tail, rfl, List.forall_mem_cons.mp h.2⟩

theorem read_of_isDigit {first : Char} (digit : first.isDigit = true) (text : List Char) :
    read first text = readNumber first text := by
  have ⟨_, noQuote, _⟩ := class_of_isNamePart (isNamePart_of_isDigit digit)
  rw [read, if_neg (by simp [noQuote]), if_pos digit]

theorem found_whole {written rest : List Char} (digits : AreDigits written)
    (stop : ∀ c ∈ rest.head?, c.isDigit = false ∧ c ≠ '.') :
    Found ⟨.number, String.ofList written⟩ written rest := by
  obtain ⟨first, tail, rfl, digit, hTail⟩ := exists_cons_of_areDigits digits
  have ⟨taken, dropped⟩ := takeWhile_stop hTail fun c head => (stop c head).1
  refine ⟨first, tail, rfl, (class_of_isNamePart (isNamePart_of_isDigit digit)).1, ?_⟩
  rw [read_of_isDigit digit, readNumber, taken, dropped]
  split
  next => exact absurd rfl (stop '.' rfl).2
  next => rfl

theorem found_fraction {whole fraction rest : List Char} (hWhole : AreDigits whole)
    (hFraction : AreDigits fraction) (stop : ∀ c ∈ rest.head?, c.isDigit = false) :
    Found ⟨.number, String.ofList (whole ++ '.' :: fraction)⟩ (whole ++ '.' :: fraction) rest := by
  obtain ⟨first, tail, rfl, digit, hTail⟩ := exists_cons_of_areDigits hWhole
  have point : ∀ c ∈ ('.' :: (fraction ++ rest)).head?, c.isDigit = false := by
    rintro _ ⟨⟩
    decide
  have ⟨taken, dropped⟩ := takeWhile_stop hTail point
  have ⟨takenFraction, _⟩ := takeWhile_stop hFraction.2 stop
  refine ⟨first, tail ++ '.' :: fraction, rfl,
    (class_of_isNamePart (isNamePart_of_isDigit digit)).1, ?_⟩
  rw [read_of_isDigit digit, readNumber, List.append_assoc, List.cons_append, taken, dropped]
  simp only [takenFraction]
  obtain ⟨digit, more, rfl⟩ := List.exists_cons_of_ne_nil hFraction.1
  have length : (tail ++ '.' :: digit :: more).length = tail.length + 1 + (more.length + 1) := by
    simp only [List.length_append, List.length_cons]; omega
  rw [length]
  rfl

theorem found_string {quote : Char} {content : List Char} (quotes : isQuote quote = true)
    (inside : ∀ c ∈ content, c ≠ quote ∧ c ≠ '\n' ∧ c ≠ '\r') (rest : List Char) :
    Found ⟨.string, String.ofList content⟩ (quote :: (content ++ [quote])) rest := by
  have goesOn : ∀ c ∈ content, isContent quote c = true := by
    intro c member
    obtain ⟨ne, ne₁, ne₂⟩ := inside c member
    simp [isContent, isLineEnd, ne, ne₁, ne₂]
  have closing : ∀ c ∈ (quote :: rest).head?, isContent quote c = false := by
    rintro _ ⟨⟩
    simp [isContent]
  obtain ⟨taken, dropped⟩ := takeWhile_stop goesOn closing
  refine ⟨_, _, rfl, ?_, ?_⟩
  · simp only [isQuote, Bool.or_eq_true, decide_eq_true_eq] at quotes
    rcases quotes with rfl | rfl <;> decide
  · rw [List.append_assoc, List.singleton_append, read, if_pos quotes, readString, taken, dropped]
    simp

theorem found_keyword {written rest : List Char} {kind : Kind}
    (h : (String.ofList written, kind) ∈ keywords)
    (stop : ∀ c ∈ rest.head?, isNamePart c = false) :
    Found ⟨kind, String.ofList written⟩ written rest := by
  have known : ∀ entry ∈ keywords, Kind.keyword? entry.1 = some entry.2 ∧
      entry.1.toList.head?.any isNameStart ∧ entry.1.toList.tail.all isNamePart := by decide
  obtain ⟨found, start, parts⟩ := known _ h
  rw [String.toList_ofList] at start parts
  cases written with
  | nil => cases start
  | cons first tail =>
    simp only [List.head?_cons, Option.any_some, List.tail_cons] at start parts
    have kindOf : Kind.keyword? (String.ofList (first :: tail)) = some kind := found
    exact found_name start (List.all_eq_true.mp parts) stop (by rw [kindOf]; rfl)

/-- The first sign of the table that stands in front of a text is the one that nothing bars. -/
theorem find?_symbols {entry : String × Kind} (member : entry ∈ symbols) {rest : List Char}
    (unbarred : ∀ tail ∈ barred entry.2, ¬ tail <+: rest) :
    (symbols.find? fun other => other.1.toList.isPrefixOf (entry.1.toList ++ rest)) =
      some entry := by
  have known : symbols.Pairwise fun earlier later =>
      ¬ earlier.1.toList <+: later.1.toList ∧
        (later.1.toList <+: earlier.1.toList → ∃ tail ∈ barred later.2,
          tail <+: earlier.1.toList.drop later.1.toList.length) := by decide
  obtain ⟨earlier, later, eq⟩ := List.append_of_mem member
  rw [eq] at known ⊢
  refine List.find?_eq_some_iff_append.mpr ⟨?_, earlier, later, rfl, fun other before => ?_⟩
  · exact List.isPrefixOf_iff_prefix.mpr (List.prefix_append _ _)
  · obtain ⟨shorter, longer⟩ := (List.pairwise_append.mp known).2.2 other before entry
      List.mem_cons_self
    rw [Bool.not_eq_true', ← Bool.not_eq_true, List.isPrefixOf_iff_prefix]
    intro front
    rcases List.prefix_or_prefix_of_prefix front (List.prefix_append _ rest) with within | beyond
    · exact shorter within
    · obtain ⟨tail, bars, more⟩ := longer beyond
      obtain ⟨between, whole⟩ := beyond
      rw [← whole, List.drop_left] at more
      rw [← whole, List.prefix_append_right_inj] at front
      exact unbarred tail bars (more.trans front)

theorem found_sign {written rest : List Char} {kind : Kind}
    (h : (String.ofList written, kind) ∈ symbols)
    (unbarred : ∀ tail ∈ barred kind, ¬ tail <+: rest) :
    Found ⟨kind, String.ofList written⟩ written rest := by
  have known : ∀ entry ∈ symbols, entry.1.toList.head?.any
      (fun c => IsSolid c ∧ isNamePart c = false ∧ isQuote c = false) := by decide
  have start := known _ h
  have found := find?_symbols h unbarred
  rw [String.toList_ofList] at start found
  cases written with
  | nil => cases start
  | cons first tail =>
    simp only [List.head?_cons, Option.any_some, decide_eq_true_eq] at start
    obtain ⟨solid, noName, noQuote⟩ := start
    have noDigit : ¬ first.isDigit = true := by
      intro digit
      exact Bool.noConfusion (noName.symm.trans (isNamePart_of_isDigit digit))
    have noStart : ¬ isNameStart first = true := by
      intro start
      exact Bool.noConfusion (noName.symm.trans (isNamePart_of_isNameStart start))
    refine ⟨first, tail, rfl, solid, ?_⟩
    rw [List.cons_append] at found
    rw [read, if_neg (by simp [noQuote]), if_neg noDigit, if_neg noStart, readSymbol, found]
    simp only [String.length_ofList, List.length_cons, Nat.add_sub_cancel]

/-- A word is found where it stands. -/
theorem Stands.found {lexeme : Lexeme} {written rest : List Char}
    (stands : Stands lexeme written rest) : Found lexeme written rest := by
  cases stands with
  | name isName stop =>
    obtain ⟨⟨first, tail, eq, start, parts⟩, none⟩ := isName
    rw [String.toList_ofList] at eq
    subst eq
    exact found_name start parts stop (by rw [none]; rfl)
  | keyword member stop => exact found_keyword member stop
  | whole digits stop => exact found_whole digits stop
  | fraction hWhole hFraction stop => exact found_fraction hWhole hFraction stop
  | string quotes inside => exact found_string quotes inside _
  | sign member unbarred => exact found_sign member unbarred

/-! ## Words in front of a delimiter -/

theorem stop_of_delimited {p : Char → Bool} (h : delimiters.any p = false) {rest : List Char}
    (delimited : Delimited rest) : ∀ c ∈ rest.head?, p c = false := by
  intro c member
  exact Bool.eq_false_iff.mpr (List.any_eq_false.mp h c (delimited c member))

/-- What follows on a text and is not followed on by a word may have a delimiter behind it. -/
theorem stop_append {p : Char → Prop} {text rest : List Char} (h : ∀ c ∈ text.head?, p c)
    (stop : ∀ c ∈ rest.head?, p c) : ∀ c ∈ (text ++ rest).head?, p c := by
  cases text with
  | nil => exact stop
  | cons => exact h

theorem unbarred_append {kind : Kind} {text rest : List Char} (delimited : Delimited rest)
    (unbarred : ∀ tail ∈ barred kind, ¬ tail <+: text) :
    ∀ tail ∈ barred kind, ¬ tail <+: text ++ rest := by
  have apart : ∀ tail ∈ barred kind, ∀ c ∈ tail, c ∉ delimiters := by
    cases kind <;> decide
  intro tail bars front
  rcases List.prefix_or_prefix_of_prefix front (List.prefix_append text rest) with within | beyond
  · exact unbarred tail bars within
  · obtain ⟨between, rfl⟩ := beyond
    rw [List.prefix_append_right_inj] at front
    cases between with
    | nil => exact unbarred _ bars (by simp)
    | cons c between =>
      obtain ⟨more, rfl⟩ := front
      exact apart _ bars c (by simp) (delimited c rfl)

/-- A word still stands in a text if a delimiter and more is written behind the text. -/
theorem Stands.append_delimited {lexeme : Lexeme} {written text rest : List Char}
    (stands : Stands lexeme written text) (delimited : Delimited rest) :
    Stands lexeme written (text ++ rest) := by
  cases stands with
  | name isName stop =>
    exact .name isName (stop_append stop (stop_of_delimited (by decide) delimited))
  | keyword member stop =>
    exact .keyword member (stop_append stop (stop_of_delimited (by decide) delimited))
  | whole digits stop =>
    refine .whole digits (stop_append stop fun c head => ⟨?_, ?_⟩)
    · exact stop_of_delimited (by decide) delimited c head
    · rintro rfl
      exact absurd (delimited '.' head) (by decide)
  | fraction hWhole hFraction stop =>
    exact .fraction hWhole hFraction (stop_append stop (stop_of_delimited (by decide) delimited))
  | string quotes inside => exact .string quotes inside
  | sign member unbarred => exact .sign member (unbarred_append delimited unbarred)

/-- A word as it is written: a string gets its quotes. -/
def written (lexeme : Lexeme) : String :=
  match lexeme.kind with
  | .string => (Expr.string lexeme.text).render
  | _ => lexeme.text

theorem written_of_spelling {kind : Kind} {text : String} (h : kind.spelling? = some text) :
    written ⟨kind, text⟩ = text := by
  cases kind with
  | string => cases h
  | _ => rfl

theorem mem_of_spelling {kind : Kind} {text : String} (h : kind.spelling? = some text) :
    (text, kind) ∈ keywords ++ symbols := by
  obtain ⟨entry, found, rfl⟩ := Option.map_eq_some_iff.mp h
  have same : entry.2 = kind := by simpa using List.find?_some found
  rw [← same]
  exact List.mem_of_find?_eq_some found

theorem stands_string {text : String} (h : IsQuotable text) (rest : List Char) :
    Stands ⟨.string, text⟩ (Expr.string text).render.toList rest := by
  obtain ⟨noNewline, noReturn, notBoth⟩ := h
  have quotes : isQuote (Expr.quoteFor text) = true := by
    unfold Expr.quoteFor
    split <;> rfl
  have absent : Expr.quoteFor text ∉ text.toList := by
    unfold Expr.quoteFor
    split
    next double =>
      intro single
      exact notBoth ⟨double, single⟩
    next noDouble => exact noDouble
  have inside : ∀ c ∈ text.toList, c ≠ Expr.quoteFor text ∧ c ≠ '\n' ∧ c ≠ '\r' := by
    intro c member
    refine ⟨?_, ?_, ?_⟩
    · rintro rfl; exact absent member
    · rintro rfl; exact noNewline member
    · rintro rfl; exact noReturn member
  have stands : Stands _ _ rest := .string quotes inside
  simpa [Expr.render] using stands

/-- A word in canonical spelling stands alone. -/
theorem Plain.stands {lexeme : Lexeme} (plain : lexeme.Plain) :
    Stands lexeme lexeme.written.toList [] := by
  cases plain with
  | @number text h =>
    rw [show written ⟨.number, text⟩ = text from rfl]
    rcases h with h | ⟨whole, fraction, eq, hWhole, hFraction⟩
    · have stands : Stands _ text.toList [] := .whole h nofun
      rwa [String.ofList_toList] at stands
    · have stands : Stands _ _ [] := .fraction hWhole hFraction nofun
      rwa [← eq, String.ofList_toList] at stands
  | string h => exact stands_string h []
  | @ident text h =>
    have stands : Stands _ text.toList [] := .name (by rwa [String.ofList_toList]) nofun
    rwa [String.ofList_toList] at stands
  | @spelled kind text h =>
    rw [written_of_spelling h]
    rcases List.mem_append.mp (mem_of_spelling h) with keyword | symbol
    · have stands : Stands _ text.toList [] := .keyword (by rwa [String.ofList_toList]) nofun
      rwa [String.ofList_toList] at stands
    · have bars : ∀ entry ∈ symbols, ∀ tail ∈ barred entry.2, ¬ tail <+: [] := by decide
      have stands : Stands _ text.toList [] :=
        .sign (by rwa [String.ofList_toList]) (bars _ symbol)
      rwa [String.ofList_toList] at stands

theorem Plain.found {lexeme : Lexeme} (plain : lexeme.Plain) {rest : List Char}
    (delimited : Delimited rest) : Found lexeme lexeme.written.toList rest :=
  (plain.stands.append_delimited delimited).found

end Lexeme

/-! ## Texts that spell words -/

theorem Lexeme.Found.lexes {lexeme : Lexeme} {text rest : List Char} {more : List Lexeme}
    (found : lexeme.Found text rest) (h : Lexes rest more) :
    Lexes (text ++ rest) (lexeme :: more) := by
  obtain ⟨first, tail, rfl, solid, read⟩ := found
  have front : (first :: (tail ++ rest)).drop (gapLength false (first :: (tail ++ rest))) =
      first :: (tail ++ rest) := by
    rw [gapLength_of_isSolid solid, List.drop_zero]
  refine .word front ?_ ?_
  · rw [read]
  · rw [read, List.drop_left]
    exact h

/-- Words are read behind the gap in front of a text. -/
theorem Lexes.of_skipped {text text' : List Char} {lexemes : List Lexeme}
    (same : text.drop (gapLength false text) = text'.drop (gapLength false text'))
    (h : Lexes text lexemes) : Lexes text' lexemes := by
  cases h with
  | done none => exact .done (same.symm.trans none)
  | word front read others => exact .word (same.symm.trans front) read others

theorem Lexes.cons_of_isBlank {c : Char} {text : List Char} {lexemes : List Lexeme}
    (h : Lexes text lexemes) (blank : Text.isBlank c = true) : Lexes (c :: text) lexemes :=
  h.of_skipped (by rw [gapLength_of_isBlank blank, List.drop_succ_cons])

/-- A condition that every text meets. -/
def Anything (_ : List Char) : Prop :=
  True

/-- The text spells the words, in front of any text that meets the condition: it consists of words
in canonical spelling, each in front of a delimiter, of signs with which no other one begins, and of
blanks and newlines. -/
inductive Spells : (Before : List Char → Prop) → String → List Lexeme → Prop where
  | empty {Before : List Char → Prop} : Spells Before "" []
  | blanks (count : Nat) : Spells Anything (String.ofList (List.replicate count ' ')) []
  | newline : Spells Anything "\n" []
  | word {lexeme : Lexeme} : lexeme.Plain → Spells Delimited lexeme.written [lexeme]
  | sign {c : Char} {kind : Kind} :
    (String.ofList [c], kind) ∈ symbols → Lexeme.barred kind = [] →
      Spells Anything (String.ofList [c]) [⟨kind, String.ofList [c]⟩]
  | append {Before : List Char → Prop} {text text' : String} {lexemes lexemes' : List Lexeme} :
    Spells Anything text lexemes → Spells Before text' lexemes' →
      Spells Before (text ++ text') (lexemes ++ lexemes')
  | append_delimited {Before : List Char → Prop} {text text' : String}
      {lexemes lexemes' : List Lexeme} :
    Spells Delimited text lexemes → Spells Before text' lexemes' →
      text'.toList.head?.any (· ∈ delimiters) = true →
        Spells Before (text ++ text') (lexemes ++ lexemes')

namespace Spells

variable {Before : List Char → Prop} {text : String} {lexemes : List Lexeme}

theorem blank : Spells Anything " " [] :=
  blanks 1

theorem delimited_append (front : text.toList.head?.any (· ∈ delimiters) = true)
    (rest : List Char) : Delimited (text.toList ++ rest) := by
  cases eq : text.toList with
  | nil => rw [eq] at front; cases front
  | cons c tail =>
    rw [eq] at front
    exact Delimited.cons (of_decide_eq_true front) _

/-- A text is read as the words that it spells. -/
theorem lexes (spells : Spells Before text lexemes) : ∀ {rest more}, Before rest →
    Lexes rest more → Lexes (text.toList ++ rest) (lexemes ++ more) := by
  induction spells with
  | empty =>
    intro rest more _ lexes
    exact lexes
  | blanks count =>
    intro rest more _ lexes
    rw [String.toList_ofList]
    induction count with
    | zero => exact lexes
    | succ count ih => exact ih.cons_of_isBlank (by decide)
  | newline =>
    intro rest more _ lexes
    exact lexes.cons_of_isBlank (by decide)
  | word plain =>
    intro rest more delimited lexes
    exact (plain.found delimited).lexes lexes
  | sign member unbarred =>
    intro rest more _ lexes
    rw [String.toList_ofList]
    exact (Lexeme.found_sign member (by rw [unbarred]; nofun)).lexes lexes
  | append _ _ ihFirst ihSecond =>
    intro rest more before lexes
    rw [String.toList_append, List.append_assoc, List.append_assoc]
    exact ihFirst trivial (ihSecond before lexes)
  | append_delimited _ _ front ihFirst ihSecond =>
    intro rest more before lexes
    rw [String.toList_append, List.append_assoc, List.append_assoc]
    exact ihFirst (delimited_append front rest) (ihSecond before lexes)

/-- A text that spells words, alone. -/
theorem lexes_alone (spells : Spells Before text lexemes) (before : Before []) :
    Lexes text.toList lexemes := by
  have lexes := spells.lexes before .nil
  rwa [List.append_nil, List.append_nil] at lexes

end Spells

end Pseudocod

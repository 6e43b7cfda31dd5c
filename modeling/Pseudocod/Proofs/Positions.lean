import Mathlib.Data.List.DropRight
import Pseudocod.Proofs.Tokenization
import Pseudocod.Text.Lines

/-!
# Where words and faults are found

A location is counted up character by character while a text is read, through gaps, words and what a
fault leaves behind. What is reported of a text makes a trail of marks: each one is behind some text
that is passed over, and reading goes on behind what the mark is about. So every mark is where its
word stands in the text, however often reading was taken up again.

* `Location.start_after`: line, column and offset of a place, by the text before it.
* `Cursor.tokenize_trail`: a reading makes a trail.
* `Cursor.Trail.exists_place`, `Cursor.Trail.pairwise`: what a trail says about its marks.
* `Cursor.marks_placed`: the places of all that is reported, and their order.
-/

namespace Pseudocod

/-! ## Lines and columns -/

/-- The characters behind the last newline. -/
def Text.lastLine (text : List Char) : List Char :=
  text.rtakeWhile (· ≠ '\n')

namespace Location

theorem column_after (text : List Char) :
    (start.after text).column = 1 + (Text.lastLine text).length := by
  induction text using List.reverseRecOn with
  | nil => rfl
  | append_singleton text c ih =>
    rw [after_append, after_cons, after_nil, Text.lastLine, List.rtakeWhile_concat, next]
    by_cases newline : c = '\n'
    · simp [newline]
    · simp only [newline, if_false]
      rw [ih]
      simp [newline, Text.lastLine]
      omega

/-- The line and the column count newlines and the characters behind the last one, and the offset is
the size of all that comes before. -/
theorem start_after (text : List Char) :
    start.after text =
      { line := 1 + text.count '\n', column := 1 + (Text.lastLine text).length,
        offset := (String.ofList text).utf8ByteSize } := by
  have line := line_after start text
  have column := column_after text
  have offset := offset_after start text
  generalize start.after text = place at line column offset
  cases place
  simp_all [start]

theorem offset_le_after (place : Location) (text : List Char) :
    place.offset ≤ (place.after text).offset := by
  rw [offset_after]
  exact Nat.le_add_right _ _

theorem offset_lt_after (place : Location) {text : List Char} (ne : text ≠ []) :
    place.offset < (place.after text).offset := by
  obtain ⟨c, text, rfl⟩ := List.exists_cons_of_ne_nil ne
  have more := offset_le_after (place.next c) text
  rw [offset_next] at more
  have := c.utf8Size_pos
  rw [after_cons]
  omega

end Location

/-! ## Marks -/

/-- What is reported of a text: a token, or a fault. -/
inductive Mark where
  | found (token : Token)
  | fault (error : LexError)
deriving DecidableEq, Repr

namespace Mark

/-- Where the mark is. -/
def location : Mark → Location
  | .found token => token.location
  | .fault error => error.location

/-- Whether the mark is the end of the text. -/
def IsEnd : Mark → Prop
  | .found token => token.kind = .eof
  | .fault _ => False

/-- All that one reading reports. -/
def ofOutcome : Except LexError (List Token) → List Mark
  | .ok tokens => tokens.map .found
  | .error error => [.fault error]

/-- What is marked stands in front of `rest`: nothing at the end of the text, a word, or characters
that keep a word from standing there. -/
inductive Stands : Mark → (written rest : List Char) → Prop where
  | eof {place : Location} : Stands (.found (.eof place)) [] []
  | word {lexeme : Lexeme} {written rest : List Char} {place : Location} :
    lexeme.Stands written rest → Stands (.found (lexeme.token place)) written rest
  | fault {first : Char} {tail rest : List Char} {fault : Fault} {place : Location} :
    IsSolid first → (Lexeme.read first (tail ++ rest)).outcome = .error fault →
      Stands (.fault { fault, location := place }) (first :: tail) rest

theorem Stands.isSolid {mark : Mark} {written rest : List Char}
    (stands : Stands mark written rest) : ∀ c ∈ (written ++ rest).head?, IsSolid c := by
  cases stands with
  | eof => exact nofun
  | word stands => exact stands.isSolid
  | fault solid => rintro _ ⟨⟩; exact solid

/-- How what is marked is written in front of `rest`. A string has its quotes, and there is nothing
at the end. -/
inductive Shows : Mark → (written rest : List Char) → Prop where
  | eof {token : Token} : token.kind = .eof → Shows (.found token) [] []
  | string {token : Token} {quote : Char} {rest : List Char} :
    token.kind = .string → Lexeme.isQuote quote = true →
      Shows (.found token) (quote :: (token.text.toList ++ [quote])) rest
  | word {token : Token} {rest : List Char} :
    token.kind ≠ .string → token.kind ≠ .eof → token.text ≠ "" →
      Shows (.found token) token.text.toList rest
  | fault {error : LexError} {written rest : List Char} :
    written ≠ [] → Shows (.fault error) written rest

theorem Shows.of_stands {lexeme : Lexeme} {written rest : List Char}
    (stands : lexeme.Stands written rest) (place : Location) :
    Shows (.found (lexeme.token place)) written rest := by
  have known : ∀ entry ∈ keywords ++ symbols, entry.2 ≠ .string ∧ entry.2 ≠ .eof := by decide
  obtain ⟨first, tail, rfl, -⟩ := stands.found
  -- but for strings, the text is what is written
  have same {kind : Kind} (string : kind ≠ .string) (eof : kind ≠ .eof) :
      Shows (.found (Lexeme.token ⟨kind, String.ofList (first :: tail)⟩ place)) (first :: tail)
        rest := by
    have ne : String.ofList (first :: tail) ≠ "" := by
      rw [ne_eq, ← String.toList_eq_nil_iff, String.toList_ofList]
      exact List.cons_ne_nil first tail
    have written : Shows (.found (Lexeme.token ⟨kind, String.ofList (first :: tail)⟩ place))
        (String.ofList (first :: tail)).toList rest := .word string eof ne
    rwa [String.toList_ofList] at written
  generalize written : first :: tail = text at stands same
  cases stands with
  | name | whole | fraction => exact same nofun nofun
  | keyword member =>
    obtain ⟨string, eof⟩ := known _ (List.mem_append_left _ member)
    exact same string eof
  | @string quote content _ quotes =>
    have quoted : Shows (.found (Lexeme.token ⟨.string, String.ofList content⟩ place))
        (quote :: ((String.ofList content).toList ++ [quote])) rest := .string rfl quotes
    rwa [String.toList_ofList] at quoted
  | sign member =>
    obtain ⟨string, eof⟩ := known _ (List.mem_append_right _ member)
    exact same string eof

theorem Stands.shows {mark : Mark} {written rest : List Char}
    (stands : Stands mark written rest) : Shows mark written rest := by
  cases stands with
  | eof => exact .eof rfl
  | word stands => exact .of_stands stands _
  | @fault first tail => exact .fault (List.cons_ne_nil first tail)

theorem Shows.isEnd_of_nil {mark : Mark} {rest : List Char} (shows_ : Shows mark [] rest) :
    mark.IsEnd ∧ rest = [] := by
  generalize none : ([] : List Char) = written at shows_
  cases shows_ with
  | eof eof => exact ⟨eof, rfl⟩
  | string => exact nomatch none
  | word _ _ ne => exact absurd (String.toList_eq_nil_iff.mp none.symm) ne
  | fault ne => exact absurd none.symm ne

theorem Shows.of_isEnd {mark : Mark} {written rest : List Char} (shows_ : Shows mark written rest)
    (last : mark.IsEnd) : written = [] ∧ rest = [] := by
  cases shows_ with
  | eof => exact ⟨rfl, rfl⟩
  | string string => exact absurd (string.symm.trans last) (by decide)
  | word _ ne => exact absurd last ne
  | fault => exact last.elim

end Mark

/-! ## Readings and trails -/

namespace Cursor

/-- What a number of readings report, each of which starts where the one before it stopped. -/
def marks : Cursor → (count : Nat) → List Mark
  | _, 0 => []
  | cursor, count + 1 => Mark.ofOutcome cursor.tokenize.1 ++ cursor.tokenize.2.marks count

/-- A trail of marks: behind some text that is passed over there is what is marked, and the trail
goes on behind it. -/
inductive Trail : Cursor → List Mark → Cursor → Prop where
  | nil {cursor : Cursor} : Trail cursor [] cursor
  | mark {place : Location} {passed written rest : List Char} {mark : Mark} {marks : List Mark}
      {last : Cursor} :
    mark.location = place.after passed → mark.Stands written rest →
      Trail ⟨rest, (place.after passed).after written⟩ marks last →
        Trail ⟨passed ++ (written ++ rest), place⟩ (mark :: marks) last

namespace Trail

variable {cursor middle last : Cursor} {marks more : List Mark} {mark : Mark}

theorem append (first : Trail cursor marks middle) (second : Trail middle more last) :
    Trail cursor (marks ++ more) last := by
  induction first with
  | nil => exact second
  | mark place stands _ ih => exact .mark place stands (ih second)

/-- More text can be passed over in front of the first mark. -/
theorem behind {place : Location} {text rest : List Char}
    (trail : Trail ⟨rest, place.after text⟩ (mark :: marks) last) :
    Trail ⟨text ++ rest, place⟩ (mark :: marks) last := by
  generalize start : Cursor.mk rest (place.after text) = middle at trail
  cases trail with
  | mark here stands trail =>
    obtain ⟨rfl, rfl⟩ := Cursor.mk.inj start
    rw [← List.append_assoc]
    rw [← Location.after_append] at here
    rw [← Location.after_append place] at trail
    exact .mark here stands trail

/-- Where a mark of a trail is, and what is written there. -/
theorem exists_place (trail : Trail cursor marks last) (member : mark ∈ marks) :
    ∃ before written rest, cursor.rest = before ++ (written ++ rest) ∧
      mark.location = cursor.location.after before ∧ mark.Stands written rest := by
  induction trail with
  | nil => exact nomatch member
  | @mark place passed written rest first marks last here stands _ ih =>
    rcases List.mem_cons.mp member with rfl | member
    · exact ⟨passed, written, rest, rfl, here, stands⟩
    · obtain ⟨before, written', rest', eq, place', stands'⟩ := ih member
      change rest = _ at eq
      refine ⟨passed ++ (written ++ before), written', rest', ?_, ?_, stands'⟩
      · rw [eq]; simp only [List.append_assoc]
      · rw [place', Location.after_append, Location.after_append]

/-- Along a trail the offsets increase up to the end of the text. -/
theorem pairwise (trail : Trail cursor marks last) :
    marks.Pairwise fun mark later =>
      mark.location.offset < later.location.offset ∨ (mark.IsEnd ∧ later.IsEnd) := by
  induction trail with
  | nil => exact .nil
  | @mark place passed written rest first marks last here stands trail ih =>
    refine .cons ?_ ih
    intro later member
    obtain ⟨before, written', rest', eq, place', stands'⟩ := trail.exists_place member
    change rest = _ at eq
    change later.location = ((place.after passed).after written).after before at place'
    rw [place', here]
    by_cases none : written = []
    · subst none
      obtain ⟨isEnd, rfl⟩ := stands.shows.isEnd_of_nil
      obtain ⟨-, eq⟩ := List.append_eq_nil_iff.mp eq.symm
      obtain ⟨rfl, rfl⟩ := List.append_eq_nil_iff.mp eq
      exact .inr ⟨isEnd, stands'.shows.isEnd_of_nil.1⟩
    · exact .inl (Nat.lt_of_lt_of_le (Location.offset_lt_after _ none)
        (Location.offset_le_after _ before))

end Trail

/-- A reading makes a trail. -/
theorem tokenize_trail (cursor : Cursor) :
    Trail cursor (Mark.ofOutcome cursor.tokenize.1) cursor.tokenize.2 := by
  generalize length : cursor.rest.length = n
  induction n using Nat.strongRecOn generalizing cursor with
  | ind n ih =>
    subst length
    obtain ⟨text, place⟩ := cursor
    obtain ⟨gap, rest, rfl, -, solid, ⟨rfl, eq⟩ | ⟨first, tail, behind, fault, rfl, read, eq⟩ |
      ⟨written, behind, lexeme, rfl, stands, eq⟩⟩ := Cursor.tokenize_cases ⟨text, place⟩
    · rw [eq]
      exact .mark rfl .eof .nil
    · rw [eq]
      exact .mark rfl (.fault (solid first rfl) read) .nil
    · have shorter : behind.length < (gap ++ (written ++ behind)).length := by
        obtain ⟨first, tail, rfl, -⟩ := stands.found
        simp only [List.length_append, List.length_cons]
        omega
      have trail := ih _ shorter ⟨behind, (place.after gap).after written⟩ rfl
      rw [eq]
      change Trail _ (Mark.ofOutcome (Except.map _ (Cursor.tokenize _).1)) (Cursor.tokenize _).2
      cases outcome : (Cursor.tokenize ⟨behind, (place.after gap).after written⟩).1 with
      | ok tokens =>
        rw [outcome] at trail
        exact .mark rfl (.word stands) trail
      | error error =>
        -- the words in front of a fault are not reported
        rw [outcome] at trail
        exact trail.behind.behind

theorem marks_trail (cursor : Cursor) (count : Nat) :
    ∃ last, Trail cursor (cursor.marks count) last := by
  induction count generalizing cursor with
  | zero => exact ⟨cursor, .nil⟩
  | succ count ih =>
    obtain ⟨last, trail⟩ := ih cursor.tokenize.2
    exact ⟨last, cursor.tokenize_trail.append trail⟩

/-- Where a token of a source is, or its fault. -/
theorem exists_place_of_tokenize {source : String} {mark : Mark}
    (h : mark ∈ Mark.ofOutcome (Pseudocod.tokenize source)) :
    ∃ before written rest, source.toList = before ++ (written ++ rest) ∧
      mark.location = Location.start.after before ∧ mark.Stands written rest :=
  (ofSource source).tokenize_trail.exists_place h

/-- All that some readings of a source report is where it says. With what is in front of it, its
location has the line, the column and the size of that text; there it is written; and the end is
behind all characters. Each one starts behind those before it, but the end is reported again. -/
theorem marks_placed (source : String) (count : Nat) :
    (∀ mark ∈ (ofSource source).marks count, ∃ before written rest,
      source.toList = before ++ (written ++ rest) ∧ mark.Shows written rest ∧
        mark.location =
          { line := 1 + before.count '\n', column := 1 + (Text.lastLine before).length,
            offset := (String.ofList before).utf8ByteSize } ∧
        (mark.IsEnd → mark.location.offset = source.utf8ByteSize)) ∧
    ((ofSource source).marks count).Pairwise fun mark later =>
      mark.location.offset < later.location.offset ∨ (mark.IsEnd ∧ later.IsEnd) := by
  obtain ⟨last, trail⟩ := (ofSource source).marks_trail count
  refine ⟨?_, trail.pairwise⟩
  intro mark member
  obtain ⟨before, written, rest, whole, place, stands⟩ := trail.exists_place member
  have whole : source.toList = before ++ (written ++ rest) := whole
  have place : mark.location = Location.start.after before := place
  rw [Location.start_after] at place
  refine ⟨before, written, rest, whole, stands.shows, place, ?_⟩
  intro isEnd
  obtain ⟨rfl, rfl⟩ := stands.shows.of_isEnd isEnd
  rw [List.append_nil, List.append_nil] at whole
  rw [place, ← whole, String.ofList_toList]

/-- Two of the first three readings stop at parts of a number that breaks off. The fourth one finds
a string, a sign and the end, which the fifth one finds again. -/
theorem marks_placed_faults :
    let marks := (ofSource "é<-3.\n'ș'#\r;").marks 5
    marks.map Mark.location =
        [⟨1, 1, 0⟩, ⟨1, 4, 4⟩, ⟨1, 5, 5⟩, ⟨2, 1, 7⟩, ⟨2, 6, 13⟩, ⟨2, 7, 14⟩, ⟨2, 7, 14⟩] ∧
      (∀ mark ∈ marks, mark.IsEnd → mark.location.offset = 14) ∧
      marks.Pairwise fun mark later =>
        mark.location.offset < later.location.offset ∨ (mark.IsEnd ∧ later.IsEnd) := by
  obtain ⟨placed, increase⟩ := marks_placed "é<-3.\n'ș'#\r;" 5
  refine ⟨by cbv, ?_, increase⟩
  intro mark member isEnd
  obtain ⟨-, -, -, -, -, -, last⟩ := placed mark member
  exact last isEnd

end Cursor

end Pseudocod

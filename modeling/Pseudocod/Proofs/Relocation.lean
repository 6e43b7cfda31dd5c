import Pseudocod.Proofs.Positions

/-!
# Texts that start elsewhere

What a reading finds is settled by the text alone; where the text starts only says how its places
are counted. So reading on behind a fault is reading what is left as a text of its own. A fault is
left behind with the character at which it is, so that there are no more faults than characters, and
behind them there is the end.

* `Cursor.textInduction`: a text is empty, or it begins with a gap or with a solid character.
* `Cursor.tokenize_within`: what a reading finds in a text that starts at some place.
* `Cursor.exists_failures`: how many readings fail before the first one that does not.
* `Cursor.tokenize_resumed`: the readings of a source, each from where the one before it stopped.
-/

namespace Pseudocod

/-! ## Places -/

namespace Location

/-- A place of a text as it is counted if the text starts at `origin`. Only on its first line the
text has the columns of `origin` in front of it. -/
def within (origin place : Location) : Location where
  line := origin.line + place.line - 1
  column := if place.line = 1 then origin.column + place.column - 1 else place.column
  offset := origin.offset + place.offset

theorem within_start (origin : Location) : origin.within start = origin := by
  simp [within, start]

theorem within_next {origin place : Location} (line : 1 ≤ place.line) (column : 1 ≤ place.column)
    (c : Char) : origin.within (place.next c) = (origin.within place).next c := by
  unfold within next
  by_cases newline : c = '\n'
  · have later : place.line + 1 ≠ 1 := by omega
    simp only [newline, if_true, if_neg later, mk.injEq, true_and]
    omega
  · by_cases first : place.line = 1
    · simp only [newline, first, if_false, if_true, mk.injEq, true_and]
      omega
    · simp only [newline, first, if_false, mk.injEq, true_and]
      omega

/-- Places behind a text are counted as if the text had started at the start. -/
theorem after_eq_within (origin : Location) (text : List Char) :
    origin.after text = origin.within (start.after text) := by
  induction text using List.reverseRecOn with
  | nil => exact (within_start origin).symm
  | append_singleton text c ih =>
    have line : 1 ≤ (start.after text).line := by
      rw [line_after]
      exact Nat.le_add_right _ _
    have column : 1 ≤ (start.after text).column := by
      rw [column_after]
      exact Nat.le_add_right _ _
    calc origin.after (text ++ [c])
        = (origin.within (start.after text)).next c := by
          rw [after_append, ih, after_cons, after_nil]
      _ = origin.within ((start.after text).next c) := (within_next line column c).symm
      _ = origin.within (start.after (text ++ [c])) := by
          rw [after_append, after_cons, after_nil]

end Location

/-- A token at another place. -/
def Token.relocate (f : Location → Location) (token : Token) : Token :=
  { token with location := f token.location }

/-- A fault at another place. -/
def LexError.relocate (f : Location → Location) (error : LexError) : LexError :=
  { error with location := f error.location }

namespace Cursor

/-- What a reading found, with other places. -/
def relocate (f : Location → Location) :
    Except LexError (List Token) → Except LexError (List Token)
  | .ok tokens => .ok (tokens.map (Token.relocate f))
  | .error error => .error (error.relocate f)

/-! ## Readings by the front of a text -/

/-- What holds of the empty text, and of a text if it holds of what is behind its gap, or behind
some characters from a solid one on, holds of all texts. -/
theorem textInduction {P : List Char → Prop} (nil : P [])
    (word : ∀ first text, IsSolid first → (∀ more, P (text.drop more)) → P (first :: text))
    (gap : ∀ gap rest, IsGap gap rest → P rest → P (gap ++ rest)) (text : List Char) : P text := by
  generalize length : text.length = n
  induction n using Nat.strongRecOn generalizing text with
  | ind n ih =>
    subst length
    obtain ⟨front, rest, rfl, isGap, solid⟩ := exists_isGap text
    refine gap front rest isGap ?_
    cases rest with
    | nil => exact nil
    | cons first behind =>
      refine word first behind (solid first rfl) fun more => ih _ ?_ _ rfl
      simp only [List.length_append, List.length_cons, List.length_drop]
      omega

theorem skipGap_append {gap rest : List Char} (isGap : IsGap gap rest) (place : Location) :
    (⟨gap ++ rest, place⟩ : Cursor).skipGap = (⟨rest, place.after gap⟩ : Cursor).skipGap := by
  simp only [skipGap, advance, isGap.gapLength_append, List.drop_append, List.take_append,
    Nat.add_sub_cancel_left, List.drop_of_length_le (Nat.le_add_right gap.length _),
    List.take_of_length_le (Nat.le_add_right gap.length _), List.nil_append,
    Location.after_append]

/-- A gap has no part in what is found behind it but for the places. -/
theorem tokenize_gap {gap rest : List Char} (isGap : IsGap gap rest) (place : Location) :
    (⟨gap ++ rest, place⟩ : Cursor).tokenize = (⟨rest, place.after gap⟩ : Cursor).tokenize := by
  have same := skipGap_append isGap place
  cases left : (⟨rest, place.after gap⟩ : Cursor).skipGap.rest with
  | nil =>
    rw [tokenize_eq_of_done left, tokenize_eq_of_done (by rw [same, left]), same]
  | cons first text =>
    rw [tokenize_eq_of_word left, tokenize_eq_of_word (by rw [same, left]), same]

theorem tokenize_nil (place : Location) :
    (⟨[], place⟩ : Cursor).tokenize = (.ok [.eof place], ⟨[], place⟩) :=
  tokenize_eq_of_done rfl

/-- What a reading finds at a solid character. -/
theorem tokenize_cons {first : Char} (solid : IsSolid first) (text : List Char)
    (place : Location) :
    let reading := Lexeme.read first text
    let next : Cursor := ⟨text.drop reading.more, place.after (first :: text.take reading.more)⟩
    (⟨first :: text, place⟩ : Cursor).tokenize =
      match reading.outcome with
      | .error fault => (.error { fault, location := place }, next)
      | .ok lexeme => (next.tokenize.1.map (lexeme.token place :: ·), next.tokenize.2) := by
  have stays : (⟨first :: text, place⟩ : Cursor).skipGap = ⟨first :: text, place⟩ := by
    simp [skipGap, advance, gapLength_of_isSolid solid]
  rw [tokenize_eq_of_word (by rw [stays]), stays]
  rfl

/-! ## The start of a text -/

theorem relocate_map (f : Location → Location) (token : Token)
    (result : Except LexError (List Token)) :
    relocate f (result.map (token :: ·)) = (relocate f result).map (token.relocate f :: ·) := by
  cases result <;> rfl

/-- What a reading finds in a text that starts at `origin` is what it finds if the text starts at
the start, but for the places. -/
theorem tokenize_within (origin : Location) (text passed : List Char) :
    let here := (⟨text, origin.after passed⟩ : Cursor).tokenize
    let there := (⟨text, Location.start.after passed⟩ : Cursor).tokenize
    here.1 = relocate origin.within there.1 ∧ here.2.rest = there.2.rest := by
  induction text using textInduction generalizing passed with
  | nil =>
    rw [tokenize_nil, tokenize_nil, Location.after_eq_within]
    exact ⟨rfl, rfl⟩
  | word first text solid ih =>
    rw [tokenize_cons solid, tokenize_cons solid]
    cases (Lexeme.read first text).outcome with
    | error fault =>
      refine ⟨?_, rfl⟩
      rw [Location.after_eq_within]
      rfl
    | ok lexeme =>
      obtain ⟨found, left⟩ := ih (Lexeme.read first text).more
        (passed ++ first :: text.take (Lexeme.read first text).more)
      rw [Location.after_append, Location.after_append] at found left
      refine ⟨?_, left⟩
      simp only [relocate_map, found]
      rw [Location.after_eq_within]
      rfl
  | gap gap rest isGap ih =>
    have behind := ih (passed ++ gap)
    rw [Location.after_append, Location.after_append] at behind
    rw [tokenize_gap isGap, tokenize_gap isGap]
    exact behind

/-- A reading finds what is left as a text of its own, but for the places. -/
theorem tokenize_eq_relocate (cursor : Cursor) :
    cursor.tokenize.1 =
      relocate cursor.location.within (Pseudocod.tokenize (String.ofList cursor.rest)) := by
  rw [Pseudocod.tokenize, ofSource, String.toList_ofList]
  exact (tokenize_within cursor.location cursor.rest []).1

/-! ## Reading on behind a fault -/

/-- What is left after a number of readings, each of which starts where the one before it
stopped. -/
def resumed : Cursor → (count : Nat) → Cursor
  | cursor, 0 => cursor
  | cursor, count + 1 => cursor.tokenize.2.resumed count

theorem resumed_succ (cursor : Cursor) (count : Nat) :
    cursor.resumed (count + 1) = (cursor.resumed count).tokenize.2 := by
  induction count generalizing cursor with
  | zero => rfl
  | succ count ih => exact ih cursor.tokenize.2

/-- Along a trail a part of the text is passed over. -/
theorem Trail.exists_taken {cursor last : Cursor} {marks : List Mark}
    (trail : Trail cursor marks last) :
    ∃ taken, cursor.rest = taken ++ last.rest ∧ last.location = cursor.location.after taken := by
  induction trail with
  | nil => exact ⟨[], rfl, rfl⟩
  | @mark place passed written rest _ _ last _ _ _ ih =>
    obtain ⟨taken, whole, stop⟩ := ih
    change rest = taken ++ last.rest at whole
    refine ⟨passed ++ (written ++ taken), ?_, ?_⟩
    · rw [whole]
      simp only [List.append_assoc]
    · rw [stop, Location.after_append, Location.after_append]

/-- Behind a fault a reading has taken the character at which the fault is. -/
theorem exists_taken_of_error {cursor : Cursor} {error : LexError}
    (h : cursor.tokenize.1 = .error error) :
    ∃ before first more, cursor.rest = before ++ (first :: more ++ cursor.tokenize.2.rest) ∧
      error.location = cursor.location.after before := by
  have trail := cursor.tokenize_trail
  rw [h] at trail
  generalize cursor.tokenize.2 = last at trail ⊢
  cases trail with
  | @mark place before written rest _ _ _ here stands behind =>
    cases behind
    cases stands with
    | @fault first tail => exact ⟨before, first, tail, rfl, here⟩

/-- A reading without a fault leaves nothing, and the last that it finds is the end. -/
theorem ended_of_ok {cursor : Cursor} {tokens : List Token} (h : cursor.tokenize.1 = .ok tokens) :
    cursor.tokenize.2.rest = [] ∧
      ∃ words, tokens = words ++ [.eof (cursor.location.after cursor.rest)] := by
  obtain ⟨text, place⟩ := cursor
  induction text using textInduction generalizing place tokens with
  | nil =>
    rw [tokenize_nil] at h ⊢
    exact ⟨rfl, [], (Except.ok.inj h).symm⟩
  | word first text solid ih =>
    rw [tokenize_cons solid] at h ⊢
    cases read : (Lexeme.read first text).outcome with
    | error fault => simp only [read, reduceCtorEq] at h
    | ok lexeme =>
      simp only [read] at h ⊢
      generalize (Lexeme.read first text).more = more at h ⊢
      cases found : (⟨text.drop more, place.after (first :: text.take more)⟩ :
          Cursor).tokenize.1 with
      | error error =>
        rw [found] at h
        exact nomatch h
      | ok others =>
        obtain ⟨none, words, eq⟩ := ih more _ found
        rw [found, eq, ← Location.after_append, List.cons_append, List.take_append_drop] at h
        exact ⟨none, lexeme.token place :: words, (Except.ok.inj h).symm⟩
  | gap gap rest isGap ih =>
    rw [tokenize_gap isGap] at h ⊢
    obtain ⟨none, words, eq⟩ := ih _ h
    exact ⟨none, words, by rw [eq, Location.after_append]⟩

theorem resumed_trail (cursor : Cursor) (count : Nat) :
    ∃ marks, Trail cursor marks (cursor.resumed count) := by
  induction count with
  | zero => exact ⟨[], .nil⟩
  | succ count ih =>
    obtain ⟨marks, trail⟩ := ih
    rw [resumed_succ]
    exact ⟨_, trail.append (cursor.resumed count).tokenize_trail⟩

/-- Behind a reading without a fault all readings find the end. -/
theorem resumed_of_ok {cursor : Cursor} {tokens : List Token} {count : Nat}
    (h : (cursor.resumed count).tokenize.1 = .ok tokens) {later : Nat} (lt : count < later) :
    cursor.resumed later = ⟨[], cursor.location.after cursor.rest⟩ := by
  induction later, Nat.succ_le_of_lt lt using Nat.le_induction with
  | base =>
    obtain ⟨marks, trail⟩ := cursor.resumed_trail (count + 1)
    obtain ⟨taken, whole, stop⟩ := trail.exists_taken
    have none : (cursor.resumed (count + 1)).rest = [] := by
      rw [resumed_succ]
      exact (ended_of_ok h).1
    rw [none, List.append_nil] at whole
    generalize cursor.resumed (count + 1) = left at none stop
    cases left
    simp_all
  | succ later le ih => rw [resumed_succ, ih (by omega), tokenize_nil]

/-- Readings fail only so often as there are characters, and then no more. -/
theorem exists_failures (cursor : Cursor) :
    ∃ failures ≤ cursor.rest.length,
      ∀ count, (∃ error, (cursor.resumed count).tokenize.1 = .error error) ↔ count < failures := by
  generalize length : cursor.rest.length = n
  induction n using Nat.strongRecOn generalizing cursor with
  | ind n ih =>
    subst length
    cases found : cursor.tokenize.1 with
    | ok tokens =>
      refine ⟨0, Nat.zero_le _, fun count => ?_⟩
      have first : (cursor.resumed 0).tokenize.1 = .ok tokens := found
      constructor
      · rintro ⟨error, fails⟩
        cases count with
        | zero => exact nomatch first.symm.trans fails
        | succ count =>
          rw [resumed_of_ok first (Nat.succ_pos count), tokenize_nil] at fails
          exact nomatch fails
      · intro lt
        exact absurd lt (Nat.not_lt_zero _)
    | error error =>
      obtain ⟨before, first, more, whole, -⟩ := exists_taken_of_error found
      have length := congrArg List.length whole
      simp only [List.length_append, List.length_cons] at length
      obtain ⟨failures, le, fails⟩ := ih _ (by omega) cursor.tokenize.2 rfl
      refine ⟨failures + 1, by omega, fun count => ?_⟩
      cases count with
      | zero => exact ⟨fun _ => Nat.succ_pos _, fun _ => ⟨error, found⟩⟩
      | succ count =>
        rw [Nat.add_lt_add_iff_right]
        exact fails count

/-- Readings of a source, each of which starts where the one before it stopped. What one of them
finds is what is found in the text that is left, with the places counted on from where it starts. A
reading that fails passes over the character of its fault at least; no more of them fail than there
are characters; and behind the first one that does not fail there is nothing but the end. -/
theorem tokenize_resumed (source : String) :
    (∀ count,
      (∃ passed, source.toList = passed ++ ((ofSource source).resumed count).rest ∧
        ((ofSource source).resumed count).location = Location.start.after passed) ∧
      ((ofSource source).resumed count).tokenize.1 =
        relocate ((ofSource source).resumed count).location.within
          (Pseudocod.tokenize (String.ofList ((ofSource source).resumed count).rest)) ∧
      ∀ error, ((ofSource source).resumed count).tokenize.1 = .error error →
        ∃ before first more, ((ofSource source).resumed count).rest =
            before ++ (first :: more ++ ((ofSource source).resumed (count + 1)).rest) ∧
          error.location = ((ofSource source).resumed count).location.after before) ∧
    ∃ failures ≤ source.length,
      (∀ count, (∃ error, ((ofSource source).resumed count).tokenize.1 = .error error) ↔
        count < failures) ∧
      ∀ count > failures, ((ofSource source).resumed count).tokenize.1 =
        .ok [.eof (Location.start.after source.toList)] := by
  refine ⟨fun count => ⟨?_, tokenize_eq_relocate _, ?_⟩, ?_⟩
  · obtain ⟨marks, trail⟩ := (ofSource source).resumed_trail count
    exact trail.exists_taken
  · intro error fails
    rw [resumed_succ]
    exact exists_taken_of_error fails
  · obtain ⟨failures, le, fails⟩ := (ofSource source).exists_failures
    refine ⟨failures, by rwa [← String.length_toList], fails, ?_⟩
    intro count later
    have succeeds : ¬ ∃ error, ((ofSource source).resumed failures).tokenize.1 = .error error :=
      fun error => Nat.lt_irrefl _ ((fails failures).mp error)
    cases found : ((ofSource source).resumed failures).tokenize.1 with
    | error error => exact absurd ⟨error, found⟩ succeeds
    | ok tokens =>
      have ended : (ofSource source).resumed count = ⟨[], Location.start.after source.toList⟩ :=
        resumed_of_ok found later
      rw [ended, tokenize_nil]

/-- Three readings fail: at a character, at a number that breaks off, and at what was left of it.
The fourth one finds what is in the text that is left, with its first line behind what was read of
it. -/
theorem tokenize_resumed_faults :
    let start := (ofSource "é<-3.;\n'ș'").resumed
    (∀ count < 3, ∃ error, (start count).tokenize.1 = .error error) ∧
    Pseudocod.tokenize ";\n'ș'" =
      .ok [⟨.semicolon, ";", ⟨1, 1, 0⟩⟩, ⟨.string, "ș", ⟨2, 1, 2⟩⟩, .eof ⟨2, 4, 6⟩] ∧
    (start 3).tokenize.1 =
      .ok [⟨.semicolon, ";", ⟨1, 6, 6⟩⟩, ⟨.string, "ș", ⟨2, 1, 8⟩⟩, .eof ⟨2, 4, 12⟩] ∧
    ∀ count > 3, (start count).tokenize.1 = .ok [.eof ⟨2, 4, 12⟩] := by
  obtain ⟨each, failures, -, fails, last⟩ := tokenize_resumed "é<-3.;\n'ș'"
  have third : ((ofSource "é<-3.;\n'ș'").resumed 2).tokenize.1 =
      .error ⟨.lonePoint, ⟨1, 5, 5⟩⟩ := by cbv
  have left : (ofSource "é<-3.;\n'ș'").resumed 3 = ⟨";\n'ș'".toList, ⟨1, 6, 6⟩⟩ := by cbv
  have alone : Pseudocod.tokenize ";\n'ș'" =
      .ok [⟨.semicolon, ";", ⟨1, 1, 0⟩⟩, ⟨.string, "ș", ⟨2, 1, 2⟩⟩, .eof ⟨2, 4, 6⟩] := by cbv
  have fourth := (each 3).2.1
  simp only [left, String.ofList_toList, alone] at fourth
  have three : failures = 3 := by
    have more := (fails 2).mp ⟨_, third⟩
    by_contra other
    obtain ⟨error, failed⟩ := (fails 3).mpr (by omega)
    rw [left, fourth] at failed
    cases failed
  subst three
  exact ⟨fun count => (fails count).mpr, alone, by rw [left, fourth]; rfl, last⟩

end Cursor

end Pseudocod

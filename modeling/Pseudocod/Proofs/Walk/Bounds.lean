import Pseudocod.Proofs.Resumption
import Pseudocod.Proofs.Walk.Readers

/-!
# Walks stay in front of the next end

The walks of expressions, statements and programs need no more steps than there are tokens in a
buffer, and they stand only at positions from their start up to the first end behind it. So nothing
keeps them from coming to an end, whatever the tokens are: none, tokens without an end, or tokens
with several ones. A walk that finds an expression or a statement is further on than it was, and
this is what makes the loops end although a trial takes the walk back.

* `Walk.Follows.settles`: a walk that does what a scan does stays in front of the next end.
* `Place.exists_of_lt`: every position of a closed buffer has an end at it or behind it.
* `Program.exists_place`: where the calls of a reader of programs start.
* `Program.walks_settle`: the walks over the tokens of a stream, from any start and in any call.
-/

namespace Pseudocod

variable {α : Type}

/-! ## Ends of a buffer -/

/-- The position `stop` is the first one from `start` on at which there is an end. -/
def IsNextEnd (buffer : List Token) (start stop : Nat) : Prop :=
  start ≤ stop ∧ (∃ last, buffer[stop]? = some last ∧ last.kind = .eof) ∧
    ∀ position, start ≤ position → position < stop →
      ∃ token, buffer[position]? = some token ∧ token.kind ≠ .eof

namespace Place

variable {place later : Place}

theorem getElem?_stop (place : Place) : place.buffer[place.stop]? = some place.last := by
  rw [buffer, stop, List.getElem?_append_right (Nat.le_add_right _ _), Nat.add_sub_cancel_left,
    List.getElem?_append_right (Nat.le_refl _), Nat.sub_self]
  rfl

theorem isNextEnd (place : Place) : IsNextEnd place.buffer place.position place.stop := by
  refine ⟨place.position_le_stop, ⟨place.last, place.getElem?_stop, place.eof⟩, ?_⟩
  intro position from_ upTo
  have inner : position - place.passed.length < place.pending.length := by
    unfold Place.position at from_
    unfold Place.stop at upTo
    omega
  have member := List.getElem_mem inner
  refine ⟨place.pending[position - place.passed.length], ?_, place.unended _ member⟩
  rw [buffer, List.getElem?_append_right from_, List.getElem?_append_left inner,
    List.getElem?_eq_getElem inner]

/-- The tokens from the place on, up to the next end. -/
theorem drop_take (place : Place) : (place.buffer.take place.stop).drop place.position =
    place.pending := by
  rw [buffer, stop, ← List.append_assoc, ← List.length_append, List.take_left, position,
    List.drop_left]

/-- As many steps as there are tokens are enough for those up to the next end. -/
theorem pending_lt {tokens : List Token} {steps : Nat} (buffer : place.buffer = tokens)
    (enough : tokens.length ≤ steps) : place.pending.length < steps := by
  rw [← buffer, Place.buffer, List.length_append, List.length_append, List.length_cons] at enough
  omega

/-- If the last token of a buffer is an end, each position is a place in the buffer. -/
theorem exists_of_lt {inner : List Token} {last : Token} (eof : last.kind = .eof) {start : Nat}
    (lt : start < (inner ++ [last]).length) :
    ∃ place : Place, place.buffer = inner ++ [last] ∧ place.position = start := by
  rcases TokenStream.unended_or_exists_last ((inner ++ [last]).drop start) with
    unended | ⟨front, stop, behind, eq, unended, eof'⟩
  · have le : start ≤ inner.length := by
      rw [List.length_append, List.length_singleton] at lt
      omega
    rw [List.drop_append_of_le_length le] at unended
    exact absurd eof (unended last (List.mem_append_right _ (List.mem_singleton_self last)))
  · refine ⟨⟨(inner ++ [last]).take start, front, stop, behind, unended, eof'⟩, ?_, ?_⟩
    · rw [buffer, ← eq, List.take_append_drop]
    · exact List.length_take_of_le (Nat.le_of_lt lt)

end Place

/-- The last one of closed tokens is an end. -/
theorem TokenStream.exists_last (tokens : List Token) :
    ∃ inner last, closed tokens = inner ++ [last] ∧ last.kind = .eof := by
  unfold closed
  split
  next h =>
    obtain ⟨last, found, eof⟩ := Option.map_eq_some_iff.mp h
    obtain ⟨inner, eq⟩ := List.getLast?_eq_some_iff.mp found
    exact ⟨inner, last, eq, eof⟩
  next => exact ⟨tokens, _, rfl, rfl⟩

/-! ## Walks that settle -/

/-- What the reader of a program would give for an ending, which is nothing if the walk went astray
or used up its steps. -/
def Ending.result : Ending α → Option (Except SyntaxError α)
  | .found value => some (.ok value)
  | .failed error => some (.error error.toSyntaxError)
  | .astray => none
  | .unfinished => none

namespace Walk

/-- From `start` on, the walk comes to an end without looking for a token where there is none. All
the time it is between `start` and `stop`, and it finds what a scan finds on the tokens between
them. -/
structure Settles (walk : Walk α) (scan : Scan α) (buffer : List Token) (start stop : Nat) :
    Prop where
  finishes : (walk buffer ⟨start, []⟩).1 ≠ .unfinished
  inside : (walk buffer ⟨start, []⟩).1 ≠ .astray
  stays : ∀ position ∈ (walk buffer ⟨start, []⟩).2.position :: (walk buffer ⟨start, []⟩).2.visited,
    start ≤ position ∧ position ≤ stop
  finds : ∀ last, buffer[stop]? = some last →
    (walk buffer ⟨start, []⟩).1 = (scan ((buffer.take stop).drop start)).ending last

/-- If a walk from `start` finds a value, it is further on than it was. -/
def Progresses (walk : Walk α) (buffer : List Token) (start : Nat) : Prop :=
  ∀ value, (walk buffer ⟨start, []⟩).1 = .found value → start < (walk buffer ⟨start, []⟩).2.position

theorem Follows.settles {bound : Nat} {walk : Walk α} {scan : Scan α} (h : Follows bound walk scan)
    (place : Place) (lt : place.pending.length < bound) :
    Settles walk scan place.buffer place.position place.stop := by
  obtain ⟨later, seen, onward, -, covered, eq⟩ := h place [] lt
  rw [Place.track] at eq
  have ordinary : (scan place.pending).ending place.last ≠ .unfinished ∧
      (scan place.pending).ending place.last ≠ .astray := by
    cases scan place.pending <;> simp [Outcome.ending]
  constructor
  · rw [eq]
    exact ordinary.1
  · rw [eq]
    exact ordinary.2
  · rw [eq, List.append_nil]
    exact onward.covers_position.append covered
  · intro last found
    obtain rfl := Option.some.inj (place.getElem?_stop.symm.trans found)
    rw [eq, place.drop_take]

theorem Follows.progresses {bound : Nat} {walk : Walk α} {reader : Reader α}
    (h : Follows bound walk reader.scan) (place : Place) (lt : place.pending.length < bound) :
    Progresses walk place.buffer place.position := by
  intro value found
  obtain ⟨later, seen, onward, left, -, eq⟩ := h place [] lt
  rw [Place.track] at eq
  rw [eq] at found ⊢
  cases read : reader.scan place.pending with
  | error failure =>
    rw [read] at found
    cases found
  | ok result =>
    obtain ⟨value, rest⟩ := result
    rw [read] at left
    obtain rfl : later.pending = rest := left
    have shorter := Reader.length_lt_of_scan read
    have same : later.passed.length + later.pending.length =
        place.passed.length + place.pending.length := onward.stop_eq
    show place.passed.length < later.passed.length
    omega

end Walk

/-! ## Calls one after another -/

namespace Program

open TokenStream (closed)

/-- Where a call of the walk of a program starts, of which each one starts where the one before it
stopped. -/
def callStart (steps : Nat) (buffer : List Token) : (count : Nat) → Nat
  | 0 => 0
  | count + 1 => (walk steps buffer ⟨callStart steps buffer count, []⟩).2.position

/-- A reading of a program leaves what the scan leaves. -/
theorem pending_read (stream : TokenStream) :
    (read stream).2.pending = (programScan stream.pending).rest := by
  rw [read, parseTokens_eq]
  cases found : programScan stream.pending with
  | ok result =>
    obtain ⟨program, rest⟩ := result
    exact (programScan_eq_ok_iff.mp found).2.symm
  | error failure => rfl

/-- A reading of a program gives what the scan gives in front of the end of the stream. -/
theorem result_ending (stream : TokenStream) {last : Token} (eof : last.kind = .eof)
    (place : last.location = stream.stop) :
    ((programScan stream.pending).ending last).result =
      some ((read stream).1.mapError ParseError.toSyntaxError) := by
  rw [read, parseTokens_eq]
  cases programScan stream.pending with
  | ok result => rfl
  | error failure =>
    show some (Except.error _) = some (Except.error _)
    unfold ParseError.toSyntaxError Failure.toParseError
    cases failure.rest with
    | nil =>
      show some (Except.error (SyntaxError.grammatical _ last.describe last.location)) = _
      rw [Token.describe_of_eof eof, place]
      rfl
    | cons token rest => rfl

/-- Each call starts at a place of the buffer, where the tokens are pending that are left of the
stream, and no end has been passed. -/
theorem exists_place (tokens : List Token) {steps : Nat} (enough : (closed tokens).length ≤ steps)
    (count : Nat) :
    let stream := TokenStream.ofTokens tokens
    ∃ place : Place, place.buffer = closed tokens ∧
      place.position = callStart steps (closed tokens) count ∧
      place.position = stream.used (resumed stream count) ∧
      place.pending = (resumed stream count).pending ∧
      place.last.location = (resumed stream count).stop := by
  intro stream
  obtain ⟨last, behind, eq, unended, eof, stop⟩ := TokenStream.exists_closed tokens
  let start : Place := ⟨[], stream.pending, last, behind, unended, eof⟩
  have whole : start.buffer = closed tokens := eq.symm
  have onward : ∃ place : Place, start.Onward place ∧
      place.position = callStart steps (closed tokens) count ∧
      place.pending = (resumed stream count).pending := by
    induction count with
    | zero => exact ⟨start, .refl start, rfl, rfl⟩
    | succ count ih =>
      obtain ⟨place, onward, position, pending⟩ := ih
      have buffer := onward.buffer_eq.trans whole
      have lt := Place.pending_lt buffer enough
      obtain ⟨later, seen, onward', left, -, result⟩ := follows_walk steps place [] lt
      refine ⟨later, onward.trans onward', ?_, ?_⟩
      · rw [callStart, ← position, ← buffer]
        exact (congrArg (·.2.position) result).symm
      · rw [left, pending, resumed, pending_read]
  obtain ⟨place, onward, position, pending⟩ := onward
  refine ⟨place, onward.buffer_eq.trans whole, position, ?_, pending, ?_⟩
  · obtain ⟨taken, passed, eq, -, -⟩ := onward
    rw [pending] at eq
    rw [TokenStream.used_of_append eq]
    show place.passed.length = taken.length
    rw [passed]
    rfl
  · obtain ⟨-, -, stop'⟩ := exists_taken stream count
    rw [onward.last_eq, stop']
    exact stop

/-- The walks over closed tokens, with as many steps as there are tokens or more. From each position
of the buffer, the walks of an expression, of a statement and of a program come to an end and go no
further than to the next end of the tokens, and an expression or a statement that is found takes
tokens. Calls of the walk of a program, each from where the one before it stopped, start in the
buffer, and find what the readings of the stream find. -/
theorem walks_settle (tokens : List Token) {steps : Nat}
    (enough : (closed tokens).length ≤ steps) :
    (∀ start < (closed tokens).length, ∃ stop, IsNextEnd (closed tokens) start stop ∧
      (Expr.walk steps).Settles (Reader.scan Expr.parse) (closed tokens) start stop ∧
      (Expr.walk steps).Progresses (closed tokens) start ∧
      (Statement.walk steps).Settles (Reader.scan Statement.parse) (closed tokens) start stop ∧
      (Statement.walk steps).Progresses (closed tokens) start ∧
      (walk steps).Settles programScan (closed tokens) start stop) ∧
    ∀ count,
      let stream := TokenStream.ofTokens tokens
      let start := callStart steps (closed tokens) count
      start < (closed tokens).length ∧ start = stream.used (resumed stream count) ∧
        (walk steps (closed tokens) ⟨start, []⟩).1.result =
          some ((read (resumed stream count)).1.mapError ParseError.toSyntaxError) := by
  constructor
  · intro start lt
    obtain ⟨inner, last, eq, eof⟩ := TokenStream.exists_last tokens
    rw [eq] at lt enough ⊢
    obtain ⟨place, buffer, rfl⟩ := Place.exists_of_lt eof lt
    have fits := Place.pending_lt buffer enough
    rw [← buffer]
    exact ⟨place.stop, place.isNextEnd, (Expr.follows_walk steps).settles place fits,
      Walk.Follows.progresses (Expr.follows_walk steps) place fits,
      (Statement.follows_walk steps).settles place fits,
      Walk.Follows.progresses (Statement.follows_walk steps) place fits,
      (follows_walk steps).settles place fits⟩
  · intro count stream start
    obtain ⟨place, buffer, position, used, pending, stop⟩ := exists_place tokens enough count
    have here : place.position = start := position
    have fits := Place.pending_lt buffer enough
    have inside : place.position < (closed tokens).length := by
      rw [← buffer, Place.buffer, List.length_append, List.length_append, List.length_cons]
      show place.passed.length < _
      omega
    have finds := ((follows_walk steps).settles place fits).finds place.last place.getElem?_stop
    rw [place.drop_take, buffer, here, pending] at finds
    refine ⟨here ▸ inside, here ▸ used, ?_⟩
    rw [finds]
    exact result_ending _ place.eof stop

/-- The first call goes back from a condition to `cat`, and then, behind what the trial could use,
to the end of the condition; at last it fails. The second call starts there and finds a program. -/
theorem walks_settle_interrupted :
    (walk 12 (closed interrupted) ⟨0, []⟩).2.visited = [6, 5, 4, 6, 5, 4, 3, 2, 1, 4, 3, 2, 1] ∧
    (∃ stop, IsNextEnd (closed interrupted) 0 stop ∧
      (walk 12).Settles programScan (closed interrupted) 0 stop) ∧
    callStart 12 (closed interrupted) 1 = 6 ∧
    (walk 12 (closed interrupted) ⟨6, []⟩).1.result =
      some (.ok ⟨[.assign "x" (.number "1")]⟩) := by
  have enough : (closed interrupted).length ≤ 12 := by decide
  obtain ⟨starts, calls⟩ := walks_settle interrupted enough
  have visited : (walk 12 (closed interrupted) ⟨0, []⟩).2.visited =
      [6, 5, 4, 6, 5, 4, 3, 2, 1, 4, 3, 2, 1] := by cbv
  have second : callStart 12 (closed interrupted) 1 = 6 := by cbv
  have found : (read (resumed (.ofTokens interrupted) 1)).1 =
      .ok ⟨[.assign "x" (.number "1")]⟩ := by cbv
  obtain ⟨stop, next, -, -, -, -, settles⟩ := starts 0 (by decide)
  obtain ⟨-, -, result⟩ := calls 1
  rw [second, found] at result
  exact ⟨visited, ⟨stop, next, settles⟩, second, result⟩

end Program

end Pseudocod

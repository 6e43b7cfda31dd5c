import Pseudocod.Proofs.EarliestError

/-!
# Reading on after a program or an error

A stream of tokens can be read again and again, each time from where the reading before it stopped.
All that one reading hands on to the next is a position among the tokens: it is never moved back,
it is at the token of the last error or at the end, and what is read from it is what is read from
the remaining tokens alone. This is so as well if a trial failed on the way, and its tokens were
given back.

* `TokenStream.ofTokens_drop`: the stream of the tokens from some position on.
* `Program.read_leaves`: where one reading stops.
* `Program.exists_taken`: where any number of readings stop.
* `Program.read_resumed`: the positions of the readings, and what is read from them.
-/

namespace Pseudocod

/-! ## Positions -/

namespace TokenStream

/-- The tokens with one of kind `eof` at the end. If the last one is not of that kind, one is added
where the last one starts. -/
def closed (tokens : List Token) : List Token :=
  if tokens.getLast?.map Token.kind = some .eof then tokens
  else tokens ++ [.eof ((tokens.getLast?.map Token.location).getD .start)]

/-- How many tokens of a stream were used when a later one was left of it. -/
def used (stream later : TokenStream) : Nat :=
  stream.pending.length - later.pending.length

theorem used_of_append {stream later : TokenStream} {taken : List Token}
    (h : stream.pending = taken ++ later.pending) : stream.used later = taken.length := by
  rw [used, h, List.length_append, Nat.add_sub_cancel]

theorem unended_or_exists_last (tokens : List Token) :
    Unended tokens ∨
      ∃ front last behind, tokens = front ++ last :: behind ∧ Unended front ∧ last.kind = .eof := by
  induction tokens with
  | nil => exact .inl unended_nil
  | cons token tokens ih =>
    by_cases last : token.kind = .eof
    · exact .inr ⟨[], token, tokens, rfl, unended_nil, last⟩
    · rcases ih with unended | ⟨front, stop, behind, rfl, unended, eof⟩
      · exact .inl (unended_cons.mpr ⟨last, unended⟩)
      · exact .inr ⟨token :: front, stop, behind, rfl, unended_cons.mpr ⟨last, unended⟩, eof⟩

theorem untilEof_of_unended {tokens : List Token} (h : Unended tokens) (stop : Location) :
    untilEof stop tokens = { pending := tokens, stop } := by
  induction tokens with
  | nil => rfl
  | cons token tokens ih =>
    obtain ⟨ne, others⟩ := unended_cons.mp h
    rw [untilEof, if_neg ne, ih others]

/-- The tokens of a stream, its end, and what comes behind the end. -/
theorem exists_closed (tokens : List Token) :
    ∃ last behind, closed tokens = (ofTokens tokens).pending ++ last :: behind ∧
      Unended (ofTokens tokens).pending ∧ last.kind = .eof ∧
      last.location = (ofTokens tokens).stop := by
  rcases unended_or_exists_last tokens with unended | ⟨front, last, behind, rfl, unended, eof⟩
  · have open_ : tokens.getLast?.map Token.kind ≠ some .eof := by
      intro h
      obtain ⟨token, found, eof⟩ := Option.map_eq_some_iff.mp h
      exact unended token (List.mem_of_getLast? found) eof
    rw [ofTokens, untilEof_of_unended unended, closed, if_neg open_]
    exact ⟨_, [], rfl, unended, rfl, rfl⟩
  · rw [ofTokens, untilEof_append_cons unended eof, closed]
    split
    · exact ⟨last, behind, rfl, unended, eof, rfl⟩
    · exact ⟨last, _, by rw [List.append_assoc, List.cons_append], unended, eof, rfl⟩

/-- The stream of the tokens from some position on, which is not behind the end. -/
theorem ofTokens_drop (tokens : List Token) {position : Nat}
    (le : position ≤ (ofTokens tokens).pending.length) :
    ofTokens ((closed tokens).drop position) =
      { pending := (ofTokens tokens).pending.drop position, stop := (ofTokens tokens).stop } := by
  obtain ⟨last, behind, eq, unended, eof, stop⟩ := exists_closed tokens
  have later : Unended ((ofTokens tokens).pending.drop position) :=
    fun token member => unended token (List.mem_of_mem_drop member)
  rw [eq, List.drop_append_of_le_length le, ← stop]
  exact untilEof_append_cons later eof _ behind

/-- The token at a position that is not behind the end is the first one that is left there, or the
end. -/
theorem exists_token (tokens : List Token) {position : Nat}
    (le : position ≤ (ofTokens tokens).pending.length) :
    ∃ token, (closed tokens)[position]? = some token ∧
      (∀ passed ∈ (closed tokens).take position, passed.kind ≠ .eof) ∧
      ((ofTokens tokens).pending.drop position = [] → token.kind = .eof) ∧
      ∀ found, ((ofTokens tokens).pending.drop position).head?.getD (ofTokens tokens).eof = found →
        found.describe = token.describe ∧ found.location = token.location := by
  obtain ⟨last, behind, eq, unended, eof, stop⟩ := exists_closed tokens
  have before : Unended ((closed tokens).take position) := by
    rw [eq, List.take_append_of_le_length le]
    exact fun token member => unended token (List.mem_of_mem_take member)
  have here : (closed tokens)[position]? =
      ((ofTokens tokens).pending.drop position ++ last :: behind).head? := by
    rw [eq, ← List.drop_append_of_le_length le, List.head?_drop]
  cases left : (ofTokens tokens).pending.drop position with
  | nil =>
    rw [left] at here
    refine ⟨last, here, before, fun _ => eof, ?_⟩
    rintro _ rfl
    exact ⟨(Token.describe_of_eof eof).symm, stop.symm⟩
  | cons token others =>
    rw [left] at here
    refine ⟨token, here, before, nofun, ?_⟩
    rintro _ rfl
    exact ⟨rfl, rfl⟩

end TokenStream

/-! ## Readings one after another -/

namespace Program

open TokenStream (closed)

/-- What is left of a stream after some readings, each of which starts where the one before it
stopped. -/
def resumed (stream : TokenStream) : (count : Nat) → TokenStream
  | 0 => stream
  | count + 1 => (read (resumed stream count)).2

/-- A reading takes tokens from the front. A program takes all of them, and behind an error the
first one that is left is the token of the error. -/
theorem read_leaves (stream : TokenStream) :
    ∃ taken, stream.pending = taken ++ (read stream).2.pending ∧
      (read stream).2.stop = stream.stop ∧
      match (read stream).1 with
      | .ok _ => (read stream).2.pending = []
      | .error error => error.found = (read stream).2.pending.head?.getD stream.eof := by
  rw [read, parseTokens_eq]
  cases found : programScan stream.pending with
  | ok result => exact ⟨stream.pending, (List.append_nil _).symm, rfl, rfl⟩
  | error failure =>
    obtain ⟨taken, -, -, eq, -⟩ := faithful_programScan.begin_of_error (Nat.lt_succ_self _) found
    exact ⟨taken, eq, rfl, rfl⟩

/-- Readings one after another take tokens from the front. -/
theorem exists_taken (stream : TokenStream) (count : Nat) :
    ∃ taken, stream.pending = taken ++ (resumed stream count).pending ∧
      (resumed stream count).stop = stream.stop := by
  induction count with
  | zero => exact ⟨[], rfl, rfl⟩
  | succ count ih =>
    obtain ⟨taken, eq, stop⟩ := ih
    obtain ⟨more, eq', stop', -⟩ := read_leaves (resumed stream count)
    exact ⟨taken ++ more, by rw [eq, eq', List.append_assoc]; rfl, stop'.trans stop⟩

/-- Once the end was reached there is nothing but the empty program. -/
theorem read_resumed_of_done {stream : TokenStream} {count : Nat}
    (done : (resumed stream count).pending = []) {later : Nat} (le : count ≤ later) :
    read (resumed stream later) = (.ok ⟨[]⟩, resumed stream count) := by
  have still : resumed stream later = resumed stream count := by
    induction later, le using Nat.le_induction with
    | base => rfl
    | succ later _ ih => rw [resumed, ih, read_of_pending_eq_nil done]
  rw [still, read_of_pending_eq_nil done]

/-- Of the readings of some tokens, each starts at a position which is not before that of the one
before it, and finds what is found in a stream of the tokens from there on. It leaves the next one
at a token that no end comes before: the one that its error names, or the end, and then all that
follow find the empty program. -/
theorem read_resumed (tokens : List Token) (count : Nat) :
    let stream := TokenStream.ofTokens tokens
    let before := resumed stream count
    let after := resumed stream (count + 1)
    before = .ofTokens ((closed tokens).drop (stream.used before)) ∧
    stream.used before ≤ stream.used after ∧
    ∃ token, (closed tokens)[stream.used after]? = some token ∧
      (∀ passed ∈ (closed tokens).take (stream.used after), passed.kind ≠ .eof) ∧
      match (read before).1 with
      | .ok _ => token.kind = .eof ∧
        ∀ later > count, read (resumed stream later) = (.ok ⟨[]⟩, after)
      | .error error => error.toSyntaxError =
        .grammatical error.expected.message token.describe token.location := by
  intro stream before after
  obtain ⟨taken, eq, stop⟩ := exists_taken stream count
  obtain ⟨more, eq', -, outcome⟩ := read_leaves before
  have whole : stream.pending = (taken ++ more) ++ after.pending := by
    rw [eq, eq', List.append_assoc]; rfl
  have start := TokenStream.used_of_append eq
  have next := TokenStream.used_of_append whole
  have le : stream.used before ≤ stream.used after := by
    rw [start, next, List.length_append]
    exact Nat.le_add_right _ _
  have inside : stream.used after ≤ stream.pending.length := Nat.sub_le _ _
  have left : stream.pending.drop (stream.used after) = after.pending := by
    rw [next, whole, List.drop_left]
  obtain ⟨token, here, passed, done, names⟩ := TokenStream.exists_token tokens inside
  refine ⟨?_, le, token, here, passed, ?_⟩
  · rw [TokenStream.ofTokens_drop tokens (Nat.le_trans le inside)]
    change before = ⟨stream.pending.drop _, stream.stop⟩
    rw [start, eq, List.drop_left, ← stop]
  · generalize (read before).1 = result at outcome
    cases result with
    | ok program =>
      have atEnd : after.pending = [] := outcome
      exact ⟨done (left.trans atEnd), fun later lt => read_resumed_of_done atEnd lt⟩
    | error error =>
      have found : error.found = after.pending.head?.getD before.eof := outcome
      have sameEnd : before.eof = stream.eof := congrArg Token.eof stop
      obtain ⟨same, place⟩ := names error.found (by rw [found, sameEnd, ← left])
      change SyntaxError.grammatical _ error.found.describe error.found.location = _
      rw [same, place]

/-- The tokens of `executa cat timp a executa b x <- 1`, the end, and a name behind it. -/
def interrupted : List Token :=
  [⟨.executa, "executa", ⟨1, 1, 0⟩⟩, ⟨.cat, "cat", ⟨1, 9, 8⟩⟩, ⟨.timp, "timp", ⟨1, 13, 12⟩⟩,
   ⟨.ident, "a", ⟨1, 18, 17⟩⟩, ⟨.executa, "executa", ⟨1, 20, 19⟩⟩, ⟨.ident, "b", ⟨1, 28, 27⟩⟩,
   ⟨.ident, "x", ⟨1, 30, 29⟩⟩, ⟨.assign, "<-", ⟨1, 32, 31⟩⟩, ⟨.number, "1", ⟨1, 35, 34⟩⟩,
   .eof ⟨1, 36, 35⟩, ⟨.ident, "y", ⟨2, 1, 36⟩⟩]

/-- The first reading fails behind a trial that failed as well; the second one starts at the token
of its error, finds a program and stops at the end. -/
theorem read_resumed_interrupted :
    let stream := TokenStream.ofTokens interrupted
    (read stream).1 = .error ⟨.assignOrSwap "b", ⟨.ident, "x", ⟨1, 30, 29⟩⟩⟩ ∧
    stream.used (resumed stream 1) = 6 ∧
    resumed stream 1 = .ofTokens ((TokenStream.closed interrupted).drop 6) ∧
    (read (resumed stream 1)).1 = .ok ⟨[.assign "x" (.number "1")]⟩ ∧
    stream.used (resumed stream 2) = 9 ∧
    ∀ later > 1, read (resumed stream later) = (.ok ⟨[]⟩, resumed stream 2) := by
  intro stream
  have failed : (read stream).1 = .error ⟨.assignOrSwap "b", ⟨.ident, "x", ⟨1, 30, 29⟩⟩⟩ := by cbv
  have first : stream.used (resumed stream 1) = 6 := by cbv
  have found : (read (resumed stream 1)).1 = .ok ⟨[.assign "x" (.number "1")]⟩ := by cbv
  have second : stream.used (resumed stream 2) = 9 := by cbv
  obtain ⟨remaining, -, token, -, -, result⟩ := read_resumed interrupted 1
  rw [first] at remaining
  rw [found] at result
  exact ⟨failed, first, remaining, found, second, result.2⟩

end Program

end Pseudocod

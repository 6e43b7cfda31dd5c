import Pseudocod.Program
import Pseudocod.Proofs.Grammar

/-!
# Walks over a buffer of tokens

A scan is given the tokens that are left. A walk is given a whole buffer, with its ends and whatever
is behind them, and stands at a position: it looks at the token there, goes on by one token, and
goes back to a position at which it stood before. Nothing in its form keeps it inside the buffer,
and a walk that calls itself has a number of steps for it, which may be used up. So a walk says how
it ends, and at which positions it has stood.

Between its start and the first end behind it, a walk can do what a scan does on the tokens there.
Walks are put together as scans are, and there is one rule for each way of putting them together.

* `Walk.Follows`: a walk does what a scan does.
* `Walk.Follows.andThen`, `Walk.Follows.branch`, `Walk.Follows.choose`: the rules.
* `Walk.Arrives.step`, `Walk.Arrives.attempt`: walks that go back to where an earlier one started.
-/

namespace Pseudocod

/-- How a walk ends. -/
inductive Ending (α : Type) where
  /-- A value was found. -/
  | found (value : α)
  /-- A token could not be used. -/
  | failed (error : ParseError)
  /-- There is no token at a position that was looked at. -/
  | astray
  /-- The steps were used up. -/
  | unfinished
deriving DecidableEq, Repr

/-- The position of a walk, and all positions to which it was moved, the last one first. -/
structure Track where
  position : Nat
  visited : List Nat
deriving DecidableEq, Repr

/-- What looks for a value in a buffer of tokens, from the position on that a track has. -/
abbrev Walk (α : Type) := (buffer : List Token) → Track → Ending α × Track

variable {α β : Type}

namespace Walk

/-! ## Steps -/

/-- No step; the value is given. -/
def done (value : α) : Walk α := fun _ track => (.found value, track)

/-- There are no steps left. -/
def unfinished : Walk α := fun _ track => (.unfinished, track)

/-- Two walks one after another. -/
def andThen (first : Walk α) (second : α → Walk β) : Walk β := fun buffer track =>
  match first buffer track with
  | (.found value, track) => second value buffer track
  | (.failed error, track) => (.failed error, track)
  | (.astray, track) => (.astray, track)
  | (.unfinished, track) => (.unfinished, track)

/-- Changes the value that was found. -/
def map (f : α → β) (walk : Walk α) : Walk β :=
  walk.andThen fun value => done (f value)

/-- The position. -/
def here : Walk Nat := fun _ track => (.found track.position, track)

/-- Moves to a position, which may be any. -/
def moveTo (position : Nat) : Walk Unit := fun _ track =>
  (.found (), { position, visited := position :: track.visited })

/-- The token at a position, at which there has to be one. -/
def tokenAt (position : Nat) : Walk Token := fun buffer track =>
  match buffer[position]? with
  | some token => (.found token, track)
  | none => (.astray, track)

/-- The token at which the walk stands. -/
def peek : Walk Token :=
  here.andThen tokenAt

/-- The token behind the one at which the walk stands, if there is one. -/
def peekAhead : Walk (Option Token) := fun buffer track =>
  (.found buffer[track.position + 1]?, track)

/-- The token in front of the walk; at the start of the buffer, the first one. -/
def previous : Walk Token :=
  here.andThen fun position => tokenAt (position - 1)

/-- Goes on by a token, but not over an end. -/
def advance : Walk Token :=
  peek.andThen fun token =>
    if token.kind = .eof then previous
    else here.andThen fun position => (moveTo (position + 1)).andThen fun _ => previous

/-- A failure at the token at which the walk stands. -/
def fail (expected : Expected) : Walk α :=
  peek.andThen fun found => fun _ track => (.failed { expected, found }, track)

/-- One walk behind a token of some kind, and another one where there is no such token. -/
def branch (kind : Kind) (onward : String → Walk α) (otherwise : Walk α) : Walk α :=
  peek.andThen fun token =>
    if token.kind = kind then advance.andThen fun token => onward token.text else otherwise

/-- One walk before a token of certain kinds, and another one elsewhere. -/
def choose (kinds : Kind → Bool) (inside outside : Walk α) : Walk α :=
  peek.andThen fun token => if kinds token.kind then inside else outside

/-- One token of the kind asked for; its text is the value. -/
def one (kind : Kind) (expected : Expected) : Walk String :=
  branch kind done (fail expected)

/-- What follows on a trial, or another walk from where the trial fails. -/
def attempt (trial : Walk α) (onward : α → Walk β) (otherwise : Walk β) : Walk β :=
  fun buffer track =>
    match trial buffer track with
    | (.found value, track) => onward value buffer track
    | (.failed _, track) => otherwise buffer track
    | (.astray, track) => (.astray, track)
    | (.unfinished, track) => (.unfinished, track)

/-- One or more items, with a token of kind `separator` between any two of them. -/
def separated (separator : Kind) (item : Walk α) : (steps : Nat) → Walk (List α)
  | 0 => unfinished
  | steps + 1 => item.andThen fun value =>
    branch separator (fun _ => (separated separator item steps).map (value :: ·)) (done [value])

end Walk

/-! ## Places in a buffer -/

/-- A buffer and a place in it: the tokens in front of the place, those from there up to the first
end, this end, and what is behind it. -/
structure Place where
  passed : List Token
  pending : List Token
  last : Token
  behind : List Token
  unended : Unended pending
  eof : last.kind = .eof

namespace Place

variable {place middle later : Place} {front : Token} {rest : List Token}

/-- All tokens of the buffer. -/
def buffer (place : Place) : List Token :=
  place.passed ++ (place.pending ++ place.last :: place.behind)

/-- The position of the place. -/
def position (place : Place) : Nat :=
  place.passed.length

/-- The position of the first end from the place on. -/
def stop (place : Place) : Nat :=
  place.passed.length + place.pending.length

/-- The token at the place. -/
def token (place : Place) : Token :=
  place.pending.head?.getD place.last

/-- A track of a walk that stands at the place. -/
def track (place : Place) (visited : List Nat) : Track :=
  { position := place.position, visited }

/-- The place behind the token at which there is no end. -/
def next (place : Place) (h : place.pending = front :: rest) : Place where
  passed := place.passed ++ [front]
  pending := rest
  last := place.last
  behind := place.behind
  unended := (unended_cons.mp (h ▸ place.unended)).2
  eof := place.eof

/-- A later place of the same buffer, with no end between the two. -/
def Onward (place later : Place) : Prop :=
  ∃ taken, later.passed = place.passed ++ taken ∧ place.pending = taken ++ later.pending ∧
    later.last = place.last ∧ later.behind = place.behind

/-- Positions from the place on, up to the first end. -/
def Covers (place : Place) (positions : List Nat) : Prop :=
  ∀ position ∈ positions, place.position ≤ position ∧ position ≤ place.stop

theorem token_of_cons (h : place.pending = front :: rest) : place.token = front := by
  rw [Place.token, h]
  rfl

theorem token_of_nil (h : place.pending = []) : place.token = place.last := by
  rw [Place.token, h]
  rfl

theorem ne_eof (h : place.pending = front :: rest) : front.kind ≠ .eof :=
  (unended_cons.mp (h ▸ place.unended)).1

theorem getElem?_position (place : Place) : place.buffer[place.position]? = some place.token := by
  rw [buffer, position, List.getElem?_append_right (Nat.le_refl _), Nat.sub_self]
  cases pending : place.pending with
  | nil => rw [token_of_nil pending]; rfl
  | cons token rest => rw [token_of_cons pending]; rfl

theorem getElem?_succ (h : place.pending = front :: rest) :
    place.buffer[place.position + 1]? = some (place.next h).token := by
  rw [← (place.next h).getElem?_position, buffer, buffer, position, position, h, next,
    List.append_assoc, List.length_append]
  rfl

namespace Onward

theorem refl (place : Place) : place.Onward place :=
  ⟨[], (List.append_nil _).symm, rfl, rfl, rfl⟩

theorem next (place : Place) (h : place.pending = front :: rest) : place.Onward (place.next h) :=
  ⟨[front], rfl, h, rfl, rfl⟩

theorem trans (first : place.Onward middle) (second : middle.Onward later) :
    place.Onward later := by
  obtain ⟨taken, passed, pending, last, behind⟩ := first
  obtain ⟨more, passed', pending', last', behind'⟩ := second
  refine ⟨taken ++ more, ?_, ?_, last'.trans last, behind'.trans behind⟩
  · rw [passed', passed, List.append_assoc]
  · rw [pending, pending', List.append_assoc]

theorem buffer_eq (onward : place.Onward later) : later.buffer = place.buffer := by
  obtain ⟨taken, passed, pending, last, behind⟩ := onward
  rw [buffer, buffer, passed, pending, last, behind]
  simp only [List.append_assoc]

theorem last_eq (onward : place.Onward later) : later.last = place.last := by
  obtain ⟨-, -, -, last, -⟩ := onward
  exact last

theorem stop_eq (onward : place.Onward later) : later.stop = place.stop := by
  obtain ⟨taken, passed, pending, -, -⟩ := onward
  rw [stop, stop, passed, pending, List.length_append, List.length_append, Nat.add_assoc]

theorem position_le (onward : place.Onward later) : place.position ≤ later.position := by
  obtain ⟨taken, passed, -, -, -⟩ := onward
  rw [position, position, passed, List.length_append]
  exact Nat.le_add_right _ _

theorem length_le (onward : place.Onward later) :
    later.pending.length ≤ place.pending.length := by
  obtain ⟨taken, -, pending, -, -⟩ := onward
  rw [pending, List.length_append]
  exact Nat.le_add_left _ _

theorem covers (onward : place.Onward later) {positions : List Nat}
    (inside : later.Covers positions) : place.Covers positions := by
  intro position member
  obtain ⟨from_, upTo⟩ := inside position member
  exact ⟨Nat.le_trans onward.position_le from_, onward.stop_eq ▸ upTo⟩

end Onward

theorem position_le_stop (place : Place) : place.position ≤ place.stop :=
  Nat.le_add_right _ _

theorem covers_nil (place : Place) : place.Covers [] := by
  rintro _ ⟨⟩

theorem Covers.append {first second : List Nat} (hFirst : place.Covers first)
    (hSecond : place.Covers second) : place.Covers (first ++ second) := by
  intro position member
  rcases List.mem_append.mp member with inFirst | inSecond
  · exact hFirst position inFirst
  · exact hSecond position inSecond

/-- A place further on is one of the positions up to the first end. -/
theorem Onward.covers_position (onward : place.Onward later) : place.Covers [later.position] := by
  intro position member
  obtain rfl := List.mem_singleton.mp member
  exact ⟨onward.position_le, onward.stop_eq ▸ later.position_le_stop⟩

end Place

/-! ## Steps at a place -/

namespace Walk

variable {place : Place} {front : Token} {rest : List Token}

theorem peek_at (place : Place) (visited : List Nat) :
    peek place.buffer (place.track visited) = (.found place.token, place.track visited) := by
  show tokenAt place.position place.buffer (place.track visited) = _
  rw [tokenAt, place.getElem?_position]

/-- Behind a peek a walk knows the token at which it stands. -/
theorem peek_andThen (next : Token → Walk α) (place : Place) (visited : List Nat) :
    peek.andThen next place.buffer (place.track visited) =
      next place.token place.buffer (place.track visited) := by
  rw [andThen, peek_at]

theorem peekAhead_andThen (next : Option Token → Walk α) (place : Place) (visited : List Nat) :
    peekAhead.andThen next place.buffer (place.track visited) =
      next place.buffer[place.position + 1]? place.buffer (place.track visited) := rfl

theorem advance_at (h : place.pending = front :: rest) (visited : List Nat) :
    advance place.buffer (place.track visited) =
      (.found front, (place.next h).track ((place.next h).position :: visited)) := by
  have there : (place.next h).track ((place.next h).position :: visited) =
      { position := place.position + 1, visited := (place.position + 1) :: visited } := by
    have position : (place.next h).position = place.position + 1 := List.length_append
    rw [Place.track, position]
  have back : place.buffer[place.position + 1 - 1]? = some front := by
    rw [Nat.add_sub_cancel, place.getElem?_position, Place.token_of_cons h]
  rw [advance, peek_andThen, Place.token_of_cons h, if_neg (Place.ne_eof h), there]
  show tokenAt (place.position + 1 - 1) place.buffer _ = _
  rw [tokenAt, back]
  rfl

theorem fail_at (expected : Expected) (place : Place) (visited : List Nat) :
    (fail expected : Walk α) place.buffer (place.track visited) =
      (.failed { expected, found := place.token }, place.track visited) :=
  peek_andThen _ place visited

end Walk

/-! ## Walks and scans -/

/-- The ending of a walk that finds what a scan found in front of the token `last`. -/
def Outcome.ending (last : Token) : Outcome α → Ending α
  | .ok (value, _) => .found value
  | .error failure =>
    .failed { expected := failure.expected, found := failure.rest.head?.getD last }

namespace Walk

variable {place middle : Place} {visited : List Nat}

/-- What a walk gives that started at a place: it finds what a scan found, stands at what the scan
left, and has stood only from the place on, up to the first end. -/
def Arrives (place : Place) (visited : List Nat) (outcome : Outcome α)
    (result : Ending α × Track) : Prop :=
  ∃ (later : Place) (seen : List Nat), place.Onward later ∧ later.pending = outcome.rest ∧
    place.Covers seen ∧ result = (outcome.ending place.last, later.track (seen ++ visited))

namespace Arrives

theorem done (place : Place) (visited : List Nat) (value : α) :
    Arrives place visited (Scan.done value place.pending)
      (Walk.done value place.buffer (place.track visited)) :=
  ⟨place, [], .refl place, rfl, place.covers_nil, rfl⟩

theorem fail (place : Place) (visited : List Nat) (expected : Expected) :
    Arrives place visited (Scan.fail expected place.pending : Outcome α)
      (Walk.fail expected place.buffer (place.track visited)) :=
  ⟨place, [], .refl place, rfl, place.covers_nil, fail_at expected place visited⟩

theorem found {later : Place} {seen : List Nat} (onward : place.Onward later)
    (inside : place.Covers seen) (value : α) :
    Arrives place visited (.ok (value, later.pending))
      (.found value, later.track (seen ++ visited)) :=
  ⟨later, seen, onward, rfl, inside, rfl⟩

/-- What is given from a later place on is given from the place on. -/
theorem behind (onward : place.Onward middle) {seen : List Nat} (inside : place.Covers seen)
    {outcome : Outcome α} {result : Ending α × Track}
    (h : Arrives middle (seen ++ visited) outcome result) :
    Arrives place visited outcome result := by
  obtain ⟨later, more, onward', left, inside', eq⟩ := h
  have covered := (onward.covers inside').append inside
  refine ⟨later, more ++ seen, onward.trans onward', left, covered, ?_⟩
  rw [eq, onward.last_eq, List.append_assoc]

/-- A walk that goes on by a token first. -/
theorem advance {front : Token} {rest : List Token} {next : Token → Walk α} {outcome : Outcome α}
    (h : place.pending = front :: rest)
    (hNext : Arrives (place.next h) ((place.next h).position :: visited) outcome
      (next front (place.next h).buffer
        ((place.next h).track ((place.next h).position :: visited)))) :
    Arrives place visited outcome
      (Walk.advance.andThen next place.buffer (place.track visited)) := by
  have onward := Place.Onward.next place h
  rw [Walk.andThen, advance_at h]
  rw [onward.buffer_eq] at hNext
  exact .behind onward onward.covers_position hNext

/-- Two walks one after another. The second one starts where the first one arrived, and it may go
back to the place where the first one started. -/
theorem step {tokens : List Token} {track : Track} {first : Walk α} {second : α → Walk β}
    {scan : Scan α} {more : α → Scan β}
    (hFirst : Arrives place visited (scan tokens) (first place.buffer track))
    (hSecond : ∀ value later seen, scan tokens = .ok (value, later.pending) →
      place.Onward later → place.Covers seen →
        Arrives place visited (more value later.pending)
          (second value place.buffer (later.track (seen ++ visited)))) :
    Arrives place visited (scan.andThen more tokens)
      (first.andThen second place.buffer track) := by
  obtain ⟨later, seen, onward, left, inside, eq⟩ := hFirst
  unfold Scan.andThen Walk.andThen
  rw [eq]
  cases found : scan tokens with
  | error failure =>
    rw [found] at left
    exact ⟨later, seen, onward, left, inside, rfl⟩
  | ok result =>
    obtain ⟨value, rest⟩ := result
    rw [found] at left
    obtain rfl : later.pending = rest := left
    exact hSecond value later seen found onward inside

/-- A trial that starts at the place, to which the walk may have gone back. If it fails, another walk
goes on from where the trial left it. -/
theorem attempt {track : Track} {trial : Walk α} {onward : α → Walk β} {otherwise : Walk β}
    {back : List Nat} {outcome : Outcome α} {target : Outcome β} (covered : place.Covers back)
    (hTrial : Arrives place (back ++ visited) outcome (trial place.buffer track))
    (hFound : ∀ value later seen, outcome = .ok (value, later.pending) → place.Onward later →
      place.Covers seen →
        Arrives place visited target (onward value place.buffer (later.track (seen ++ visited))))
    (hFailed : ∀ failure (later : Place) seen, outcome = .error failure → place.Covers seen →
      Arrives place visited target (otherwise place.buffer (later.track (seen ++ visited)))) :
    Arrives place visited target (Walk.attempt trial onward otherwise place.buffer track) := by
  obtain ⟨later, more, further, left, inside, eq⟩ := hTrial
  rw [← List.append_assoc] at eq
  rw [Walk.attempt, eq]
  cases outcome with
  | error failure => exact hFailed failure later (more ++ back) rfl (inside.append covered)
  | ok result =>
    obtain ⟨value, rest⟩ := result
    obtain rfl : later.pending = rest := left
    exact hFound value later (more ++ back) rfl further (inside.append covered)

end Arrives

/-- On fewer than `bound` tokens in front of an end, a walk does what a scan does. -/
def Follows (bound : Nat) (walk : Walk α) (scan : Scan α) : Prop :=
  ∀ (place : Place) (visited : List Nat), place.pending.length < bound →
    Arrives place visited (scan place.pending) (walk place.buffer (place.track visited))

namespace Follows

variable {bound small : Nat} {scan : Scan α} {walk : Walk α}

theorem zero : Follows 0 walk scan := by
  intro place visited lt
  exact absurd lt (Nat.not_lt_zero _)

theorem mono (h : Follows bound walk scan) (le : small ≤ bound) : Follows small walk scan := by
  intro place visited lt
  exact h place visited (Nat.lt_of_lt_of_le lt le)

theorem done (value : α) : Follows bound (Walk.done value) (Scan.done value) := by
  intro place visited _
  exact .done place visited value

theorem fail (expected : Expected) :
    Follows bound (Walk.fail expected : Walk α) (Scan.fail expected) := by
  intro place visited _
  exact .fail place visited expected

theorem andThenWithin {second : α → Walk β} {more : α → Scan β} (hFirst : Follows bound walk scan)
    (hSecond : ∀ value, Follows small (second value) (more value))
    (fits : ∀ {tokens value rest}, tokens.length < bound → scan tokens = .ok (value, rest) →
      rest.length < small) :
    Follows bound (walk.andThen second) (scan.andThen more) := by
  intro place visited lt
  refine (hFirst place visited lt).step fun value later seen found onward inside => ?_
  refine .behind onward inside ?_
  rw [← onward.buffer_eq]
  exact hSecond value later (seen ++ visited) (fits lt found)

theorem andThen {second : α → Walk β} {more : α → Scan β} (hFirst : Follows bound walk scan)
    (hSecond : ∀ value, Follows bound (second value) (more value)) :
    Follows bound (walk.andThen second) (scan.andThen more) := by
  intro place visited lt
  refine (hFirst place visited lt).step fun value later seen found onward inside => ?_
  refine .behind onward inside ?_
  rw [← onward.buffer_eq]
  exact hSecond value later (seen ++ visited) (Nat.lt_of_le_of_lt onward.length_le lt)

theorem map (f : α → β) (h : Follows bound walk scan) :
    Follows bound (walk.map f) (scan.map f) := by
  have same : scan.map f = scan.andThen fun value => Scan.done (f value) := by
    funext tokens
    unfold Scan.map Scan.andThen
    cases scan tokens <;> rfl
  rw [same]
  exact h.andThen fun value => .done (f value)

/-- A token of some other kind than the end is taken before it is gone on. -/
theorem branch {kind : Kind} (ne : kind ≠ .eof) {onward : String → Walk α}
    {otherwise : Walk α} {further : String → Scan α} {other : Scan α}
    (hOnward : ∀ text, Follows small (onward text) (further text)) (le : bound ≤ small + 1)
    (hOtherwise : Follows bound otherwise other) :
    Follows bound (Walk.branch kind onward otherwise) (Scan.branch kind further other) := by
  intro place visited lt
  have stays := hOtherwise place visited lt
  rw [Walk.branch, peek_andThen]
  cases pending : place.pending with
  | nil =>
    have other : place.token.kind ≠ kind := by
      rw [Place.token_of_nil pending, place.eof]
      exact ne.symm
    rw [if_neg other, Scan.branch, ← pending]
    exact stays
  | cons token rest =>
    rw [Place.token_of_cons pending]
    by_cases same : token.kind = kind
    · rw [if_pos same, Scan.branch, if_pos same]
      rw [pending, List.length_cons] at lt
      have shorter : rest.length < small := by omega
      exact .advance pending (hOnward token.text (place.next pending) _ shorter)
    · rw [if_neg same, Scan.branch, if_neg same, ← pending]
      exact stays

theorem choose {kinds : Kind → Bool} (ne : kinds .eof = false) {inside outside : Walk α}
    {further other : Scan α} (hInside : Follows bound inside further)
    (hOutside : Follows bound outside other) :
    Follows bound (Walk.choose kinds inside outside) (Scan.choose kinds further other) := by
  intro place visited lt
  have goesOn := hInside place visited lt
  have stays := hOutside place visited lt
  rw [Walk.choose, peek_andThen]
  cases pending : place.pending with
  | nil =>
    have other : ¬ kinds place.token.kind = true := by
      rw [Place.token_of_nil pending, place.eof, ne]
      decide
    rw [if_neg other, Scan.choose, ← pending]
    exact stays
  | cons token rest =>
    rw [Place.token_of_cons pending]
    by_cases member : kinds token.kind = true
    · rw [if_pos member, Scan.choose, if_pos member, ← pending]
      exact goesOn
    · rw [if_neg member, Scan.choose, if_neg member, ← pending]
      exact stays

theorem one {kind : Kind} (ne : kind ≠ .eof) (expected : Expected) :
    Follows bound (Walk.one kind expected) (Scan.one kind expected) :=
  .branch ne (fun text => .done text) (Nat.le_succ _) (.fail expected)

theorem separated {separator : Kind} (ne : separator ≠ .eof) {item : Walk α} {reader : Reader α}
    (hItem : Follows bound item reader.scan) {steps : Nat} (le : steps ≤ bound) :
    Follows steps (Walk.separated separator item steps)
      (Reader.scan (Pseudocod.separated separator reader)) := by
  induction steps with
  | zero => exact .zero
  | succ steps ih =>
    have others := ih (Nat.le_of_succ_le le)
    rw [scan_separated, Walk.separated]
    exact (hItem.mono le).andThenWithin (fun value =>
      .branch ne (fun _ => .map (value :: ·) others) (Nat.le_succ _) (.done [value]))
      Reader.lt_of_scan

end Follows

end Walk

end Pseudocod

import Pseudocod.Parsed

/-!
# Scans and the languages they read

A scan is a reader that says nothing about how many tokens it leaves. Every reader is one, and
scans are put together from a few combinators, each with the language that it reads.

* `outcome_bind`, `outcome_accept`: readers put together are scans put together.
* `Reader.length_lt_of_scan`: a reader consumes a token at least.
* `scan_separated`: a reader of items with separators reads an item, and goes on behind a separator.
-/

namespace Pseudocod

/-- What comes of reading: a value and the tokens that are left, or a failure. -/
abbrev Outcome (α : Type) := Except Failure (α × List Token)

/-- A reader without a bound on what it leaves. -/
abbrev Scan (α : Type) := List Token → Outcome α

/-- Which tokens stand for which values. -/
abbrev Language (α : Type) := List Token → α → Prop

variable {α β : Type}

/-- What a reader found, without the bound on the tokens that are left. -/
def outcome {bound : Nat} : Except Failure (Parsed α bound) → Outcome α
  | .ok parsed => .ok (parsed.value, parsed.rest)
  | .error failure => .error failure

/-- A reader as a scan. -/
def Reader.scan (reader : Reader α) : Scan α := fun tokens => outcome (reader tokens)

namespace Outcome

/-- The tokens that are left, or at which reading failed. -/
def rest : Outcome α → List Token
  | .ok (_, rest) => rest
  | .error failure => failure.rest

/-- The same outcome with other tokens left. -/
def leaving (outcome : Outcome α) (rest : List Token) : Outcome α :=
  match outcome with
  | .ok (value, _) => .ok (value, rest)
  | .error failure => .error { failure with rest }

end Outcome

/-! ## Combinators -/

namespace Scan

/-- Changes the value that was read. -/
def map (f : α → β) (scan : Scan α) : Scan β := fun tokens =>
  match scan tokens with
  | .ok (value, rest) => .ok (f value, rest)
  | .error failure => .error failure

/-- Two scans one after another. -/
def andThen (first : Scan α) (second : α → Scan β) : Scan β := fun tokens =>
  match first tokens with
  | .ok (value, rest) => second value rest
  | .error failure => .error failure

/-- One scan behind a token of some kind, and another one where there is no such token. -/
def branch (kind : Kind) (onward : String → Scan α) (otherwise : Scan α) : Scan α
  | [] => otherwise []
  | token :: rest =>
    if token.kind = kind then onward token.text rest else otherwise (token :: rest)

/-- One scan before a token of certain kinds, and another one elsewhere. -/
def choose (kinds : Kind → Bool) (inside outside : Scan α) : Scan α
  | [] => outside []
  | token :: rest =>
    if kinds token.kind then inside (token :: rest) else outside (token :: rest)

/-- No token; the value is given. -/
def done (value : α) : Scan α := fun tokens => .ok (value, tokens)

/-- A failure. -/
def fail (expected : Expected) : Scan α := fun tokens => .error { expected, rest := tokens }

/-- One token of the kind asked for; its text is the value. -/
def one (kind : Kind) (expected : Expected) : Scan String :=
  branch kind done (fail expected)

/-- What follows on a trial, or nothing if the trial fails; then its failure is forgotten. -/
def attempt (trial : Scan α) (onward : α → Scan β) (fallback : β) : Scan β := fun tokens =>
  match trial tokens with
  | .ok (value, rest) => onward value rest
  | .error _ => .ok (fallback, tokens)

theorem one_of_kind {kind : Kind} {token : Token} (expected : Expected) (rest : List Token)
    (h : token.kind = kind) : one kind expected (token :: rest) = .ok (token.text, rest) :=
  if_pos h

theorem one_of_not_mem {kind : Kind} {tokens : List Token} (expected : Expected)
    (h : ∀ token ∈ tokens.head?, token.kind ≠ kind) :
    one kind expected tokens = .error { expected, rest := tokens } := by
  cases tokens with
  | nil => rfl
  | cons token rest => exact if_neg (h token rfl)

theorem one_cases (kind : Kind) (expected : Expected) (tokens : List Token) :
    (∃ token rest, tokens = token :: rest ∧ token.kind = kind ∧
      one kind expected tokens = .ok (token.text, rest)) ∨
    (∀ token ∈ tokens.head?, token.kind ≠ kind) ∧
      one kind expected tokens = .error { expected, rest := tokens } := by
  cases tokens with
  | nil => exact .inr ⟨by rintro _ ⟨⟩, rfl⟩
  | cons token rest =>
    by_cases h : token.kind = kind
    · exact .inl ⟨token, rest, rfl, h, one_of_kind expected rest h⟩
    · have other : ∀ first ∈ (token :: rest).head?, first.kind ≠ kind := by
        rintro _ ⟨⟩
        exact h
      exact .inr ⟨other, one_of_not_mem expected other⟩

theorem andThen_of_eq {first other : Scan α} {tokens rest : List Token}
    (h : first tokens = other rest) (second : α → Scan β) :
    first.andThen second tokens = other.andThen second rest := by
  rw [andThen, h, andThen]

theorem map_map {γ : Type} (f : α → β) (g : β → γ) (scan : Scan α) :
    (scan.map f).map g = scan.map fun value => g (f value) := by
  funext tokens
  simp only [map]
  cases scan tokens <;> rfl

theorem map_eq_ok_iff {f : α → β} {scan : Scan α} {tokens rest : List Token} {value : β} :
    scan.map f tokens = .ok (value, rest) ↔
      ∃ inner, scan tokens = .ok (inner, rest) ∧ f inner = value := by
  unfold map
  constructor
  · intro h
    cases found : scan tokens with
    | error failure => rw [found] at h; exact nomatch h
    | ok result =>
      obtain ⟨inner, left⟩ := result
      rw [found] at h
      obtain ⟨same, rfl⟩ := Prod.mk.inj (Except.ok.inj h)
      exact ⟨inner, rfl, same⟩
  · rintro ⟨inner, found, rfl⟩
    rw [found]

theorem map_eq_error_iff {f : α → β} {scan : Scan α} {tokens : List Token} {failure : Failure} :
    scan.map f tokens = .error failure ↔ scan tokens = .error failure := by
  unfold map
  cases scan tokens <;> simp

theorem map_andThen {γ : Type} (f : β → γ) (first : Scan α) (second : α → Scan β) :
    (first.andThen second).map f = first.andThen fun value => (second value).map f := by
  funext tokens
  simp only [map, andThen]
  cases first tokens <;> rfl

theorem andThen_map {γ : Type} (f : α → β) (first : Scan α) (second : β → Scan γ) :
    (first.map f).andThen second = first.andThen fun value => second (f value) := by
  funext tokens
  simp only [map, andThen]
  cases first tokens <;> rfl

theorem andThen_andThen {γ : Type} (first : Scan α) (second : α → Scan β) (third : β → Scan γ) :
    (first.andThen second).andThen third =
      first.andThen fun value => (second value).andThen third := by
  funext tokens
  simp only [andThen]
  cases first tokens <;> rfl

theorem choose_andThen (kinds : Kind → Bool) (inside outside : Scan α) (more : α → Scan β) :
    (choose kinds inside outside).andThen more =
      choose kinds (inside.andThen more) (outside.andThen more) := by
  funext tokens
  cases tokens with
  | nil => rfl
  | cons token rest =>
    unfold andThen choose
    by_cases member : kinds token.kind = true
    · simp only [if_pos member]
    · simp only [if_neg member]

end Scan

namespace Language

/-- One token of a kind, with its text as the value. -/
def one (kind : Kind) : Language String := fun word text =>
  ∃ token, word = [token] ∧ token.kind = kind ∧ token.text = text

/-- The same words with other values. -/
def map (f : α → β) (Word : Language α) : Language β := fun word value =>
  ∃ inner, Word word inner ∧ f inner = value

/-- A word of one language with a word of another one behind it. -/
def andThen (First : Language α) (Second : α → Language β) : Language β := fun word value =>
  ∃ front middle back, word = front ++ back ∧ First front middle ∧ Second middle back value

/-- A word of one language behind a token of some kind, or a word of another language. -/
def branch (kind : Kind) (Onward : String → Language α) (Otherwise : Language α) : Language α :=
  fun word value =>
    (∃ token back, word = token :: back ∧ token.kind = kind ∧ Onward token.text back value) ∨
      Otherwise word value

/-- The empty word, which stands for one value. -/
def done (value : α) : Language α := fun word other => word = [] ∧ value = other

end Language

/-! ## Outcomes of readers put together -/

section Outcomes

variable {bound larger : Nat} {tokens : List Token}

theorem outcome_bind {first : Except Failure (Parsed α bound)}
    {second : Parsed α bound → Except Failure (Parsed β larger)} {scan : Scan α}
    {more : α → Scan β} (hFirst : outcome first = scan tokens)
    (hSecond : ∀ parsed, outcome (second parsed) = more parsed.value parsed.rest) :
    outcome (first >>= second) = scan.andThen more tokens := by
  unfold Scan.andThen
  rw [← hFirst]
  cases first with
  | error failure => rfl
  | ok parsed => exact hSecond parsed

theorem outcome_map {parsed : Except Failure (Parsed α bound)} {scan : Scan α} (f : α → β)
    (le : bound ≤ larger) (h : outcome parsed = scan tokens) :
    outcome (parsed >>= fun inner => pure (inner.mapWithin f le)) = scan.map f tokens := by
  unfold Scan.map
  rw [← h]
  cases parsed <;> rfl

theorem outcome_expect (kind : Kind) (expected : Expected) (tokens : List Token) :
    outcome (expect kind expected tokens) = Scan.one kind expected tokens := by
  cases tokens with
  | nil => rfl
  | cons token rest =>
    by_cases h : token.kind = kind <;>
      simp [expect, accept, Scan.one, Scan.branch, Scan.done, Scan.fail, outcome, h]

theorem Reader.scan_expect (kind : Kind) (expected : Expected) :
    Reader.scan (expect kind expected) = Scan.one kind expected :=
  funext (outcome_expect kind expected)

theorem outcome_accept {kind : Kind} {result : Except Failure (Parsed α bound)}
    {onward : String → Scan α} {otherwise : Scan α}
    (hOnward : ∀ next, accept kind tokens = some next →
      outcome result = onward next.value next.rest)
    (hOtherwise : accept kind tokens = none → outcome result = otherwise tokens) :
    outcome result = Scan.branch kind onward otherwise tokens := by
  cases tokens with
  | nil => exact hOtherwise rfl
  | cons token rest =>
    by_cases h : token.kind = kind
    · rw [Scan.branch, if_pos h]
      exact hOnward ⟨token.text, rest, Nat.lt_succ_self _⟩ (if_pos h)
    · rw [Scan.branch, if_neg h]
      exact hOtherwise (if_neg h)

theorem Reader.length_lt_of_scan {reader : Reader α} {value : α} {rest : List Token}
    (h : reader.scan tokens = .ok (value, rest)) : rest.length < tokens.length := by
  unfold Reader.scan at h
  cases found : reader tokens with
  | error failure => rw [found] at h; cases h
  | ok parsed =>
    rw [found] at h
    cases h
    exact parsed.shorter

/-- Behind a reader there is room for one that is given one token less. -/
theorem Reader.lt_of_scan {reader : Reader α} {value : α} {rest : List Token}
    (lt : tokens.length < bound + 1) (h : reader.scan tokens = .ok (value, rest)) :
    rest.length < bound :=
  Nat.lt_of_lt_of_le (Reader.length_lt_of_scan h) (Nat.le_of_lt_succ lt)

end Outcomes

/-! ## Items with separators -/

/-- One or more words of a language, with a token of kind `separator` between any two of them. -/
inductive SeparatedBy (separator : Kind) (Item : Language α) : List Token → List α → Prop where
  | single {word : List Token} {value : α} :
    Item word value → SeparatedBy separator Item word [value]
  | cons {word more : List Token} {token : Token} {value : α} {values : List α} :
    Item word value → token.kind = separator → SeparatedBy separator Item more values →
      SeparatedBy separator Item (word ++ token :: more) (value :: values)

theorem scan_separated (separator : Kind) (item : Reader α) :
    Reader.scan (separated separator item) =
      item.scan.andThen fun value =>
        Scan.branch separator (fun _ => (Reader.scan (separated separator item)).map (value :: ·))
          (Scan.done [value]) := by
  funext tokens
  rw [Reader.scan, separated]
  refine outcome_bind rfl fun first => ?_
  refine outcome_accept (fun next h => ?_) fun h => ?_
  · simp only [h]
    exact outcome_map (first.value :: ·) _ rfl
  · simp only [h]; rfl

end Pseudocod

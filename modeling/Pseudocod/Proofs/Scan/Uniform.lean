import Mathlib.Data.List.Forall2
import Pseudocod.Proofs.Scan.Basic

/-!
# Uniform scans

Two lists of tokens correspond if they have the same kinds in the same order, and the same texts
where a kind is an open class. What a scan finds should be the same on lists that correspond: it
knows neither where a token stands nor how a word of the language is spelled. The combinators keep
this property, which is bounded by the number of tokens, so that readers that call each other can
be treated by induction.

* `Uniform.branch`, `Uniform.branchOpen`: what follows on a token may depend on its text only if
  its kind is open.
* `Uniform.andThenWithin`: one scan after another.
* `Uniform.attempt`: a trial fails on both lists or on neither.
* `Uniform.separated`: items with separators between them.
-/

namespace Pseudocod

variable {α β : Type}

/-- Kinds whose members are told apart by their texts. -/
def Kind.isOpen : Kind → Bool
  | .number | .string | .ident => true
  | _ => false

/-- Tokens of the same kind, with the same text if the kind is open. Where they stand and how they
are spelled otherwise does not matter. -/
structure Token.Alike (token other : Token) : Prop where
  kind : token.kind = other.kind
  text : token.kind.isOpen = true → token.text = other.text

instance (token other : Token) : Decidable (token.Alike other) :=
  decidable_of_iff (token.kind = other.kind ∧ (token.kind.isOpen = true → token.text = other.text))
    ⟨fun h => ⟨h.1, h.2⟩, fun h => ⟨h.kind, h.text⟩⟩

/-- Outcomes with the same value or the same failure, at tokens that correspond. -/
inductive Outcome.Alike : Outcome α → Outcome α → Prop where
  | ok {value : α} {rest others : List Token} :
    List.Forall₂ Token.Alike rest others → Alike (.ok (value, rest)) (.ok (value, others))
  | error {expected : Expected} {rest others : List Token} :
    List.Forall₂ Token.Alike rest others →
      Alike (.error { expected, rest }) (.error { expected, rest := others })

/-- On fewer than `bound` tokens, what a scan finds is the same on tokens that correspond. -/
structure Uniform (bound : Nat) (scan : Scan α) : Prop where
  rest_le : ∀ {tokens}, tokens.length < bound → (scan tokens).rest.length ≤ tokens.length
  alike : ∀ {tokens others}, List.Forall₂ Token.Alike tokens others → tokens.length < bound →
    Outcome.Alike (scan tokens) (scan others)

namespace Uniform

variable {bound small : Nat}

theorem zero (scan : Scan α) : Uniform 0 scan where
  rest_le lt := absurd lt (Nat.not_lt_zero _)
  alike _ lt := absurd lt (Nat.not_lt_zero _)

theorem done (value : α) : Uniform bound (Scan.done value) where
  rest_le _ := Nat.le_refl _
  alike corresponding _ := .ok corresponding

theorem fail (expected : Expected) : Uniform bound (Scan.fail expected : Scan α) where
  rest_le _ := Nat.le_refl _
  alike corresponding _ := .error corresponding

theorem map {scan : Scan α} (f : α → β) (h : Uniform bound scan) : Uniform bound (scan.map f) where
  rest_le {tokens} lt := by
    have le := h.rest_le lt
    unfold Scan.map
    cases found : scan tokens <;> rw [found] at le <;> exact le
  alike {tokens others} corresponding lt := by
    have alike := h.alike corresponding lt
    unfold Scan.map
    generalize scan tokens = outcome at alike
    generalize scan others = outcome' at alike
    cases alike with
    | ok left => exact .ok left
    | error left => exact .error left

theorem andThenWithin {first : Scan α} {second : α → Scan β} (hFirst : Uniform bound first)
    (hSecond : ∀ middle, Uniform small (second middle))
    (fits : ∀ {tokens middle rest}, tokens.length < bound → first tokens = .ok (middle, rest) →
      rest.length < small) :
    Uniform bound (first.andThen second) where
  rest_le {tokens} lt := by
    have le := hFirst.rest_le lt
    unfold Scan.andThen
    cases found : first tokens with
    | error failure => rw [found] at le; exact le
    | ok result =>
      rw [found] at le
      exact Nat.le_trans ((hSecond _).rest_le (fits lt found)) le
  alike {tokens others} corresponding lt := by
    have alike := hFirst.alike corresponding lt
    unfold Scan.andThen
    cases found : first tokens with
    | error failure =>
      rw [found] at alike
      generalize first others = outcome at alike
      cases alike with
      | error left => exact .error left
    | ok result =>
      rw [found] at alike
      generalize first others = outcome at alike
      cases alike with
      | ok left => exact (hSecond _).alike left (fits lt found)

theorem andThen {first : Scan α} {second : α → Scan β} (hFirst : Uniform bound first)
    (hSecond : ∀ middle, Uniform bound (second middle)) : Uniform bound (first.andThen second) := by
  refine hFirst.andThenWithin hSecond fun lt found => ?_
  have le := hFirst.rest_le lt
  rw [found] at le
  exact Nat.lt_of_le_of_lt le lt

/-- A scan that takes the first token and goes on, or leaves all tokens to another scan. -/
theorem ofFirst {scan : Scan α} (le : bound ≤ small + 1)
    (hNil : ∃ other, Uniform bound other ∧ scan [] = other [])
    (hCons : ∀ token token' : Token, token.Alike token' →
      (∃ onward, Uniform small onward ∧ (∀ rest, scan (token :: rest) = onward rest) ∧
        ∀ rest, scan (token' :: rest) = onward rest) ∨
      ∃ other, Uniform bound other ∧ (∀ rest, scan (token :: rest) = other (token :: rest)) ∧
        ∀ rest, scan (token' :: rest) = other (token' :: rest)) :
    Uniform bound scan where
  rest_le {tokens} lt := by
    cases tokens with
    | nil =>
      obtain ⟨other, hOther, eq⟩ := hNil
      rw [eq]
      exact hOther.rest_le lt
    | cons token tokens =>
      rcases hCons token token ⟨rfl, fun _ => rfl⟩ with
        ⟨onward, hOnward, eq, -⟩ | ⟨other, hOther, eq, -⟩
      · rw [eq]
        rw [List.length_cons] at lt
        exact Nat.le_succ_of_le (hOnward.rest_le (by omega))
      · rw [eq]
        exact hOther.rest_le lt
  alike corresponding lt := by
    cases corresponding with
    | nil =>
      obtain ⟨other, hOther, eq⟩ := hNil
      rw [eq]
      exact hOther.alike .nil lt
    | cons first corresponding =>
      rcases hCons _ _ first with ⟨onward, hOnward, eq, eq'⟩ | ⟨other, hOther, eq, eq'⟩
      · rw [eq, eq']
        rw [List.length_cons] at lt
        exact hOnward.alike corresponding (by omega)
      · rw [eq, eq']
        exact hOther.alike (.cons first corresponding) lt

/-- What follows on a token does not depend on its text. -/
theorem branch {kind : Kind} {onward otherwise : Scan α} (hOnward : Uniform small onward)
    (le : bound ≤ small + 1) (hOtherwise : Uniform bound otherwise) :
    Uniform bound (Scan.branch kind (fun _ => onward) otherwise) := by
  refine ofFirst le ⟨otherwise, hOtherwise, rfl⟩ fun token token' alike => ?_
  by_cases h : token.kind = kind
  · exact .inl ⟨onward, hOnward, fun rest => if_pos h, fun rest => if_pos (alike.kind ▸ h)⟩
  · exact .inr ⟨otherwise, hOtherwise, fun rest => if_neg h, fun rest => if_neg (alike.kind ▸ h)⟩

/-- What follows on a token may depend on its text if its kind is open. -/
theorem branchOpen {kind : Kind} (isOpen : kind.isOpen = true) {onward : String → Scan α}
    {otherwise : Scan α} (hOnward : ∀ text, Uniform small (onward text)) (le : bound ≤ small + 1)
    (hOtherwise : Uniform bound otherwise) : Uniform bound (Scan.branch kind onward otherwise) := by
  refine ofFirst le ⟨otherwise, hOtherwise, rfl⟩ fun token token' alike => ?_
  by_cases h : token.kind = kind
  · have text : token.text = token'.text := alike.text (by rw [h]; exact isOpen)
    refine .inl ⟨onward token.text, hOnward _, fun rest => if_pos h, fun rest => ?_⟩
    rw [text]
    exact if_pos (alike.kind ▸ h)
  · exact .inr ⟨otherwise, hOtherwise, fun rest => if_neg h, fun rest => if_neg (alike.kind ▸ h)⟩

theorem choose {kinds : Kind → Bool} {inside outside : Scan α} (hInside : Uniform bound inside)
    (hOutside : Uniform bound outside) : Uniform bound (Scan.choose kinds inside outside) := by
  refine ofFirst (Nat.le_succ bound) ⟨outside, hOutside, rfl⟩ fun token token' alike => ?_
  by_cases h : kinds token.kind
  · exact .inr ⟨inside, hInside, fun rest => if_pos h, fun rest => if_pos (alike.kind ▸ h)⟩
  · exact .inr ⟨outside, hOutside, fun rest => if_neg h, fun rest => if_neg (alike.kind ▸ h)⟩

/-- A token of an open kind. -/
theorem one {kind : Kind} (isOpen : kind.isOpen = true) (expected : Expected) :
    Uniform bound (Scan.one kind expected) :=
  .branchOpen isOpen (fun text => .done text) (Nat.le_succ _) (.fail expected)

/-- A token whose text is not looked at, and what follows on it. -/
theorem behind (kind : Kind) (expected : Expected) {onward : Scan α} (h : Uniform bound onward) :
    Uniform bound ((Scan.one kind expected).andThen fun _ => onward) := by
  have eq : (Scan.one kind expected).andThen (fun _ => onward) =
      Scan.branch kind (fun _ => onward) (Scan.fail expected) := by
    funext tokens
    unfold Scan.andThen
    rcases Scan.one_cases kind expected tokens with ⟨token, rest, rfl, h, eq⟩ | ⟨h, eq⟩
    · rw [eq, Scan.branch, if_pos h]
    · rw [eq]
      cases tokens with
      | nil => rfl
      | cons token rest => exact (if_neg (h token rfl)).symm
  rw [eq]
  exact .branch h (Nat.le_succ _) (.fail expected)

/-- A token whose text is not looked at. -/
theorem word (kind : Kind) (expected : Expected) (value : α) :
    Uniform bound ((Scan.one kind expected).map fun _ => value) :=
  behind kind expected (.done value)

/-- A trial fails on both lists of tokens or on neither. -/
theorem attempt {trial : Scan α} {onward : α → Scan β} {fallback : β} (hTrial : Uniform bound trial)
    (hOnward : ∀ middle, Uniform small (onward middle))
    (fits : ∀ {tokens middle rest}, tokens.length < bound → trial tokens = .ok (middle, rest) →
      rest.length < small) :
    Uniform bound (Scan.attempt trial onward fallback) where
  rest_le {tokens} lt := by
    have le := hTrial.rest_le lt
    unfold Scan.attempt
    cases found : trial tokens with
    | error failure => exact Nat.le_refl _
    | ok result =>
      rw [found] at le
      exact Nat.le_trans ((hOnward _).rest_le (fits lt found)) le
  alike {tokens others} corresponding lt := by
    have alike := hTrial.alike corresponding lt
    unfold Scan.attempt
    cases found : trial tokens with
    | error failure =>
      rw [found] at alike
      generalize trial others = outcome at alike
      cases alike with
      | error left => exact .ok corresponding
    | ok result =>
      rw [found] at alike
      generalize trial others = outcome at alike
      cases alike with
      | ok left => exact (hOnward _).alike left (fits lt found)

theorem separated {separator : Kind} {item : Reader α} (hItem : ∀ bound, Uniform bound item.scan) :
    Uniform bound (Reader.scan (separated separator item)) := by
  induction bound with
  | zero => exact .zero _
  | succ bound ih =>
    rw [scan_separated]
    exact .andThen (hItem _) fun value => .branch (.map (value :: ·) ih) (Nat.le_refl _)
      (.done [value])

end Uniform

end Pseudocod

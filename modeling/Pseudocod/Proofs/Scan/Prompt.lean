import Pseudocod.Proofs.Scan.Basic

/-!
# Prompt scans

What a scan finds should depend on no token behind the first one that it leaves. A trial whose
failure is forgotten looks further: its outcome is settled by the tokens up to the one at which the
trial failed. So a scan is prompt up to a horizon, which says of the tokens that are left up to
where they were looked at.

* `Prompt.andThenWithin`: a second scan that goes on as far as the horizon of the first one hides
  that the first one looked ahead.
* `Prompt.attempt`: the horizon of a trial is where it fails.
* `Prompt.separated`: items with separators between them.
-/

namespace Pseudocod

variable {α β : Type}

/-- Two lists of tokens that are the same up to a token, behind which there is `rest` in one list
and `other` in the other one. -/
inductive Agree (token : Token) (rest other : List Token) : List Token → List Token → Prop where
  | here : Agree token rest other (token :: rest) (token :: other)
  | there {tokens others : List Token} (first : Token) :
    Agree token rest other tokens others →
      Agree token rest other (first :: tokens) (first :: others)

theorem agree_append (token : Token) (rest other front : List Token) :
    Agree token rest other (front ++ token :: rest) (front ++ token :: other) := by
  induction front with
  | nil => exact .here
  | cons first front ih => exact .there first ih

/-- The tokens of which an outcome says that they were not looked at, except for the first one. -/
def Outcome.beyond (horizon : List Token → List Token) : Outcome α → List Token
  | .ok (_, rest) => horizon rest
  | .error failure => failure.rest

theorem Outcome.beyond_id (outcome : Outcome α) : outcome.beyond id = outcome.rest := by
  cases outcome <;> rfl

/-- On fewer than `bound` tokens, what a scan finds does not depend on anything behind the first
token beyond the horizon. -/
structure Prompt (bound : Nat) (horizon : List Token → List Token) (scan : Scan α) : Prop where
  beyond_le : ∀ {tokens}, tokens.length < bound →
    ((scan tokens).beyond horizon).length ≤ tokens.length
  settled : ∀ {token rest other tokens others}, Agree token rest other tokens others →
    tokens.length < bound → rest.length < ((scan tokens).beyond horizon).length →
      ∃ left, scan others = (scan tokens).leaving left ∧
        Agree token rest other (scan tokens).rest left

namespace Prompt

variable {bound small : Nat} {horizon near : List Token → List Token}

theorem zero (horizon : List Token → List Token) (scan : Scan α) : Prompt 0 horizon scan where
  beyond_le lt := absurd lt (Nat.not_lt_zero _)
  settled _ lt := absurd lt (Nat.not_lt_zero _)

/-- A scan that looks at nothing behind the first token left looks at nothing beyond a horizon. -/
theorem weaken {scan : Scan α} (h : Prompt bound id scan)
    (horizon_le : ∀ rest, (horizon rest).length ≤ rest.length) : Prompt bound horizon scan := by
  have le (tokens : List Token) :
      ((scan tokens).beyond horizon).length ≤ ((scan tokens).beyond id).length := by
    cases scan tokens with
    | ok result => exact horizon_le result.2
    | error failure => exact Nat.le_refl _
  constructor
  · intro tokens lt
    exact Nat.le_trans (le tokens) (h.beyond_le lt)
  · intro token rest other tokens others agree lt far
    exact h.settled agree lt (Nat.lt_of_lt_of_le far (le tokens))

theorem done (value : α) : Prompt bound id (Scan.done value) where
  beyond_le _ := Nat.le_refl _
  settled {_ _ _ _ others} agree _ _ := ⟨others, rfl, agree⟩

theorem fail (expected : Expected) : Prompt bound horizon (Scan.fail expected : Scan α) where
  beyond_le _ := Nat.le_refl _
  settled {_ _ _ _ others} agree _ _ := ⟨others, rfl, agree⟩

theorem map {scan : Scan α} (f : α → β) (h : Prompt bound horizon scan) :
    Prompt bound horizon (scan.map f) where
  beyond_le {tokens} lt := by
    have := h.beyond_le lt
    unfold Scan.map
    cases found : scan tokens <;> rw [found] at this <;> exact this
  settled {token rest other tokens others} agree lt far := by
    have settled := h.settled agree lt
    unfold Scan.map at far ⊢
    cases found : scan tokens with
    | ok result =>
      rw [found] at far settled
      obtain ⟨left, eq, agree'⟩ := settled far
      exact ⟨left, by rw [eq]; rfl, agree'⟩
    | error failure =>
      rw [found] at far settled
      obtain ⟨left, eq, agree'⟩ := settled far
      exact ⟨left, by rw [eq]; rfl, agree'⟩

theorem andThenWithin {first : Scan α} {second : α → Scan β} (hFirst : Prompt bound near first)
    (hSecond : ∀ middle, Prompt small horizon (second middle))
    (fits : ∀ {tokens middle rest}, tokens.length < bound → first tokens = .ok (middle, rest) →
      rest.length < small)
    (reach : ∀ {middle rest}, rest.length < small →
      ((second middle rest).beyond horizon).length ≤ (near rest).length) :
    Prompt bound horizon (first.andThen second) where
  beyond_le {tokens} lt := by
    have le := hFirst.beyond_le lt
    unfold Scan.andThen
    cases found : first tokens with
    | error failure => rw [found] at le; exact le
    | ok result =>
      rw [found] at le
      exact Nat.le_trans (reach (fits lt found)) le
  settled {token rest other tokens others} agree lt far := by
    have settled := hFirst.settled agree lt
    unfold Scan.andThen at far ⊢
    cases found : first tokens with
    | error failure =>
      rw [found] at far settled
      obtain ⟨left, eq, agree'⟩ := settled far
      exact ⟨left, by rw [eq]; rfl, agree'⟩
    | ok result =>
      obtain ⟨middle, between⟩ := result
      rw [found] at far settled
      have lt' := fits lt found
      -- the second scan has looked at everything that the first one has looked at
      obtain ⟨left, eq, agree'⟩ := settled (Nat.lt_of_lt_of_le far (reach lt'))
      rw [eq]
      exact (hSecond middle).settled agree' lt' far

theorem andThen {first : Scan α} {second : α → Scan β} (hFirst : Prompt bound id first)
    (hSecond : ∀ middle, Prompt bound horizon (second middle)) :
    Prompt bound horizon (first.andThen second) := by
  refine hFirst.andThenWithin hSecond ?_ fun lt => (hSecond _).beyond_le lt
  intro tokens middle rest lt found
  have := hFirst.beyond_le lt
  rw [found] at this
  exact Nat.lt_of_le_of_lt this lt

/-- A scan that takes the first token and goes on, or leaves all tokens to another scan. -/
theorem ofFirst {scan : Scan α} (le : bound ≤ small + 1)
    (hNil : ((scan []).beyond horizon).length = 0)
    (hCons : ∀ token,
      (∃ onward, Prompt small horizon onward ∧ ∀ rest, scan (token :: rest) = onward rest) ∨
      ∃ other, Prompt bound horizon other ∧ ∀ rest, scan (token :: rest) = other (token :: rest)) :
    Prompt bound horizon scan where
  beyond_le {tokens} lt := by
    cases tokens with
    | nil => exact Nat.le_of_eq hNil
    | cons token tokens =>
      rcases hCons token with ⟨onward, hOnward, eq⟩ | ⟨other, hOther, eq⟩
      · rw [eq]
        rw [List.length_cons] at lt
        exact Nat.le_succ_of_le (hOnward.beyond_le (by omega))
      · rw [eq]
        exact hOther.beyond_le lt
  settled {token rest other tokens others} agree lt far := by
    cases agree with
    | here =>
      rcases hCons token with ⟨onward, hOnward, eq⟩ | ⟨other, hOther, eq⟩
      · -- the token was consumed, so it is not beyond the horizon
        rw [List.length_cons] at lt
        have le : ((onward rest).beyond horizon).length ≤ rest.length :=
          hOnward.beyond_le (by omega)
        rw [eq] at far
        exact absurd far (Nat.not_lt.mpr le)
      · rw [eq] at far ⊢
        rw [eq]
        exact hOther.settled .here lt far
    | there first agree =>
      rcases hCons first with ⟨onward, hOnward, eq⟩ | ⟨other, hOther, eq⟩
      · rw [List.length_cons] at lt
        rw [eq] at far ⊢
        rw [eq]
        exact hOnward.settled agree (by omega) far
      · rw [eq] at far ⊢
        rw [eq]
        exact hOther.settled (.there first agree) lt far

theorem branch {kind : Kind} {onward : String → Scan α} {otherwise : Scan α}
    (hOnward : ∀ text, Prompt small horizon (onward text)) (le : bound ≤ small + 1)
    (hOtherwise : Prompt bound horizon otherwise) :
    Prompt bound horizon (Scan.branch kind onward otherwise) := by
  cases bound with
  | zero => exact .zero _ _
  | succ bound =>
    refine ofFirst le (Nat.le_zero.mp (hOtherwise.beyond_le (Nat.succ_pos _))) fun token => ?_
    by_cases h : token.kind = kind
    · exact .inl ⟨onward token.text, hOnward _, fun rest => if_pos h⟩
    · exact .inr ⟨otherwise, hOtherwise, fun rest => if_neg h⟩

theorem choose {kinds : Kind → Bool} {inside outside : Scan α}
    (hInside : Prompt bound horizon inside) (hOutside : Prompt bound horizon outside) :
    Prompt bound horizon (Scan.choose kinds inside outside) := by
  cases bound with
  | zero => exact .zero _ _
  | succ bound =>
    refine ofFirst (Nat.le_succ _) (Nat.le_zero.mp (hOutside.beyond_le (Nat.succ_pos _)))
      fun token => ?_
    by_cases h : kinds token.kind
    · exact .inr ⟨inside, hInside, fun rest => if_pos h⟩
    · exact .inr ⟨outside, hOutside, fun rest => if_neg h⟩

theorem one (kind : Kind) (expected : Expected) : Prompt bound id (Scan.one kind expected) :=
  .branch (fun text => .done text) (Nat.le_succ _) (.fail expected)

/-- Where a trial comes to an end: behind nothing if it succeeds, and else where it fails. -/
def trialEnd (trial : Scan α) (tokens : List Token) : List Token :=
  match trial tokens with
  | .ok _ => tokens
  | .error failure => failure.rest

theorem attempt {trial : Scan α} {onward : α → Scan β} {fallback : β}
    (hTrial : Prompt bound id trial)
    (hOnward : ∀ middle, Prompt small (trialEnd trial) (onward middle))
    (fits : ∀ {tokens middle rest}, tokens.length < bound → trial tokens = .ok (middle, rest) →
      rest.length < small) :
    Prompt bound (trialEnd trial) (Scan.attempt trial onward fallback) where
  beyond_le {tokens} lt := by
    have le := hTrial.beyond_le lt
    unfold Scan.attempt
    cases found : trial tokens with
    | ok result =>
      rw [found] at le
      exact Nat.le_trans ((hOnward _).beyond_le (fits lt found)) le
    | error failure =>
      rw [found] at le
      simp only [Outcome.beyond, trialEnd, found]
      exact le
  settled {token rest other tokens others} agree lt far := by
    have settled := hTrial.settled agree lt
    unfold Scan.attempt at far ⊢
    cases found : trial tokens with
    | ok result =>
      have lt' := fits lt found
      rw [found] at far settled
      obtain ⟨left, eq, agree'⟩ := settled (Nat.lt_of_lt_of_le far ((hOnward _).beyond_le lt'))
      rw [eq]
      exact (hOnward _).settled agree' lt' far
    | error failure =>
      simp only [found, Outcome.beyond, trialEnd] at far
      rw [found] at settled
      obtain ⟨left, eq, -⟩ := settled far
      exact ⟨others, by rw [eq]; rfl, agree⟩

theorem separated {separator : Kind} {item : Reader α}
    (hItem : ∀ bound, Prompt bound id item.scan) :
    Prompt bound id (Reader.scan (separated separator item)) := by
  induction bound with
  | zero => exact .zero _ _
  | succ bound ih =>
    rw [scan_separated]
    exact .andThen (hItem _) fun value => .branch (fun _ => .map (value :: ·) ih) (Nat.le_refl _)
      (.done [value])

end Prompt

end Pseudocod

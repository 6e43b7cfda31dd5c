import Pseudocod.Proofs.Scan.Basic

/-!
# Faithful scans

A scan is faithful to a language if what it consumes is a word of the language, and what it
consumes before a failure is the beginning of one. The combinators keep this property, which is
bounded by the number of tokens, so that readers that call each other can be treated by induction.

* `Faithful.andThenWithin`: one scan after another, where the second one may be faithful on fewer
  tokens.
* `Faithful.attempt`: a trial whose failure is forgotten.
* `Faithful.separated`: items with separators between them.
-/

namespace Pseudocod

variable {α β : Type}

/-- On fewer than `bound` tokens, a scan reads words of a language, and fails only behind the
beginning of a word. The language has words. -/
structure Faithful (bound : Nat) (scan : Scan α) (Word : Language α) : Prop where
  inhabited : ∃ word value, Word word value
  word_of_ok : ∀ {tokens value rest}, tokens.length < bound → scan tokens = .ok (value, rest) →
    ∃ word, tokens = word ++ rest ∧ Word word value
  begin_of_error : ∀ {tokens failure}, tokens.length < bound → scan tokens = .error failure →
    ∃ before after value, tokens = before ++ failure.rest ∧ Word (before ++ after) value

namespace Faithful

variable {bound small : Nat}

theorem mono {scan : Scan α} {Word Word' : Language α} (h : Faithful bound scan Word)
    (hWord : ∀ {word value}, Word word value → Word' word value) : Faithful bound scan Word' where
  inhabited := by
    obtain ⟨word, value, hw⟩ := h.inhabited
    exact ⟨word, value, hWord hw⟩
  word_of_ok lt found := by
    obtain ⟨word, eq, hw⟩ := h.word_of_ok lt found
    exact ⟨word, eq, hWord hw⟩
  begin_of_error lt found := by
    obtain ⟨before, after, value, eq, hw⟩ := h.begin_of_error lt found
    exact ⟨before, after, value, eq, hWord hw⟩

theorem zero {scan : Scan α} {Word : Language α} (inhabited : ∃ word value, Word word value) :
    Faithful 0 scan Word where
  inhabited := inhabited
  word_of_ok lt := absurd lt (Nat.not_lt_zero _)
  begin_of_error lt := absurd lt (Nat.not_lt_zero _)

theorem length_le {scan : Scan α} {Word : Language α} (h : Faithful bound scan Word)
    {tokens : List Token} (lt : tokens.length < bound) :
    (scan tokens).rest.length ≤ tokens.length := by
  cases found : scan tokens with
  | ok result =>
    obtain ⟨word, eq, -⟩ := h.word_of_ok lt found
    rw [eq, List.length_append]
    exact Nat.le_add_left _ _
  | error failure =>
    obtain ⟨before, after, value, eq, -⟩ := h.begin_of_error lt found
    rw [eq, List.length_append]
    exact Nat.le_add_left _ _

theorem done (value : α) : Faithful bound (Scan.done value) (Language.done value) where
  inhabited := ⟨[], value, rfl, rfl⟩
  word_of_ok _ found := by
    cases found
    exact ⟨[], rfl, rfl, rfl⟩
  begin_of_error _ found := by cases found

theorem fail {Word : Language α} (expected : Expected) (inhabited : ∃ word value, Word word value) :
    Faithful bound (Scan.fail expected) Word where
  inhabited := inhabited
  word_of_ok _ found := by cases found
  begin_of_error {tokens failure} _ found := by
    cases found
    obtain ⟨word, value, hw⟩ := inhabited
    exact ⟨[], word, value, rfl, hw⟩

theorem map {scan : Scan α} {Word : Language α} (f : α → β) (h : Faithful bound scan Word) :
    Faithful bound (scan.map f) (Word.map f) where
  inhabited := by
    obtain ⟨word, value, hw⟩ := h.inhabited
    exact ⟨word, f value, value, hw, rfl⟩
  word_of_ok {tokens value rest} lt found := by
    obtain ⟨inner, read, rfl⟩ := Scan.map_eq_ok_iff.mp found
    obtain ⟨word, eq, hw⟩ := h.word_of_ok lt read
    exact ⟨word, eq, inner, hw, rfl⟩
  begin_of_error {tokens failure} lt found := by
    obtain ⟨before, after, value, eq, hw⟩ := h.begin_of_error lt (Scan.map_eq_error_iff.mp found)
    exact ⟨before, after, f value, eq, value, hw, rfl⟩

theorem andThenWithin {first : Scan α} {second : α → Scan β} {First : Language α}
    {Second : α → Language β} (hFirst : Faithful bound first First)
    (hSecond : ∀ middle, Faithful small (second middle) (Second middle))
    (fits : ∀ {tokens middle rest}, tokens.length < bound → first tokens = .ok (middle, rest) →
      rest.length < small) :
    Faithful bound (first.andThen second) (First.andThen Second) where
  inhabited := by
    obtain ⟨front, middle, hf⟩ := hFirst.inhabited
    obtain ⟨back, value, hb⟩ := (hSecond middle).inhabited
    exact ⟨front ++ back, value, front, middle, back, rfl, hf, hb⟩
  word_of_ok {tokens value rest} lt found := by
    unfold Scan.andThen at found
    cases hf : first tokens with
    | error failure => simp [hf] at found
    | ok result =>
      obtain ⟨middle, rest₁⟩ := result
      obtain ⟨front, eq, hw⟩ := hFirst.word_of_ok lt hf
      rw [hf] at found
      obtain ⟨back, rfl, hb⟩ := (hSecond middle).word_of_ok (fits lt hf) found
      exact ⟨front ++ back, by rw [eq, List.append_assoc], front, middle, back, rfl, hw, hb⟩
  begin_of_error {tokens failure} lt found := by
    unfold Scan.andThen at found
    cases hf : first tokens with
    | error failure' =>
      rw [hf] at found
      cases found
      obtain ⟨before, after, middle, eq, hw⟩ := hFirst.begin_of_error lt hf
      obtain ⟨back, value, hb⟩ := (hSecond middle).inhabited
      exact ⟨before, after ++ back, value, eq, before ++ after, middle, back,
        by rw [List.append_assoc], hw, hb⟩
    | ok result =>
      obtain ⟨middle, rest₁⟩ := result
      obtain ⟨front, eq, hw⟩ := hFirst.word_of_ok lt hf
      rw [hf] at found
      obtain ⟨before, after, value, rfl, hb⟩ := (hSecond middle).begin_of_error (fits lt hf) found
      exact ⟨front ++ before, after, value, by rw [eq, List.append_assoc], front, middle,
        before ++ after, by rw [List.append_assoc], hw, hb⟩

theorem length_lt {scan : Scan α} {Word : Language α} (h : Faithful bound scan Word)
    {tokens rest : List Token} {value : α} (lt : tokens.length < bound)
    (found : scan tokens = .ok (value, rest)) : rest.length < bound := by
  have := h.length_le lt
  rw [found] at this
  exact Nat.lt_of_le_of_lt this lt

theorem andThen {first : Scan α} {second : α → Scan β} {First : Language α}
    {Second : α → Language β} (hFirst : Faithful bound first First)
    (hSecond : ∀ middle, Faithful bound (second middle) (Second middle)) :
    Faithful bound (first.andThen second) (First.andThen Second) :=
  hFirst.andThenWithin hSecond hFirst.length_lt

theorem branch {kind : Kind} {onward : String → Scan α} {otherwise : Scan α}
    {Onward : String → Language α} {Otherwise : Language α}
    (hOnward : ∀ text, Faithful small (onward text) (Onward text)) (le : bound ≤ small + 1)
    (hOtherwise : Faithful bound otherwise Otherwise) :
    Faithful bound (Scan.branch kind onward otherwise) (Language.branch kind Onward Otherwise) where
  inhabited := by
    obtain ⟨word, value, hw⟩ := hOtherwise.inhabited
    exact ⟨word, value, .inr hw⟩
  word_of_ok {tokens value rest} lt found := by
    cases tokens with
    | nil =>
      obtain ⟨word, eq, hw⟩ := hOtherwise.word_of_ok lt found
      exact ⟨word, eq, .inr hw⟩
    | cons token tokens =>
      by_cases h : token.kind = kind
      · rw [Scan.branch, if_pos h] at found
        obtain ⟨back, rfl, hb⟩ := (hOnward token.text).word_of_ok
          (by rw [List.length_cons] at lt; omega) found
        exact ⟨token :: back, rfl, .inl ⟨token, back, rfl, h, hb⟩⟩
      · rw [Scan.branch, if_neg h] at found
        obtain ⟨word, eq, hw⟩ := hOtherwise.word_of_ok lt found
        exact ⟨word, eq, .inr hw⟩
  begin_of_error {tokens failure} lt found := by
    cases tokens with
    | nil =>
      obtain ⟨before, after, value, eq, hw⟩ := hOtherwise.begin_of_error lt found
      exact ⟨before, after, value, eq, .inr hw⟩
    | cons token tokens =>
      by_cases h : token.kind = kind
      · rw [Scan.branch, if_pos h] at found
        obtain ⟨before, after, value, rfl, hb⟩ := (hOnward token.text).begin_of_error
          (by rw [List.length_cons] at lt; omega) found
        exact ⟨token :: before, after, value, rfl, .inl ⟨token, before ++ after, rfl, h, hb⟩⟩
      · rw [Scan.branch, if_neg h] at found
        obtain ⟨before, after, value, eq, hw⟩ := hOtherwise.begin_of_error lt found
        exact ⟨before, after, value, eq, .inr hw⟩

theorem choose {kinds : Kind → Bool} {inside outside : Scan α} {Word : Language α}
    (hInside : Faithful bound inside Word) (hOutside : Faithful bound outside Word) :
    Faithful bound (Scan.choose kinds inside outside) Word := by
  have either (tokens : List Token) : Scan.choose kinds inside outside tokens = inside tokens ∨
      Scan.choose kinds inside outside tokens = outside tokens := by
    cases tokens with
    | nil => exact .inr rfl
    | cons token rest =>
      by_cases h : kinds token.kind
      · exact .inl (if_pos h)
      · exact .inr (if_neg h)
  refine ⟨hInside.inhabited, ?_, ?_⟩
  · intro tokens value rest lt found
    rcases either tokens with eq | eq
    · exact hInside.word_of_ok lt (eq ▸ found)
    · exact hOutside.word_of_ok lt (eq ▸ found)
  · intro tokens failure lt found
    rcases either tokens with eq | eq
    · exact hInside.begin_of_error lt (eq ▸ found)
    · exact hOutside.begin_of_error lt (eq ▸ found)

theorem one (kind : Kind) (expected : Expected) :
    Faithful bound (Scan.one kind expected) (Language.one kind) := by
  have other : Faithful bound (Scan.fail expected) (Language.one kind) :=
    .fail expected ⟨[{ kind, text := "", location := .start }], "", _, rfl, rfl, rfl⟩
  refine .mono (.branch (fun text => .done text) (Nat.le_succ _) other) ?_
  rintro _ _ (⟨token, _, rfl, h, rfl, rfl⟩ | h)
  · exact ⟨token, rfl, h, rfl⟩
  · exact h

theorem attempt {trial : Scan α} {onward : α → Scan β} {fallback : β} {Trial : Language α}
    {Onward : α → Language β} (hTrial : Faithful bound trial Trial)
    (hOnward : ∀ middle, Faithful small (onward middle) (Onward middle))
    (fits : ∀ {tokens middle rest}, tokens.length < bound → trial tokens = .ok (middle, rest) →
      rest.length < small) :
    Faithful bound (Scan.attempt trial onward fallback) fun word value =>
      Trial.andThen Onward word value ∨ Language.done fallback word value := by
  have both := hTrial.andThenWithin hOnward fits
  -- on a failed trial nothing is consumed, and otherwise the trial is the first of two scans
  have split (tokens : List Token) :
      Scan.attempt trial onward fallback tokens = .ok (fallback, tokens) ∨
      Scan.attempt trial onward fallback tokens = trial.andThen onward tokens := by
    unfold Scan.attempt Scan.andThen
    cases trial tokens with
    | ok result => exact .inr rfl
    | error failure => exact .inl rfl
  refine ⟨⟨[], fallback, .inr ⟨rfl, rfl⟩⟩, ?_, ?_⟩
  · intro tokens value rest lt found
    rcases split tokens with eq | eq
    · rw [eq] at found
      cases found
      exact ⟨[], rfl, .inr ⟨rfl, rfl⟩⟩
    · obtain ⟨word, eq', hw⟩ := both.word_of_ok lt (eq ▸ found)
      exact ⟨word, eq', .inl hw⟩
  · intro tokens failure lt found
    rcases split tokens with eq | eq
    · rw [eq] at found
      cases found
    · obtain ⟨before, after, value, eq', hw⟩ := both.begin_of_error lt (eq ▸ found)
      exact ⟨before, after, value, eq', .inl hw⟩

theorem separated {separator : Kind} {item : Reader α} {Item : Language α}
    (hItem : ∀ bound, Faithful bound item.scan Item) :
    Faithful bound (Reader.scan (separated separator item)) (SeparatedBy separator Item) := by
  induction bound with
  | zero =>
    obtain ⟨word, value, hw⟩ := (hItem 0).inhabited
    exact .zero ⟨word, [value], .single hw⟩
  | succ bound ih =>
    rw [scan_separated]
    refine .mono (.andThen (hItem _) fun value => .branch (fun _ => .map (value :: ·) ih)
      (Nat.le_refl _) (.done [value])) ?_
    · rintro _ _ ⟨word, value, _, rfl, hw, ⟨token, more, rfl, h, values, hm, rfl⟩ | ⟨rfl, rfl⟩⟩
      · exact .cons hw h hm
      · rw [List.append_nil]
        exact .single hw

end Faithful

end Pseudocod

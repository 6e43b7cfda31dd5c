import Pseudocod.Proofs.Scan.Basic

/-!
# Scans that quote what they are given

What a scan says when it fails may quote a text. A scan quotes nothing of its own: each text is that
of a token it was given, or one of some names that were read before. The combinators keep this
property, which is bounded by the number of tokens, so that readers that call each other can be
treated by induction.

* `Quoting.branchName`: behind a token its text is one of the names.
* `Quoting.andThenWithin`: one scan after another.
* `Quoting.attempt`: the failure of a trial, which is forgotten, quotes nothing.
* `Quoting.separated`: items with separators between them.
-/

namespace Pseudocod

variable {α β : Type}

/-- The texts that are quoted when it is said what was looked for. -/
def Expected.quoted : Expected → List String
  | .assignOrSwap name => [name]
  | _ => []

/-- On fewer than `bound` tokens, a scan leaves some of them at the end, and what it quotes when it
fails is one of the names or the text of a token. -/
structure Quoting (names : List String) (bound : Nat) (scan : Scan α) : Prop where
  rest_suffix : ∀ {tokens}, tokens.length < bound → (scan tokens).rest <:+ tokens
  quoted_subset : ∀ {tokens failure}, tokens.length < bound → scan tokens = .error failure →
    failure.expected.quoted ⊆ names ++ tokens.map Token.text

namespace Quoting

variable {names : List String} {bound small : Nat}

/-- What is quoted of the last tokens is quoted of all of them. -/
theorem subset_of_suffix {texts : List String} {rest tokens : List Token}
    (h : texts ⊆ names ++ rest.map Token.text) (suffix : rest <:+ tokens) :
    texts ⊆ names ++ tokens.map Token.text :=
  List.Subset.trans h (List.append_subset.mpr ⟨List.subset_append_left _ _,
    List.Subset.trans (suffix.map Token.text).subset (List.subset_append_right _ _)⟩)

theorem zero (scan : Scan α) : Quoting names 0 scan where
  rest_suffix lt := absurd lt (Nat.not_lt_zero _)
  quoted_subset lt := absurd lt (Nat.not_lt_zero _)

theorem done (value : α) : Quoting names bound (Scan.done value) where
  rest_suffix _ := List.suffix_rfl
  quoted_subset _ found := nomatch found

theorem fail {expected : Expected} (h : expected.quoted ⊆ names) :
    Quoting names bound (Scan.fail expected : Scan α) where
  rest_suffix _ := List.suffix_rfl
  quoted_subset _ found := by
    cases found
    exact List.Subset.trans h (List.subset_append_left _ _)

theorem map {scan : Scan α} (f : α → β) (h : Quoting names bound scan) :
    Quoting names bound (scan.map f) where
  rest_suffix {tokens} lt := by
    have suffix := h.rest_suffix lt
    unfold Scan.map
    cases found : scan tokens <;> rw [found] at suffix <;> exact suffix
  quoted_subset lt failed := h.quoted_subset lt (Scan.map_eq_error_iff.mp failed)

theorem andThenWithin {first : Scan α} {second : α → Scan β} (hFirst : Quoting names bound first)
    (hSecond : ∀ middle, Quoting names small (second middle))
    (fits : ∀ {tokens middle rest}, tokens.length < bound → first tokens = .ok (middle, rest) →
      rest.length < small) :
    Quoting names bound (first.andThen second) where
  rest_suffix {tokens} lt := by
    have suffix := hFirst.rest_suffix lt
    unfold Scan.andThen
    cases found : first tokens with
    | error failure => rw [found] at suffix; exact suffix
    | ok result =>
      rw [found] at suffix
      exact ((hSecond _).rest_suffix (fits lt found)).trans suffix
  quoted_subset {tokens failure} lt failed := by
    have suffix := hFirst.rest_suffix lt
    unfold Scan.andThen at failed
    cases found : first tokens with
    | error failure' =>
      rw [found] at failed
      cases failed
      exact hFirst.quoted_subset lt found
    | ok result =>
      rw [found] at failed suffix
      exact subset_of_suffix ((hSecond _).quoted_subset (fits lt found) failed) suffix

theorem length_lt {scan : Scan α} (h : Quoting names bound scan) {tokens rest : List Token}
    {value : α} (lt : tokens.length < bound) (found : scan tokens = .ok (value, rest)) :
    rest.length < bound := by
  have suffix := h.rest_suffix lt
  rw [found] at suffix
  exact Nat.lt_of_le_of_lt suffix.length_le lt

theorem andThen {first : Scan α} {second : α → Scan β} (hFirst : Quoting names bound first)
    (hSecond : ∀ middle, Quoting names bound (second middle)) :
    Quoting names bound (first.andThen second) :=
  hFirst.andThenWithin hSecond hFirst.length_lt

/-- A scan that takes the first token and goes on, or leaves all tokens to another scan. What
follows on a token may quote its text. -/
theorem ofFirst {scan : Scan α} (le : bound ≤ small + 1)
    (hNil : ∃ other, Quoting names bound other ∧ scan [] = other [])
    (hCons : ∀ token : Token,
      (∃ onward, Quoting (token.text :: names) small onward ∧
        ∀ rest, scan (token :: rest) = onward rest) ∨
      ∃ other, Quoting names bound other ∧ ∀ rest, scan (token :: rest) = other (token :: rest)) :
    Quoting names bound scan where
  rest_suffix {tokens} lt := by
    cases tokens with
    | nil =>
      obtain ⟨other, hOther, eq⟩ := hNil
      rw [eq]
      exact hOther.rest_suffix lt
    | cons token tokens =>
      rcases hCons token with ⟨onward, hOnward, eq⟩ | ⟨other, hOther, eq⟩
      · rw [eq]
        rw [List.length_cons] at lt
        exact (hOnward.rest_suffix (by omega)).trans (List.suffix_cons _ _)
      · rw [eq]
        exact hOther.rest_suffix lt
  quoted_subset {tokens failure} lt failed := by
    cases tokens with
    | nil =>
      obtain ⟨other, hOther, eq⟩ := hNil
      rw [eq] at failed
      exact hOther.quoted_subset lt failed
    | cons token tokens =>
      rcases hCons token with ⟨onward, hOnward, eq⟩ | ⟨other, hOther, eq⟩
      · rw [eq] at failed
        rw [List.length_cons] at lt
        refine List.Subset.trans (hOnward.quoted_subset (by omega) failed) ?_
        exact List.perm_middle.symm.subset
      · rw [eq] at failed
        exact hOther.quoted_subset lt failed

theorem weaken {more : List String} {scan : Scan α} (h : Quoting names bound scan)
    (subset : names ⊆ more) : Quoting more bound scan where
  rest_suffix := h.rest_suffix
  quoted_subset lt found := List.Subset.trans (h.quoted_subset lt found)
    (List.append_subset.mpr ⟨List.Subset.trans subset (List.subset_append_left _ _),
      List.subset_append_right _ _⟩)

/-- What follows on a token may quote its text. -/
theorem branchName {kind : Kind} {onward : String → Scan α} {otherwise : Scan α}
    (hOnward : ∀ text, Quoting (text :: names) small (onward text)) (le : bound ≤ small + 1)
    (hOtherwise : Quoting names bound otherwise) :
    Quoting names bound (Scan.branch kind onward otherwise) := by
  refine ofFirst le ⟨otherwise, hOtherwise, rfl⟩ fun token => ?_
  by_cases h : token.kind = kind
  · exact .inl ⟨onward token.text, hOnward _, fun rest => if_pos h⟩
  · exact .inr ⟨otherwise, hOtherwise, fun rest => if_neg h⟩

theorem branch {kind : Kind} {onward : String → Scan α} {otherwise : Scan α}
    (hOnward : ∀ text, Quoting names small (onward text)) (le : bound ≤ small + 1)
    (hOtherwise : Quoting names bound otherwise) :
    Quoting names bound (Scan.branch kind onward otherwise) :=
  branchName (fun text => (hOnward text).weaken (List.subset_cons_self _ _)) le hOtherwise

theorem choose {kinds : Kind → Bool} {inside outside : Scan α}
    (hInside : Quoting names bound inside) (hOutside : Quoting names bound outside) :
    Quoting names bound (Scan.choose kinds inside outside) := by
  refine ofFirst (Nat.le_succ bound) ⟨outside, hOutside, rfl⟩ fun token => ?_
  by_cases h : kinds token.kind
  · exact .inr ⟨inside, hInside, fun rest => if_pos h⟩
  · exact .inr ⟨outside, hOutside, fun rest => if_neg h⟩

theorem one {kind : Kind} {expected : Expected} (h : expected.quoted ⊆ names) :
    Quoting names bound (Scan.one kind expected) :=
  .branch (fun text => .done text) (Nat.le_succ _) (.fail h)

theorem attempt {trial : Scan α} {onward : α → Scan β} {fallback : β}
    (hTrial : Quoting names bound trial) (hOnward : ∀ middle, Quoting names bound (onward middle)) :
    Quoting names bound (Scan.attempt trial onward fallback) where
  rest_suffix {tokens} lt := by
    have suffix := hTrial.rest_suffix lt
    unfold Scan.attempt
    cases found : trial tokens with
    | error failure => exact List.suffix_rfl
    | ok result =>
      rw [found] at suffix
      exact ((hOnward _).rest_suffix (hTrial.length_lt lt found)).trans suffix
  quoted_subset {tokens failure} lt failed := by
    have suffix := hTrial.rest_suffix lt
    unfold Scan.attempt at failed
    cases found : trial tokens with
    | error failure' =>
      rw [found] at failed
      exact nomatch failed
    | ok result =>
      rw [found] at failed suffix
      exact subset_of_suffix ((hOnward _).quoted_subset (hTrial.length_lt lt found) failed) suffix

theorem separated {separator : Kind} {item : Reader α}
    (hItem : ∀ bound, Quoting names bound item.scan) :
    Quoting names bound (Reader.scan (separated separator item)) := by
  induction bound with
  | zero => exact .zero _
  | succ bound ih =>
    rw [scan_separated]
    exact .andThen (hItem _) fun value => .branch (fun _ => .map (value :: ·) ih) (Nat.le_refl _)
      (.done [value])

end Quoting

end Pseudocod

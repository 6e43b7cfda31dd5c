import Pseudocod.Proofs.Scan.Basic

/-!
# Complete scans

A scan is complete for a language if it reads every word of it in front of all tokens that may
follow the word. What may follow depends on the value of the word, and is such that the scan does
not take it for a part of the word. Completeness is bounded by the number of tokens, so that readers
that call each other can be treated by induction.

* `Complete.separated`: items with separators between them, in front of no separator.
-/

namespace Pseudocod

variable {α : Type}

/-- What is left does not begin with a token of certain kinds. -/
def Clear (kinds : Kind → Bool) (rest : List Token) : Prop :=
  ∀ token ∈ rest.head?, kinds token.kind = false

namespace Clear

variable {kinds : Kind → Bool} {rest : List Token}

theorem nil (kinds : Kind → Bool) : Clear kinds [] := by
  rintro _ ⟨⟩

theorem cons {token : Token} (h : kinds token.kind = false) : Clear kinds (token :: rest) := by
  rintro _ ⟨⟩
  exact h

theorem mono {kinds' : Kind → Bool} (h : Clear kinds rest)
    (sub : ∀ kind, kinds kind = false → kinds' kind = false) : Clear kinds' rest := by
  intro token ht
  exact sub _ (h token ht)

theorem ne {kind : Kind} (h : Clear kinds rest) (member : kinds kind = true) :
    ∀ token ∈ rest.head?, token.kind ≠ kind := by
  rintro token ht rfl
  exact Bool.noConfusion (member.symm.trans (h token ht))

end Clear

/-- On fewer than `bound` tokens, a scan reads every word of a language in front of what may follow
the word. -/
def Complete (bound : Nat) (scan : Scan α) (Word : Language α)
    (Follow : α → List Token → Prop) : Prop :=
  ∀ ⦃word value rest⦄, (word ++ rest).length < bound → Word word value → Follow value rest →
    scan (word ++ rest) = .ok (value, rest)

theorem Complete.separated {bound : Nat} {separator : Kind} {item : Reader α} {Item : Language α}
    {kinds : Kind → Bool} (clear : kinds separator = false)
    (hItem : Complete bound item.scan Item fun _ => Clear kinds) :
    Complete bound (Reader.scan (separated separator item)) (SeparatedBy separator Item) fun _ =>
      Clear fun kind => kinds kind || kind = separator := by
  intro word values rest lt hWord follow
  induction hWord with
  | single hw =>
    have stop : ∀ token ∈ rest.head?, token.kind ≠ separator := follow.ne (by simp)
    rw [scan_separated, Scan.andThen, hItem lt hw (follow.mono (by simp +contextual))]
    cases rest with
    | nil => rfl
    | cons token rest => exact if_neg (stop token rfl)
  | cons hw h _ ih =>
    rw [List.append_assoc, List.cons_append] at lt ⊢
    have more := ih (by rw [List.length_append, List.length_cons] at lt; omega)
    rw [scan_separated, Scan.andThen, hItem lt hw (.cons (by rw [h]; exact clear))]
    simp only [Scan.branch, if_pos h, Scan.map, more]

end Pseudocod

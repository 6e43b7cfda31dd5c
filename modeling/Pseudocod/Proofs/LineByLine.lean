import Pseudocod.Proofs.FileErrors
import Pseudocod.Proofs.Settling

/-!
# Plain forms line by line

No key has a newline, and no newline comes about where a key was. So a newline parts the work: what
is in front of it and what is behind it are written plainly apart from each other, and the newline
stays where it is. Only at the end of a text one may be added, which makes no difference to what is
in front of it, since it is added to the last part alone.

* `endLine_append_newline`: a newline is added to what is behind the last one.
* `count_replaceKeys`: no newline is lost and none comes about.
* `normalise_by_lines`: the plain form of a text by those of its lines.
-/

namespace Pseudocod.Typeset

/-- Texts to which a newline is added: there is something in them, and no newline at the end. -/
def LacksNewline (text : List Char) : Prop :=
  text ≠ [] ∧ text.getLast? ≠ some '\n'

instance (text : List Char) : Decidable (LacksNewline text) :=
  inferInstanceAs (Decidable (_ ∧ _))

theorem endLine_eq (text : List Char) :
    endLine text = text ++ if LacksNewline text then ['\n'] else [] := by
  unfold endLine
  by_cases lacks : LacksNewline text
  · rw [if_neg (not_or.mpr lacks), if_pos lacks]
  · have ended : text = [] ∨ text.getLast? = some '\n' := by
      by_contra none
      exact lacks (not_or.mp none)
    rw [if_pos ended, if_neg lacks, List.append_nil]

theorem lacksNewline_append_newline (text rest : List Char) :
    LacksNewline (text ++ '\n' :: rest) ↔ LacksNewline rest := by
  cases rest with
  | nil => simp [LacksNewline]
  | cons c rest => simp [LacksNewline, List.getLast?_append]

/-- A newline is added to what is behind the last one. -/
theorem endLine_append_newline (text rest : List Char) :
    endLine (text ++ '\n' :: rest) = text ++ '\n' :: endLine rest := by
  simp only [endLine_eq, lacksNewline_append_newline, List.append_assoc, List.cons_append]

/-- Keys are replaced without losing a newline or adding one. -/
theorem count_replaceKeys (text : List Char) :
    (replaceKeys text).count '\n' = text.count '\n' := by
  have lines := congrArg List.length (splitLines_replaceKeys text)
  rw [List.length_map, Text.length_splitLines, Text.length_splitLines] at lines
  exact Nat.succ.inj lines

theorem normaliseChars_append_newline (above below : List Char) :
    normaliseChars (above ++ '\n' :: below) =
      normaliseChars (above ++ ['\n']) ++ normaliseChars below := by
  have alone : replaceKeys [] = [] := by rw [replaceKeys]
  have empty : endLine [] = [] := if_pos (.inl rfl)
  simp only [normaliseChars, replaceKeys_append_newline, endLine_append_newline, alone, empty,
    List.append_assoc, List.cons_append, List.nil_append]

/-- The plain form of a text by its lines. In front of a newline and behind it a text is written
plainly apart from the other part. There are as many newlines as before, and one more if the text in
which the keys were replaced lacks one at its end. Each line is that of the text with its own keys
replaced, and behind the newline that was added is an empty one. -/
theorem normalise_by_lines :
    (∀ above below : String,
      normalise (above ++ "\n" ++ below) = normalise (above ++ "\n") ++ normalise below) ∧
    ∀ source : String,
      (normalise source).toList.count '\n' =
        source.toList.count '\n' + (if LacksNewline (replaceKeys source.toList) then 1 else 0) ∧
      Text.splitLines (normalise source).toList =
        (Text.splitLines source.toList).map replaceKeys ++
          (if LacksNewline (replaceKeys source.toList) then [[]] else []) := by
  refine ⟨fun above below => ?_, fun source => ⟨?_, ?_⟩⟩
  · have newline : "\n".toList = ['\n'] := rfl
    rw [← String.toList_inj, String.toList_append, toList_normalise, toList_normalise,
      toList_normalise, String.toList_append, String.toList_append, newline, List.append_assoc]
    exact normaliseChars_append_newline above.toList below.toList
  · rw [toList_normalise, normaliseChars, endLine_eq, List.count_append, count_replaceKeys]
    split <;> rfl
  · rw [toList_normalise, normaliseChars, endLine_eq, ← splitLines_replaceKeys]
    split
    next => exact Text.splitLines_append_newline _ []
    next => rw [List.append_nil, List.append_nil]

end Pseudocod.Typeset

/-!
# Blank characters

The characters with the Unicode property `White_Space`, kept as ranges of code points, and the
removal of blanks at the end of a text. Blanks separate the words of a program and are dropped
when it is read.

* `isBlank_of_isWhitespace`: every white space character of ASCII is a blank.
* `trimEnd_append_of_isBlank`: a blank at the end makes no difference to `trimEnd`.
-/

namespace Pseudocod.Text

/-- The code points of `White_Space`, as pairs of a first and a last member. -/
def blankRanges : List (Nat × Nat) :=
  [(0x0009, 0x000D), (0x0020, 0x0020), (0x0085, 0x0085), (0x00A0, 0x00A0), (0x1680, 0x1680),
   (0x2000, 0x200A), (0x2028, 0x2029), (0x202F, 0x202F), (0x205F, 0x205F), (0x3000, 0x3000)]

/-- A character is blank if one of the ranges holds its code point. -/
def isBlank (c : Char) : Bool :=
  blankRanges.any fun range => range.1 ≤ c.toNat && c.toNat ≤ range.2

/-- The text without the blanks at its end. -/
def trimEnd (text : List Char) : List Char :=
  (text.reverse.dropWhile isBlank).reverse

theorem isBlank_of_isWhitespace {c : Char} (h : c.isWhitespace = true) : isBlank c = true := by
  simp only [Char.isWhitespace, Bool.or_eq_true, decide_eq_true_eq] at h
  rcases h with ((rfl | rfl) | rfl) | rfl <;> decide

@[simp] theorem trimEnd_nil : trimEnd [] = [] := rfl

theorem trimEnd_append_of_isBlank {text : List Char} {c : Char} (h : isBlank c = true) :
    trimEnd (text ++ [c]) = trimEnd text := by
  simp [trimEnd, h]

theorem trimEnd_append_of_not_isBlank {text : List Char} {c : Char} (h : isBlank c = false) :
    trimEnd (text ++ [c]) = text ++ [c] := by
  simp [trimEnd, h]

end Pseudocod.Text

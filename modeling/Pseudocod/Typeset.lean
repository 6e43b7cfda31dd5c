/-!
# Typeset programs

Exam papers set a program with arrows, relation signs, rules in the margin and letters with
diacritics. `Typeset.normalise` writes such a text with the plain characters that the rest of the
library reads: from left to right, the longest key of the table `replacements` that stands at a
place gives way to its plain form, and a character at which no key stands is kept.

* `matchWithin_isPrefix`: what is replaced stands at the front of the text and is in the table.
* `endLine_eq_nil_iff`: no newline is added to a text of which nothing is left.
-/

namespace Pseudocod.Typeset

/-- What stands in a typeset text, and the plain characters it is written with. -/
def replacements : List (List Char × List Char) :=
  [ -- relations and arrows
    (['≤'], ['<', '=']),
    (['≠'], ['!', '=']),
    (['≥'], ['>', '=']),
    (['→'], ['-', '>']),
    (['←'], ['<', '-']),
    (['■'], ['s', 'f']),
    -- glyphs of a symbol font, in the private use area
    (['\uf0a3'], ['<', '=']),
    (['\uf0b9'], ['!', '=']),
    (['\uf0df'], ['<', '-']),
    (['\x01'], ['<', '-']),
    (['\uf0ab'], ['<', '-', '>']),
    (['<', '-', '-', '>'], ['<', '-', '>']),
    (['<', '-', '-', '-', '>'], ['<', '-', '>']),
    -- rules that mark the depth of a block
    (['│', ' '], [' ', ' ', ' ', ' ']),
    (['│'], [' ', ' ', ' ', ' ']),
    (['|', ' '], [' ', ' ', ' ', ' ']),
    (['|'], [' ', ' ', ' ', ' ']),
    -- quotation marks
    (['’'], ['\'']),
    (['‘'], ['\'']),
    (['”'], ['"']),
    (['„'], ['"']),
    -- corners of the frame around a block
    (['┌'], []),
    (['└'], []),
    -- letters with diacritics, with a comma or a cedilla below
    (['ă'], ['a']),
    (['â'], ['a']),
    (['î'], ['i']),
    (['ș'], ['s']),
    (['ş'], ['s']),
    (['ț'], ['t']),
    (['ţ'], ['t']),
    (['Ă'], ['A']),
    (['Â'], ['A']),
    (['Î'], ['I']),
    (['Ș'], ['S']),
    (['Ş'], ['S']),
    (['Ț'], ['T']),
    (['Ţ'], ['T']) ]

/-- The plain form of `key`, if `key` is in the table. -/
def plainForm? (key : List Char) : Option (List Char) :=
  replacements.lookup key

/-- The length of the longest key. -/
def longestKey : Nat :=
  replacements.foldr (fun entry most => max entry.1.length most) 0

/-- The longest key of at most `bound` characters at the front of `text`, with its plain form. -/
def matchWithin (text : List Char) : (bound : Nat) → Option (List Char × List Char)
  | 0 => none
  | more + 1 =>
    match plainForm? (text.take (more + 1)) with
    | some plain => some (text.take (more + 1), plain)
    | none => matchWithin text more

/-- The longest key at the front of `text`, with its plain form. -/
def longestMatch (text : List Char) : Option (List Char × List Char) :=
  matchWithin text longestKey

/-- The text with every key replaced, from left to right. -/
def replaceKeys : List Char → List Char
  | [] => []
  | c :: text =>
    match longestMatch (c :: text) with
    | some (key, plain) => plain ++ replaceKeys (text.drop (key.length - 1))
    | none => c :: replaceKeys text
termination_by text => text.length

/-- The text with a newline at its end, unless it is empty or has one there. -/
def endLine (text : List Char) : List Char :=
  if text = [] ∨ text.getLast? = some '\n' then text else text ++ ['\n']

/-- The plain characters of a typeset text. -/
def normaliseChars (text : List Char) : List Char :=
  endLine (replaceKeys text)

/-- The plain form of a typeset source. -/
def normalise (source : String) : String :=
  String.ofList (normaliseChars source.toList)

theorem matchWithin_isPrefix {text key plain : List Char} {bound : Nat}
    (h : matchWithin text bound = some (key, plain)) :
    key <+: text ∧ plainForm? key = some plain := by
  induction bound with
  | zero => simp [matchWithin] at h
  | succ more ih =>
    rw [matchWithin] at h
    split at h
    next found =>
      obtain ⟨rfl, rfl⟩ := Prod.mk.inj (Option.some.inj h)
      exact ⟨List.take_prefix _ _, found⟩
    next => exact ih h

theorem endLine_eq_nil_iff {text : List Char} : endLine text = [] ↔ text = [] := by
  unfold endLine; split <;> simp_all

end Pseudocod.Typeset

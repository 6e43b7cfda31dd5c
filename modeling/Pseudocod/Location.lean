/-!
# Locations in a source text

A location counts what lies before a character: the line and the column from 1, both in
characters, and the offset from 0, in bytes of UTF-8. Only a newline starts a new line.

* `Location.after_append`: reading two texts in turn moves a location as reading them as one.
* `Location.offset_after`: the offset grows by the size of the text that was read.
-/

namespace Pseudocod

/-- A place in a source text. -/
structure Location where
  line : Nat := 1
  column : Nat := 1
  offset : Nat := 0
deriving DecidableEq, Repr, Inhabited

namespace Location

/-- The start of a text. -/
def start : Location := {}

/-- The location just after the character `c`. -/
def next (place : Location) (c : Char) : Location :=
  if c = '\n' then
    { line := place.line + 1, column := 1, offset := place.offset + c.utf8Size }
  else
    { line := place.line, column := place.column + 1, offset := place.offset + c.utf8Size }

/-- The location just after `text`. -/
def after (place : Location) (text : List Char) : Location :=
  text.foldl next place

@[simp] theorem after_nil (place : Location) : place.after [] = place := rfl

@[simp] theorem after_cons (place : Location) (c : Char) (text : List Char) :
    place.after (c :: text) = (place.next c).after text := rfl

theorem after_append (place : Location) (first second : List Char) :
    place.after (first ++ second) = (place.after first).after second := by
  simp [after, List.foldl_append]

theorem offset_next (place : Location) (c : Char) :
    (place.next c).offset = place.offset + c.utf8Size := by
  unfold next; split <;> rfl

theorem offset_after (place : Location) (text : List Char) :
    (place.after text).offset = place.offset + (String.ofList text).utf8ByteSize := by
  induction text generalizing place with
  | nil => rfl
  | cons c text ih =>
    rw [after_cons, ih, offset_next, String.ofList_cons, String.utf8ByteSize_append,
      String.utf8ByteSize_singleton, Nat.add_assoc]

theorem line_after (place : Location) (text : List Char) :
    (place.after text).line = place.line + text.count '\n' := by
  induction text generalizing place with
  | nil => rfl
  | cons c text ih =>
    rw [after_cons, ih, next]
    by_cases h : c = '\n'
    · simp [h]; omega
    · simp [h]

end Location

end Pseudocod

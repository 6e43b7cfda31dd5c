/-!
# Lines of a text

A text is cut into lines at every newline, so that a text with `n` newlines has `n + 1` lines and
the empty text has one empty line. A carriage return belongs to the line it ends.

* `splitLines_append_newline`: lines before and after a newline are found apart from each other.
* `splitLines_append`: at other places the line on which two texts meet has a part in both.
* `length_splitLines`: there is one line more than there are newlines.
-/

namespace Pseudocod.Text

/-- The lines of a text, without their newlines. -/
def splitLines : List Char → List (List Char)
  | [] => [[]]
  | '\n' :: text => [] :: splitLines text
  | c :: text =>
    match splitLines text with
    | [] => [[c]]
    | line :: lines => (c :: line) :: lines

/-- The line without one carriage return at its end. -/
def dropReturn (line : List Char) : List Char :=
  if line.getLast? = some '\r' then line.dropLast else line

/-- The texts one after another, with `separator` between any two of them. -/
def joinWith (separator : String) : List String → String
  | [] => ""
  | [text] => text
  | text :: texts => text ++ separator ++ joinWith separator texts

/-- The texts one after another, each ended by a newline. -/
def unlines : List String → String
  | [] => ""
  | line :: lines => line ++ "\n" ++ unlines lines

/-! ## Lines and newlines -/

theorem splitLines_ne_nil (text : List Char) : splitLines text ≠ [] := by
  fun_cases splitLines text <;> simp

@[simp] theorem splitLines_newline (text : List Char) :
    splitLines ('\n' :: text) = [] :: splitLines text := by
  rw [splitLines]

theorem length_splitLines (text : List Char) :
    (splitLines text).length = text.count '\n' + 1 := by
  fun_induction splitLines text with
  | case1 => rfl
  | case2 text ih => simp [ih]
  | case3 c text hc h ih => exact absurd h (splitLines_ne_nil text)
  | case4 c text hc line lines h ih =>
    rw [h] at ih
    rw [List.count_cons_of_ne hc]
    simpa using ih

theorem splitLines_append_newline (before after : List Char) :
    splitLines (before ++ '\n' :: after) = splitLines before ++ splitLines after := by
  fun_induction splitLines before with
  | case1 => simp
  | case2 text ih => simp [ih]
  | case3 c text hc h ih => exact absurd h (splitLines_ne_nil text)
  | case4 c text hc line lines h ih =>
    rw [List.cons_append, splitLines, ih, h]
    · rfl
    · exact hc

theorem splitLines_cons {c : Char} (h : c ≠ '\n') {text line : List Char}
    {lines : List (List Char)} (split : splitLines text = line :: lines) :
    splitLines (c :: text) = (c :: line) :: lines := by
  rw [splitLines, split]
  exact h

theorem splitLines_of_not_mem {text : List Char} (h : '\n' ∉ text) : splitLines text = [text] := by
  induction text with
  | nil => rfl
  | cons c text ih =>
    obtain ⟨ne, absent⟩ := not_or.mp (mt List.mem_cons.mpr h)
    exact splitLines_cons (Ne.symm ne) (ih absent)

theorem not_mem_of_mem_splitLines {text line : List Char} (h : line ∈ splitLines text) :
    '\n' ∉ line := by
  fun_induction splitLines text generalizing line with
  | case1 =>
    rw [List.mem_singleton.mp h]
    exact List.not_mem_nil
  | case2 text ih =>
    rcases List.mem_cons.mp h with rfl | member
    · exact List.not_mem_nil
    · exact ih member
  | case3 c text hc none => exact absurd none (splitLines_ne_nil text)
  | case4 c text hc first lines split ih =>
    rw [split] at ih
    rcases List.mem_cons.mp h with rfl | member
    · intro newline
      rcases List.mem_cons.mp newline with same | inside
      · exact hc same.symm
      · exact ih List.mem_cons_self inside
    · exact ih (List.mem_cons_of_mem _ member)

/-- Where two texts meet, the last line of one and the first line of the other are one line. -/
theorem splitLines_append {before after front first : List Char} {above below : List (List Char)}
    (h : splitLines before = above ++ [front]) (h' : splitLines after = first :: below) :
    splitLines (before ++ after) = above ++ (front ++ first) :: below := by
  fun_induction splitLines before generalizing above front with
  | case1 =>
    obtain ⟨rfl, rfl⟩ : above = [] ∧ front = [] := by
      cases above <;> simp_all
    exact h'
  | case2 text ih =>
    cases above with
    | nil => exact absurd (List.cons.inj h).2 (splitLines_ne_nil text)
    | cons line above =>
      obtain ⟨rfl, split⟩ := List.cons.inj h
      rw [List.cons_append, splitLines_newline, ih split, List.cons_append]
  | case3 c text hc none ih => exact absurd none (splitLines_ne_nil text)
  | case4 c text hc line lines split ih =>
    cases above with
    | nil =>
      obtain ⟨rfl, rfl⟩ := List.cons.inj h
      have joined : splitLines (text ++ after) = (line ++ first) :: below := @ih line [] split
      exact splitLines_cons hc joined
    | cons line' above =>
      obtain ⟨rfl, rfl⟩ := List.cons.inj h
      have joined : splitLines (text ++ after) = line :: (above ++ (front ++ first) :: below) :=
        @ih front (line :: above) split
      exact splitLines_cons hc joined

@[simp] theorem unlines_append (lines more : List String) :
    unlines (lines ++ more) = unlines lines ++ unlines more := by
  induction lines with
  | nil => simp [unlines]
  | cons line lines ih => simp [unlines, ih, String.append_assoc]

end Pseudocod.Text

import Mathlib
import Pseudocod.Proofs.Settling

/-!
# The longest key at every place

A table is not searched key by key. It is a hash map, in which the first character of what is left
of a text is looked up, then the first two, and so on up to the length of the longest key; what is
found last is replaced. The text is cut by numbers of bytes, and a cut that would part a character
is an error. Here the keys are looked up and replaced in this way, no cut goes wrong, and what comes
out is the plain form of the text, which is also given without any search: the longest of all keys
at a place is replaced there.

* `LeftmostLongest`, `leftmostLongest_iff`: the plain form as a relation.
* `Bytes.longestMatch?_eq`: what is found in the hash map is the longest key of the table.
* `Bytes.round_eq`: one round replaces a key or keeps a character.
* `Bytes.Sound.of_reached`: what holds before each round of a run.
* `normalise_leftmost_longest`: the two ways to a plain form lead to the same one.
-/

namespace Pseudocod.Typeset

/-! ## Without a search -/

/-- The longest of all keys of the table at the front of a text, with its plain form. -/
def IsLongestKey (key plain text : List Char) : Prop :=
  (key, plain) ∈ replacements ∧ key <+: text ∧
    ∀ entry ∈ replacements, entry.1 <+: text → entry.1.length ≤ key.length

/-- A text is gone through from the left. The longest key at a place gives way to its plain form,
and the text is gone through behind it. Where there is no key, a character is kept. -/
inductive LeftmostLongest : (text result : List Char) → Prop where
  | nil : LeftmostLongest [] []
  | key {key plain rest result : List Char} :
    IsLongestKey key plain (key ++ rest) → LeftmostLongest rest result →
    LeftmostLongest (key ++ rest) (plain ++ result)
  | other {c : Char} {rest result : List Char} :
    (∀ entry ∈ replacements, ¬ entry.1 <+: c :: rest) → LeftmostLongest rest result →
    LeftmostLongest (c :: rest) (c :: result)

/-- Every key is in the table once. -/
theorem plainForm?_eq_some_iff {key plain : List Char} :
    plainForm? key = some plain ↔ (key, plain) ∈ replacements := by
  have known : ∀ entry ∈ replacements, plainForm? entry.1 = some entry.2 := by decide
  exact ⟨mem_of_plainForm?, known (key, plain)⟩

theorem longestMatch_eq_some_iff_isLongestKey {text key plain : List Char} :
    longestMatch text = some (key, plain) ↔ IsLongestKey key plain text := by
  rw [longestMatch_eq_some_iff, plainForm?_eq_some_iff]
  constructor
  · rintro ⟨front, member, longest⟩
    refine ⟨member, front, fun entry other within => ?_⟩
    by_contra longer
    have absent := longest entry.1 within (Nat.lt_of_not_le longer)
    rw [plainForm?_eq_some_iff.mpr other] at absent
    cases absent
  · rintro ⟨member, front, longest⟩
    refine ⟨front, member, fun longer within lt => ?_⟩
    by_contra found
    obtain ⟨plain', eq⟩ := Option.ne_none_iff_exists'.mp found
    exact Nat.not_le_of_lt lt (longest _ (mem_of_plainForm? eq) within)

theorem longestMatch_eq_none_iff_forall {text : List Char} :
    longestMatch text = none ↔ ∀ entry ∈ replacements, ¬ entry.1 <+: text := by
  rw [longestMatch_eq_none_iff]
  constructor
  · intro absent entry member within
    have none := absent entry.1 within
    rw [plainForm?_eq_some_iff.mpr member] at none
    cases none
  · intro absent key within
    by_contra found
    obtain ⟨plain, eq⟩ := Option.ne_none_iff_exists'.mp found
    exact absent _ (mem_of_plainForm? eq) within

theorem leftmostLongest_replaceKeys (text : List Char) :
    LeftmostLongest text (replaceKeys text) := by
  fun_induction replaceKeys text with
  | case1 => exact .nil
  | case2 c text key plain found ih =>
    obtain ⟨member, ⟨rest, eq⟩, longest⟩ := longestMatch_eq_some_iff_isLongestKey.mp found
    have pos := length_pos_of_plainForm? (plainForm?_eq_some_iff.mpr member)
    rw [drop_key pos, ← eq, List.drop_left] at ih ⊢
    rw [← eq] at longest
    exact .key ⟨member, List.prefix_append key rest, longest⟩ ih
  | case3 c text none ih => exact .other (longestMatch_eq_none_iff_forall.mp none) ih

/-- The keys of a text are replaced in one way only. -/
theorem leftmostLongest_iff {text result : List Char} :
    LeftmostLongest text result ↔ result = replaceKeys text := by
  constructor
  · intro replaced
    induction replaced with
    | nil => rw [replaceKeys]
    | key longest _ ih =>
      rw [replaceKeys_of_some (longestMatch_eq_some_iff_isLongestKey.mpr longest), List.drop_left,
        ih]
    | other none _ ih =>
      rw [replaceKeys_of_none (longestMatch_eq_none_iff_forall.mpr none), ih]
  · rintro rfl
    exact leftmostLongest_replaceKeys text

/-! ## By bytes -/

namespace Bytes

/-- The part of a text in front of a cut, if no character is parted. -/
def front? (text : String) (bytes : Nat) : Option String :=
  if valid : (⟨bytes⟩ : String.Pos.Raw).IsValid text then
    some (text.sliceTo (text.pos _ valid)).copy
  else none

/-- The part of a text behind a cut, if no character is parted. -/
def behind? (text : String) (bytes : Nat) : Option String :=
  if valid : (⟨bytes⟩ : String.Pos.Raw).IsValid text then
    some (text.sliceFrom (text.pos _ valid)).copy
  else none

/-- A table by its hash map, with the number of characters of its longest key. -/
structure Table where
  plainForms : Std.HashMap String String
  longest : Nat

/-- The keys as strings, with their plain forms. -/
def entries : List (String × String) :=
  replacements.map fun entry => (String.ofList entry.1, String.ofList entry.2)

def table : Table :=
  let plainForms := .ofList entries
  { plainForms, longest := (plainForms.keys.map String.length).max?.getD 0 }

/-- The characters of a text, each with the number of bytes in front of it. -/
def charIndices (bytes : Nat) : (text : List Char) → List (Nat × Char)
  | [] => []
  | c :: text => (bytes, c) :: charIndices (bytes + c.utf8Size) text

/-- The front of a text up to a character is looked up. If it is not found, the best one stays. -/
def lookUp (text : String) (best : Option (Nat × String)) (place : Nat × Char) :
    Option (Option (Nat × String)) := do
  let bytes := place.1 + place.2.utf8Size
  let front ← front? text bytes
  match table.plainForms[front]? with
  | some plain => return some (bytes, plain)
  | none => return best

/-- The number of bytes of the key that was found last at the front of a text, with its plain form.
It is an error if a cut parts a character. -/
def longestMatch? (text : String) : Option (Option (Nat × String)) :=
  ((charIndices 0 text.toList).take table.longest).foldlM (lookUp text) none

theorem isValid_append (front behind : String) :
    (⟨front.utf8ByteSize⟩ : String.Pos.Raw).IsValid (front ++ behind) :=
  (String.Pos.ofEqAppend rfl).isValid

theorem splits_pos {front behind : String}
    (valid : (⟨front.utf8ByteSize⟩ : String.Pos.Raw).IsValid (front ++ behind)) :
    ((front ++ behind).pos _ valid).Splits front behind :=
  ⟨rfl, rfl⟩

theorem front?_append (front behind : String) :
    front? (front ++ behind) front.utf8ByteSize = some front := by
  have valid := isValid_append front behind
  rw [front?, dif_pos valid, String.copy_sliceTo_eq_iff_exists_splits.mpr ⟨_, splits_pos valid⟩]

theorem behind?_append (front behind : String) :
    behind? (front ++ behind) front.utf8ByteSize = some behind := by
  have valid := isValid_append front behind
  rw [behind?, dif_pos valid, String.copy_sliceFrom_eq_iff_exists_splits.mpr ⟨_, splits_pos valid⟩]

/-! ### The hash map -/

/-- In the hash map are the keys of the table and no others. -/
theorem getElem?_plainForms (key : List Char) :
    table.plainForms[String.ofList key]? = (plainForm? key).map String.ofList := by
  have distinct : entries.Pairwise fun entry other => (entry.1 == other.1) = false := by
    have nodup : (replacements.map Prod.fst).Nodup := by decide
    simp only [entries, List.pairwise_map, beq_eq_false_iff_ne, ne_eq, String.ofList_inj]
    exact List.pairwise_map.mp nodup
  cases found : plainForm? key with
  | some plain =>
    exact Std.HashMap.getElem?_ofList_of_mem BEq.rfl distinct
      (List.mem_map_of_mem (mem_of_plainForm? found))
  | none =>
    refine Std.HashMap.getElem?_ofList_of_contains_eq_false ?_
    have absent : String.ofList key ∉ entries.map Prod.fst := by
      simp only [entries, List.map_map, List.mem_map, not_exists, not_and]
      intro entry member eq
      have same : entry.1 = key := String.ofList_injective eq
      rw [← same, plainForm?_eq_some_iff.mpr member] at found
      cases found
    simpa using absent

theorem mem_plainForms_iff {key : String} :
    key ∈ table.plainForms ↔ plainForm? key.toList ≠ none := by
  rw [Std.HashMap.mem_iff_isSome_getElem?, ← String.ofList_toList (s := key), getElem?_plainForms,
    Option.isSome_map, Option.isSome_iff_ne_none, String.toList_ofList]

theorem table_longest : table.longest = longestKey := by
  have most : (table.plainForms.keys.map String.length).max? = some longestKey := by
    rw [List.max?_eq_some_iff, List.forall_mem_map]
    constructor
    · refine List.mem_map.mpr ⟨"<--->", Std.HashMap.mem_keys.mpr ?_, rfl⟩
      exact mem_plainForms_iff.mpr (by decide)
    · intro key member
      have found := mem_plainForms_iff.mp (Std.HashMap.mem_keys.mp member)
      obtain ⟨plain, found⟩ := Option.ne_none_iff_exists'.mp found
      exact length_le_longestKey found
  exact congrArg (·.getD 0) most

theorem getElem?_charIndices (bytes : Nat) (front rest : List Char) (c : Char) :
    (charIndices bytes (front ++ c :: rest))[front.length]? =
      some (bytes + (String.ofList front).utf8ByteSize, c) := by
  induction front generalizing bytes with
  | nil => simp [charIndices]
  | cons d front ih =>
    simp [charIndices, ih, Nat.add_assoc]

theorem length_charIndices (bytes : Nat) (text : List Char) :
    (charIndices bytes text).length = text.length := by
  induction text generalizing bytes with
  | nil => rfl
  | cons c text ih => rw [charIndices, List.length_cons, ih, List.length_cons]

/-- A key and its plain form, by the number of bytes of the key. -/
def measured (found : List Char × List Char) : Nat × String :=
  ((String.ofList found.1).utf8ByteSize, String.ofList found.2)

theorem lookUp_eq (front rest : List Char) (c : Char) (best : Option (Nat × String)) :
    lookUp (String.ofList (front ++ c :: rest)) best ((String.ofList front).utf8ByteSize, c) =
      some (match plainForm? (front ++ [c]) with
        | some plain => some (measured (front ++ [c], plain))
        | none => best) := by
  have text : String.ofList (front ++ c :: rest) =
      String.ofList (front ++ [c]) ++ String.ofList rest := by
    rw [← String.ofList_append, List.append_cons]
  have bytes : (String.ofList front).utf8ByteSize + c.utf8Size =
      (String.ofList (front ++ [c])).utf8ByteSize := by
    rw [String.ofList_append, String.utf8ByteSize_append]
    simp
  simp only [lookUp]
  rw [text, bytes, front?_append]
  simp only [Option.bind_eq_bind, Option.bind_some, getElem?_plainForms]
  cases plainForm? (front ++ [c]) <;> rfl

theorem matchWithin_of_length_le {text : List Char} {bound : Nat} (le : text.length ≤ bound) :
    matchWithin text (bound + 1) = matchWithin text bound := by
  cases bound with
  | zero =>
    have empty : text = [] := List.length_eq_zero_iff.mp (Nat.le_zero.mp le)
    rw [empty]
    rfl
  | succ bound =>
    rw [matchWithin, matchWithin, List.take_of_length_le le,
      List.take_of_length_le (Nat.le_succ_of_le le)]
    split <;> simp_all

/-- What was found last among the fronts of up to `bound` characters is the longest key there. -/
theorem foldlM_lookUp (text : List Char) (bound : Nat) :
    ((charIndices 0 text).take bound).foldlM (lookUp (String.ofList text)) none =
      some ((matchWithin text bound).map measured) := by
  induction bound with
  | zero => rfl
  | succ bound ih =>
    rw [List.take_add_one, List.foldlM_append, ih]
    by_cases within : bound < text.length
    · -- the longest front is looked up last, so that a key there is taken for all that came before
      obtain ⟨front, c, rest, rfl, rfl⟩ :
          ∃ front c rest, text = front ++ c :: rest ∧ front.length = bound :=
        ⟨text.take bound, text[bound], text.drop (bound + 1), by simp,
          List.length_take_of_le (Nat.le_of_lt within)⟩
      have front_take : (front ++ c :: rest).take (front.length + 1) = front ++ [c] := by
        simp [List.take_append]
      rw [getElem?_charIndices, Nat.zero_add, matchWithin, front_take]
      simp only [Option.toList_some, Option.bind_eq_bind, Option.bind_some, List.foldlM_cons,
        List.foldlM_nil, lookUp_eq]
      cases plainForm? (front ++ [c]) <;> rfl
    · -- behind the end of the text there is nothing more to look up
      have le := Nat.le_of_not_lt within
      have none : (charIndices 0 text)[bound]? = none := by
        rwa [List.getElem?_eq_none_iff, length_charIndices]
      rw [none, matchWithin_of_length_le le]
      rfl

/-- What is found in the hash map is the longest key at the front of a text. -/
theorem longestMatch?_eq (text : String) :
    longestMatch? text = some ((longestMatch text.toList).map measured) := by
  rw [longestMatch?, longestMatch, table_longest, ← foldlM_lookUp, String.ofList_toList]

/-! ### The loop -/

/-- How far a text has been gone through, and what has been written. -/
structure Pass where
  bytes : Nat
  written : String

/-- A round writes the plain form of a key and goes on behind it. If there is no key, it does so
with a character. -/
def round (source : String) (pass : Pass) : Option Pass := do
  let rest ← behind? source pass.bytes
  match ← longestMatch? rest with
  | some (bytes, plain) =>
    return { bytes := pass.bytes + bytes, written := pass.written ++ plain }
  | none =>
    let c := rest.toList.head?.getD '\x00'
    return { bytes := pass.bytes + max c.utf8Size 1, written := pass.written.push c }

/-- No cut goes wrong in a round that starts at the end of a character. -/
theorem round_of_behind? {source rest : String} {pass : Pass}
    (h : behind? source pass.bytes = some rest) :
    round source pass = some (match longestMatch rest.toList with
      | some (key, plain) =>
        { bytes := pass.bytes + (String.ofList key).utf8ByteSize,
          written := pass.written ++ String.ofList plain }
      | none =>
        let c := rest.toList.head?.getD '\x00'
        { bytes := pass.bytes + max c.utf8Size 1, written := pass.written.push c }) := by
  simp only [round, h, longestMatch?_eq, Option.bind_eq_bind, Option.bind_some]
  cases longestMatch rest.toList <;> rfl

theorem utf8ByteSize_ofList_pos {text : List Char} (ne : text ≠ []) :
    0 < (String.ofList text).utf8ByteSize := by
  refine Nat.pos_of_ne_zero fun zero => ne ?_
  rw [String.utf8ByteSize_eq_zero_iff, ← String.toList_inj, String.toList_ofList] at zero
  exact zero

/-- Every round goes on by at least one byte. -/
theorem bytes_lt_of_round {source : String} {pass next : Pass}
    (h : round source pass = some next) : pass.bytes < next.bytes := by
  cases cut : behind? source pass.bytes with
  | none => simp [round, cut] at h
  | some rest =>
    rw [round_of_behind? cut, Option.some_inj] at h
    subst h
    split
    next key plain found =>
      have pos := length_pos_of_plainForm? (longestMatch_eq_some_iff.mp found).2.1
      exact Nat.lt_add_of_pos_right (utf8ByteSize_ofList_pos (List.ne_nil_of_length_pos pos))
    next => exact Nat.lt_add_of_pos_right (Nat.lt_of_lt_of_le Nat.one_pos (Nat.le_max_right _ _))

/-- A round replaces a part of the text and goes on behind it. -/
theorem round_eq (front : String) {rest : String} (written : String) (ne : rest ≠ "") :
    ∃ taken behind plain, rest = taken ++ behind ∧ taken ≠ "" ∧
      respell rest = plain ++ respell behind ∧
      round (front ++ rest) { bytes := front.utf8ByteSize, written } =
        some { bytes := (front ++ taken).utf8ByteSize, written := written ++ plain } := by
  rw [round_of_behind? (behind?_append front rest)]
  cases found : longestMatch rest.toList with
  | some entry =>
    obtain ⟨key, plain⟩ := entry
    obtain ⟨⟨behind, parts⟩, known, _⟩ := longestMatch_eq_some_iff.mp found
    have pos := utf8ByteSize_ofList_pos (List.ne_nil_of_length_pos (length_pos_of_plainForm? known))
    refine ⟨.ofList key, .ofList behind, .ofList plain, ?_, ?_, ?_, ?_⟩
    · rw [← String.ofList_append, parts, String.ofList_toList]
    · rintro empty
      exact Nat.ne_of_gt pos (congrArg String.utf8ByteSize empty)
    · rw [respell, replaceKeys_of_some found, ← parts, List.drop_left, String.ofList_append,
        respell, String.toList_ofList]
    · rw [String.utf8ByteSize_append]
  | none =>
    obtain ⟨c, behind, parts⟩ : ∃ c behind, rest.toList = c :: behind :=
      List.exists_cons_of_ne_nil (mt String.toList_eq_nil_iff.mp ne)
    refine ⟨.singleton c, .ofList behind, .singleton c, ?_, ?_, ?_, ?_⟩
    · rw [← String.toList_inj]
      simp [parts]
    · simp
    · rw [parts] at found
      rw [respell, parts, replaceKeys_of_none found, ← String.toList_inj]
      simp
    · have size : max c.utf8Size 1 = c.utf8Size := Nat.max_eq_left c.utf8Size_pos
      simp [parts, size, String.append_singleton]

/-- The rounds until the end of the text. -/
def rounds (source : String) (pass : Pass) : Option Pass :=
  if pass.bytes < source.utf8ByteSize then
    match _eq : round source pass with
    | some next => rounds source next
    | none => none
  else some pass
termination_by source.utf8ByteSize - pass.bytes
decreasing_by
  have := bytes_lt_of_round _eq
  omega

/-- The plain form of a text. It is an error if a cut parts a character. -/
def normalise? (source : String) : Option String := do
  let last ← rounds source { bytes := 0, written := "" }
  if last.written ≠ "" ∧ last.written.toList.getLast? ≠ some '\n' then
    return last.written.push '\n'
  else return last.written

/-- The passes of a run: before each round, and at the end. -/
inductive Reached (source : String) : (pass : Pass) → Prop where
  | start : Reached source { bytes := 0, written := "" }
  | round {pass next : Pass} : Reached source pass → pass.bytes < source.utf8ByteSize →
    round source pass = some next → Reached source next

/-- A text has been gone through up to the end of a character. What has been written is the plain
form of what is in front of it, and no key goes over it. -/
def Sound (source : String) (pass : Pass) : Prop :=
  ∃ front rest, source = front ++ rest ∧ pass.bytes = front.utf8ByteSize ∧
    pass.written ++ respell rest = respell source

namespace Sound

variable {source : String} {pass : Pass}

theorem start (source : String) : Sound source { bytes := 0, written := "" } :=
  ⟨"", source, (String.empty_append).symm, rfl, String.empty_append⟩

/-- A round goes on by a part of the text that has characters. -/
theorem step (sound : Sound source pass) (within : pass.bytes < source.utf8ByteSize) :
    ∃ front taken behind next, source = front ++ taken ++ behind ∧ taken ≠ "" ∧
      pass.bytes = front.utf8ByteSize ∧ round source pass = some next ∧
      next.bytes = (front ++ taken).utf8ByteSize ∧ Sound source next := by
  obtain ⟨bytes, written⟩ := pass
  obtain ⟨front, rest, rfl, rfl, done⟩ := sound
  have ne : rest ≠ "" := by
    rintro rfl
    rw [String.append_empty] at within
    exact Nat.lt_irrefl _ within
  obtain ⟨taken, behind, plain, rfl, some, replaced, eq⟩ := round_eq front written ne
  rw [← String.append_assoc] at eq done ⊢
  refine ⟨front, taken, behind, _, rfl, some, rfl, eq, rfl, front ++ taken, behind, rfl, rfl, ?_⟩
  rw [← done, replaced, String.append_assoc]

/-- Before each round of a run. -/
theorem of_reached (reached : Reached source pass) : Sound source pass := by
  induction reached with
  | start => exact .start source
  | round _ within eq sound =>
    obtain ⟨_, _, _, next, _, _, _, eq', _, sound'⟩ := sound.step within
    rw [eq'] at eq
    exact Option.some.inj eq ▸ sound'

/-- A run ends, and then all of the text has been replaced. -/
theorem rounds_eq (sound : Sound source pass) :
    ∃ last, rounds source pass = some last ∧ last.written = respell source := by
  fun_induction rounds source pass with
  | case1 pass within next eq ih =>
    obtain ⟨_, _, _, next', _, _, _, eq', _, sound'⟩ := sound.step within
    rw [eq] at eq'
    exact ih (Option.some.inj eq' ▸ sound')
  | case2 pass within eq =>
    obtain ⟨_, _, _, next', _, _, _, eq', _⟩ := sound.step within
    rw [eq] at eq'
    cases eq'
  | case3 pass done =>
    obtain ⟨front, rest, rfl, bytes, eq⟩ := sound
    have empty : rest = "" := by
      rw [← String.utf8ByteSize_eq_zero_iff]
      rw [bytes, String.utf8ByteSize_append] at done
      omega
    have nothing : respell "" = "" := by cbv
    exact ⟨pass, rfl, by rw [← eq, empty, nothing, String.append_empty]⟩

end Sound

theorem normalise?_eq (source : String) : normalise? source = some (normalise source) := by
  obtain ⟨last, eq, written⟩ := (Sound.start source).rounds_eq
  have rule : (respell source ≠ "" ∧ (respell source).toList.getLast? ≠ some '\n') ↔
      ¬ (replaceKeys source.toList = [] ∨ (replaceKeys source.toList).getLast? = some '\n') := by
    rw [not_or, toList_respell, ← String.toList_inj.ne, toList_respell, String.toList_empty]
  simp only [normalise?, eq, Option.bind_eq_bind, Option.bind_some, written, rule, normalise,
    normaliseChars, endLine]
  by_cases ended : replaceKeys source.toList = [] ∨ (replaceKeys source.toList).getLast? = some '\n'
  · rw [if_neg (not_not.mpr ended), if_pos ended]
    rfl
  · rw [if_pos ended, if_neg ended, String.ofList_append]
    rfl

end Bytes

/-- A plain form is got by going through a text from the left and replacing the longest of all keys
at each place, with a newline at the end if something without one is left. What is looked up in the
hash map is this key: it is missed nowhere, and no shorter one is taken for it. The rounds that cut
the text by bytes come to the same plain form. Each one starts at the end of a character and goes on
by one character at least, and no cut parts one. -/
theorem normalise_leftmost_longest :
    (∀ source plain : String, plain = normalise source ↔
      ∃ result, LeftmostLongest source.toList result ∧ plain.toList = endLine result) ∧
    (∀ text : String, ∃ found, Bytes.longestMatch? text = some found ∧
      (found = none ↔ ∀ entry ∈ replacements, ¬ entry.1 <+: text.toList) ∧
      ∀ bytes plain, found = some (bytes, plain) ↔ ∃ key,
        IsLongestKey key plain.toList text.toList ∧ bytes = (String.ofList key).utf8ByteSize) ∧
    ∀ source : String, Bytes.normalise? source = some (normalise source) ∧
      ∀ pass, Bytes.Reached source pass → pass.bytes < source.utf8ByteSize →
        ∃ front taken behind next, source = front ++ taken ++ behind ∧ taken ≠ "" ∧
          pass.bytes = front.utf8ByteSize ∧ Bytes.round source pass = some next ∧
          next.bytes = (front ++ taken).utf8ByteSize := by
  refine ⟨fun source plain => ?_, fun text => ?_, fun source => ⟨Bytes.normalise?_eq source, ?_⟩⟩
  · simp only [leftmostLongest_iff, exists_eq_left]
    rw [← String.toList_inj, toList_normalise, normaliseChars]
  · refine ⟨_, Bytes.longestMatch?_eq text, ?_, fun bytes plain => ?_⟩
    · rw [Option.map_eq_none_iff, longestMatch_eq_none_iff_forall]
    · rw [Option.map_eq_some_iff]
      constructor
      · rintro ⟨⟨key, plain⟩, found, same⟩
        obtain ⟨rfl, rfl⟩ := Prod.mk.inj same
        rw [String.toList_ofList]
        exact ⟨key, longestMatch_eq_some_iff_isLongestKey.mp found, rfl⟩
      · rintro ⟨key, longest, rfl⟩
        refine ⟨(key, plain.toList), longestMatch_eq_some_iff_isLongestKey.mpr longest, ?_⟩
        rw [Bytes.measured, String.ofList_toList]
  · intro pass reached within
    obtain ⟨front, taken, behind, next, parts, some, bytes, eq, bytes', _⟩ :=
      (Bytes.Sound.of_reached reached).step within
    exact ⟨front, taken, behind, next, parts, some, bytes, eq, bytes'⟩

end Pseudocod.Typeset

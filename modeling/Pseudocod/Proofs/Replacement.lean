import Mathlib
import Pseudocod.Proofs.Lexical
import Pseudocod.Typeset

/-!
# What is left of a typeset text

The characters of a text are kept or belong to a key, and what keys are replaced with holds no
character that is a key by itself. But a longer key can come about when its parts are written side
by side, so that a text may change once more when its keys are replaced again; after that it is
settled.

* `longestMatch_eq_some_iff`: the key that is replaced is the longest one at its place.
* `replaceKeys_append`: texts are replaced apart from each other if no key goes over the seam.
* `clean_replaceKeys`: no character of the result is a key.
* `replaceKeys_eq_self_iff`, `replaceKeys_idem`: what is then still replaced, and that it is once.
-/

namespace Pseudocod.Typeset

/-! ## The longest key -/

theorem mem_of_plainForm? {key plain : List Char} (h : plainForm? key = some plain) :
    (key, plain) ∈ replacements := by
  obtain ⟨before, after, eq, -⟩ := List.lookup_eq_some_iff.mp h
  rw [eq]
  simp

theorem length_pos_of_plainForm? {key plain : List Char} (h : plainForm? key = some plain) :
    0 < key.length := by
  have known : ∀ entry ∈ replacements, 0 < entry.1.length := by decide
  exact known _ (mem_of_plainForm? h)

theorem length_le_longestKey {key plain : List Char} (h : plainForm? key = some plain) :
    key.length ≤ longestKey := by
  have known : ∀ entry ∈ replacements, entry.1.length ≤ longestKey := by decide
  exact known _ (mem_of_plainForm? h)

/-- A beginning of a text is the longest one of its bound, or it is shorter. -/
theorem eq_take_or_length_le {text front : List Char} {more : Nat} (h : front <+: text)
    (le : front.length ≤ more + 1) : front = text.take (more + 1) ∨ front.length ≤ more := by
  by_cases short : front.length ≤ more
  · exact .inr short
  · refine .inl ?_
    rw [← show front.length = more + 1 by omega]
    exact List.prefix_iff_eq_take.mp h

theorem matchWithin_eq_some_iff {text key plain : List Char} {bound : Nat} :
    matchWithin text bound = some (key, plain) ↔
      key <+: text ∧ plainForm? key = some plain ∧ key.length ≤ bound ∧
        ∀ longer, longer <+: text → key.length < longer.length → longer.length ≤ bound →
          plainForm? longer = none := by
  induction bound with
  | zero =>
    constructor
    · intro found
      cases found
    · rintro ⟨-, found, le, -⟩
      have := length_pos_of_plainForm? found
      omega
  | succ more ih =>
    have front : text.take (more + 1) <+: text := List.take_prefix _ _
    have bounded : (text.take (more + 1)).length ≤ more + 1 := List.length_take_le _ _
    rw [matchWithin]
    split
    next plain' found =>
      constructor
      · intro eq
        obtain ⟨rfl, rfl⟩ := Prod.mk.inj (Option.some.inj eq)
        refine ⟨front, found, bounded, fun longer h lt le => ?_⟩
        have := (List.prefix_take_iff.mpr ⟨h, le⟩).length_le
        omega
      · rintro ⟨h, found', le, longest⟩
        have under := List.prefix_take_iff.mpr ⟨h, le⟩
        rcases under.length_le.eq_or_lt with same | lt
        · obtain rfl := under.eq_of_length same
          rw [found] at found'
          obtain rfl := Option.some.inj found'
          rfl
        · rw [longest _ front lt bounded] at found
          cases found
    next absent =>
      rw [ih]
      constructor
      · rintro ⟨h, found, le, longest⟩
        refine ⟨h, found, by omega, fun longer h' lt le' => ?_⟩
        rcases eq_take_or_length_le h' le' with rfl | le'
        · exact absent
        · exact longest longer h' lt le'
      · rintro ⟨h, found, le, longest⟩
        rcases eq_take_or_length_le h le with rfl | le
        · rw [absent] at found
          cases found
        · exact ⟨h, found, le, fun longer h' lt le' => longest longer h' lt (by omega)⟩

theorem matchWithin_eq_none_iff {text : List Char} {bound : Nat} :
    matchWithin text bound = none ↔
      ∀ key, key <+: text → key.length ≤ bound → plainForm? key = none := by
  induction bound with
  | zero =>
    refine ⟨fun _ key _ le => ?_, fun _ => rfl⟩
    by_contra found
    obtain ⟨plain, eq⟩ := Option.ne_none_iff_exists'.mp found
    have := length_pos_of_plainForm? eq
    omega
  | succ more ih =>
    rw [matchWithin]
    split
    next plain found =>
      constructor
      · intro eq
        cases eq
      · intro absent
        rw [absent _ (List.take_prefix _ _) (List.length_take_le _ _)] at found
        cases found
    next absent =>
      rw [ih]
      constructor
      · intro none key h le
        rcases eq_take_or_length_le h le with rfl | le
        · exact absent
        · exact none key h le
      · intro none key h le
        exact none key h (by omega)

theorem longestMatch_eq_some_iff {text key plain : List Char} :
    longestMatch text = some (key, plain) ↔
      key <+: text ∧ plainForm? key = some plain ∧
        ∀ longer, longer <+: text → key.length < longer.length → plainForm? longer = none := by
  rw [longestMatch, matchWithin_eq_some_iff]
  constructor
  · rintro ⟨front, found, -, longest⟩
    refine ⟨front, found, fun longer h lt => ?_⟩
    by_contra some
    obtain ⟨plain', eq⟩ := Option.ne_none_iff_exists'.mp some
    exact some (longest longer h lt (length_le_longestKey eq))
  · rintro ⟨front, found, longest⟩
    exact ⟨front, found, length_le_longestKey found, fun longer h lt _ => longest longer h lt⟩

theorem longestMatch_eq_none_iff {text : List Char} :
    longestMatch text = none ↔ ∀ key, key <+: text → plainForm? key = none := by
  rw [longestMatch, matchWithin_eq_none_iff]
  refine ⟨fun none key front => ?_, fun none key front _ => none key front⟩
  by_contra some
  obtain ⟨plain, eq⟩ := Option.ne_none_iff_exists'.mp some
  exact some (none key front (length_le_longestKey eq))

/-! ## Texts side by side -/

theorem replaceKeys_of_none {c : Char} {text : List Char} (h : longestMatch (c :: text) = none) :
    replaceKeys (c :: text) = c :: replaceKeys text := by
  rw [replaceKeys, h]

theorem drop_key {c : Char} {text key : List Char} (pos : 0 < key.length) :
    text.drop (key.length - 1) = (c :: text).drop key.length := by
  obtain ⟨n, eq⟩ : ∃ n, key.length = n + 1 := ⟨key.length - 1, by omega⟩
  rw [eq, Nat.add_sub_cancel, List.drop_succ_cons]

theorem replaceKeys_of_some {text key plain : List Char}
    (h : longestMatch text = some (key, plain)) :
    replaceKeys text = plain ++ replaceKeys (text.drop key.length) := by
  have ⟨front, found, _⟩ := longestMatch_eq_some_iff.mp h
  have pos := length_pos_of_plainForm? found
  cases text with
  | nil => rw [List.prefix_nil.mp front] at pos; cases pos
  | cons c text =>
    rw [replaceKeys, h, ← drop_key pos]

/-- No key begins in one text and goes on in the next. -/
def Seam (text rest : List Char) : Prop :=
  ∀ x y, x ≠ [] → y ≠ [] → x <:+ text → y <+: rest → plainForm? (x ++ y) = none

theorem Seam.of_suffix {text text' rest : List Char} (h : Seam text rest)
    (suffix : text' <:+ text) : Seam text' rest :=
  fun x y neX neY back front => h x y neX neY (back.trans suffix) front

theorem Seam.append {text text' rest : List Char} (first : Seam text (text' ++ rest))
    (second : Seam text' rest) : Seam (text ++ text') rest := by
  intro x y neX neY back front
  rcases List.suffix_or_suffix_of_suffix back (List.suffix_append text text') with inner | outer
  · exact second x y neX neY inner front
  · obtain ⟨start, rfl⟩ := outer
    cases start with
    | nil => exact second _ y neX neY List.suffix_rfl front
    | cons c start =>
      rw [List.append_assoc]
      obtain ⟨before, eq⟩ := back
      refine first _ _ (List.cons_ne_nil _ _) (by simp [neY]) ⟨before, ?_⟩ ?_
      · rw [← List.append_assoc] at eq
        exact List.append_cancel_right eq
      · rwa [List.prefix_append_right_inj]

/-- At a seam the longest key of both texts is that of the first one. -/
theorem longestMatch_append {text rest : List Char} (seam : Seam text rest) (ne : text ≠ []) :
    longestMatch (text ++ rest) = longestMatch text := by
  have inner {key : List Char} (found : plainForm? key ≠ none) (front : key <+: text ++ rest) :
      key <+: text := by
    rcases List.prefix_or_prefix_of_prefix front (List.prefix_append text rest) with within | beyond
    · exact within
    · obtain ⟨y, rfl⟩ := beyond
      rw [List.prefix_append_right_inj] at front
      cases y with
      | nil => simp
      | cons c y =>
        exact absurd (seam text _ ne (List.cons_ne_nil _ _) List.suffix_rfl front) found
  have outer {key : List Char} (front : key <+: text) : key <+: text ++ rest :=
    front.trans (List.prefix_append text rest)
  cases found : longestMatch text with
  | none =>
    rw [longestMatch_eq_none_iff] at found ⊢
    intro key front
    by_contra some
    exact some (found key (inner some front))
  | some entry =>
    obtain ⟨key, plain⟩ := entry
    rw [longestMatch_eq_some_iff] at found ⊢
    obtain ⟨front, plainForm, longest⟩ := found
    refine ⟨outer front, plainForm, fun longer h lt => ?_⟩
    by_contra some
    exact some (longest longer (inner some h) lt)

/-- Texts are replaced apart from each other if no key goes over the seam. -/
theorem replaceKeys_append {text rest : List Char} (seam : Seam text rest) :
    replaceKeys (text ++ rest) = replaceKeys text ++ replaceKeys rest := by
  fun_induction replaceKeys text with
  | case1 => rfl
  | case2 c text key plain found ih =>
    have ⟨front, plainForm, _⟩ := longestMatch_eq_some_iff.mp found
    have pos := length_pos_of_plainForm? plainForm
    have whole := longestMatch_append seam (List.cons_ne_nil c text)
    rw [found] at whole
    have cut : (c :: text ++ rest).drop key.length = text.drop (key.length - 1) ++ rest := by
      rw [List.drop_append_of_le_length front.length_le, drop_key pos]
    rw [replaceKeys_of_some whole, cut, List.append_assoc, ih]
    exact seam.of_suffix ((List.drop_suffix _ _).trans (List.suffix_cons _ _))
  | case3 c text none ih =>
    have whole := longestMatch_append seam (List.cons_ne_nil c text)
    rw [none, List.cons_append] at whole
    rw [List.cons_append, replaceKeys_of_none whole, ih (seam.of_suffix (List.suffix_cons _ _)),
      List.cons_append]

/-- A character that is in no plain form does not come about. -/
theorem not_mem_replaceKeys {c : Char} (absent : ∀ entry ∈ replacements, c ∉ entry.2)
    {text : List Char} (h : c ∉ text) : c ∉ replaceKeys text := by
  fun_induction replaceKeys text with
  | case1 => exact h
  | case2 d text key plain found ih =>
    have ⟨_, plainForm, _⟩ := longestMatch_eq_some_iff.mp found
    rw [List.mem_append, not_or]
    refine ⟨absent _ (mem_of_plainForm? plainForm), ih ?_⟩
    intro member
    exact h (.tail _ (List.mem_of_mem_drop member))
  | case3 d text _ ih =>
    rw [List.mem_cons, not_or] at h ⊢
    exact ⟨h.1, ih h.2⟩

/-! ## Characters with which no key begins -/

/-- The characters with which keys begin. -/
def starts : List Char :=
  replacements.filterMap fun entry => entry.1.head?

theorem plainForm?_of_starts {c : Char} (h : c ∉ starts) (key : List Char) :
    plainForm? (c :: key) = none := by
  by_contra found
  obtain ⟨plain, eq⟩ := Option.ne_none_iff_exists'.mp found
  exact h (List.mem_filterMap.mpr ⟨_, mem_of_plainForm? eq, rfl⟩)

theorem replaceKeys_cons_of_starts {c : Char} (h : c ∉ starts) (text : List Char) :
    replaceKeys (c :: text) = c :: replaceKeys text := by
  apply replaceKeys_of_none
  rw [longestMatch_eq_none_iff]
  intro key front
  cases key with
  | nil => decide
  | cons d key =>
    obtain ⟨rfl, -⟩ := List.cons_prefix_cons.mp front
    exact plainForm?_of_starts h key

/-- A text in which no key begins is left as it is. -/
theorem replaceKeys_of_starts {text : List Char} (h : ∀ c ∈ text, c ∉ starts) :
    replaceKeys text = text := by
  induction text with
  | nil => rw [replaceKeys]
  | cons c text ih =>
    obtain ⟨first, others⟩ := List.forall_mem_cons.mp h
    rw [replaceKeys_cons_of_starts first, ih others]

theorem seam_of_starts {text : List Char} (h : ∀ c ∈ text, c ∉ starts) (rest : List Char) :
    Seam text rest := by
  intro x y neX _ back _
  cases x with
  | nil => exact absurd rfl neX
  | cons c x => exact plainForm?_of_starts (h c (back.subset List.mem_cons_self)) (x ++ y)

/-! ## Characters that are not keys -/

/-- No character of the text is a key by itself. -/
def Clean (text : List Char) : Prop :=
  ∀ c ∈ text, plainForm? [c] = none

theorem clean_of_starts {text : List Char} (h : ∀ c ∈ text, c ∉ starts) : Clean text :=
  fun c member => plainForm?_of_starts (h c member) []

instance (text : List Char) : Decidable (Clean text) :=
  inferInstanceAs (Decidable (∀ c ∈ text, plainForm? [c] = none))

/-- The keys of which no character is a key by itself. -/
def arrows : List (List Char) :=
  [['<', '-', '-', '>'], ['<', '-', '-', '-', '>']]

/-- No character of the result is a key. -/
theorem clean_replaceKeys (text : List Char) : Clean (replaceKeys text) := by
  fun_induction replaceKeys text with
  | case1 => exact nofun
  | case2 c text key plain found ih =>
    have known : ∀ entry ∈ replacements, Clean entry.2 := by decide
    have ⟨_, plainForm, _⟩ := longestMatch_eq_some_iff.mp found
    exact List.forall_mem_append.mpr ⟨known _ (mem_of_plainForm? plainForm), ih⟩
  | case3 c text none ih =>
    exact List.forall_mem_cons.mpr ⟨longestMatch_eq_none_iff.mp none [c] ⟨text, rfl⟩, ih⟩

theorem clean_normalise (source : String) : Clean (normalise source).toList := by
  rw [normalise, String.toList_ofList, normaliseChars, endLine]
  split
  next => exact clean_replaceKeys _
  next => exact List.forall_mem_append.mpr ⟨clean_replaceKeys _, by decide⟩

/-- In a key that begins with clean characters, only those of an arrow can follow. -/
theorem seam_of_clean {text rest : List Char} (clean : Clean text)
    (apart : ∀ c ∈ rest.head?, c ≠ '-' ∧ c ≠ '>') : Seam text rest := by
  have known : ∀ entry ∈ replacements, entry.1.length < 6 ∧ ∀ i < 6, i ≠ 0 →
      entry.1[i]?.all (fun c => c = '-' ∨ c = '>' ∨ ¬ Clean (entry.1.take i)) := by decide
  intro x y neX neY back front
  by_contra found
  obtain ⟨plain, eq⟩ := Option.ne_none_iff_exists'.mp found
  obtain ⟨bound, parts⟩ := known _ (mem_of_plainForm? eq)
  obtain ⟨c, y, rfl⟩ := List.exists_cons_of_ne_nil neY
  obtain ⟨after, rfl⟩ := front
  obtain ⟨ne, ne'⟩ := apart c rfl
  have pos := List.length_pos_iff.mpr neX
  simp only [List.length_append, List.length_cons] at bound
  have inner := parts x.length (by omega) (by omega)
  rw [List.getElem?_append_right (Nat.le_refl _), Nat.sub_self, List.take_left] at inner
  rcases of_decide_eq_true inner with same | same | unclean
  · exact ne same
  · exact ne' same
  · exact unclean fun d member => clean d (back.subset member)

/-- What becomes of a text in which only arrows are left to be replaced. -/
inductive Settles : (text result : List Char) → Prop where
  | nil : Settles [] []
  | keep {c : Char} {text result : List Char} :
    longestMatch (c :: text) = none → Settles text result → Settles (c :: text) (c :: result)
  | arrow {key text result : List Char} :
    key ∈ arrows → Settles text result → Settles (key ++ text) ('<' :: '-' :: '>' :: result)

theorem Clean.settles {text : List Char} (clean : Clean text) :
    Settles text (replaceKeys text) := by
  fun_induction replaceKeys text with
  | case1 => exact .nil
  | case2 c text key plain found ih =>
    have known : ∀ entry ∈ replacements, ¬ Clean entry.1 ∨
        (entry.1 ∈ arrows ∧ entry.2 = ['<', '-', '>']) := by decide
    have ⟨front, plainForm, _⟩ := longestMatch_eq_some_iff.mp found
    rcases known _ (mem_of_plainForm? plainForm) with unclean | ⟨arrow, sign⟩
    · exact absurd (fun d member => clean d (front.subset member)) unclean
    · have pos := length_pos_of_plainForm? plainForm
      obtain ⟨rest, whole⟩ := front
      have cut : text.drop (key.length - 1) = rest := by
        rw [drop_key pos, ← whole, List.drop_left]
      rw [cut] at ih ⊢
      obtain rfl : plain = ['<', '-', '>'] := sign
      rw [← whole] at clean ⊢
      exact .arrow arrow (ih fun d member => clean d (List.mem_append_right _ member))
  | case3 c text none ih =>
    exact .keep none (ih (List.forall_mem_cons.mp clean).2)

namespace Settles

variable {text result : List Char}

theorem length_le (settles : Settles text result) : result.length ≤ text.length := by
  induction settles with
  | nil => exact Nat.le_refl _
  | keep _ _ ih => exact Nat.succ_le_succ ih
  | arrow arrow _ ih =>
    have longer : ∀ key ∈ arrows, 4 ≤ key.length := by decide
    have := longer _ arrow
    simp only [List.length_cons, List.length_append]
    omega

/-- A text loses nothing but the sign of minus. -/
theorem mem_iff (settles : Settles text result) {c : Char} (ne : c ≠ '-') :
    c ∈ result ↔ c ∈ text := by
  induction settles with
  | nil => rfl
  | keep _ _ ih => rw [List.mem_cons, List.mem_cons, ih]
  | arrow arrow _ ih =>
    have same : ∀ key ∈ arrows, ∀ d ∈ key, d ∈ ['<', '-', '>'] := by decide
    have all : ∀ key ∈ arrows, '<' ∈ key ∧ '>' ∈ key := by decide
    rw [List.mem_append]
    simp only [List.mem_cons, ih, ne, false_or]
    constructor
    · rintro (rfl | rfl | member)
      · exact .inl (all _ arrow).1
      · exact .inl (all _ arrow).2
      · exact .inr member
    · rintro (member | member)
      · have := same _ arrow c member
        simp only [List.mem_cons, ne, List.not_mem_nil, false_or, or_false] at this
        rcases this with rfl | rfl <;> simp
      · exact .inr (.inr member)

/-- A text is settled if no arrow is in it. -/
theorem eq_iff (settles : Settles text result) :
    result = text ↔ ∀ key ∈ arrows, ¬ key <:+: text := by
  induction settles with
  | nil =>
    have absent : ∀ key ∈ arrows, ¬ key <:+: [] := by decide
    exact ⟨fun _ => absent, fun _ => rfl⟩
  | @keep c text result none _ ih =>
    have arrowKeys : ∀ key ∈ arrows, plainForm? key ≠ Option.none := by decide
    rw [List.cons.injEq, eq_self, true_and, ih]
    constructor
    · intro absent key arrow within
      rcases List.infix_cons_iff.mp within with front | within
      · exact arrowKeys key arrow (longestMatch_eq_none_iff.mp none key front)
      · exact absent key arrow within
    · intro absent key arrow within
      exact absent key arrow (within.trans (List.suffix_cons c text).isInfix)
  | @arrow key text result arrow settles _ =>
    constructor
    · intro eq
      have longer : ∀ key ∈ arrows, 4 ≤ key.length := by decide
      have := longer _ arrow
      have := settles.length_le
      have := congrArg List.length eq
      simp only [List.length_cons, List.length_append] at this
      omega
    · intro absent
      exact absurd (List.prefix_append key text).isInfix (absent key arrow)

/-- A beginning that does not hold the first character of the sign was there before. -/
theorem prefix_of_prefix (settles : Settles text result) {front : List Char} (absent : '<' ∉ front)
    (h : front <+: result) : front <+: text := by
  induction settles generalizing front with
  | nil => exact h
  | keep _ _ ih =>
    cases front with
    | nil => exact List.nil_prefix
    | cons d front =>
      obtain ⟨rfl, under⟩ := List.cons_prefix_cons.mp h
      exact List.cons_prefix_cons.mpr ⟨rfl, ih (fun member => absent (.tail _ member)) under⟩
  | arrow _ _ _ =>
    cases front with
    | nil => exact List.nil_prefix
    | cons d front =>
      obtain ⟨rfl, -⟩ := List.cons_prefix_cons.mp h
      exact absurd List.mem_cons_self absent

/-- No arrow comes about: all that stands between its ends was there before. -/
theorem no_arrow (settles : Settles text result) : ∀ key ∈ arrows, ¬ key <:+: result := by
  have shape : ∀ key ∈ arrows, ∃ tail, key = '<' :: '-' :: '-' :: tail ∧
      '<' ∉ '-' :: '-' :: tail ∧ plainForm? key ≠ none := by
    simp only [arrows, List.forall_mem_cons]
    exact ⟨⟨_, rfl, by decide, by decide⟩, ⟨_, rfl, by decide, by decide⟩, nofun⟩
  induction settles with
  | nil => decide
  | @keep c text result none settles ih =>
    intro key arrow within
    rcases List.infix_cons_iff.mp within with front | within
    · obtain ⟨tail, rfl, absent, isKey⟩ := shape key arrow
      obtain ⟨rfl, under⟩ := List.cons_prefix_cons.mp front
      have before : '<' :: '-' :: '-' :: tail <+: '<' :: text :=
        List.cons_prefix_cons.mpr ⟨rfl, settles.prefix_of_prefix absent under⟩
      exact isKey (longestMatch_eq_none_iff.mp none _ before)
    · exact ih key arrow within
  | arrow _ _ ih =>
    intro key arrow within
    obtain ⟨tail, rfl, -, -⟩ := shape key arrow
    simp only [List.infix_cons_iff, List.cons_prefix_cons] at within
    rcases within with ⟨-, -, eq, -⟩ | ⟨eq, -⟩ | ⟨eq, -⟩ | within
    · exact absurd eq (by decide)
    · exact absurd eq (by decide)
    · exact absurd eq (by decide)
    · exact ih _ arrow within

end Settles

/-- In a text without keys of one character, arrows are all that is replaced. -/
theorem replaceKeys_eq_self_iff {text : List Char} (clean : Clean text) :
    replaceKeys text = text ↔ ∀ key ∈ arrows, ¬ key <:+: text :=
  clean.settles.eq_iff

/-- What was replaced twice is settled. -/
theorem replaceKeys_idem {text : List Char} (clean : Clean text) :
    replaceKeys (replaceKeys text) = replaceKeys text :=
  (replaceKeys_eq_self_iff (clean_replaceKeys text)).mpr clean.settles.no_arrow

/-! ## Texts -/

/-- The text with every key replaced. -/
def respell (text : String) : String :=
  String.ofList (replaceKeys text.toList)

@[simp] theorem toList_respell (text : String) : (respell text).toList = replaceKeys text.toList :=
  String.toList_ofList

theorem respell_append {text text' : String} (seam : Seam text.toList text'.toList) :
    respell (text ++ text') = respell text ++ respell text' := by
  rw [respell, String.toList_append, replaceKeys_append seam, String.ofList_append]
  rfl

theorem mem_respell_iff {text : String} (clean : Clean text.toList) {c : Char} (ne : c ≠ '-') :
    c ∈ (respell text).toList ↔ c ∈ text.toList := by
  rw [toList_respell]
  exact clean.settles.mem_iff ne

theorem respell_eq_self_iff {text : String} (clean : Clean text.toList) :
    respell text = text ↔ ∀ arrow ∈ arrows, ¬ arrow <:+: text.toList := by
  rw [← replaceKeys_eq_self_iff clean, ← String.toList_inj, toList_respell]

end Pseudocod.Typeset

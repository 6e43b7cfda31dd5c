import Pseudocod.Proofs.Reformatting

/-!
# Replacing the keys in a program that is plain

A text that is read as a program is read as the same one after its keys were replaced, if no key is
in a string. In the gaps of the text keys stand in comments only, and no key goes over the end of a
line. A word begins with a key only if it is the longer sign for a swap, which gives way to the
shorter one: a longer arrow would be read as signs that do not follow on each other in any program.

* `Statement.minusContinued_blockWords`: no `>` follows on a minus in a program.
* `IsGap.exists_replaceKeys`, `Lexeme.Stands.exists_replaceKeys`: what becomes of gaps and words.
* `Program.parse_normalise`: a program whose strings are free of keys is read from its plain form.
-/

namespace Pseudocod

open Typeset (Seam arrows starts replaceKeys replacements plainForm? longestMatch)

/-! ## What follows on a minus -/

/-- On every minus among the words another word follows, which is neither `>` nor `>=`. -/
def MinusContinued : List Lexeme → Prop
  | [] => True
  | word :: words =>
    (word.kind = .minus → words.head?.any fun next => next.kind ≠ .gt ∧ next.kind ≠ .ge) ∧
      MinusContinued words

namespace MinusContinued

@[simp] theorem nil : MinusContinued [] :=
  trivial

@[simp] theorem cons_of_ne {word : Lexeme} {words : List Lexeme} (ne : word.kind ≠ .minus) :
    MinusContinued (word :: words) ↔ MinusContinued words := by
  simp [MinusContinued, ne]

@[simp] theorem cons_word {kind : Kind} {words : List Lexeme} (ne : kind ≠ .minus) :
    MinusContinued (kind.word :: words) ↔ MinusContinued words :=
  cons_of_ne ne

@[simp] theorem append_iff {words more : List Lexeme} (first : MinusContinued words) :
    MinusContinued (words ++ more) ↔ MinusContinued more := by
  induction words with
  | nil => rfl
  | cons word words ih =>
    obtain ⟨continued, others⟩ := first
    rw [List.cons_append, MinusContinued, ih others, and_iff_right]
    intro minus
    cases words with
    | nil => exact absurd (continued minus) (by simp)
    | cons => exact continued minus

theorem joinWords {separator : Kind} (ne : separator ≠ .minus) {items : List (List Lexeme)}
    (h : ∀ words ∈ items, MinusContinued words) :
    MinusContinued (joinWords separator items) := by
  induction items with
  | nil => exact nil
  | cons words others ih =>
    obtain ⟨first, others'⟩ := List.forall_mem_cons.mp h
    cases others with
    | nil => exact first
    | cons next others =>
      rw [joinWords_cons (List.cons_ne_nil _ _)]
      exact (append_iff first).mpr ((cons_of_ne ne).mpr (ih others'))

/-- The spelling of words makes no difference. -/
theorem of_map_plain {words : List Lexeme} (h : MinusContinued (words.map Lexeme.plain)) :
    MinusContinued words := by
  induction words with
  | nil => exact nil
  | cons word words ih =>
    refine ⟨fun minus => ?_, ih h.2⟩
    have continued := h.1 minus
    cases words with
    | nil => exact continued
    | cons => exact continued

end MinusContinued

theorem Expr.head?_words (expr : Expr) :
    expr.words.head?.any fun word => word.kind ≠ .gt ∧ word.kind ≠ .ge := by
  induction expr with
  | binary op left right ih =>
    rw [words]
    cases eq : left.words with
    | nil => rw [eq] at ih; cases ih
    | cons => rw [eq] at ih; exact ih
  | unary op operand => cases op <;> rfl
  | number | string | ident => rfl

theorem Expr.minusContinued_words (expr : Expr) : MinusContinued expr.words := by
  induction expr with
  | binary op left right ihLeft ihRight =>
    exact (MinusContinued.append_iff ihLeft).mpr ⟨fun _ => right.head?_words, ihRight⟩
  | unary op operand ih =>
    have closing : MinusContinued op.closingWords := by cases op <;> simp [UnaryOp.closingWords]
    refine ⟨fun minus => ?_, (MinusContinued.append_iff ih).mpr closing⟩
    have none : op.closingWords = [] := by cases op <;> first | rfl | cases minus
    rw [none, List.append_nil]
    exact operand.head?_words
  | number | string | ident => simp [words]

namespace Statement

theorem minusContinued_headerWords (header : CountHeader) :
    MinusContinued (headerWords header) := by
  obtain ⟨name, first, last, step⟩ := header
  cases step <;> simp [headerWords, Expr.minusContinued_words]

mutual

theorem minusContinued_words (statement : Statement) : MinusContinued statement.words := by
  cases statement with
  | assign | swap => simp [words, Expr.minusContinued_words]
  | read names =>
    have names : ∀ words ∈ names.map fun name => [Lexeme.mk .ident name], MinusContinued words := by
      simp
    simp [words, MinusContinued.joinWords _ names]
  | write values =>
    have values : ∀ words ∈ values.map Expr.words, MinusContinued words := by
      simp [Expr.minusContinued_words]
    simp [words, MinusContinued.joinWords _ values]
  | ifThen condition body | whileDo condition body | doWhile body condition
  | doUntil body condition =>
    simp [words, Expr.minusContinued_words, minusContinued_blockWords body]
  | ifElse condition body alternative =>
    simp [words, Expr.minusContinued_words, minusContinued_blockWords body,
      minusContinued_blockWords alternative]
  | count name first last step body =>
    simp [words, minusContinued_headerWords, minusContinued_blockWords body]
  | sequence parts =>
    exact MinusContinued.joinWords (by decide) (minusContinued_partWords parts)

/-- No `>` follows on a minus in a program. -/
theorem minusContinued_blockWords (statements : List Statement) :
    MinusContinued (blockWords statements) := by
  cases statements with
  | nil => simp [blockWords]
  | cons statement statements =>
    simp [blockWords, minusContinued_words statement, minusContinued_blockWords statements]

theorem minusContinued_partWords (parts : List Statement) :
    ∀ words ∈ partWords parts, MinusContinued words := by
  cases parts with
  | nil => simp [partWords]
  | cons part parts =>
    rw [partWords]
    exact List.forall_mem_cons.mpr ⟨minusContinued_words part, minusContinued_partWords parts⟩

end

end Statement

/-! ## Texts in which little is replaced -/

namespace Typeset

/-- No key is part of the text. -/
def KeyFree (text : List Char) : Prop :=
  ∀ entry ∈ replacements, ¬ entry.1 <:+: text

instance (text : List Char) : Decidable (KeyFree text) :=
  inferInstanceAs (Decidable (∀ entry ∈ replacements, ¬ entry.1 <:+: text))

theorem KeyFree.replaceKeys_eq {text : List Char} (free : KeyFree text) :
    replaceKeys text = text := by
  fun_induction replaceKeys text with
  | case1 => rfl
  | case2 c text key plain found =>
    obtain ⟨front, plainForm, _⟩ := longestMatch_eq_some_iff.mp found
    exact absurd front.isInfix (free _ (mem_of_plainForm? plainForm))
  | case3 c text _ ih =>
    rw [ih]
    intro entry member within
    exact free entry member (within.trans (List.suffix_cons c text).isInfix)

/-- A key does not go on behind a text with a character that is in no key. -/
theorem seam_of_absent {text rest : List Char}
    (absent : ∀ c ∈ rest.head?, ∀ entry ∈ replacements, c ∉ entry.1) : Seam text rest := by
  intro x y _ neY _ front
  by_contra found
  obtain ⟨plain, eq⟩ := Option.ne_none_iff_exists'.mp found
  obtain ⟨c, y, rfl⟩ := List.exists_cons_of_ne_nil neY
  obtain ⟨after, rfl⟩ := front
  exact absent c rfl _ (mem_of_plainForm? eq) (by simp)

theorem seam_of_isLineEnd {text rest : List Char}
    (stop : ∀ c ∈ rest.head?, Lexeme.isLineEnd c = true) : Seam text rest := by
  have known : ∀ entry ∈ replacements, ∀ c ∈ entry.1, Lexeme.isLineEnd c = false := by decide
  refine seam_of_absent fun c head entry member inner => ?_
  exact Bool.noConfusion ((known entry member c inner).symm.trans (stop c head))

theorem replaceKeys_append_newline (line rest : List Char) :
    replaceKeys (line ++ '\n' :: rest) = replaceKeys line ++ '\n' :: replaceKeys rest := by
  have seam : Seam line ('\n' :: rest) := seam_of_isLineEnd (by rintro _ ⟨⟩; rfl)
  rw [replaceKeys_append seam, replaceKeys_cons_of_starts (by decide)]

/-- No line ends where a key was. -/
theorem isLineEnd_replaceKeys {text : List Char}
    (inside : ∀ c ∈ text, Lexeme.isLineEnd c = false) :
    ∀ c ∈ replaceKeys text, Lexeme.isLineEnd c = false := by
  have known : ∀ entry ∈ replacements, ∀ c ∈ entry.2, Lexeme.isLineEnd c = false := by decide
  intro c member
  cases ends : Lexeme.isLineEnd c with
  | false => rfl
  | true =>
    have absent : ∀ entry ∈ replacements, c ∉ entry.2 :=
      fun entry found within => Bool.noConfusion ((known entry found c within).symm.trans ends)
    have outside : c ∉ text :=
      fun within => Bool.noConfusion ((inside c within).symm.trans ends)
    exact absurd member (not_mem_replaceKeys absent outside)

/-- No key begins with the first character of the text, unless it is that of an arrow. -/
def FirstStays (text : List Char) : Prop :=
  ∀ c ∈ text.head?, c = '<' ∨ c ∉ starts

theorem head?_replaceKeys {text : List Char} (stays : FirstStays text) :
    (replaceKeys text).head? = text.head? := by
  have known : ∀ entry ∈ replacements, entry.1.head? = some '<' → entry.2.head? = some '<' := by
    decide
  cases text with
  | nil => rw [replaceKeys]
  | cons c text =>
    rcases stays c rfl with rfl | apart
    · cases found : longestMatch ('<' :: text) with
      | none => rw [replaceKeys_of_none found]; rfl
      | some entry =>
        obtain ⟨key, plain⟩ := entry
        obtain ⟨front, plainForm, _⟩ := longestMatch_eq_some_iff.mp found
        obtain ⟨d, key, rfl⟩ := List.exists_cons_of_length_pos (length_pos_of_plainForm? plainForm)
        obtain ⟨rfl, -⟩ := List.cons_prefix_cons.mp front
        have same := known _ (mem_of_plainForm? plainForm) rfl
        obtain ⟨tail, rfl⟩ := List.head?_eq_some_iff.mp same
        rw [replaceKeys_of_some found]
        rfl
    · rw [replaceKeys_cons_of_starts apart]
      rfl

/-- A text in front of which no arrow stands keeps the character with which arrows begin. -/
theorem replaceKeys_less {text : List Char} (absent : ∀ arrow ∈ arrows, ¬ arrow <+: '<' :: text) :
    replaceKeys ('<' :: text) = '<' :: replaceKeys text := by
  have known : ∀ entry ∈ replacements, entry.1.head? = some '<' → entry.1 ∈ arrows := by decide
  apply replaceKeys_of_none
  rw [longestMatch_eq_none_iff]
  intro key front
  by_contra found
  obtain ⟨plain, eq⟩ := Option.ne_none_iff_exists'.mp found
  obtain ⟨d, key, rfl⟩ := List.exists_cons_of_length_pos (length_pos_of_plainForm? eq)
  obtain ⟨rfl, -⟩ := List.cons_prefix_cons.mp front
  exact absent _ (known _ (mem_of_plainForm? eq) rfl) front

/-- The shorter arrow is a key of its own: the longer one goes on differently. -/
theorem replaceKeys_arrow (text : List Char) :
    replaceKeys (['<', '-', '-', '>'] ++ text) = ['<', '-', '>'] ++ replaceKeys text := by
  have known : ∀ entry ∈ replacements, 4 < entry.1.length →
      entry.1 = ['<', '-', '-', '-', '>'] := by decide
  have found : longestMatch (['<', '-', '-', '>'] ++ text) =
      some (['<', '-', '-', '>'], ['<', '-', '>']) := by
    refine longestMatch_eq_some_iff.mpr ⟨List.prefix_append _ _, by decide, ?_⟩
    intro longer front lt
    by_contra some
    obtain ⟨plain, eq⟩ := Option.ne_none_iff_exists'.mp some
    obtain rfl : longer = _ := known _ (mem_of_plainForm? eq) lt
    simp at front
  rw [replaceKeys_of_some found, List.drop_left' rfl]

end Typeset

open Typeset (KeyFree FirstStays)

/-! ## Gaps -/

theorem isBlank_not_mem_starts {c : Char} (blank : Text.isBlank c = true) : c ∉ starts := by
  have known : ∀ c ∈ starts, Text.isBlank c = false := by decide
  intro member
  rw [known c member] at blank
  exact nomatch blank

theorem firstStays_of_isLineEnd {text : List Char}
    (stop : ∀ c ∈ text.head?, Lexeme.isLineEnd c = true) : FirstStays text :=
  fun c head => .inr (isBlank_not_mem_starts (isBlank_of_isLineEnd (stop c head)))

theorem IsGap.firstStays {gap rest : List Char} (h : IsGap gap rest) (stays : FirstStays rest) :
    FirstStays (gap ++ rest) := by
  cases h with
  | nil => exact stays
  | blank blank =>
    rintro _ ⟨⟩
    exact .inr (isBlank_not_mem_starts blank)
  | comment =>
    rintro _ ⟨⟩
    exact .inr (by decide)

/-- What becomes of a gap: another one, since a comment is over where its line is. -/
theorem IsGap.exists_replaceKeys {gap rest : List Char} (h : IsGap gap rest) :
    ∃ gap', replaceKeys (gap ++ rest) = gap' ++ replaceKeys rest ∧
      IsGap gap' (replaceKeys rest) := by
  induction h with
  | nil => exact ⟨[], rfl, .nil⟩
  | @blank c gap rest blank _ ih =>
    obtain ⟨gap', eq, isGap⟩ := ih
    refine ⟨c :: gap', ?_, .blank blank isGap⟩
    rw [List.cons_append, Typeset.replaceKeys_cons_of_starts (isBlank_not_mem_starts blank), eq]
    rfl
  | @comment body gap rest inside stop _ ih =>
    obtain ⟨gap', eq, isGap⟩ := ih
    have hash : '#' ∉ starts := by decide
    refine ⟨'#' :: (replaceKeys body ++ gap'), ?_,
      .comment (Typeset.isLineEnd_replaceKeys inside) ?_ isGap⟩
    · rw [List.cons_append, List.append_assoc, Typeset.replaceKeys_cons_of_starts hash,
        Typeset.replaceKeys_append (Typeset.seam_of_isLineEnd stop), eq]
      simp
    · rw [← eq, Typeset.head?_replaceKeys (firstStays_of_isLineEnd stop)]
      exact stop

/-! ## Words -/

/-- The first character stays, and the one behind it if the first one is a minus. -/
def Steady (text : List Char) : Prop :=
  FirstStays text ∧ ∀ tail, text = '-' :: tail → FirstStays tail

namespace Lexeme

theorem not_mem_starts_of_areDigits {text : List Char} (h : AreDigits text) :
    ∀ c ∈ text, c ∉ starts :=
  fun c member => not_mem_starts_of_isNamePart (isNamePart_of_isDigit (h.2 c member))

theorem not_mem_starts_of_keyword {written : List Char} {kind : Kind}
    (h : (String.ofList written, kind) ∈ keywords) : ∀ c ∈ written, c ∉ starts := by
  have known : ∀ entry ∈ keywords, ∀ c ∈ entry.1.toList, c ∉ starts := by decide
  have apart := known _ h
  rwa [String.toList_ofList] at apart

theorem not_mem_starts_of_isQuote {c : Char} (h : isQuote c = true) : c ∉ starts := by
  simp only [isQuote, Bool.or_eq_true, decide_eq_true_eq] at h
  rcases h with rfl | rfl <;> decide

theorem not_mem_starts_of_fraction {whole fraction : List Char} (hWhole : AreDigits whole)
    (hFraction : AreDigits fraction) : ∀ c ∈ whole ++ '.' :: fraction, c ∉ starts :=
  List.forall_mem_append.mpr ⟨not_mem_starts_of_areDigits hWhole,
    List.forall_mem_cons.mpr ⟨by decide, not_mem_starts_of_areDigits hFraction⟩⟩

theorem Stands.ne_nil {lexeme : Lexeme} {written rest : List Char}
    (stands : Stands lexeme written rest) : written ≠ [] := by
  obtain ⟨first, tail, rfl, -, -⟩ := stands.found
  exact List.cons_ne_nil _ _

theorem Stands.firstStays {lexeme : Lexeme} {written rest : List Char}
    (stands : Stands lexeme written rest) : FirstStays (written ++ rest) := by
  obtain ⟨first, tail, eq⟩ := List.exists_cons_of_ne_nil stands.ne_nil
  have letters (apart : ∀ c ∈ written, c ∉ starts) : FirstStays (written ++ rest) := by
    rw [eq] at apart ⊢
    rintro _ ⟨⟩
    exact .inr (apart first List.mem_cons_self)
  cases stands with
  | name isName =>
    have apart := not_mem_starts_of_isName isName
    exact letters (by rwa [String.toList_ofList] at apart)
  | keyword member => exact letters (not_mem_starts_of_keyword member)
  | whole digits => exact letters (not_mem_starts_of_areDigits digits)
  | fraction hWhole hFraction => exact letters (not_mem_starts_of_fraction hWhole hFraction)
  | string quotes =>
    rintro _ ⟨⟩
    exact .inr (not_mem_starts_of_isQuote quotes)
  | sign member =>
    have known : ∀ entry ∈ symbols, ∀ c ∈ entry.1.toList.take 1, c = '<' ∨ c ∉ starts := by decide
    have front := known _ member
    rw [String.toList_ofList, eq] at front
    rw [eq]
    rintro _ ⟨⟩
    exact front first List.mem_cons_self

/-- In a sign only the longer one for a swap is replaced. -/
theorem exists_replaceKeys_sign {kind : Kind} {written rest : List Char}
    (member : (String.ofList written, kind) ∈ symbols)
    (unbarred : ∀ tail ∈ barred kind, ¬ tail <+: rest) (noArrow : ¬ ['-', '-', '>'] <+: rest) :
    ∃ written', replaceKeys (written ++ rest) = written' ++ replaceKeys rest ∧
      (String.ofList written', kind) ∈ symbols := by
  have known : ∀ entry ∈ symbols, (∀ c ∈ entry.1.toList, c ∉ starts) ∨
      (entry.1.toList, entry.2) ∈ [(['<', '-', '>'], Kind.swap), (['<', '-', '-', '>'], Kind.swap),
        (['<', '-'], Kind.assign), (['<', '='], Kind.le), (['<'], Kind.lt)] := by decide
  have minus (text : List Char) : replaceKeys ('-' :: text) = '-' :: replaceKeys text :=
    Typeset.replaceKeys_cons_of_starts (by decide) text
  have cases := known _ member
  simp only [String.toList_ofList, List.mem_cons, List.not_mem_nil, or_false, Prod.mk.injEq]
    at cases
  rcases cases with apart | ⟨rfl, rfl⟩ | ⟨rfl, rfl⟩ | ⟨rfl, rfl⟩ | ⟨rfl, rfl⟩ | ⟨rfl, rfl⟩
  · refine ⟨written, ?_, member⟩
    rw [Typeset.replaceKeys_append (Typeset.seam_of_starts apart rest),
      Typeset.replaceKeys_of_starts apart]
  · refine ⟨['<', '-', '>'], ?_, member⟩
    have closing : replaceKeys ('>' :: rest) = '>' :: replaceKeys rest :=
      Typeset.replaceKeys_cons_of_starts (by decide) rest
    simp only [List.cons_append, List.nil_append]
    rw [Typeset.replaceKeys_less (by simp [arrows]), minus, closing]
  · exact ⟨['<', '-', '>'], Typeset.replaceKeys_arrow rest, by decide⟩
  · refine ⟨['<', '-'], ?_, member⟩
    have absent : ∀ arrow ∈ arrows, ¬ arrow <+: '<' :: '-' :: rest := by
      have := unbarred ['-', '>'] (by decide)
      simp_all [arrows]
    simp only [List.cons_append, List.nil_append]
    rw [Typeset.replaceKeys_less absent, minus]
  · refine ⟨['<', '='], ?_, member⟩
    have equal : replaceKeys ('=' :: rest) = '=' :: replaceKeys rest :=
      Typeset.replaceKeys_cons_of_starts (by decide) rest
    simp only [List.cons_append, List.nil_append]
    rw [Typeset.replaceKeys_less (by simp [arrows]), equal]
  · refine ⟨['<'], ?_, member⟩
    have absent : ∀ arrow ∈ arrows, ¬ arrow <+: '<' :: rest := by
      have := unbarred ['-'] (by decide)
      cases rest <;> simp_all [arrows]
    simp only [List.cons_append, List.nil_append]
    rw [Typeset.replaceKeys_less absent]

theorem singleton_prefix_replaceKeys_iff {c : Char} {text : List Char} (stays : FirstStays text) :
    [c] <+: replaceKeys text ↔ [c] <+: text := by
  have head (text : List Char) : [c] <+: text ↔ text.head? = some c := by
    cases text <;> simp [eq_comm]
  rw [head, head, Typeset.head?_replaceKeys stays]

/-- What is barred behind a word does not come about there. -/
theorem unbarred_replaceKeys {kind : Kind} {rest : List Char} (steady : Steady rest)
    (unbarred : ∀ tail ∈ barred kind, ¬ tail <+: rest) :
    ∀ tail ∈ barred kind, ¬ tail <+: replaceKeys rest := by
  have shapes : ∀ tail ∈ barred kind, tail = ['-', '>'] ∨ ∃ c, tail = [c] := by
    cases kind <;> simp [barred]
  intro tail bars front
  refine unbarred tail bars ?_
  rcases shapes tail bars with rfl | ⟨c, rfl⟩
  · have minus : ['-'] <+: rest :=
      (singleton_prefix_replaceKeys_iff steady.1).mp (.trans ⟨['>'], rfl⟩ front)
    obtain ⟨text, rfl⟩ := minus
    rw [List.singleton_append, Typeset.replaceKeys_cons_of_starts (by decide)] at front
    have behind := (List.cons_prefix_cons.mp front).2
    exact List.cons_prefix_cons.mpr
      ⟨rfl, (singleton_prefix_replaceKeys_iff (steady.2 text rfl)).mp behind⟩
  · exact (singleton_prefix_replaceKeys_iff steady.1).mp front

/-- What becomes of a word: the same one, with the shorter sign if it is a swap. -/
theorem Stands.exists_replaceKeys {lexeme : Lexeme} {written rest : List Char}
    (stands : Stands lexeme written rest)
    (free : lexeme.kind = .string → KeyFree lexeme.text.toList) (steady : Steady rest)
    (noArrow : ¬ ['-', '-', '>'] <+: rest) :
    ∃ lexeme' written', replaceKeys (written ++ rest) = written' ++ replaceKeys rest ∧
      Stands lexeme' written' (replaceKeys rest) ∧ lexeme'.plain = lexeme.plain := by
  have letters (apart : ∀ c ∈ written, c ∉ starts) :
      replaceKeys (written ++ rest) = written ++ replaceKeys rest := by
    rw [Typeset.replaceKeys_append (Typeset.seam_of_starts apart rest),
      Typeset.replaceKeys_of_starts apart]
  have follow := Typeset.head?_replaceKeys steady.1
  cases stands with
  | name isName stop =>
    have apart := not_mem_starts_of_isName isName
    rw [String.toList_ofList] at apart
    exact ⟨_, written, letters apart, .name isName (by rwa [follow]), rfl⟩
  | keyword member stop =>
    exact ⟨_, written, letters (not_mem_starts_of_keyword member),
      .keyword member (by rwa [follow]), rfl⟩
  | whole digits stop =>
    exact ⟨_, written, letters (not_mem_starts_of_areDigits digits),
      .whole digits (by rwa [follow]), rfl⟩
  | fraction hWhole hFraction stop =>
    exact ⟨_, _, letters (not_mem_starts_of_fraction hWhole hFraction),
      .fraction hWhole hFraction (by rwa [follow]), rfl⟩
  | @string quote content _ quotes inside =>
    have opening := not_mem_starts_of_isQuote quotes
    have absent : ∀ entry ∈ replacements, quote ∉ entry.1 := by
      have known : ∀ entry ∈ replacements, '"' ∉ entry.1 ∧ '\'' ∉ entry.1 := by decide
      simp only [isQuote, Bool.or_eq_true, decide_eq_true_eq] at quotes
      rcases quotes with rfl | rfl
      · exact fun entry member => (known entry member).1
      · exact fun entry member => (known entry member).2
    have seam : Seam content ([quote] ++ rest) :=
      Typeset.seam_of_absent (by rintro _ ⟨⟩; exact absent)
    have fixed := (free rfl).replaceKeys_eq
    rw [String.toList_ofList] at fixed
    refine ⟨_, quote :: (content ++ [quote]), ?_, .string quotes inside, rfl⟩
    rw [List.cons_append, List.append_assoc, Typeset.replaceKeys_cons_of_starts opening,
      Typeset.replaceKeys_append seam, fixed, List.singleton_append,
      Typeset.replaceKeys_cons_of_starts opening]
    simp
  | @sign kind _ _ member unbarred =>
    obtain ⟨written', eq, member'⟩ := exists_replaceKeys_sign member unbarred noArrow
    have known : ∀ entry ∈ symbols, entry.2.spelling?.isSome := by decide
    obtain ⟨text, spelled⟩ := Option.isSome_iff_exists.mp (known _ member)
    refine ⟨⟨kind, String.ofList written'⟩, written', eq,
      .sign member' (unbarred_replaceKeys steady unbarred), ?_⟩
    simp only [plain, spelled, Option.getD_some]

end Lexeme

/-! ## Split texts -/

namespace Split

variable {text last : List Char} {pieces : List Piece}

/-- A word that stands at the front of a text is the first piece of every split. -/
theorem exists_cons_of_stands {lexeme : Lexeme} {written : List Char}
    (split : Split (written ++ text) pieces last []) (stands : Lexeme.Stands lexeme written text) :
    ∃ others, pieces = ⟨[], written, lexeme⟩ :: others ∧ Split text others last [] := by
  have none : gapLength false (written ++ text) = 0 := IsGap.nil.length_eq stands.isSolid
  generalize whole : written ++ text = front at split none
  cases split with
  | last isGap =>
    rw [isGap.length_eq nofun] at none
    rw [List.eq_nil_of_length_eq_zero none] at whole
    exact absurd (List.append_eq_nil_iff.mp whole).1 stands.ne_nil
  | @piece gap written' text' _ _ lexeme' others isGap stands' split =>
    rw [isGap.length_eq stands'.isSolid] at none
    obtain rfl := List.eq_nil_of_length_eq_zero none
    obtain ⟨rfl, rfl, rfl⟩ := stands.unique stands' whole
    exact ⟨others, rfl, split⟩

theorem exists_cons_of_minus (split : Split ('-' :: text) pieces last []) :
    ∃ others, pieces = ⟨[], ['-'], ⟨.minus, "-"⟩⟩ :: others ∧ Split text others last [] :=
  split.exists_cons_of_stands (.sign (by decide) nofun)

theorem firstStays (split : Split text pieces last []) : FirstStays text := by
  cases split with
  | last isGap => exact isGap.firstStays nofun
  | piece isGap stands => exact isGap.firstStays stands.firstStays

theorem steady (split : Split text pieces last []) : Steady text := by
  refine ⟨split.firstStays, ?_⟩
  rintro tail rfl
  obtain ⟨others, -, behind⟩ := split.exists_cons_of_minus
  exact behind.firstStays

/-- No arrow is read as words of a program, unless it is the sign for a swap. -/
theorem not_arrow (split : Split text pieces last [])
    (continued : MinusContinued (pieces.map Piece.lexeme)) : ¬ ['-', '-', '>'] <+: text := by
  rintro ⟨text, rfl⟩
  obtain ⟨_, rfl, second⟩ := split.exists_cons_of_minus
  obtain ⟨_, rfl, third⟩ := second.exists_cons_of_minus
  by_cases equal : ['='] <+: text
  · obtain ⟨text, rfl⟩ := equal
    have stands : Lexeme.Stands ⟨.ge, ">="⟩ ['>', '='] text := .sign (by decide) nofun
    have split : Split (['>', '='] ++ text) _ last [] := third
    obtain ⟨_, rfl, -⟩ := split.exists_cons_of_stands stands
    simp [MinusContinued] at continued
  · have stands : Lexeme.Stands ⟨.gt, ">"⟩ ['>'] text :=
      .sign (by decide) (List.forall_mem_singleton.mpr equal)
    obtain ⟨_, rfl, -⟩ := third.exists_cons_of_stands stands
    simp [MinusContinued] at continued

/-- What becomes of a split text: one with the same words, but for the sign for a swap. -/
theorem exists_lexes_replaceKeys (split : Split text pieces last [])
    (free : ∀ piece ∈ pieces, piece.lexeme.kind = .string → KeyFree piece.lexeme.text.toList)
    (continued : MinusContinued (pieces.map Piece.lexeme)) :
    ∃ lexemes, Lexes (replaceKeys text) lexemes ∧
      lexemes.map Lexeme.plain = (pieces.map Piece.lexeme).map Lexeme.plain := by
  generalize none : ([] : List Char) = rest at split
  induction split with
  | last isGap =>
    subst none
    obtain ⟨gap, eq, isGap⟩ := isGap.exists_replaceKeys
    rw [eq]
    refine ⟨[], isGap.lexes_iff.mpr ?_, rfl⟩
    rw [replaceKeys]
    exact .nil
  | @piece gap written text last rest lexeme pieces isGap stands split ih =>
    subst none
    obtain ⟨freeWord, freeOthers⟩ := List.forall_mem_cons.mp free
    obtain ⟨lexemes, lexes, same⟩ := ih freeOthers continued.2 rfl
    obtain ⟨gap', eq, isGap'⟩ := isGap.exists_replaceKeys
    obtain ⟨lexeme', written', eq', stands', same'⟩ := stands.exists_replaceKeys
      freeWord split.steady (split.not_arrow continued.2)
    refine ⟨lexeme' :: lexemes, ?_, ?_⟩
    · rw [eq]
      apply isGap'.lexes_iff.mpr
      rw [eq']
      exact stands'.found.lexes lexes
    · simp only [List.map_cons, same, same']

end Split

/-- A program in whose strings there is no key is read from its plain form as the same program. -/
theorem Program.parse_normalise {source : String} {tokens : List Token} {program : Program}
    (tokenized : tokenize source = .ok tokens) (parsed : parse source = .ok program)
    (free : ∀ token ∈ tokens, token.kind = .string → KeyFree token.text.toList) :
    parse (Typeset.normalise source) = .ok program := by
  obtain ⟨words, stop, found, lexes, derived⟩ := parse_eq_ok_iff.mp parsed
  obtain ⟨plain, canonical⟩ := Statement.blockWord_iff.mp derived
  obtain ⟨pieces, last, split, same⟩ := lexes.exists_split
  have plainWords : (pieces.map Piece.lexeme).map Lexeme.plain =
      Statement.blockWords program.statements := by
    rw [same, List.map_map]
    exact plain
  have continued : MinusContinued (pieces.map Piece.lexeme) := by
    apply MinusContinued.of_map_plain
    rw [plainWords]
    exact Statement.minusContinued_blockWords _
  have freePieces : ∀ piece ∈ pieces, piece.lexeme.kind = .string →
      KeyFree piece.lexeme.text.toList := by
    intro piece member string
    obtain rfl := Except.ok.inj (tokenized.symm.trans found)
    have inWords : piece.lexeme ∈ words.map Token.lexeme := same ▸ List.mem_map_of_mem member
    obtain ⟨token, inTokens, eq⟩ := List.mem_map.mp inWords
    rw [← eq] at string ⊢
    exact free token (List.mem_append_left _ inTokens) string
  obtain ⟨lexemes, replaced, same'⟩ := split.exists_lexes_replaceKeys freePieces continued
  exact parse_eq_ok_iff_reads.mpr
    ⟨⟨lexemes, same'.trans plainWords, Typeset.lexes_normalise replaced⟩, canonical⟩

/-- Keys in comments, a swap without blanks, and a string in which an arrow breaks off. -/
theorem Program.parse_normalise_comments :
    ∃ tokens, tokenize "a<-->b# „←\nscrie '<--'# <--->" = .ok tokens ∧
      (∀ token ∈ tokens, token.kind = .string → KeyFree token.text.toList) ∧
      parse "a<-->b# „←\nscrie '<--'# <--->" = .ok ⟨[.swap "a" "b", .write [.string "<--"]]⟩ ∧
      Typeset.normalise "a<-->b# „←\nscrie '<--'# <--->" =
        "a<->b# \"<-\nscrie '<--'# <->\n" ∧
      parse "a<->b# \"<-\nscrie '<--'# <->\n" =
        .ok ⟨[.swap "a" "b", .write [.string "<--"]]⟩ := by
  have tokenized : tokenize "a<-->b# „←\nscrie '<--'# <--->" = .ok
      [⟨.ident, "a", ⟨1, 1, 0⟩⟩, ⟨.swap, "<-->", ⟨1, 2, 1⟩⟩, ⟨.ident, "b", ⟨1, 6, 5⟩⟩,
        ⟨.scrie, "scrie", ⟨2, 1, 15⟩⟩, ⟨.string, "<--", ⟨2, 7, 21⟩⟩, .eof ⟨2, 19, 33⟩] := by cbv
  have parsed : parse "a<-->b# „←\nscrie '<--'# <--->" =
      .ok ⟨[.swap "a" "b", .write [.string "<--"]]⟩ := by cbv
  have plain : Typeset.normalise "a<-->b# „←\nscrie '<--'# <--->" =
      "a<->b# \"<-\nscrie '<--'# <->\n" := by cbv
  have free (tokens : List Token) (h : tokenize "a<-->b# „←\nscrie '<--'# <--->" = .ok tokens) :
      ∀ token ∈ tokens, token.kind = .string → KeyFree token.text.toList := by
    obtain rfl := Except.ok.inj (tokenized.symm.trans h)
    decide
  have again := parse_normalise tokenized parsed (free _ tokenized)
  rw [plain] at again
  exact ⟨_, tokenized, free _ tokenized, parsed, plain, again⟩

end Pseudocod

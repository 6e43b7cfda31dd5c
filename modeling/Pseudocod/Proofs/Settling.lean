import Pseudocod.Proofs.PlainSource

/-!
# A typeset text settles

Plain forms are written next to what is kept and next to each other, so that a key can come about
whose parts stood apart. Such a key is an arrow: every other key has a character that is a key by
itself, and none of these is left. When the keys are replaced once more no arrow comes about, since
all of an arrow but its first character was there before. So the second plain form is the last one.

* `KeyFree.of_clean`: a clean text without arrows has no key.
* `normaliseChars_endLine`: no newline is added to a text that has one.
* `normalise_settles`: what can be left of the keys after one pass and after two.
-/

namespace Pseudocod.Typeset

/-- A key that is part of a clean text is an arrow. -/
theorem mem_arrows_of_clean {text key plain : List Char} (clean : Clean text)
    (member : (key, plain) ∈ replacements) (within : key <:+: text) : key ∈ arrows := by
  have known : ∀ entry ∈ replacements, ¬ Clean entry.1 ∨ entry.1 ∈ arrows := by decide
  rcases known _ member with unclean | arrow
  · exact absurd (fun c inner => clean c (within.subset inner)) unclean
  · exact arrow

theorem KeyFree.of_clean {text : List Char} (clean : Clean text)
    (absent : ∀ arrow ∈ arrows, ¬ arrow <:+: text) : KeyFree text := by
  intro entry member within
  exact absent entry.1 (mem_arrows_of_clean clean member within) within

/-- A text that is empty or has a newline at its end. -/
theorem endLine_cases (text : List Char) :
    endLine text = [] ∨ ∃ front, endLine text = front ++ ['\n'] := by
  unfold endLine
  split
  next ended =>
    rcases ended with rfl | newline
    · exact .inl rfl
    · exact .inr (List.getLast?_eq_some_iff.mp newline)
  next => exact .inr ⟨text, rfl⟩

/-- The newline at the end of a text stays there, and no other one is added. -/
theorem normaliseChars_endLine (text : List Char) :
    normaliseChars (endLine text) = replaceKeys (endLine text) := by
  rw [normaliseChars]
  rcases endLine_cases text with none | ⟨front, eq⟩
  · rw [none, replaceKeys, endLine, if_pos (.inl rfl)]
  · have ended : replaceKeys (front ++ ['\n']) = replaceKeys front ++ ['\n'] := by
      rw [replaceKeys_append_newline, replaceKeys]
    rw [eq, ended, endLine, if_pos (.inr List.getLast?_concat)]

theorem toList_normalise (source : String) :
    (normalise source).toList = normaliseChars source.toList :=
  String.toList_ofList

/-- In a plain form only arrows are replaced once more. -/
theorem toList_normalise_normalise (source : String) :
    (normalise (normalise source)).toList = replaceKeys (normalise source).toList := by
  rw [toList_normalise, toList_normalise]
  exact normaliseChars_endLine (replaceKeys source.toList)

/-- Of the keys only arrows can be left in the plain form of a source, and none in the plain form of
that one, which is its own plain form. The first one is as well if no arrow is left in it. -/
theorem normalise_settles (source : String) :
    (∀ entry ∈ replacements, entry.1 <:+: (normalise source).toList →
      entry.1 = ['<', '-', '-', '>'] ∨ entry.1 = ['<', '-', '-', '-', '>']) ∧
    (∀ entry ∈ replacements, ¬ entry.1 <:+: (normalise (normalise source)).toList) ∧
    normalise (normalise (normalise source)) = normalise (normalise source) ∧
    (normalise (normalise source) = normalise source ↔
      ¬ ['<', '-', '-', '>'] <:+: (normalise source).toList ∧
        ¬ ['<', '-', '-', '-', '>'] <:+: (normalise source).toList) := by
  have clean : Clean (normalise source).toList := clean_normalise source
  have again := toList_normalise_normalise source
  have free : KeyFree (normalise (normalise source)).toList := by
    refine .of_clean (clean_normalise (normalise source)) ?_
    rw [again]
    exact clean.settles.no_arrow
  refine ⟨?_, free, ?_, ?_⟩
  · intro entry member within
    simpa [arrows] using mem_arrows_of_clean clean member within
  · rw [← String.toList_inj, toList_normalise_normalise (normalise source), free.replaceKeys_eq]
  · rw [← String.toList_inj, again, replaceKeys_eq_self_iff clean]
    simp [arrows]

/-- Two arrows whose parts stood apart: one was drawn with a glyph, a corner was in the other. -/
theorem normalise_settles_arrows :
    let once := normalise "a<-→b <-┌-->"
    once = "a<-->b <--->\n" ∧ normalise once = "a<->b <->\n" ∧
      normalise (normalise once) = "a<->b <->\n" := by
  intro once
  have first : normalise "a<-→b <-┌-->" = "a<-->b <--->\n" := by cbv
  have second : normalise once = "a<->b <->\n" := by
    rw [show once = _ from first]
    cbv
  obtain ⟨-, -, settled, -⟩ := normalise_settles "a<-→b <-┌-->"
  exact ⟨first, second, settled.trans second⟩

end Pseudocod.Typeset

import WebTidy.Proofs.Markup.Scan

/-
  The words that close a comment, a marker or a verbatim
  element.

  Whether a bracket opens one of them depends on whether its
  closing word stands anywhere behind.  Such a word has its
  only closing bracket at its end and no opening bracket but
  at its start, so it never lies across two tokens.

  Key definitions include:
    * `WebTidy.Markup.IsEndTag`
    * `WebTidy.Markup.Closer`
    * `WebTidy.Markup.Edge`

  Key theorems include:
    * `WebTidy.Markup.Closer.infix_append`
    * `WebTidy.Markup.throughEndTag?_eq_none_iff`
-/

------------------------------------------------------------
-- Words Across Two Texts
------------------------------------------------------------

namespace WebTidy

namespace Text

/- A word lies in one of two texts or across them. -/
theorem infix_append_cases
    {w a b : Text}
    (h : w <:+: a ++ b) :
    w <:+: a ∨ w <:+: b ∨
      ∃ u v,
        w = u ++ v ∧ u ≠ [] ∧ v ≠ [] ∧ u <:+ a ∧ v <+: b := by
  induction a with
  | nil => exact Or.inr (Or.inl h)
  | cons c a ih =>
      rw [List.cons_append, List.infix_cons_iff] at h
      rcases h with ⟨rest, hRest⟩ | hLater
      · rw [← List.cons_append] at hRest
        rcases List.append_eq_append_iff.mp hRest with
          ⟨more, hMore, _⟩ | ⟨v, hWord, hMore⟩
        · exact Or.inl ⟨[], more, by simp [hMore]⟩
        · cases v with
          | nil =>
              refine Or.inl ⟨[], [], ?_⟩
              simpa using hWord
          | cons d v =>
              refine Or.inr (Or.inr ⟨c :: a, d :: v, hWord,
                by simp, by simp, List.suffix_refl _, ?_⟩)
              exact ⟨rest, hMore.symm⟩
      · rcases ih hLater with hFirst | hSecond | hAcross
        · exact Or.inl
            (hFirst.trans (List.suffix_cons c a).isInfix)
        · exact Or.inr (Or.inl hSecond)
        · rcases hAcross with
            ⟨u, v, hWord, hu, hv, hLeft, hRight⟩
          exact Or.inr (Or.inr ⟨u, v, hWord, hu, hv,
            hLeft.trans (List.suffix_cons c a), hRight⟩)

end Text

end WebTidy

------------------------------------------------------------
-- Closing Words
------------------------------------------------------------

namespace WebTidy

namespace Markup

/- An end tag of a name, in any case of its letters. -/
def IsEndTag
    (name w : Text) :
    Prop :=
  ∃ letters blanks : Text,
    Text.sameLetters letters name = true ∧
    blanks.all isBlank = true ∧
    w = "</".toList ++ letters ++ blanks ++ ['>']

/- The words that close what a bracket may open. -/
inductive Closer :
    Text → Prop
| comment : Closer "-->".toList
| marker : Closer "]>".toList
| endTag
    {name w : Text}
    (hName : isVerbatim name = true)
    (hEnd : IsEndTag name w) :
    Closer w

/- The names of verbatim elements have no brackets. -/
theorem not_mem_of_isVerbatim
    {name : Text}
    (h : isVerbatim name = true) :
    '<' ∉ name ∧ '>' ∉ name := by
  have hLetters :
      ∀ c ∈ name, c.toLower ≠ '<' ∧ c.toLower ≠ '>' := by
    intro c hc
    unfold isVerbatim isAmong at h
    rcases List.any_eq_true.mp h with ⟨listed, hListed, hSame⟩
    have hLower : name.lower = Text.lower listed.toList := by
      unfold Text.sameLetters at hSame
      exact of_decide_eq_true hSame
    have hMem : c.toLower ∈ Text.lower listed.toList := by
      rw [← hLower]
      exact List.mem_map_of_mem hc
    have hNone :
        (["pre", "textarea", "script", "style"].all
          fun listed =>
            (Text.lower listed.toList).all
              fun d => d ≠ '<' && d ≠ '>') = true := by
      decide
    have hOne := List.all_eq_true.mp hNone listed hListed
    have hBoth := List.all_eq_true.mp hOne _ hMem
    simpa using hBoth
  constructor
  · intro hc
    exact (hLetters _ hc).1 rfl
  · intro hc
    exact (hLetters _ hc).2 rfl

/-
  A closing word ends with its only closing bracket, and an
  opening bracket can only be at its start.  Blanks only
  stand in those that begin with one.
-/
theorem Closer.exists_parts
    {w : Text}
    (h : Closer w) :
    ∃ c body,
      w = c :: body ++ ['>'] ∧ c ≠ '>' ∧
      '<' ∉ body ∧ '>' ∉ body ∧ isBlank c = false ∧
      (c = '<' ∨ ∀ d ∈ w, isBlank d = false) := by
  cases h with
  | comment =>
      exact ⟨'-', ['-'], rfl, by decide, by decide, by decide,
        rfl, Or.inr (by simp [isBlank])⟩
  | marker =>
      exact ⟨']', [], rfl, by decide, by decide, by decide,
        rfl, Or.inr (by simp [isBlank])⟩
  | endTag hName hEnd =>
      rcases hEnd with ⟨letters, blanks, hSame, hBlanks, rfl⟩
      have hLetters : isVerbatim letters = true := by
        unfold isVerbatim at hName ⊢
        unfold Text.sameLetters at hSame
        rw [isAmong_congr _ (of_decide_eq_true hSame), hName]
      have hNot := not_mem_of_isVerbatim hLetters
      have hBlank {c : Char}
          (hc : isBlank c = false) :
          c ∉ blanks := by
        intro hMem
        have hIs := List.all_eq_true.mp hBlanks c hMem
        rw [hc] at hIs
        cases hIs
      refine ⟨'<', '/' :: letters ++ blanks, by simp,
        by decide, ?_, ?_, rfl, Or.inl rfl⟩
      · simp [hNot.1, hBlank (c := '<') rfl]
      · simp [hNot.2, hBlank (c := '>') rfl]

/-
  Two texts that no closing word lies across: the first ends
  with a closing bracket, or the second is empty, or begins
  with an opening bracket, or with a blank behind a text
  without one.
-/
def Edge
    (a b : Text) :
    Prop :=
  a.getLast? = some '>' ∨ b = [] ∨ b.head? = some '<' ∨
    ('<' ∉ a ∧ b.head?.any isBlank = true)

/- A closing word lies in one of two texts. -/
theorem Closer.infix_append
    {w a b : Text}
    (h : Closer w)
    (hEdge : Edge a b)
    (hWord : w <:+: a ++ b) :
    w <:+: a ∨ w <:+: b := by
  rcases Text.infix_append_cases hWord with
    hLeft | hRight | ⟨u, v, hSplit, hu, hv, hSuffix, hPrefix⟩
  · exact Or.inl hLeft
  · exact Or.inr hRight
  · exfalso
    rcases h.exists_parts with
      ⟨c, body, hParts, hc, hOpen, hClose, _, hBlank⟩
    rcases List.exists_cons_of_ne_nil hu with ⟨e, u, rfl⟩
    rcases List.exists_cons_of_ne_nil hv with ⟨d, v, rfl⟩
    have hWhole : e :: (u ++ d :: v) = c :: (body ++ ['>']) := by
      rw [← List.cons_append, ← List.cons_append, ← hParts,
        hSplit]
    rcases List.cons.inj hWhole with ⟨rfl, hTail⟩
    have hBody : body = u ++ (d :: v).dropLast := by
      have hInit := congrArg List.dropLast hTail
      rw [List.dropLast_append_of_ne_nil (by simp),
        List.dropLast_concat] at hInit
      exact hInit.symm
    have hd : d ∈ body ++ ['>'] := by
      rw [← hTail]
      simp
    rcases hEdge with hEnd | hNil | hBegin | ⟨hText, hGap⟩
    · have hLast : (e :: u).getLast? = some '>' := by
        rcases hSuffix with ⟨front, rfl⟩
        rw [List.getLast?_append_of_ne_nil _ (by simp)] at hEnd
        exact hEnd
      rcases List.mem_cons.mp (List.mem_of_getLast? hLast) with
        rfl | hMem
      · exact hc rfl
      · exact hClose (by simp [hBody, hMem])
    · rw [hNil] at hPrefix
      cases List.prefix_nil.mp hPrefix
    · rcases hPrefix with ⟨rest, rfl⟩
      cases hBegin
      simp only [List.mem_append, List.mem_singleton,
        Char.reduceEq, or_false] at hd
      exact hOpen hd
    · have hFirst : e ≠ '<' := by
        rintro rfl
        exact hText (hSuffix.subset (by simp))
      rcases hPrefix with ⟨rest, rfl⟩
      rcases hBlank with hSame | hNone
      · exact hFirst hSame
      · have hNot := hNone d (by simp [hSplit])
        simp [hNot] at hGap

/- A closing word does not begin with blanks. -/
theorem Closer.infix_of_blanks
    {w blanks t : Text}
    (h : Closer w)
    (hBlanks : blanks.all isBlank = true)
    (hWord : w <:+: blanks ++ t) :
    w <:+: t := by
  rcases h.exists_parts with
    ⟨c, body, hParts, _, _, _, hFirst, _⟩
  have hNot : c ∉ blanks := by
    intro hMem
    have hIs := List.all_eq_true.mp hBlanks c hMem
    rw [hFirst] at hIs
    cases hIs
  rcases Text.infix_append_cases hWord with
    hLeft | hRight | ⟨u, v, hSplit, hu, _, hSuffix, _⟩
  · exact absurd (hLeft.subset (by simp [hParts])) hNot
  · exact hRight
  · rcases List.exists_cons_of_ne_nil hu with ⟨e, u, rfl⟩
    rw [hSplit, List.cons_append, List.cons_append] at hParts
    rcases List.cons.inj hParts with ⟨rfl, _⟩
    exact absurd (hSuffix.subset (by simp)) hNot

end Markup

end WebTidy

------------------------------------------------------------
-- Ends Of Verbatim Elements
------------------------------------------------------------

namespace WebTidy

namespace Markup

/- An end tag is as long as its parts. -/
theorem endTagLength?_append
    {name letters blanks : Text}
    (rest : Text)
    (hSame : Text.sameLetters letters name = true)
    (hBlanks : blanks.all isBlank = true) :
    endTagLength? name
        ("</".toList ++ letters ++ blanks ++ ['>'] ++ rest) =
      some ("</".toList ++ letters ++ blanks ++ ['>']).length := by
  have hLength := Text.length_eq_of_sameLetters hSame
  have hText :
      "</".toList ++ letters ++ blanks ++ ['>'] ++ rest =
        '<' :: '/' :: (letters ++ (blanks ++ '>' :: rest)) := by
    simp
  have hBehind :
      List.drop (2 + name.length)
          ('<' :: '/' :: (letters ++ (blanks ++ '>' :: rest))) =
        blanks ++ '>' :: rest := by
    rw [Nat.add_comm, ← hLength]
    simp
  have hRun :
      (blanks ++ '>' :: rest).takeWhile isBlank = blanks := by
    rw [List.takeWhile_append_of_pos
      (List.all_eq_true.mp hBlanks)]
    simp [isBlank]
  have hClose :
      ('<' :: '/' :: (letters ++ (blanks ++ '>' :: rest)))[
        2 + name.length + blanks.length]? = some '>' := by
    rw [← List.getElem?_drop, hBehind]
    simp
  have hOpen :
      "</".toList <+:
        '<' :: '/' :: (letters ++ (blanks ++ '>' :: rest)) :=
    ⟨_, rfl⟩
  have hLetters :
      (List.drop 2
          ('<' :: '/' ::
            (letters ++ (blanks ++ '>' :: rest)))).take
          name.length =
        letters := by
    rw [← hLength]
    simp
  rw [hText, endTagLength?, hBehind, hRun, hLetters]
  simp only [hOpen, hSame, hClose, and_self, if_true]
  simp [hLength]
  omega

/- What is read as an end tag is one. -/
theorem exists_of_endTagLength?
    {name s : Text}
    {n : Nat}
    (h : endTagLength? name s = some n) :
    ∃ w rest, IsEndTag name w ∧ s = w ++ rest ∧ w.length = n := by
  unfold endTagLength? at h
  simp only at h
  split at h
  · rename_i hFound
    rcases hFound with ⟨⟨inner, rfl⟩, hSame, hClose⟩
    have hDrop :
        List.drop (2 + name.length) ("</".toList ++ inner) =
          inner.drop name.length := by
      rw [Nat.add_comm]
      rfl
    have hTake :
        List.take name.length
            (List.drop 2 ("</".toList ++ inner)) =
          inner.take name.length := rfl
    rw [hTake] at hSame
    rw [← List.getElem?_drop, hDrop] at hClose
    rw [hDrop, Option.some_inj] at h
    rcases Text.exists_of_getElem?_takeWhile hClose with
      ⟨rest, hRest⟩
    refine ⟨"</".toList ++ inner.take name.length ++
        (inner.drop name.length).takeWhile isBlank ++ ['>'],
      rest, ⟨_, _, hSame, by simp, rfl⟩, ?_, ?_⟩
    · have hInner := List.take_append_drop name.length inner
      rw [hRest] at hInner
      simpa using hInner.symm
    · have hLength := Text.length_eq_of_sameLetters hSame
      rw [← h]
      simp only [List.length_append, hLength]
      simp
  · cases h

/- An end tag is sought at every place. -/
theorem throughEndTag?_eq_none_iff
    {name s : Text} :
    throughEndTag? name s = none ↔
      ∀ w, IsEndTag name w → ¬ w <:+: s := by
  have hNone (s : Text) :
      endTagLength? name s = none ↔
        ∀ w, IsEndTag name w → ¬ w <+: s := by
    constructor
    · rintro hNone w ⟨letters, blanks, hSame, hBlanks, rfl⟩
        ⟨rest, rfl⟩
      rw [endTagLength?_append rest hSame hBlanks] at hNone
      cases hNone
    · intro hAll
      cases hLength : endTagLength? name s with
      | none => rfl
      | some n =>
          rcases exists_of_endTagLength? hLength with
            ⟨w, rest, hEnd, hText, _⟩
          exact absurd ⟨rest, hText.symm⟩ (hAll w hEnd)
  induction s with
  | nil =>
      constructor
      · rintro _ w ⟨letters, blanks, _, _, rfl⟩ hInfix
        cases List.infix_nil.mp hInfix
      · intro _
        rfl
  | cons c rest ih =>
      constructor
      · intro hRead w hEnd hInfix
        rw [throughEndTag?] at hRead
        split at hRead
        · cases hRead
        · rename_i hFirst
          rw [Option.map_eq_none_iff] at hRead
          rcases List.infix_cons_iff.mp hInfix with
            hPrefix | hLater
          · exact (hNone _).mp hFirst w hEnd hPrefix
          · exact ih.mp hRead w hEnd hLater
      · intro hAll
        have hFirst : endTagLength? name (c :: rest) = none := by
          rw [hNone]
          intro w hEnd hPrefix
          exact hAll w hEnd hPrefix.isInfix
        have hLater : throughEndTag? name rest = none := by
          apply ih.mpr
          intro w hEnd hInfix
          exact hAll w hEnd
            (List.infix_cons_iff.mpr (Or.inr hInfix))
        rw [throughEndTag?, hFirst]
        simp only [hLater]
        rfl

/- An end tag at the start is the first one. -/
theorem throughEndTag?_of_endTagLength?
    {name s : Text}
    {n : Nat}
    (h : endTagLength? name s = some n) :
    throughEndTag? name s = some n := by
  cases s with
  | nil =>
      rcases exists_of_endTagLength? h with
        ⟨w, rest, ⟨letters, blanks, _, _, rfl⟩, hText, _⟩
      cases hText
  | cons c rest => rw [throughEndTag?, h]

/- A closing word at the start ends with the first bracket. -/
theorem Closer.prefix_append
    {w a b : Text}
    (h : Closer w)
    (hEnd : a.getLast? = some '>')
    (hWord : w <+: a ++ b) :
    w <+: a := by
  rcases hWord with ⟨rest, hRest⟩
  rcases List.append_eq_append_iff.mp hRest with
    ⟨more, hMore, _⟩ | ⟨v, hSplit, _⟩
  · exact ⟨more, hMore.symm⟩
  · rcases h.exists_parts with
      ⟨c, body, hParts, hc, _, hClose, _⟩
    cases v with
    | nil =>
        rw [List.append_nil] at hSplit
        exact hSplit ▸ List.prefix_refl _
    | cons d v =>
        have hInit := congrArg List.dropLast hParts
        rw [hSplit, List.dropLast_append_of_ne_nil (by simp),
          List.dropLast_concat] at hInit
        have hMem : '>' ∈ c :: body := by
          rw [← hInit]
          exact List.mem_append_left _
            (List.mem_of_getLast? hEnd)
        rcases List.mem_cons.mp hMem with hSame | hBody
        · exact absurd hSame.symm hc
        · exact absurd hBody hClose

/- The first end tag is found in the text up to it. -/
theorem throughEndTag?_take_append
    {name s : Text}
    {n : Nat}
    (hName : isVerbatim name = true)
    (h : throughEndTag? name s = some n)
    (more : Text) :
    throughEndTag? name (s.take n ++ more) = some n := by
  induction s generalizing n with
  | nil => cases h
  | cons c rest ih =>
      rw [throughEndTag?] at h
      split at h
      · rename_i m hFirst
        cases h
        rcases exists_of_endTagLength? hFirst with
          ⟨w, tail, ⟨letters, blanks, hSame, hBlanks, rfl⟩,
            hText, hLength⟩
        rw [hText, ← hLength, List.take_left]
        exact throughEndTag?_of_endTagLength?
          (endTagLength?_append more hSame hBlanks)
      · rename_i hFirst
        rcases Option.map_eq_some_iff.mp h with ⟨m, hm, rfl⟩
        have hNone :
            endTagLength? name (c :: (rest.take m ++ more)) =
              none := by
          cases hRead :
              endTagLength? name (c :: (rest.take m ++ more)) with
          | none => rfl
          | some k =>
              rcases exists_of_endTagLength? hRead with
                ⟨w, tail, hEnd, hText, _⟩
              have hBracket :
                  (c :: rest.take m).getLast? = some '>' := by
                rcases getElem?_of_throughEndTag? hm with
                  ⟨j, rfl, hj⟩
                rw [List.take_add_one, hj, ← List.cons_append]
                exact List.getLast?_concat
              have hShort : w <+: c :: rest.take m := by
                apply (Closer.endTag hName hEnd).prefix_append
                  hBracket
                exact ⟨tail, hText.symm⟩
              rcases hShort.trans ((List.cons_prefix_cons).mpr
                ⟨rfl, List.take_prefix m rest⟩) with
                ⟨more, hMore⟩
              rcases hEnd with
                ⟨letters, blanks, hSame, hBlanks, rfl⟩
              rw [← hMore,
                endTagLength?_append more hSame hBlanks]
                at hFirst
              cases hFirst
        rw [List.take_succ_cons, List.cons_append,
          throughEndTag?, hNone]
        simp only [ih hm]
        rfl

end Markup

end WebTidy

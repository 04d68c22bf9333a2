import WebTidy.Markup.Compact
import WebTidy.Proofs.Markup.Partition
import WebTidy.Proofs.Text.Spacing

/-
  The form of compact documents.

  The closed comments of a document go from left to right.
  What is left keeps its visible characters, with one space
  wherever spaces divide two of them, but none between a
  closing and an opening bracket.  The marks of a comment
  are words that no space stands in, so no comment is made
  or lost where spaces are dropped, and a second compact
  form is the first one unless a comment is closed in what
  the first comments leave.

  Key definitions include:
    * `WebTidy.Markup.Strips`
    * `WebTidy.Markup.IsCompact`
    * `WebTidy.Markup.IsBare`

  Key theorems include:
    * `WebTidy.Markup.strips_iff`
    * `WebTidy.Markup.minify_eq_condense`
    * `WebTidy.Markup.isBare_condense_iff`
    * `WebTidy.Markup.minify_normalForm`
-/

------------------------------------------------------------
-- Compact Forms
------------------------------------------------------------

namespace WebTidy

namespace Markup

/- A comment up to its first closing mark. -/
def IsComment
    (w : Text) :
    Prop :=
  Text.ClosesFirst "<!--".toList "-->".toList w

/-
  A document read from left to right: a comment is dropped
  where one begins, and a single character kept elsewhere.
-/
inductive Strips :
    Text → Text → Prop
| nil :
    Strips [] []
| comment
    {w rest out : Text}
    (hWord : IsComment w)
    (hRest : Strips rest out) :
    Strips (w ++ rest) out
| char
    {c : Char}
    {rest out : Text}
    (hNone : ∀ w, IsComment w → ¬ w <+: c :: rest)
    (hRest : Strips rest out) :
    Strips (c :: rest) (c :: out)

/- No comment is closed in a text. -/
def IsBare
    (t : Text) :
    Prop :=
  ∀ body, ¬ "<!--".toList ++ body ++ "-->".toList <:+: t

/-
  A compact form of a text.  It shows the same characters,
  and its only spaces are single ones between two of them
  that spaces divide, except between a closing and an
  opening bracket.
-/
structure IsCompact
    (source out : Text) :
    Prop where
  space : ∀ c ∈ out, isSpace c = true → c = ' '
  single : ¬ [' ', ' '] <:+: out
  first : out.head? ≠ some ' '
  last : out.getLast? ≠ some ' '
  tight : ¬ ['>', ' ', '<'] <:+: out
  visible : out.visible = source.visible
  apart :
    ∀ front c spaces d back,
      source = front ++ c :: (spaces ++ d :: back) →
      spaces.all isSpace = true →
      isSpace c = false →
      isSpace d = false →
      ∃ before behind,
        out =
          before ++ c ::
            ((if spaces = [] ∨ (c = '>' ∧ d = '<') then []
              else [' ']) ++ d :: behind) ∧
        Text.visible before = Text.visible front ∧
        Text.visible behind = Text.visible back

end Markup

end WebTidy

------------------------------------------------------------
-- Dropped Comments
------------------------------------------------------------

namespace WebTidy

namespace Markup

/- The comment at the start is the one that is measured. -/
theorem commentLength?_eq_some_iff
    {s : Text}
    {n : Nat} :
    commentLength? s = some n ↔
      ∃ w, IsComment w ∧ w <+: s ∧ w.length = n := by
  exact Text.closesFirst_iff (by decide)

/- A comment is dropped. -/
theorem stripComments_append
    {w : Text}
    (rest : Text)
    (h : IsComment w) :
    stripComments (w ++ rest) = stripComments rest := by
  have hLength :
      commentLength? (w ++ rest) = some w.length :=
    commentLength?_eq_some_iff.mpr
      ⟨w, h, List.prefix_append w rest, rfl⟩
  rcases h.1 with ⟨more, rfl⟩
  have hText :
      "<!--".toList ++ more ++ rest =
        '<' :: ("!--".toList ++ more ++ rest) := rfl
  rw [hText] at hLength ⊢
  rw [stripComments, hLength]
  simp

/- A character that begins no comment stays. -/
theorem stripComments_cons
    {c : Char}
    {rest : Text}
    (h : ∀ w, IsComment w → ¬ w <+: c :: rest) :
    stripComments (c :: rest) = c :: stripComments rest := by
  have hNone : commentLength? (c :: rest) = none := by
    rw [Option.eq_none_iff_forall_ne_some]
    intro n hn
    rcases commentLength?_eq_some_iff.mp hn with
      ⟨w, hWord, hPrefix, _⟩
    exact h w hWord hPrefix
  rw [stripComments, hNone]

/- Comments are dropped from left to right. -/
theorem strips_stripComments
    (s : Text) :
    Strips s (stripComments s) := by
  fun_induction stripComments s with
  | case1 => exact .nil
  | case2 c rest n hLength ih =>
      rcases commentLength?_eq_some_iff.mp hLength with
        ⟨w, hWord, ⟨more, hMore⟩, rfl⟩
      have hSome : 0 < w.length := commentLength?_pos hLength
      have hRest : rest.drop (w.length - 1) = more := by
        have hDrop := congrArg (List.drop w.length) hMore
        rw [List.drop_left] at hDrop
        rw [hDrop]
        cases hw : w.length with
        | zero => omega
        | succ n => rfl
      rw [hRest] at ih
      rw [← hMore, hRest]
      exact .comment hWord ih
  | case3 c rest hNone ih =>
      refine .char ?_ ih
      intro w hWord hPrefix
      rw [commentLength?_eq_some_iff.mpr
        ⟨w, hWord, hPrefix, rfl⟩] at hNone
      cases hNone

/- A document has one reading without its comments. -/
theorem strips_iff
    {s t : Text} :
    Strips s t ↔ t = stripComments s := by
  constructor
  · intro h
    induction h with
    | nil => rw [stripComments]
    | comment hWord hRest ih =>
        rw [stripComments_append _ hWord, ih]
    | char hNone hRest ih =>
        rw [stripComments_cons hNone, ih]
  · rintro rfl
    exact strips_stripComments s

end Markup

end WebTidy

------------------------------------------------------------
-- Texts Without Comments
------------------------------------------------------------

namespace WebTidy

namespace Markup

/- None is closed in an empty text. -/
theorem isBare_nil :
    IsBare [] := by
  intro body hInfix
  rw [List.infix_nil, List.append_assoc] at hInfix
  cases hInfix

/- None is closed if none begins at the start or behind it. -/
theorem isBare_cons_iff
    {c : Char}
    {rest : Text} :
    IsBare (c :: rest) ↔
      commentLength? (c :: rest) = none ∧ IsBare rest := by
  have hStart :
      commentLength? (c :: rest) = none ↔
        ∀ body,
          ¬ "<!--".toList ++ body ++ "-->".toList <+:
            c :: rest :=
    Text.map_indexOf?_eq_none_iff (by decide) 7
  unfold IsBare
  simp only [List.infix_cons_iff, not_or, forall_and, hStart]

/-
  A text without comments is left as it is, and a text with
  comments loses an opening bracket.
-/
theorem stripComments_cases
    (t : Text) :
    (IsBare t ∧ stripComments t = t) ∨
    (¬ IsBare t ∧
      (stripComments t).count '<' < t.count '<') := by
  fun_induction stripComments t with
  | case1 => exact Or.inl ⟨isBare_nil, rfl⟩
  | case2 c rest n hLength ih =>
      have hBracket : c = '<' := by
        rcases commentLength?_eq_some_iff.mp hLength with
          ⟨w, ⟨⟨more, rfl⟩, _⟩, ⟨back, hBack⟩, _⟩
        exact (List.cons.inj hBack).1.symm
      have hDrop :
          (rest.drop (n - 1)).count '<' ≤ rest.count '<' :=
        (List.drop_sublist _ _).count_le '<'
      have hLe :
          (stripComments (rest.drop (n - 1))).count '<' ≤
            (rest.drop (n - 1)).count '<' := by
        rcases ih with ⟨_, hSame⟩ | ⟨_, hLess⟩
        · rw [hSame]
        · exact hLess.le
      refine Or.inr ⟨?_, ?_⟩
      · rw [isBare_cons_iff, hLength]
        rintro ⟨hNone, _⟩
        cases hNone
      · rw [hBracket, List.count_cons_self]
        omega
  | case3 c rest hNone ih =>
      have hHere : IsBare (c :: rest) ↔ IsBare rest := by
        rw [isBare_cons_iff]
        exact and_iff_right hNone
      rw [hHere]
      rcases ih with ⟨hBare, hSame⟩ | ⟨hNot, hLess⟩
      · exact Or.inl ⟨hBare, by rw [hSame]⟩
      · refine Or.inr ⟨hNot, ?_⟩
        rw [List.count_cons, List.count_cons]
        omega

/- What is left as it is, by the brackets alone. -/
theorem isBare_iff
    {t : Text} :
    IsBare t ↔ (stripComments t).count '<' = t.count '<' := by
  rcases stripComments_cases t with
    ⟨hBare, hSame⟩ | ⟨hNot, hLess⟩
  · rw [hSame]
    exact iff_of_true hBare rfl
  · exact iff_of_false hNot hLess.ne

/- A text without comments is left as it is. -/
theorem IsBare.stripComments_eq
    {t : Text}
    (h : IsBare t) :
    stripComments t = t := by
  rcases stripComments_cases t with ⟨_, hSame⟩ | ⟨hNot, _⟩
  · exact hSame
  · exact absurd h hNot

end Markup

end WebTidy

------------------------------------------------------------
-- Space Between Tags
------------------------------------------------------------

namespace WebTidy

namespace Markup

/- Characters that spaces between them are dropped. -/
def isBetween
    (a b : Char) :
    Bool :=
  a = '>' ∧ b = '<'

/- Space between tags is dropped in one pass. -/
theorem isPass_stripBetween :
    Text.IsPass isBetween fun p =>
      stripBetweenFrom (p = '>') := by
  have hSpace : isSpace ' ' = true := by decide
  constructor
  · intro p
    rfl
  · intro p
    simp [stripBetweenFrom, hSpace]
  · intro p c rest hc
    rw [stripBetweenFrom, if_neg (by simp [hc])]
  · intro p c rest hc
    simp only [stripBetweenFrom, hSpace, hc, isBetween,
      if_true, Bool.false_eq_true, if_false, decide_eq_true_eq,
      List.dropWhile_cons_of_neg, List.head?_cons,
      Option.some.injEq, not_false_eq_true]
    split <;> rfl

/- A compact document is condensed behind its comments. -/
theorem minify_eq_condense
    (document : Text) :
    minify document =
      Text.condense isBetween none false
        (stripComments document) :=
  isPass_stripBetween.trim_eq ' ' (stripComments document)

/- A comment is closed in a condensed text if in the text. -/
theorem isBare_condense_iff
    {t : Text} :
    IsBare (Text.condense isBetween none false t) ↔
      IsBare t := by
  have hOpen : "<!--".toList.all (!isSpace ·) = true := rfl
  have hClose : "-->".toList.all (!isSpace ·) = true := rfl
  constructor
  · rintro hBare body ⟨front, back, rfl⟩
    rcases Text.exists_condense_word isBetween none false front
      (body ++ ("-->".toList ++ back)) (by decide) hOpen with
      ⟨before, next, hFirst⟩
    rcases Text.exists_condense_word isBetween next false body
      back (by decide) hClose with ⟨inner, last, hSecond⟩
    apply hBare inner
    refine ⟨before,
      Text.condense isBetween last false back, ?_⟩
    rw [hSecond] at hFirst
    simpa using hFirst.symm
  · rintro hBare inner ⟨before, behind, hText⟩
    have hFirst :
        Text.condense isBetween none false t =
          before ++ ("<!--".toList ++
            (inner ++ ("-->".toList ++ behind))) := by
      simpa using hText.symm
    rcases Text.exists_of_condense_word (by decide) hOpen
      (by decide) hFirst with ⟨front, next, more, rfl, hMore⟩
    rcases Text.exists_of_condense_word (by decide) hClose
      (by decide) hMore.symm with ⟨body, _, back, rfl, _⟩
    exact hBare body ⟨front, back, by simp⟩

end Markup

end WebTidy

------------------------------------------------------------
-- Compact Documents
------------------------------------------------------------

namespace WebTidy

namespace Markup

/- Condensing gives the compact form of a text. -/
theorem isCompact_condense
    (t : Text) :
    IsCompact t (Text.condense isBetween none false t) := by
  have hSpace : isSpace ' ' = true := by decide
  have hHead := @Text.head?_condense isBetween t
  have hLast := @Text.getLast?_condense isBetween none false t
  refine ⟨?_, ?_, ?_, ?_, ?_, Text.visible_condense _ _ _, ?_⟩
  · exact fun c => Text.eq_space_of_mem_condense
  · intro h
    have hPair :=
      List.IsChain.infix (Text.isChain_condense none false t) h
    rw [List.isChain_pair] at hPair
    exact absurd (hPair hSpace) (by decide)
  · intro h
    rw [h] at hHead
    exact absurd hHead (by decide)
  · intro h
    rw [h] at hLast
    exact absurd hLast (by decide)
  · rintro ⟨before, behind, hText⟩
    have hCut :
        Text.condense isBetween none false t =
          before ++ '>' :: ' ' :: '<' :: behind := by
      simpa using hText.symm
    rcases Text.exists_of_space (by decide) hCut with
      ⟨d, more, hNext, _, hApart⟩
    rw [← (List.cons.inj hNext).1] at hApart
    exact absurd hApart (by decide)
  · rintro front c spaces d back rfl hSpaces hc hd
    rcases Text.exists_condense_cut isBetween none false front
      (spaces ++ d :: back) hc with ⟨before, hCut, hSame⟩
    refine ⟨before, Text.condense isBetween (some d) false back,
      ?_, hSame, Text.visible_condense _ _ _⟩
    rw [hCut, Text.condense_spaces_cons c back hSpaces hd]
    simp [isBetween]

/- A second compact form is the first one. -/
theorem minify_condense_iff
    {t : Text} :
    minify (Text.condense isBetween none false t) =
        Text.condense isBetween none false t ↔
      IsBare (Text.condense isBetween none false t) := by
  rw [minify_eq_condense]
  constructor
  · intro hSame
    rw [isBare_iff]
    have hCount (s : Text) :
        s.visible.count '<' = s.count '<' :=
      List.count_filter (by decide)
    have hSeen := congrArg Text.visible hSame
    rw [Text.visible_condense] at hSeen
    rw [← hCount, hSeen, hCount]
  · intro hBare
    rw [hBare.stripComments_eq, Text.condense_condense]

/-
  The compact form of a document.  Comments go from left to
  right, each up to its first closing mark.  Nothing else
  that can be seen goes, and a single space is left wherever
  spaces divide two visible characters, but not between a
  closing and an opening bracket.  The compact form stays as
  it is exactly if no comment is closed in what is left.
-/
theorem minify_normalForm
    (document : Text) :
    (∀ s, Strips document s ↔ s = stripComments document) ∧
    IsCompact (stripComments document) (minify document) ∧
    (minify (minify document) = minify document ↔
      IsBare (stripComments document)) := by
  refine ⟨fun s => strips_iff, ?_, ?_⟩
  · rw [minify_eq_condense]
    exact isCompact_condense _
  · rw [minify_eq_condense document, minify_condense_iff,
      isBare_condense_iff]

end Markup

end WebTidy

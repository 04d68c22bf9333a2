import Mathlib.Data.List.Chain
import WebTidy.Proofs.Stylesheet.Idempotence
import WebTidy.Proofs.Stylesheet.Uncommented
import WebTidy.Proofs.Text.Spacing

/-
  Compact style sheets do not depend on the layout.

  Without comments, the passes of the compact form are one
  pass that keeps a single space between two characters if
  neither is punctuation, so its form is a condensed text
  with punctuation tight.  The blanks that the layout adds
  or drops are those that this pass does not see, and the
  semicolon that it adds stands before a close brace.

  Key definitions include:
    * `WebTidy.Stylesheet.dense`
    * `WebTidy.Stylesheet.isTight`
    * `WebTidy.Stylesheet.Bare`
    * `WebTidy.Stylesheet.Scanner.Tracks`

  Key theorems include:
    * `WebTidy.Stylesheet.dense_eq_condense`
    * `WebTidy.Stylesheet.isPass_stripBeside`
    * `WebTidy.Stylesheet.minify_eq`
    * `WebTidy.Stylesheet.Scanner.Laid.dense_eq`
    * `WebTidy.Stylesheet.minify_prettify`
-/

------------------------------------------------------------
-- One Pass
------------------------------------------------------------

namespace WebTidy

namespace Stylesheet

/-
  A style sheet without the spaces that need not be.  The
  first two arguments are the last character kept and
  whether spaces stand behind it.
-/
def dense :
    Option Char → Bool → Text → Text
| _, _, [] => []
| last, spaced, c :: rest =>
    if isSpace c then dense last true rest
    else if spaced ∧ last.any (!isPunctuation ·) ∧
        isPunctuation c = false then
      ' ' :: c :: dense (some c) false rest
    else c :: dense (some c) false rest

/- Punctuation stands tight on both sides. -/
def isTight
    (a b : Char) :
    Bool :=
  isPunctuation a || isPunctuation b

/- What this pass writes is a condensed text. -/
theorem dense_eq_condense
    (last : Option Char)
    (spaced : Bool)
    (t : Text) :
    dense last spaced t =
      Text.condense isTight last spaced t := by
  induction t generalizing last spaced with
  | nil => rfl
  | cons c rest ih =>
      have hKeep :
          last.any (!isTight · c) = true ↔
            last.any (!isPunctuation ·) = true ∧
              isPunctuation c = false := by
        cases last with
        | none => simp
        | some p => simp [isTight]
      simp only [dense, Text.condense, hKeep, ih]

/- Blanks are spaces. -/
theorem all_isSpace
    {blanks : Text}
    (h : blanks.all isBlank = true) :
    blanks.all isSpace = true := by
  rw [List.all_eq_true] at h ⊢
  exact fun c hc => isSpace_of_isBlank (h c hc)

/- More spaces are only seen as spaces. -/
theorem dense_spaces
    (last : Option Char)
    (spaced : Bool)
    {spaces : Text}
    (rest : Text)
    (hSpaces : spaces.all isSpace = true) :
    dense last spaced (spaces ++ rest) =
      dense last (spaced || !spaces.isEmpty) rest := by
  rw [dense_eq_condense, dense_eq_condense,
    Text.condense_spaces _ _ _ _ hSpaces]

/- Spaces at the end are dropped. -/
theorem dense_append_spaces
    (last : Option Char)
    (spaced : Bool)
    (t : Text)
    {spaces : Text}
    (hSpaces : spaces.all isSpace = true) :
    dense last spaced (t ++ spaces) = dense last spaced t := by
  rw [dense_eq_condense, dense_eq_condense,
    Text.condense_append_spaces _ _ _ _ hSpaces]

/- Behind punctuation and at the start no space is kept. -/
theorem dense_tight
    {last : Option Char}
    (spaced other : Bool)
    (rest : Text)
    (hLast : last.all isPunctuation = true) :
    dense last spaced rest = dense last other rest := by
  have hNone : last.any (!isPunctuation ·) = false := by
    cases last with
    | none => rfl
    | some c => simpa using hLast
  cases rest with
  | nil => rfl
  | cons c rest =>
      rw [dense, dense]
      simp only [hNone, Bool.false_eq_true, false_and,
        and_false, if_false]

/- Punctuation is no space. -/
theorem isSpace_of_isPunctuation
    {c : Char}
    (h : isPunctuation c = true) :
    isSpace c = false := by
  simp only [isPunctuation, decide_eq_true_eq] at h
  rcases h with rfl | rfl | rfl | rfl | rfl <;> decide

/- No space is kept in front of punctuation. -/
theorem dense_punctuation
    (last : Option Char)
    (spaced : Bool)
    {spaces : Text}
    {c : Char}
    (rest : Text)
    (hSpaces : spaces.all isSpace = true)
    (hc : isPunctuation c = true) :
    dense last spaced (spaces ++ c :: rest) =
      c :: dense (some c) false rest := by
  have hSpace := isSpace_of_isPunctuation hc
  rw [dense_spaces _ _ _ hSpaces, dense]
  simp [hSpace, hc]

end Stylesheet

end WebTidy

------------------------------------------------------------
-- The Passes Together
------------------------------------------------------------

namespace WebTidy

namespace Stylesheet

/- Spaces beside punctuation are dropped in one pass. -/
theorem isPass_stripBeside :
    Text.IsPass isTight fun p =>
      stripBesideFrom (isPunctuation p) := by
  have hSpace : isSpace ' ' = true := by decide
  constructor
  · intro p
    rfl
  · intro p
    cases hp : isPunctuation p <;>
      simp [stripBesideFrom, hSpace]
  · intro p c rest hc
    rw [stripBesideFrom, if_neg (by simp [hc])]
  · intro p c rest hc
    cases hp : isPunctuation p <;>
      cases hPunct : isPunctuation c <;>
      simp [stripBesideFrom, hSpace, hc, isTight, hp, hPunct]

/-
  Two texts are handled apart if no semicolon at the end of
  the first meets a close brace.
-/
theorem stripSemicolons_append
    {a b : Text}
    (h : a.getLast? ≠ some ';' ∨ b.head? ≠ some '}') :
    stripSemicolons (a ++ b) =
      stripSemicolons a ++ stripSemicolons b := by
  induction a with
  | nil => rfl
  | cons c rest ih =>
      cases rest with
      | nil =>
          have hKeep : ¬ (c = ';' ∧ b.head? = some '}') := by
            rintro ⟨rfl, hHead⟩
            exact h.elim (fun hLast => hLast rfl)
              (fun hNext => hNext hHead)
          simp [stripSemicolons, hKeep]
      | cons d more =>
          rw [List.getLast?_cons_cons] at h
          rw [List.cons_append, stripSemicolons, stripSemicolons,
            ih h, List.cons_append, List.head?_cons,
            List.head?_cons]
          split <;> rfl

/- Spaces are no semicolons. -/
theorem stripSemicolons_spaces
    {spaces : Text}
    (hSpaces : spaces.all isSpace = true) :
    stripSemicolons spaces = spaces := by
  induction spaces with
  | nil => rfl
  | cons c more ih =>
      simp only [List.all_cons, Bool.and_eq_true] at hSpaces
      have hc : c ≠ ';' := by
        rintro rfl
        exact absurd hSpaces.1 (by decide)
      rw [stripSemicolons, ih hSpaces.2]
      simp [hc]

/- Semicolons are dropped apart from spaces in front. -/
theorem stripSemicolons_spaces_append
    {spaces : Text}
    (t : Text)
    (hSpaces : spaces.all isSpace = true) :
    stripSemicolons (spaces ++ t) =
      spaces ++ stripSemicolons t := by
  rw [stripSemicolons_append, stripSemicolons_spaces hSpaces]
  refine Or.inl ?_
  intro hLast
  have hSpace :=
    List.all_eq_true.mp hSpaces _ (List.mem_of_getLast? hLast)
  exact absurd hSpace (by decide)

/- So they are from spaces behind. -/
theorem stripSemicolons_append_spaces
    (t : Text)
    {spaces : Text}
    (hSpaces : spaces.all isSpace = true) :
    stripSemicolons (t ++ spaces) =
      stripSemicolons t ++ spaces := by
  rw [stripSemicolons_append, stripSemicolons_spaces hSpaces]
  refine Or.inr ?_
  intro hBrace
  have hSpace :=
    List.all_eq_true.mp hSpaces _ (List.mem_of_head? hBrace)
  exact absurd hSpace (by decide)

/- The first character is dropped in front of a brace only. -/
theorem head?_stripSemicolons_cases
    (t : Text) :
    (stripSemicolons t).head? = t.head? ∨
      ∃ rest,
        t = ';' :: '}' :: rest ∧
          (stripSemicolons t).head? = some '}' := by
  cases t with
  | nil => exact Or.inl rfl
  | cons c rest =>
      rw [stripSemicolons]
      split
      · rename_i hDrop
        rcases List.head?_eq_some_iff.mp hDrop.2 with
          ⟨more, rfl⟩
        rw [hDrop.1]
        exact Or.inr ⟨more, rfl, rfl⟩
      · exact Or.inl rfl

/- Dropping semicolons keeps the first class of character. -/
theorem head?_stripSemicolons
    {t : Text}
    (hFirst : t.head?.all (!isSpace ·) = true) :
    (stripSemicolons t).head?.all (!isSpace ·) = true := by
  rcases head?_stripSemicolons_cases t with
    hSame | ⟨rest, _, hBrace⟩
  · rw [hSame]
    exact hFirst
  · rw [hBrace]
    decide

/- Dropping semicolons keeps the end. -/
theorem getLast?_stripSemicolons
    (t : Text) :
    (stripSemicolons t).getLast? = t.getLast? := by
  induction t with
  | nil => rfl
  | cons c rest ih =>
      rw [stripSemicolons]
      split
      · rename_i hDrop
        rw [ih, List.getLast?_cons]
        cases rest with
        | nil => cases hDrop.2
        | cons d more => simp [List.getLast?_cons]
      · rw [List.getLast?_cons, List.getLast?_cons, ih]

/- A dense text has no space at its start. -/
theorem head?_dense
    (t : Text) :
    (dense none false t).head?.all (!isSpace ·) = true := by
  rw [dense_eq_condense]
  exact Text.head?_condense t

/- Nor has it one at its end. -/
theorem getLast?_dense
    (t : Text) :
    (dense none false t).getLast?.all (!isSpace ·) = true := by
  rw [dense_eq_condense]
  exact Text.getLast?_condense none false t

/- Behind the comments, the compact form is two passes. -/
theorem minify_eq
    (sheet : Text) :
    minify sheet =
      stripSemicolons
        (dense none false (stripComments sheet)) := by
  rcases isPass_stripBeside.exists_start ' '
    (stripComments sheet) with ⟨lead, tail, hLead, hTail, hPass⟩
  rw [← dense_eq_condense] at hPass
  have hPasses :
      stripBeside ((stripComments sheet).fold isSpace) = _ :=
    hPass
  rw [minify, hPasses,
    stripSemicolons_append_spaces _ hTail,
    stripSemicolons_spaces_append _ hLead]
  apply Text.trim_append hLead hTail
  · exact head?_stripSemicolons (head?_dense _)
  · rw [getLast?_stripSemicolons]
    exact getLast?_dense _

/- Without comments, it is those of the text itself. -/
theorem minify_eq_dense
    {sheet : Text}
    (hComments : stripComments sheet = sheet) :
    minify sheet = stripSemicolons (dense none false sheet) := by
  rw [minify_eq, hComments]

end Stylesheet

end WebTidy

------------------------------------------------------------
-- Texts Without Comments
------------------------------------------------------------

namespace WebTidy

namespace Stylesheet

/- Two neighbours that open no comment. -/
def Apart
    (a b : Char) :
    Prop :=
  ¬ (a = '/' ∧ (b = '/' ∨ b = '*'))

/- A text without the start of a comment. -/
theorem isChain_apart
    {t : Text}
    (hBlock : ¬ "/*".toList <:+: t)
    (hLine : ¬ "//".toList <:+: t) :
    t.IsChain Apart := by
  apply (List.isChain_isInfix t).imp
  rintro a b hInfix ⟨rfl, rfl | rfl⟩
  · exact hLine hInfix
  · exact hBlock hInfix

/- Nothing of it is dropped. -/
theorem stripCommentsFrom_eq_self
    {t : Text}
    (hChain : t.IsChain Apart)
    (lineStart : Bool) :
    stripCommentsFrom lineStart t = t := by
  apply Uncommented.stripCommentsFrom_eq
  constructor
  · rintro body ⟨front, back, rfl⟩
    rw [List.append_assoc, List.append_assoc] at hChain
    exact (List.isChain_cons_cons.mp hChain.right_of_append).1
      ⟨rfl, Or.inr rfl⟩
  · rintro front back rfl
    rw [List.append_assoc] at hChain
    exact absurd ⟨rfl, Or.inl rfl⟩
      (List.isChain_cons_cons.mp hChain.right_of_append).1

/- Blanks in front open no comment. -/
theorem isChain_blanks_append
    {blanks t : Text}
    (hBlanks : blanks.all isBlank = true)
    (hChain : t.IsChain Apart) :
    (blanks ++ t).IsChain Apart := by
  induction blanks with
  | nil => exact hChain
  | cons c more ih =>
      simp only [List.all_cons, Bool.and_eq_true] at hBlanks
      apply List.IsChain.cons (ih hBlanks.2)
      rintro d _ ⟨rfl, _⟩
      cases hBlanks.1

namespace Scanner

/- Neither does a layout right behind the final part. -/
theorem Laid.isChain_final
    {s : Scanner}
    {source out : Text}
    (hs : Ready s source)
    (h : Laid s source out)
    (hSource : (s.final?.toList ++ source).IsChain Apart)
    (hOut : (out ++ ['\n']).IsChain Apart) :
    (s.final?.toList ++ (out ++ ['\n'])).IsChain Apart := by
  cases hFinal : s.final? with
  | none => exact hOut
  | some p =>
      apply List.IsChain.cons hOut
      rintro d hHead ⟨rfl, hd⟩
      have hAhead : dropsAhead d = false := by
        rcases hd with rfl | rfl <;> rfl
      have hFirst : source.head? = some d :=
        h.head?_source hs hFinal rfl hHead hAhead
      rw [hFinal] at hSource
      exact hSource.rel_head? hFirst ⟨rfl, hd⟩

/- The text of a move opens no comment. -/
theorem Move.isChain_text
    {s t : Scanner}
    {blanks rest k text more : Text}
    (hBlanks : blanks.all isBlank = true)
    (h : Move s blanks rest k text t)
    (hMore : (k ++ more).IsChain Apart) :
    (text ++ more).IsChain Apart := by
  rcases h.text_eq hBlanks with
    ⟨front, hFront, rfl⟩ | ⟨_, rfl, rfl⟩
  · rw [List.append_assoc]
    exact isChain_blanks_append hFront hMore
  · have hClosing :
        s.closing ++ more =
          ('\n' :: List.replicate (s.depth - 1) '\t') ++
            (['}'] ++ more) := by
      simp [closing]
    have hBrace : (s.closing ++ more).IsChain Apart := by
      rw [hClosing]
      apply isChain_blanks_append _ hMore
      simp [isBlank]
    apply List.IsChain.cons hBrace
    rintro d _ ⟨hSlash, _⟩
    cases hSlash

/- A layout opens no comment that its text does not open. -/
theorem Laid.isChain_apart
    {s : Scanner}
    {source out : Text}
    (hs : Ready s source)
    (h : Laid s source out)
    (hSource : (s.final?.toList ++ source).IsChain Apart) :
    (s.final?.toList ++ (out ++ ['\n'])).IsChain Apart := by
  induction h with
  | @blank s blanks hCode hBlanks =>
      apply (Laid.blank hCode hBlanks).isChain_final hs hSource
      split
      · apply List.isChain_pair.mpr
        rintro ⟨hSlash, _⟩
        cases hSlash
      · exact .singleton _
  | @openComment s blanks k hCode hBlanks hOpen hEnd =>
      rcases hOpen with ⟨body, rfl⟩
      have hStart := hSource.right_of_append.right_of_append
      exact absurd ⟨rfl, Or.inr rfl⟩
        (List.isChain_cons_cons.mp hStart).1
  | @openString s blanks body mark hCode hBlanks hMark hEnd =>
      apply (Laid.openString hCode hBlanks hMark hEnd).isChain_final
        hs hSource
      rw [List.append_assoc]
      apply isChain_blanks_append (s.all_lead hBlanks)
      have hString := hSource.right_of_append.right_of_append
      rcases Text.exists_trimEnd_append isBlank (mark :: body)
        with ⟨tail, _, hTail⟩
      rw [hTail] at hString
      apply hString.left_of_append.append (.singleton _)
      rintro a _ b hb ⟨_, hSlash⟩
      rw [List.head?_cons, Option.mem_some] at hb
      subst hb
      rcases hSlash with hSlash | hSlash <;> cases hSlash
  | @again s blanks rest out hBlanks hFinal hRest ih =>
      have hCode := (hs.settled.ended hFinal).1
      apply ih ⟨hs.settled, Or.inl hCode⟩
      rw [hFinal] at hSource ⊢
      rw [List.append_assoc] at hSource
      exact hSource.right_of_append.right_of_append
  | @dash s rest out hDash hRest ih =>
      have hNext := hs.afterDash hDash
      have hFinal : s.afterDash.final? = some '-' := by
        rw [final?, hNext.2.1]
        rfl
      apply (Laid.dash hDash hRest).isChain_final hs hSource
      have hRestOut := ih hNext.2.2
      rw [hFinal] at hRestOut
      exact hRestOut hSource.right_of_append
  | @move s t blanks k rest text out hCode hBlanks hMove hRest
      ih =>
      apply (Laid.move hCode hBlanks hMove hRest).isChain_final
        hs hSource
      have hFinal := hMove.final?_eq hCode hBlanks
      rcases hMove.exists_last with ⟨init, c, rfl, _, _⟩
      rw [List.getLast?_concat] at hFinal
      rw [hFinal] at ih
      have hTail : (init ++ [c] ++ rest).IsChain Apart := by
        have hInner := hSource.right_of_append
        rw [List.append_assoc] at hInner
        exact hInner.right_of_append
      rw [List.append_assoc] at hTail
      have hRestOut :=
        ih (hMove.ready hCode) hTail.right_of_append
      rw [List.append_assoc]
      apply hMove.isChain_text hBlanks
      rw [List.append_assoc]
      exact List.isChain_split.mpr
        ⟨(List.isChain_split.mp hTail).1, hRestOut⟩

end Scanner

end Stylesheet

end WebTidy

------------------------------------------------------------
-- What Stands In Front
------------------------------------------------------------

namespace WebTidy

namespace Stylesheet

/- The last character kept of a text. -/
def lastKept
    (t : Text) :
    Option Char :=
  (dense none false t).getLast?

/- The pass goes on behind a text. -/
theorem exists_dense_append
    (front : Text) :
    ∃ spaced, ∀ rest,
      dense none false (front ++ rest) =
        dense none false front ++
          dense (lastKept front) spaced rest := by
  have hFrom (last : Option Char) (spaced : Bool) :
      ∃ other, ∀ rest,
        dense last spaced (front ++ rest) =
          dense last spaced front ++
            dense ((dense last spaced front).getLast?.or last)
              other rest := by
    fun_induction dense last spaced front with
    | case1 last spaced => exact ⟨spaced, fun rest => rfl⟩
    | case2 last spaced c more hc ih =>
        rcases ih with ⟨other, hOther⟩
        refine ⟨other, fun rest => ?_⟩
        rw [List.cons_append, dense, if_pos hc, hOther]
    | case3 last spaced c more hc hKeep ih =>
        rcases ih with ⟨other, hOther⟩
        refine ⟨other, fun rest => ?_⟩
        rw [List.cons_append, dense, if_neg hc, if_pos hKeep,
          hOther]
        simp [List.getLast?_cons]
    | case4 last spaced c more hc hDrop ih =>
        rcases ih with ⟨other, hOther⟩
        refine ⟨other, fun rest => ?_⟩
        rw [List.cons_append, dense, if_neg hc, if_neg hDrop,
          hOther]
        simp [List.getLast?_cons]
  rcases hFrom none false with ⟨other, hOther⟩
  refine ⟨other, fun rest => ?_⟩
  rw [hOther, Option.or_none, lastKept]

/- The last character kept is the last but spaces. -/
theorem lastKept_concat
    (front : Text)
    (c : Char) :
    lastKept (front ++ [c]) =
      if isSpace c then lastKept front else some c := by
  rcases exists_dense_append front with ⟨spaced, hDense⟩
  rw [lastKept, hDense]
  by_cases hc : isSpace c = true
  · simp [dense, hc, lastKept]
  · simp only [dense, hc, Bool.false_eq_true, if_false]
    split <;> simp

/- Spaces are kept as one behind every text but tight ones. -/
theorem dense_congr
    {front spaces others : Text}
    (rest : Text)
    (hSpaces : spaces.all isSpace = true)
    (hOthers : others.all isSpace = true)
    (hSame :
      (lastKept front).all isPunctuation = true ∨
        (spaces = [] ↔ others = [])) :
    dense none false (front ++ (spaces ++ rest)) =
      dense none false (front ++ (others ++ rest)) := by
  rcases exists_dense_append front with ⟨spaced, hDense⟩
  rw [hDense, hDense, dense_spaces _ _ _ hSpaces,
    dense_spaces _ _ _ hOthers]
  rcases hSame with hTight | hSame
  · rw [dense_tight _ (spaced || !others.isEmpty) _ hTight]
  · have hEmpty : spaces.isEmpty = others.isEmpty := by
      rw [Bool.eq_iff_iff, List.isEmpty_iff,
        List.isEmpty_iff, hSame]
    rw [hEmpty]

/- No space is kept in front of punctuation. -/
theorem dense_congr_punctuation
    (front : Text)
    {spaces others : Text}
    {c : Char}
    (rest : Text)
    (hSpaces : spaces.all isSpace = true)
    (hOthers : others.all isSpace = true)
    (hc : isPunctuation c = true) :
    dense none false (front ++ (spaces ++ c :: rest)) =
      dense none false (front ++ (others ++ c :: rest)) := by
  rcases exists_dense_append front with ⟨spaced, hDense⟩
  rw [hDense, hDense, dense_punctuation _ _ _ hSpaces hc,
    dense_punctuation _ _ _ hOthers hc]

/- One semicolon before a close brace is dropped. -/
theorem stripSemicolons_brace
    {t : Text}
    (rest : Text)
    (hLast : t.getLast? ≠ some ';') :
    stripSemicolons (t ++ ';' :: '}' :: rest) =
      stripSemicolons (t ++ '}' :: rest) := by
  rw [stripSemicolons_append (Or.inl hLast),
    stripSemicolons_append (Or.inl hLast)]
  rfl

/- So the semicolon that ends a value is not seen. -/
theorem stripSemicolons_dense_brace
    {front spaces others : Text}
    (rest : Text)
    (hSpaces : spaces.all isSpace = true)
    (hOthers : others.all isSpace = true)
    (hLast : lastKept front ≠ some ';') :
    stripSemicolons
        (dense none false (front ++ (spaces ++ '}' :: rest))) =
      stripSemicolons
        (dense none false
          (front ++ ';' :: (others ++ '}' :: rest))) := by
  rcases exists_dense_append front with ⟨spaced, hDense⟩
  have hBrace : isPunctuation '}' = true := rfl
  have hSemicolon :
      dense (lastKept front) spaced
          ([] ++ ';' :: (others ++ '}' :: rest)) =
        ';' :: dense (some ';') false (others ++ '}' :: rest) :=
    dense_punctuation _ _ _ rfl rfl
  rw [List.nil_append] at hSemicolon
  rw [hDense, hDense, dense_punctuation _ _ _ hSpaces hBrace,
    hSemicolon, dense_punctuation _ _ _ hOthers hBrace,
    stripSemicolons_brace _ hLast]

end Stylesheet

end WebTidy

------------------------------------------------------------
-- Plain Style Sheets
------------------------------------------------------------

namespace WebTidy

namespace Stylesheet

/-
  Style sheets without comments, calc expressions, blanks
  inside parentheses beside them and empty declarations,
  whose last declaration or block is closed.
-/
structure Bare
    (sheet : Text) :
    Prop where
  block : ¬ "/*".toList <:+: sheet
  line : ¬ "//".toList <:+: sheet
  word : ¬ "calc(".toList <:+: sheet.lower
  opened : ∀ c, isBlank c = true → ¬ ['(', c] <:+: sheet
  closed : ∀ c, isBlank c = true → ¬ [c, ')'] <:+: sheet
  single :
    ∀ blanks : Text, blanks.all isBlank = true →
      ¬ ';' :: blanks ++ [';'] <:+: sheet
  ended :
    ∀ c, (sheet.trimEnd isBlank).getLast? = some c →
      c = '}' ∨ c = ';'

/- The word calc begins at no place. -/
theorem Bare.beginsWith_calc
    {front rest : Text}
    (h : Bare (front ++ rest)) :
    Text.beginsWith "calc(".toList rest = false := by
  rw [Bool.eq_false_iff]
  intro hBegins
  simp only [Text.beginsWith, Text.sameLetters,
    decide_eq_true_eq] at hBegins
  apply h.word
  refine ⟨Text.lower front, Text.lower (rest.drop 5), ?_⟩
  have hWord :
      "calc(".toList = Text.lower (rest.take 5) := hBegins.symm
  have hSplit :
      rest.map Char.toLower =
        (rest.take 5).map Char.toLower ++
          (rest.drop 5).map Char.toLower := by
    rw [← List.map_append, List.take_append_drop]
  rw [hWord, List.append_assoc]
  simp only [Text.lower, List.map_append, ← hSplit]

/- No blank stands in front of a close parenthesis. -/
theorem Bare.eq_nil_of_close
    {front blanks rest : Text}
    (h : Bare (front ++ (blanks ++ [')'] ++ rest)))
    (hBlanks : blanks.all isBlank = true) :
    blanks = [] := by
  rcases List.eq_nil_or_concat' blanks with
    rfl | ⟨init, c, rfl⟩
  · rfl
  · have hc : isBlank c = true :=
      List.all_eq_true.mp hBlanks c (by simp)
    exact absurd ⟨front ++ init, rest, by simp⟩ (h.closed c hc)

/- No comment begins at any place. -/
theorem Bare.not_isComment
    {front blanks k : Text}
    (rest : Text)
    (h : Bare (front ++ (blanks ++ k ++ rest))) :
    ¬ IsComment k := by
  intro hComment
  rcases exists_of_commentLength? hComment with
    ⟨body, m, rfl, _⟩
  apply h.block
  refine ⟨front ++ blanks, body ++ rest, ?_⟩
  simp

namespace Scanner

/-
  A scanner of a plain style sheet behind a text.  It never
  stands in a calc expression, blanks are only skipped
  behind punctuation, and a value has begun behind the last
  semicolon.
-/
structure Tracks
    (s : Scanner)
    (front : Text) :
    Prop where
  final : s.final? = front.getLast?
  code : s.context = .code
  parens : s.parens = none
  joint :
    s.skipping = true → s.final?.any isPunctuation = true
  brace : s.final? = some '}' → s.inValue = false
  value : s.inValue = true → lastKept front ≠ some ';'

/- A new scanner stands behind nothing. -/
theorem tracks_new :
    Tracks {} [] := by
  constructor <;> simp [final?, core]

/- No blank stands behind an open parenthesis. -/
theorem Tracks.eq_nil_of_open
    {s : Scanner}
    {front blanks rest : Text}
    (h : Tracks s front)
    (hBare : Bare (front ++ (blanks ++ rest)))
    (hBlanks : blanks.all isBlank = true)
    (hFinal : s.final? = some '(') :
    blanks = [] := by
  cases blanks with
  | nil => rfl
  | cons c more =>
      rw [h.final] at hFinal
      rcases List.getLast?_eq_some_iff.mp hFinal with
        ⟨init, rfl⟩
      simp only [List.all_cons, Bool.and_eq_true] at hBlanks
      exact absurd ⟨init, more ++ rest, by simp⟩
        (hBare.opened c hBlanks.1)

/- The last character kept is the final one but spaces. -/
theorem Tracks.lastKept_eq
    {s : Scanner}
    {front : Text}
    (h : Tracks s front)
    (hFinal : s.final?.all (!isSpace ·) = true) :
    lastKept front = s.final? := by
  rcases List.eq_nil_or_concat' front with
    rfl | ⟨init, c, rfl⟩
  · rw [h.final]
    rfl
  · rw [h.final, List.getLast?_concat] at hFinal ⊢
    have hc : isSpace c = false := by
      simpa using hFinal
    rw [lastKept_concat, hc]
    rfl

/- Behind punctuation no space is kept. -/
theorem Tracks.all_lastKept
    {s : Scanner}
    {front : Text}
    (h : Tracks s front)
    (hFinal : s.final?.all isPunctuation = true) :
    (lastKept front).all isPunctuation = true := by
  have hSpace : s.final?.all (!isSpace ·) = true := by
    cases hLast : s.final? with
    | none => rfl
    | some c =>
        rw [hLast] at hFinal
        have hNot := isSpace_of_isPunctuation hFinal
        simp [hNot]
  rw [h.lastKept_eq hSpace, hFinal]

/- The blanks in front of a segment are seen as they were. -/
theorem Tracks.lead
    {s : Scanner}
    {front blanks rest : Text}
    (h : Tracks s front)
    (hBare : Bare (front ++ (blanks ++ rest)))
    (hBlanks : blanks.all isBlank = true) :
    (lastKept front).all isPunctuation = true ∨
      (blanks = [] ↔ s.lead blanks = []) := by
  have hLead : s.lead blanks = [] ↔ s.gap blanks = [] := by
    unfold Scanner.lead
    cases hGap : s.gap blanks with
    | nil => simp
    | cons c more => simp
  rw [hLead]
  cases hSkip : s.skipping with
  | true =>
      left
      apply h.all_lastKept
      have hJoint := h.joint hSkip
      cases hFinal : s.final? with
      | none => rfl
      | some c =>
          rw [hFinal] at hJoint
          exact hJoint
  | false =>
      cases hValue : s.inValue with
      | true =>
          right
          have hOpen : s.final? = some '(' → blanks = [] :=
            h.eq_nil_of_open hBare hBlanks
          by_cases hNil : blanks = []
          · simp [gap, hSkip, hValue, hNil]
          · have hNot : s.final? ≠ some '(' :=
              fun hFinal => hNil (hOpen hFinal)
            simp [gap, hSkip, hValue, hNil, hNot]
      | false =>
          cases hFinal : s.final? with
          | none =>
              left
              apply h.all_lastKept
              rw [hFinal]
              rfl
          | some d =>
              right
              have hGap : s.gap blanks = throughLine blanks := by
                simp [gap, hSkip, hValue, hFinal]
              rw [hGap]
              cases blanks with
              | nil => simp [throughLine]
              | cons c more =>
                  rw [throughLine]
                  split <;> simp

/- At the end no value is open. -/
theorem Tracks.inValue_of_blanks
    {s : Scanner}
    {front blanks : Text}
    (h : Tracks s front)
    (hs : Settled s)
    (hBare : Bare (front ++ blanks))
    (hBlanks : blanks.all isBlank = true) :
    s.inValue = false := by
  cases hFinal : s.final? with
  | none => exact (lead_of_final?_eq_none hs hFinal []).1
  | some c =>
      have hBlank := isBlank_of_final? hFinal
      have hLast : front.getLast? = some c := by
        rw [← h.final, hFinal]
      have hTrim :
          Text.trimEnd isBlank (front ++ blanks) = front :=
        Text.trimEnd_append hBlanks (by simp [hLast, hBlank])
      rcases hBare.ended c (by rw [hTrim, hLast]) with
        rfl | rfl
      · exact h.brace hFinal
      · exact (hs.ended hFinal).2.2.1

/- A value goes on without a semicolon. -/
theorem Tracks.lastKept_ne_semicolon
    {s : Scanner}
    {front blanks : Text}
    {c : Char}
    (h : Tracks s front)
    (hBlanks : blanks.all isBlank = true)
    (hc : c ≠ ';')
    (hValue : isSpace c = true → s.inValue = true) :
    lastKept (front ++ (blanks ++ [c])) ≠ some ';' := by
  rw [← List.append_assoc, lastKept_concat]
  split
  · rename_i hSpace
    rw [lastKept,
      dense_append_spaces _ _ _ (all_isSpace hBlanks)]
    exact h.value (hValue hSpace)
  · simpa using hc

/- Outside calc expressions none begins. -/
theorem Tracks.parens_trackCalc
    {s : Scanner}
    {front blanks rest : Text}
    {c : Char}
    (h : Tracks s front)
    (hBare : Bare (front ++ (blanks ++ [c] ++ rest))) :
    (s.trackCalc c rest).parens = none := by
  have hPlace : Bare ((front ++ blanks) ++ c :: rest) := by
    simpa using hBare
  have hWord := hPlace.beginsWith_calc
  simp only [trackCalc, h.parens, hWord, true_and,
    Bool.false_eq_true, if_false]
  split_ifs <;> rfl

/- Behind a move. -/
theorem Tracks.move
    {s t : Scanner}
    {front blanks rest k text : Text}
    (h : Tracks s front)
    (hBare : Bare (front ++ (blanks ++ k ++ rest)))
    (hBlanks : blanks.all isBlank = true)
    (hMove : Move s blanks rest k text t) :
    Tracks t (front ++ (blanks ++ k)) := by
  have hFinal := hMove.final?_eq h.code hBlanks
  have hLast :
      t.final? = (front ++ (blanks ++ k)).getLast? := by
    rcases hMove.exists_last with ⟨init, c, rfl, _, _⟩
    rw [hFinal, ← List.append_assoc, ← List.append_assoc,
      List.getLast?_concat, List.getLast?_concat]
  cases hMove with
  | plain c hPlain hComment hColon hValue =>
      refine ⟨hLast, h.code, h.parens, nofun, fun _ => hValue,
        ?_⟩
      intro hInside
      exact absurd hInside (by simp [hValue])
  | word c hPlain hComment hClose hValue hOperator =>
      refine ⟨hLast, h.code, h.parens_trackCalc hBare, nofun,
        ?_, ?_⟩
      · intro hBrace
        rw [hFinal] at hBrace
        cases hBrace
        cases hPlain
      · intro _
        apply h.lastKept_ne_semicolon hBlanks _
          (fun _ => hValue)
        rintro rfl
        cases hPlain
  | closeParen hValue =>
      refine ⟨hLast, h.code, h.parens_trackCalc hBare, nofun,
        ?_, ?_⟩
      · intro hBrace
        rw [hFinal] at hBrace
        cases hBrace
      · intro _
        exact h.lastKept_ne_semicolon hBlanks (by decide)
          (fun _ => hValue)
  | operator c hComment hValue hParens =>
      rw [h.parens] at hParens
      cases hParens
  | dash hValue hParens =>
      rw [h.parens] at hParens
      cases hParens
  | openBlock =>
      refine ⟨hLast, h.code, rfl, ?_, fun _ => rfl, nofun⟩
      rw [hFinal]
      exact fun _ => rfl
  | closeBlock hValue =>
      refine ⟨hLast, h.code, rfl, ?_, fun _ => rfl, nofun⟩
      rw [hFinal]
      exact fun _ => rfl
  | closeValue hValue =>
      refine ⟨hLast, h.code, rfl, ?_, fun _ => rfl, nofun⟩
      rw [hFinal]
      exact fun _ => rfl
  | semicolon hEnd =>
      refine ⟨hLast, h.code, rfl, ?_, fun _ => rfl, nofun⟩
      rw [hFinal]
      exact fun _ => rfl
  | comma =>
      refine ⟨hLast, h.code, h.parens, ?_, ?_, ?_⟩
      · rw [hFinal]
        exact fun _ => rfl
      · rw [hFinal]
        nofun
      · exact fun hValue =>
          h.lastKept_ne_semicolon hBlanks (by decide)
            (fun _ => hValue)
  | selectorColon hValue hSelector =>
      refine ⟨hLast, h.code, h.parens, ?_, fun _ => hValue, ?_⟩
      · rw [hFinal]
        exact fun _ => rfl
      · intro hInside
        exact absurd hInside (by simp [hValue])
  | valueColon hValue hSelector =>
      refine ⟨hLast, h.code, h.parens, ?_, ?_, ?_⟩
      · rw [hFinal]
        exact fun _ => rfl
      · rw [hFinal]
        nofun
      · exact fun _ =>
          h.lastKept_ne_semicolon hBlanks (by decide)
            (fun hSpace => absurd hSpace (by decide))
  | comment k hComment =>
      exact absurd hComment (hBare.not_isComment rest)
  | string k hString =>
      rcases hString.eq_append with ⟨init, mark, rfl, hMark⟩
      rw [List.getLast?_concat] at hFinal
      refine ⟨hLast, h.code, h.parens, nofun, ?_, ?_⟩
      · intro hBrace
        rw [hFinal] at hBrace
        cases hBrace
        cases hMark
      · intro _
        have hSpace : isSpace mark = false := by
          simp only [isMark, decide_eq_true_eq] at hMark
          rcases hMark with rfl | rfl <;> decide
        rw [← List.append_assoc, ← List.append_assoc,
          lastKept_concat, hSpace]
        rintro ⟨⟩
        cases hMark

/- What a move writes is seen as its segment. -/
theorem Tracks.dense_eq
    {s t : Scanner}
    {front blanks rest k text : Text}
    (h : Tracks s front)
    (hBare : Bare (front ++ (blanks ++ k ++ rest)))
    (hBlanks : blanks.all isBlank = true)
    (hMove : Move s blanks rest k text t)
    (out : Text) :
    stripSemicolons
        (dense none false (front ++ (blanks ++ k ++ out))) =
      stripSemicolons
        (dense none false (front ++ (text ++ out))) := by
  have hSpaces := all_isSpace hBlanks
  have hLead :
      dense none false (front ++ (blanks ++ k ++ out)) =
        dense none false
          (front ++ (s.lead blanks ++ k ++ out)) := by
    have hSame := h.lead (List.append_assoc _ k rest ▸ hBare)
      hBlanks
    rw [List.append_assoc, List.append_assoc]
    exact dense_congr _ hSpaces
      (all_isSpace (s.all_lead hBlanks)) hSame
  have hMark (others : Text) {c : Char}
      (hk : k = [c])
      (hOthers : others.all isBlank = true)
      (hc : isPunctuation c = true) :
      dense none false (front ++ (blanks ++ k ++ out)) =
        dense none false
          (front ++ (others ++ k ++ out)) := by
    rw [hk, List.append_assoc, List.append_assoc]
    exact dense_congr_punctuation _ _ hSpaces
      (all_isSpace hOthers) hc
  have hIndent :
      ('\n' :: List.replicate (s.depth - 1) '\t').all isBlank =
        true := by
    simp [isBlank]
  cases hMove with
  | plain | word | string => rw [hLead]
  | closeParen hValue =>
      have hNil : blanks = [] := hBare.eq_nil_of_close hBlanks
      rw [hNil]
      rfl
  | operator c hComment hValue hParens =>
      rw [h.parens] at hParens
      cases hParens
  | dash hValue hParens =>
      rw [h.parens] at hParens
      cases hParens
  | openBlock => exact congrArg _ (hMark [' '] rfl rfl rfl)
  | closeBlock hValue =>
      exact congrArg _ (hMark _ rfl hIndent rfl)
  | closeValue hValue =>
      have hBrace :=
        stripSemicolons_dense_brace out hSpaces
          (all_isSpace hIndent) (h.value hValue)
      simpa [closing] using hBrace
  | semicolon | comma | selectorColon | valueColon =>
      exact congrArg _ (hMark [] rfl rfl rfl)
  | comment k hComment =>
      exact absurd hComment (hBare.not_isComment rest)

/- A layout is seen as its text. -/
theorem Laid.dense_eq
    {s : Scanner}
    {source out : Text}
    (h : Laid s source out)
    {front : Text}
    (hs : Ready s source)
    (hTracks : Tracks s front)
    (hBare : Bare (front ++ source)) :
    stripSemicolons (dense none false (front ++ source)) =
      stripSemicolons (dense none false (front ++ out)) := by
  induction h generalizing front with
  | @blank s blanks hCode hBlanks =>
      have hValue : s.inValue = false :=
        hTracks.inValue_of_blanks hs.settled hBare hBlanks
      rw [hValue, dense_append_spaces _ _ _
        (all_isSpace hBlanks)]
      simp
  | @openComment s blanks k hCode hBlanks hOpen hEnd =>
      rcases hOpen with ⟨body, rfl⟩
      exact absurd ⟨front ++ blanks, body, by simp⟩ hBare.block
  | @openString s blanks body mark hCode hBlanks hMark hEnd =>
      have hSame := hTracks.lead hBare hBlanks
      rcases Text.exists_trimEnd_append isBlank (mark :: body)
        with ⟨tail, hTail, hSplit⟩
      have hDrop :=
        dense_append_spaces none false
          (front ++ (s.lead blanks ++
            Text.trimEnd isBlank (mark :: body)))
          (all_isSpace hTail)
      rw [List.append_assoc, List.append_assoc, ← hSplit]
        at hDrop
      rw [dense_congr _ (all_isSpace hBlanks)
        (all_isSpace (s.all_lead hBlanks)) hSame, hDrop]
  | @again s blanks rest out hBlanks hFinal hRest ih =>
      rw [hTracks.final] at hFinal
      rcases List.getLast?_eq_some_iff.mp hFinal with
        ⟨init, rfl⟩
      exact absurd ⟨init, rest, by simp⟩
        (hBare.single blanks hBlanks)
  | @dash s rest out hDash hRest ih =>
      rw [hTracks.code] at hDash
      cases hDash
  | @move s t blanks k rest text out hCode hBlanks hMove hRest
      ih =>
      have hNext := hTracks.move hBare hBlanks hMove
      have hTail :
          Bare (front ++ (blanks ++ k) ++ rest) := by
        rw [List.append_assoc]
        exact hBare
      rw [← hTracks.dense_eq hBare hBlanks hMove,
        ← List.append_assoc, ih (hMove.ready hCode) hNext hTail,
        List.append_assoc]

end Scanner

/- The compact form does not depend on the layout. -/
theorem minify_prettify
    {sheet : Text}
    (h : Bare sheet) :
    minify (prettify sheet) = minify sheet := by
  rcases exists_laid_prettify sheet with ⟨out, hLaid, hOut⟩
  have hReady := Scanner.ready_new sheet
  have hSource : sheet.IsChain Apart :=
    isChain_apart h.block h.line
  have hChain : (prettify sheet).IsChain Apart := by
    have hLine : (out ++ ['\n']).IsChain Apart :=
      hLaid.isChain_apart hReady hSource
    have hDrop : out.dropWhile isBlank <:+ out :=
      List.dropWhile_suffix _
    rcases hDrop with ⟨lead, hLead⟩
    rw [← hLead, List.append_assoc] at hLine
    rw [hOut]
    exact hLine.right_of_append
  have hDense :
      dense none false (prettify sheet) =
        dense none false out := by
    have hDrop :=
      dense_spaces none false (out.dropWhile isBlank)
        (all_isSpace (List.all_takeWhile (l := out) (p := isBlank)))
    rw [List.takeWhile_append_dropWhile] at hDrop
    rw [hOut, dense_append_spaces _ _ _ (by decide), hDrop]
    exact dense_tight _ _ _ rfl
  rw [minify_eq_dense (stripCommentsFrom_eq_self hChain _),
    minify_eq_dense (stripCommentsFrom_eq_self hSource _),
    hDense]
  exact
    (hLaid.dense_eq hReady Scanner.tracks_new h).symm

/- A rule with a string, whose declaration is not ended. -/
theorem minify_prettify_rule :
    minify (prettify "a \x7b b : ';' c \x7d\n".toList) =
      minify "a \x7b b : ';' c \x7d\n".toList := by
  have hAbsent {mark t : Text} (c : Char)
      (hMark : c ∈ mark)
      (hText : c ∉ t) :
      ¬ mark <:+: t :=
    fun hInfix => hText (hInfix.subset hMark)
  apply minify_prettify
  constructor
  · exact hAbsent '/' (by decide) (by decide)
  · exact hAbsent '/' (by decide) (by decide)
  · exact hAbsent '(' (by decide) (by decide)
  · exact fun c _ => hAbsent '(' (by simp) (by decide)
  · exact fun c _ => hAbsent ')' (by simp) (by decide)
  · intro blanks _ hInfix
    have hCount := hInfix.sublist.count_le ';'
    have hOne :
        "a \x7b b : ';' c \x7d\n".toList.count ';' = 1 := by
      decide
    rw [hOne] at hCount
    simp at hCount
  · intro c hc
    cases hc
    exact Or.inl rfl

end Stylesheet

end WebTidy

import WebTidy.Proofs.Stylesheet.Segment

/-
  Style sheets without comments.

  Dropping the comments of a text drops a slash with each of
  them.  So a text is left as it is exactly if no comment of
  the one kind is closed in it, and its double slashes stand
  directly behind colons.

  What goes with the comments is said without measuring
  them: a comment between marks goes wherever it begins, and
  two slashes with the rest of their line, unless a colon
  stands in front of them.

  Key definitions include:
    * `WebTidy.Stylesheet.Uncommented`
    * `WebTidy.Stylesheet.Strips`

  Key theorems include:
    * `WebTidy.Stylesheet.commentLength?_eq_none_iff`
    * `WebTidy.Stylesheet.uncommented_cons_iff`
    * `WebTidy.Stylesheet.stripCommentsFrom_cases`
    * `WebTidy.Stylesheet.strips_iff`
-/

------------------------------------------------------------
-- Texts Without Comments
------------------------------------------------------------

namespace WebTidy

namespace Stylesheet

/-
  A text without comments.  The flag tells that the text
  starts a line; one that does not may go on with slashes.
-/
structure Uncommented
    (lineStart : Bool)
    (t : Text) :
    Prop where
  block : ∀ body, ¬ "/*".toList ++ body ++ "*/".toList <:+: t
  line : ∀ front back,
    t = front ++ "//".toList ++ back →
      front.getLast? = some ':' ∨
        (front = [] ∧ lineStart = false)

/- A comment is closed where its marks are found. -/
theorem commentLength?_eq_none_iff
    {t : Text} :
    commentLength? t = none ↔
      ∀ body, ¬ "/*".toList ++ body ++ "*/".toList <+: t :=
  Text.map_indexOf?_eq_none_iff (by decide) 4

/- Two slashes at the start open a line comment. -/
theorem prefix_iff_opensLineComment
    {t : Text} :
    "//".toList <+: t ↔ opensLineComment t = true := by
  rw [opensLineComment, decide_eq_true_eq]

/- Then the text is cut behind them. -/
theorem opensLineComment_iff
    {t : Text} :
    opensLineComment t = true ↔
      ∃ back, t = "//".toList ++ back := by
  rw [← prefix_iff_opensLineComment]
  constructor
  · rintro ⟨back, rfl⟩
    exact ⟨back, rfl⟩
  · rintro ⟨back, rfl⟩
    exact List.prefix_append _ _

/-
  A text has no comment if none begins at its start and what
  follows has none.
-/
theorem uncommented_cons_iff
    {lineStart : Bool}
    {c : Char}
    {rest : Text} :
    Uncommented lineStart (c :: rest) ↔
      commentLength? (c :: rest) = none ∧
      ¬ (c ≠ ':' ∧ opensLineComment rest = true) ∧
      ¬ (lineStart = true ∧
        opensLineComment (c :: rest) = true) ∧
      Uncommented (c = '\n') rest := by
  simp only [commentLength?_eq_none_iff, opensLineComment_iff]
  constructor
  · rintro ⟨hBlock, hLine⟩
    refine ⟨?_, ?_, ?_, ?_, ?_⟩
    · intro body hPrefix
      exact hBlock body hPrefix.isInfix
    · rintro ⟨hc, back, rfl⟩
      rcases hLine [c] back rfl with hColon | ⟨hNil, _⟩
      · exact hc (Option.some.inj hColon)
      · cases hNil
    · rintro ⟨rfl, back, hBack⟩
      rcases hLine [] back hBack with hColon | ⟨_, hFlag⟩
      · cases hColon
      · cases hFlag
    · intro body hInfix
      exact hBlock body (List.infix_cons hInfix)
    · rintro front back rfl
      have hFront := hLine (c :: front) back rfl
      cases front with
      | nil =>
          rcases hFront with hColon | ⟨hNil, _⟩
          · have hc : c = ':' := Option.some.inj hColon
            rw [hc]
            exact Or.inr ⟨rfl, by decide⟩
          · cases hNil
      | cons d front =>
          rcases hFront with hColon | ⟨hNil, _⟩
          · exact Or.inl hColon
          · cases hNil
  · rintro ⟨hBlock, hBehind, hStart, hRest⟩
    refine ⟨?_, ?_⟩
    · intro body hInfix
      rcases List.infix_cons_iff.mp hInfix with hFirst | hLater
      · exact hBlock body hFirst
      · exact hRest.block body hLater
    · intro front back hBack
      cases front with
      | nil =>
          refine Or.inr ⟨rfl, ?_⟩
          cases lineStart with
          | false => rfl
          | true => exact absurd ⟨rfl, back, hBack⟩ hStart
      | cons d front =>
          rcases List.cons.inj hBack with ⟨rfl, hMore⟩
          refine Or.inl ?_
          cases front with
          | nil =>
              by_contra hNot
              apply hBehind
              refine ⟨?_, back, hMore⟩
              rintro rfl
              exact hNot rfl
          | cons e front =>
              rcases hRest.line _ back hMore with
                hColon | ⟨hNil, _⟩
              · exact hColon
              · cases hNil

end Stylesheet

end WebTidy

------------------------------------------------------------
-- Dropped Slashes
------------------------------------------------------------

namespace WebTidy

namespace Stylesheet

/- A line comment has two slashes at least. -/
theorem count_afterLine_le
    {t : Text}
    (h : opensLineComment t = true) :
    (afterLine t).count '/' + 2 ≤ t.count '/' := by
  rcases opensLineComment_iff.mp h with ⟨back, rfl⟩
  have hSame :
      afterLine ("//".toList ++ back) = afterLine back := rfl
  have hLess : (afterLine back).count '/' ≤ back.count '/' :=
    (List.dropWhile_suffix _).sublist.count_le '/'
  rw [hSame, List.count_append]
  have hTwo : "//".toList.count '/' = 2 := by decide
  omega

/-
  A text without comments is left as it is, and a text with
  comments loses a slash.
-/
theorem stripCommentsFrom_cases
    (lineStart : Bool)
    (t : Text) :
    (Uncommented lineStart t ∧
      stripCommentsFrom lineStart t = t) ∨
    (¬ Uncommented lineStart t ∧
      (stripCommentsFrom lineStart t).count '/' <
        t.count '/') := by
  have hLe {flag : Bool} {u : Text}
      (hCases :
        (Uncommented flag u ∧ stripCommentsFrom flag u = u) ∨
        (¬ Uncommented flag u ∧
          (stripCommentsFrom flag u).count '/' <
            u.count '/')) :
      (stripCommentsFrom flag u).count '/' ≤ u.count '/' := by
    rcases hCases with ⟨_, hSame⟩ | ⟨_, hLess⟩
    · rw [hSame]
    · exact hLess.le
  fun_induction stripCommentsFrom lineStart t with
  | case1 lineStart =>
      refine Or.inl ⟨⟨?_, ?_⟩, rfl⟩
      · intro body hInfix
        simp at hInfix
      · intro front back hNil
        simp at hNil
  | case2 lineStart c rest n hLength ih =>
      -- the slash that opens the comment is dropped
      have hRest : (rest.drop (n - 1)).count '/' ≤ rest.count '/' :=
        (List.drop_sublist _ _).count_le '/'
      have hSlash : c = '/' := by
        rcases exists_of_commentLength? hLength with
          ⟨body, m, hBody, _⟩
        exact (List.cons.inj hBody).1
      have hBound := hLe ih
      refine Or.inr ⟨?_, ?_⟩
      · rw [uncommented_cons_iff, hLength]
        rintro ⟨hNone, _⟩
        cases hNone
      · rw [hSlash, List.count_cons_self]
        omega
  | case3 lineStart c rest hNone hOpens ih =>
      have hBound := hLe ih
      have hLess := count_afterLine_le hOpens.2
      refine Or.inr ⟨?_, ?_⟩
      · rw [uncommented_cons_iff]
        rintro ⟨_, hBehind, _⟩
        exact hBehind hOpens
      · rw [List.count_cons, List.count_cons]
        omega
  | case4 lineStart c rest hNone hBehind hOpens ih =>
      have hBound := hLe ih
      have hSuffix : (afterLine rest).count '/' ≤ rest.count '/' :=
        (List.dropWhile_suffix _).sublist.count_le '/'
      have hSlash : c = '/' := by
        rcases opensLineComment_iff.mp hOpens.2 with
          ⟨back, hBack⟩
        exact (List.cons.inj hBack).1
      refine Or.inr ⟨?_, ?_⟩
      · rw [uncommented_cons_iff]
        rintro ⟨_, _, hStart, _⟩
        exact hStart hOpens
      · rw [hSlash, List.count_cons_self]
        omega
  | case5 lineStart c rest hNone hBehind hStart ih =>
      have hHere :
          Uncommented lineStart (c :: rest) ↔
            Uncommented (c = '\n') rest := by
        rw [uncommented_cons_iff]
        simp only [hNone, hBehind, hStart, true_and,
          not_false_eq_true]
      rw [hHere]
      rcases ih with ⟨hRest, hSame⟩ | ⟨hRest, hLess⟩
      · exact Or.inl ⟨hRest, by rw [hSame]⟩
      · refine Or.inr ⟨hRest, ?_⟩
        rw [List.count_cons, List.count_cons]
        omega

/- What is left as it is, by the slashes alone. -/
theorem uncommented_iff
    {t : Text} :
    Uncommented true t ↔
      (stripComments t).count '/' = t.count '/' := by
  rcases stripCommentsFrom_cases true t with
    ⟨hFree, hSame⟩ | ⟨hNot, hLess⟩
  · rw [stripComments, hSame]
    exact iff_of_true hFree rfl
  · exact iff_of_false hNot hLess.ne

/- A text without comments is left as it is. -/
theorem Uncommented.stripCommentsFrom_eq
    {lineStart : Bool}
    {t : Text}
    (h : Uncommented lineStart t) :
    stripCommentsFrom lineStart t = t := by
  rcases stripCommentsFrom_cases lineStart t with
    ⟨_, hSame⟩ | ⟨hNot, _⟩
  · exact hSame
  · exact absurd h hNot

end Stylesheet

end WebTidy

------------------------------------------------------------
-- Comments Read From Left To Right
------------------------------------------------------------

namespace WebTidy

namespace Stylesheet

/- A comment up to its first closing mark. -/
def IsBlockComment
    (w : Text) :
    Prop :=
  Text.ClosesFirst "/*".toList "*/".toList w

/- Two slashes with the rest of their line. -/
structure IsLineComment
    (w rest : Text) :
    Prop where
  slashes : "//".toList <+: w
  oneLine : '\n' ∉ w
  ends : rest.head?.all (· = '\n') = true

/-
  A text read from left to right.  A comment between marks
  is dropped where it begins, and a line comment at the
  start of a line or behind a character that is no colon.
  This character stays, and so does any other.  The flag
  tells that the text starts a line.
-/
inductive Strips :
    Bool → Text → Text → Prop
| nil
    (lineStart : Bool) :
    Strips lineStart [] []
| block
    {lineStart : Bool}
    {w rest out : Text}
    (hWord : IsBlockComment w)
    (hRest : Strips false rest out) :
    Strips lineStart (w ++ rest) out
| behind
    {lineStart : Bool}
    {c : Char}
    {w rest out : Text}
    (hOther : c ≠ ':')
    (hLine : IsLineComment w rest)
    (hRest : Strips false rest out) :
    Strips lineStart (c :: (w ++ rest)) (c :: out)
| first
    {w rest out : Text}
    (hLine : IsLineComment w rest)
    (hTwo : ¬ "///".toList <+: w)
    (hRest : Strips false rest out) :
    Strips true (w ++ rest) out
| char
    {lineStart : Bool}
    {c : Char}
    {rest out : Text}
    (hBlock : ∀ w, IsBlockComment w → ¬ w <+: c :: rest)
    (hBehind : c ≠ ':' → ¬ "//".toList <+: rest)
    (hFirst : lineStart = true → ¬ "//".toList <+: c :: rest)
    (hRest : Strips (c = '\n') rest out) :
    Strips lineStart (c :: rest) (c :: out)

/- The comment at the start is the one that is measured. -/
theorem commentLength?_eq_some_iff
    {s : Text}
    {n : Nat} :
    commentLength? s = some n ↔
      ∃ w, IsBlockComment w ∧ w <+: s ∧ w.length = n := by
  exact Text.closesFirst_iff (by decide)

/- Nothing is measured where no comment begins. -/
theorem not_prefix_iff_commentLength?
    {s : Text} :
    (∀ w, IsBlockComment w → ¬ w <+: s) ↔
      commentLength? s = none := by
  rw [Option.eq_none_iff_forall_ne_some]
  constructor
  · intro hNot n hn
    rcases commentLength?_eq_some_iff.mp hn with
      ⟨w, hWord, hPrefix, _⟩
    exact hNot w hWord hPrefix
  · intro hNone w hWord hPrefix
    exact hNone w.length (commentLength?_eq_some_iff.mpr
      ⟨w, hWord, hPrefix, rfl⟩)

/- A comment between marks does not begin with two slashes. -/
theorem commentLength?_eq_none
    {c d : Char}
    {rest : Text}
    (hd : d ≠ '*') :
    commentLength? (c :: d :: rest) = none := by
  unfold commentLength?
  rw [if_neg]
  rintro ⟨more, hMore⟩
  exact hd (List.cons.inj (List.cons.inj hMore).2).1.symm

/- Two slashes are a slash and a slash. -/
theorem IsLineComment.exists_cons
    {w rest : Text}
    (h : IsLineComment w rest) :
    ∃ more, w = '/' :: '/' :: more := by
  rcases h.slashes with ⟨more, rfl⟩
  exact ⟨more, rfl⟩

/- Where a line comment is, one opens. -/
theorem IsLineComment.opens
    {w rest : Text}
    (h : IsLineComment w rest) :
    opensLineComment (w ++ rest) = true :=
  prefix_iff_opensLineComment.mp
    (h.slashes.trans (List.prefix_append w rest))

/-
  Three slashes are in the comment or not there, since what
  is behind it begins with a line feed.
-/
theorem IsLineComment.not_third
    {w rest : Text}
    (h : IsLineComment w rest)
    (hTwo : ¬ "///".toList <+: w) :
    ¬ "///".toList <+: w ++ rest := by
  rcases h.exists_cons with ⟨more, rfl⟩
  intro hThree
  have hNext : ['/'] <+: more ++ rest :=
    (List.cons_prefix_cons.mp
      (List.cons_prefix_cons.mp hThree).2).2
  cases more with
  | cons d more =>
      have hd := (List.cons_prefix_cons.mp hNext).1
      exact hTwo ⟨more, by rw [← hd]; rfl⟩
  | nil =>
      rcases hNext with ⟨back, rfl⟩
      exact absurd h.ends (by simp)

/- A line comment takes its line. -/
theorem IsLineComment.afterLine_append
    {w rest : Text}
    (h : IsLineComment w rest) :
    afterLine (w ++ rest) = rest := by
  have hWord : ∀ c ∈ w, decide (c ≠ '\n') = true := by
    intro c hc
    rw [decide_eq_true_eq]
    rintro rfl
    exact h.oneLine hc
  rw [afterLine, List.dropWhile_append_of_pos hWord]
  cases rest with
  | nil => rfl
  | cons c rest =>
      exact List.dropWhile_cons_of_neg (by simpa using h.ends)

/- Two slashes open a line comment up to the line's end. -/
theorem isLineComment_takeWhile
    {s : Text}
    (h : opensLineComment s = true) :
    IsLineComment (s.takeWhile (· ≠ '\n')) (afterLine s) := by
  rcases opensLineComment_iff.mp h with ⟨back, rfl⟩
  refine ⟨?_, ?_, ?_⟩
  · exact List.prefix_append "//".toList
      (back.takeWhile (· ≠ '\n'))
  · intro hMem
    have hNot := List.mem_takeWhile_imp hMem
    exact absurd hNot (by simp)
  · have hHead :=
      List.head?_dropWhile_not (· ≠ '\n')
        ("//".toList ++ back)
    rw [← afterLine] at hHead
    cases hFirst : (afterLine ("//".toList ++ back)).head? with
    | none => rfl
    | some c =>
        rw [hFirst] at hHead
        simpa using hHead

/- A comment between marks is dropped. -/
theorem stripCommentsFrom_block
    {w : Text}
    (lineStart : Bool)
    (rest : Text)
    (h : IsBlockComment w) :
    stripCommentsFrom lineStart (w ++ rest) =
      stripCommentsFrom false rest := by
  have hLength :
      commentLength? (w ++ rest) = some w.length :=
    commentLength?_eq_some_iff.mpr
      ⟨w, h, List.prefix_append w rest, rfl⟩
  rcases h.1 with ⟨more, rfl⟩
  have hText :
      "/*".toList ++ more ++ rest =
        '/' :: ("*".toList ++ more ++ rest) := rfl
  rw [hText] at hLength ⊢
  rw [stripCommentsFrom, hLength]
  simp

/- Dropping comments is reading the text so. -/
theorem strips_stripCommentsFrom
    (lineStart : Bool)
    (s : Text) :
    Strips lineStart s (stripCommentsFrom lineStart s) := by
  fun_induction stripCommentsFrom lineStart s with
  | case1 lineStart => exact .nil lineStart
  | case2 lineStart c rest n hLength ih =>
      rcases commentLength?_eq_some_iff.mp hLength with
        ⟨w, hWord, ⟨more, hMore⟩, rfl⟩
      rcases hWord.1 with ⟨body, rfl⟩
      have hRest : rest.drop (("/*".toList ++ body).length - 1) =
          more := by
        have hTail := (List.cons.inj hMore).2
        rw [← hTail]
        exact List.drop_left
      rw [hRest] at ih
      rw [← hMore, hRest]
      exact .block hWord ih
  | case3 lineStart c rest hNone hOpens ih =>
      have hLine := isLineComment_takeWhile hOpens.2
      have hSplit :
          rest.takeWhile (· ≠ '\n') ++ afterLine rest = rest :=
        List.takeWhile_append_dropWhile
      have hBehind :
          Strips lineStart
            (c :: (rest.takeWhile (· ≠ '\n') ++
              afterLine rest))
            (c :: stripCommentsFrom false
              (afterLine rest)) :=
        .behind hOpens.1 hLine ih
      rwa [hSplit] at hBehind
  | case4 lineStart c rest hNone hBehind hOpens ih =>
      rcases hOpens with ⟨rfl, hOpens⟩
      have hLine := isLineComment_takeWhile hOpens
      have hSplit :
          (c :: rest).takeWhile (· ≠ '\n') ++
              afterLine (c :: rest) =
            c :: rest :=
        List.takeWhile_append_dropWhile
      have hSlash : c = '/' := by
        rcases opensLineComment_iff.mp hOpens with
          ⟨back, hBack⟩
        exact (List.cons.inj hBack).1
      have hTwo :
          ¬ "///".toList <+:
            (c :: rest).takeWhile (· ≠ '\n') := by
        intro hThree
        have hWhole := hThree.trans (List.takeWhile_prefix _)
        apply hBehind
        rw [← prefix_iff_opensLineComment, hSlash]
        exact ⟨by decide, (List.cons_prefix_cons.mp hWhole).2⟩
      have hAfter : afterLine (c :: rest) = afterLine rest := by
        rw [hSlash]
        rfl
      have hFirst := Strips.first hLine hTwo (hAfter ▸ ih)
      rwa [hSplit, hAfter] at hFirst
  | case5 lineStart c rest hNone hBehind hStart ih =>
      refine .char (not_prefix_iff_commentLength?.mpr hNone) ?_
        ?_ ih
      · intro hc hTwo
        exact hBehind ⟨hc, prefix_iff_opensLineComment.mp hTwo⟩
      · intro hFlag hTwo
        exact hStart
          ⟨hFlag, prefix_iff_opensLineComment.mp hTwo⟩

/- It can be read in one way only. -/
theorem strips_iff
    {lineStart : Bool}
    {s t : Text} :
    Strips lineStart s t ↔
      t = stripCommentsFrom lineStart s := by
  constructor
  · intro h
    induction h with
    | nil lineStart => rw [stripCommentsFrom]
    | block hWord hRest ih =>
        rw [stripCommentsFrom_block _ _ hWord, ih]
    | @behind lineStart c w rest out hOther hLine hRest ih =>
        have hOpens := hLine.opens
        have hAfter := hLine.afterLine_append
        rcases hLine.exists_cons with ⟨more, rfl⟩
        have hNone :
            commentLength? (c :: ('/' :: '/' :: more ++ rest)) =
              none :=
          commentLength?_eq_none (by decide)
        rw [stripCommentsFrom, hNone]
        simp only
        rw [if_pos ⟨hOther, hOpens⟩, hAfter, ih]
    | @first w rest out hLine hTwo hRest ih =>
        have hOpens := hLine.opens
        have hAfter := hLine.afterLine_append
        have hThird := hLine.not_third hTwo
        rcases hLine.exists_cons with ⟨more, rfl⟩
        have hNone :
            commentLength? ('/' :: '/' :: (more ++ rest)) =
              none :=
          commentLength?_eq_none (by decide)
        have hOnly :
            ¬ ('/' ≠ ':' ∧
              opensLineComment ('/' :: (more ++ rest)) =
                true) := by
          rintro ⟨_, hBehind⟩
          apply hThird
          exact List.cons_prefix_cons.mpr
            ⟨rfl, prefix_iff_opensLineComment.mpr hBehind⟩
        have hBehind :
            afterLine ('/' :: (more ++ rest)) = rest := hAfter
        rw [List.cons_append, List.cons_append,
          stripCommentsFrom, hNone]
        simp only
        rw [if_neg hOnly, if_pos ⟨trivial, hOpens⟩, hBehind, ih]
    | @char lineStart c rest out hBlock hBehind hFirst hRest
        ih =>
        have hNone :=
          not_prefix_iff_commentLength?.mp hBlock
        simp only [prefix_iff_opensLineComment]
          at hBehind hFirst
        have hBehind :
            ¬ (c ≠ ':' ∧ opensLineComment rest = true) :=
          fun h => hBehind h.1 h.2
        have hFirst :
            ¬ (lineStart = true ∧
              opensLineComment (c :: rest) = true) :=
          fun h => hFirst h.1 h.2
        rw [stripCommentsFrom, hNone]
        simp only
        rw [if_neg hBehind, if_neg hFirst, ih]
  · rintro rfl
    exact strips_stripCommentsFrom lineStart s

end Stylesheet

end WebTidy

import WebTidy.Proofs.Stylesheet.Addresses

/-
  When a compact style sheet is stable.

  No space of a compact form can be dropped again.  What can
  is a comment that comes about where another is dropped,
  and a semicolon before a close brace where two stood.  The
  compact form is stable exactly if neither is left, and
  this can be told from the style sheet without its
  comments.

  Key theorems include:
    * `WebTidy.Stylesheet.dense_packed`
    * `WebTidy.Stylesheet.minify_packed_iff`
    * `WebTidy.Stylesheet.uncommented_packed_iff`
    * `WebTidy.Stylesheet.infix_packed_iff`
    * `WebTidy.Stylesheet.minify_minify_iff`
-/

------------------------------------------------------------
-- Texts That Are Left As They Are
------------------------------------------------------------

namespace WebTidy

namespace Stylesheet

/- The spaces of a compact form are all needed. -/
theorem dense_eq_self
    {last : Option Char}
    {t : Text}
    (hChain : t.IsChain Beside)
    (hPlain : ∀ c ∈ t, isSpace c = true → c = ' ')
    (hFirst :
      t.head?.any isSpace = true →
        last.any (!isPunctuation ·) = true)
    (hEnd : t.getLast?.all (!isSpace ·) = true) :
    dense last false t = t := by
  induction t generalizing last with
  | nil => rfl
  | cons c rest ih =>
      have hPlainRest :
          ∀ d ∈ rest, isSpace d = true → d = ' ' :=
        fun d hd => hPlain d (by simp [hd])
      cases rest with
      | nil =>
          have hc : isSpace c = false := by simpa using hEnd
          simp [dense, hc]
      | cons d more =>
          have hNext : Beside c d := hChain.rel_head? rfl
          rw [List.getLast?_cons_cons] at hEnd
          cases hc : isSpace c with
          | true =>
              -- one space, between two solid characters
              have hd := of_isSolid (hNext.1 hc)
              have hRest :
                  dense last false (d :: more) = d :: more := by
                apply ih hChain.tail hPlainRest _ hEnd
                simp [hd.1]
              have hLast := hFirst (by simp [hc])
              rw [dense] at hRest ⊢
              rw [if_pos hc, dense]
              simp only [hd.1, hd.2.1, hLast,
                Bool.false_eq_true, if_false, false_and,
                and_self, if_true] at hRest ⊢
              rw [hRest, hPlain c (by simp) hc]
          | false =>
              have hRest :
                  dense (some c) false (d :: more) =
                    d :: more := by
                apply ih hChain.tail hPlainRest _ hEnd
                intro hd
                have hSolid := hNext.2 (by simpa using hd)
                simp [(of_isSolid hSolid).2.1]
              rw [dense]
              simp [hc, hRest]

/- A packed text is dense. -/
theorem dense_packed
    (t : Text) :
    dense none false (packed none t) = packed none t := by
  have hEnds := isSpace_ends_packed t
  apply dense_eq_self (isChain_packed t rfl) _ _ hEnds.2
  · exact fun c => eq_space_of_mem_packed
  · intro hSpace
    cases hHead : (packed none t).head? with
    | none =>
        rw [hHead] at hSpace
        cases hSpace
    | some c =>
        rw [hHead, Option.any_some] at hSpace
        rw [hHead, Option.all_some, hSpace] at hEnds
        cases hEnds.1

/- No semicolon is dropped where none ends a block. -/
theorem stripSemicolons_eq_self_iff
    {t : Text} :
    stripSemicolons t = t ↔ ¬ [';', '}'] <:+: t := by
  induction t with
  | nil => simp [stripSemicolons]
  | cons c rest ih =>
      have hStart :
          [';', '}'] <+: c :: rest ↔
            c = ';' ∧ rest.head? = some '}' := by
        cases rest with
        | nil => simp
        | cons d more => simp [eq_comm]
      rw [stripSemicolons, List.infix_cons_iff, hStart]
      split
      · rename_i hDrop
        refine iff_of_false ?_ (by simp [hDrop])
        intro hSame
        have hLess := (stripSemicolons_sublist rest).length_le
        rw [hSame, List.length_cons] at hLess
        omega
      · rename_i hKeep
        rw [List.cons_inj_right, ih]
        simp [hKeep]

/- A second compact form is the first one. -/
theorem minify_packed_iff
    {t : Text} :
    minify (packed none t) = packed none t ↔
      Uncommented true (packed none t) ∧
        ¬ [';', '}'] <:+: packed none t := by
  have hFree (h : Uncommented true (packed none t)) :
      minify (packed none t) =
        stripSemicolons (packed none t) := by
    rw [minify_eq_dense h.stripCommentsFrom_eq, dense_packed]
  rw [← stripSemicolons_eq_self_iff]
  constructor
  · intro hSame
    have hUncommented : Uncommented true (packed none t) := by
      rw [← filter_minify_eq_iff, hSame]
    rw [hFree hUncommented] at hSame
    exact ⟨hUncommented, hSame⟩
  · rintro ⟨hUncommented, hSame⟩
    rw [hFree hUncommented, hSame]

end Stylesheet

end WebTidy

------------------------------------------------------------
-- Comments That Are Left
------------------------------------------------------------

namespace WebTidy

namespace Stylesheet

/- Two solid neighbours stay neighbours. -/
theorem exists_packed_pair
    (last : Option Char)
    (front : Text)
    {c d : Char}
    (back : Text)
    (hLast : last.all isVisible = true)
    (hc : isSolid c = true)
    (hd : isSolid d = true) :
    ∃ before,
      packed last (front ++ c :: d :: back) =
        before ++ c :: d :: packed (some d) back ∧
      before.filter isVisible = essentials front := by
  rcases exists_packed_append last front (d :: back) hLast hc
    with ⟨before, hCut, hSame⟩
  refine ⟨before, ?_, hSame⟩
  rw [hCut]
  exact congrArg (before ++ c :: ·)
    (packed_spaces_cons [] back rfl hc hd)

/- A text without essentials has spaces only. -/
theorem all_isSpace_of_essentials
    {t : Text}
    (h : essentials t = []) :
    t.all isSpace = true := by
  have hNone := getLast?_essentials t
  rw [h, List.getLast?_nil, eq_comm, List.getLast?_eq_none_iff,
    List.filter_eq_nil_iff] at hNone
  rw [List.all_eq_true]
  intro c hc
  simpa [isVisible] using hNone c hc

/- Two solid neighbours were neighbours. -/
theorem exists_of_packed_pair
    {last : Option Char}
    {t before behind : Text}
    {c d : Char}
    (hLast : last.all isVisible = true)
    (hc : isSolid c = true)
    (hd : isSolid d = true)
    (h : packed last t = before ++ c :: d :: behind) :
    ∃ front back,
      t = front ++ c :: d :: back ∧
      behind = packed (some d) back ∧
      before.filter isVisible = essentials front := by
  have hcSeen : (some c).all isVisible = true := by
    simp [isVisible, (of_isSolid hc).1]
  rcases exists_of_packed hLast hc h with
    ⟨front, more, rfl, hMore, hSame⟩
  have hStart :
      packed (some c) more = [] ++ d :: behind :=
    hMore.symm
  rcases exists_of_packed hcSeen hd hStart with
    ⟨gap, back, rfl, hBack, hGap⟩
  rw [packed_spaces_cons gap back
    (all_isSpace_of_essentials hGap.symm) hc hd] at hMore
  refine ⟨front, back, ?_, hBack, hSame⟩
  -- a space between the two would have been written
  split at hMore
  · rename_i hNil
    rw [hNil, List.nil_append]
  · rw [(List.cons.inj hMore).1] at hd
    exact absurd hd (by decide)

/- A visible character at the end, if it is punctuation. -/
theorem getLast?_of_filter
    {t : Text}
    {c : Char}
    (hChain : t.IsChain Beside)
    (hc : isSolid c = false)
    (h : (t.filter isVisible).getLast? = some c) :
    t.getLast? = some c := by
  rcases List.eq_nil_or_concat' t with rfl | ⟨init, e, rfl⟩
  · cases h
  · rw [List.filter_append] at h
    cases he : isSpace e with
    | false =>
        rw [filter_cons_visible [] he, List.filter_nil,
          List.getLast?_concat] at h
        rw [List.getLast?_concat, h]
    | true =>
        -- the space would stand behind a solid character
        rw [filter_cons_space [] he, List.filter_nil,
          List.append_nil] at h
        rcases List.eq_nil_or_concat' init with
          rfl | ⟨more, f, rfl⟩
        · cases h
        · rw [List.append_assoc] at hChain
          have hBeside : Beside f e :=
            (List.isChain_cons_cons.mp
              hChain.right_of_append).1
          have hf := hBeside.2 he
          rw [List.filter_append,
            filter_cons_visible [] (of_isSolid hf).1,
            List.filter_nil, List.getLast?_concat] at h
          rw [← Option.some.inj h, hf] at hc
          cases hc

/-
  A packed text has no comments if the text has none that is
  closed, and a colon is the last visible character in front
  of all its double slashes.
-/
theorem uncommented_packed_iff
    {t : Text} :
    Uncommented true (packed none t) ↔
      (∀ body, ¬ "/*".toList ++ body ++ "*/".toList <:+: t) ∧
      ∀ front back, t = front ++ "//".toList ++ back →
        (front.filter isVisible).getLast? = some ':' := by
  have hSlash : isSolid '/' = true := by decide
  have hStar : isSolid '*' = true := by decide
  constructor
  · rintro ⟨hBlock, hLine⟩
    refine ⟨?_, ?_⟩
    · rintro body ⟨front, back, rfl⟩
      rcases exists_packed_pair none front
        (body ++ '*' :: '/' :: back) rfl hSlash hStar with
        ⟨before, hOpen, _⟩
      rcases exists_packed_pair (some '*') body back rfl
        hStar hSlash with ⟨inner, hClose, _⟩
      apply hBlock inner
      refine ⟨before, packed (some '/') back, ?_⟩
      rw [hClose] at hOpen
      simpa using hOpen.symm
    · rintro front back rfl
      rcases exists_packed_pair none front back rfl hSlash
        hSlash with ⟨before, hCut, hSame⟩
      have hText :
          packed none (front ++ "//".toList ++ back) =
            before ++ "//".toList ++ packed (some '/') back := by
        simpa using hCut
      rcases hLine _ _ hText with hColon | ⟨_, hFlag⟩
      · rw [← getLast?_essentials, ← hSame]
        rcases List.getLast?_eq_some_iff.mp hColon with
          ⟨init, rfl⟩
        rw [List.filter_append,
          filter_cons_visible [] (by decide), List.filter_nil,
          List.getLast?_concat]
      · cases hFlag
  · rintro ⟨hBlock, hLine⟩
    refine ⟨?_, ?_⟩
    · rintro inner ⟨before, behind, hText⟩
      have hOpen :
          packed none t =
            before ++ '/' :: '*' ::
              (inner ++ '*' :: '/' :: behind) := by
        simpa using hText.symm
      rcases exists_of_packed_pair rfl hSlash hStar hOpen with
        ⟨front, more, rfl, hMore, _⟩
      rcases exists_of_packed_pair rfl hStar hSlash hMore.symm
        with ⟨body, back, rfl, _, _⟩
      exact hBlock body ⟨front, back, by simp⟩
    · intro before behind hText
      have hCut :
          packed none t = before ++ '/' :: '/' :: behind := by
        simpa using hText
      rcases exists_of_packed_pair rfl hSlash hSlash hCut with
        ⟨front, back, rfl, _, hSame⟩
      have hColon := hLine front back (by simp)
      rw [← getLast?_essentials, ← hSame] at hColon
      refine Or.inl (getLast?_of_filter ?_ (by decide) hColon)
      have hChain :
          (packed none (front ++ '/' :: '/' :: back)).IsChain
            Beside :=
        isChain_packed _ rfl
      rw [hCut] at hChain
      exact hChain.left_of_append

end Stylesheet

end WebTidy

------------------------------------------------------------
-- Semicolons That Are Left
------------------------------------------------------------

namespace WebTidy

namespace Stylesheet

/- Of two semicolons before a close brace one is left. -/
theorem infix_stripSemicolons_iff
    {t : Text} :
    [';', '}'] <:+: stripSemicolons t ↔
      [';', ';', '}'] <:+: t := by
  constructor
  · rintro ⟨before, behind, hText⟩
    rw [List.append_assoc] at hText
    rcases exists_of_stripSemicolons (by decide) hText.symm with
      ⟨front, back, rfl, hBack, _, hNext⟩
    rcases head?_stripSemicolons_cases back with
      hSame | ⟨rest, rfl, _⟩
    · rw [← hBack] at hSame
      exact absurd hSame.symm (hNext rfl)
    · exact ⟨front, rest, by simp⟩
  · rintro ⟨front, back, rfl⟩
    have hText :
        front ++ [';', ';', '}'] ++ back =
          (front ++ [';']) ++ ';' :: '}' :: back := by
      simp
    rw [hText, stripSemicolons_append (Or.inr (by simp)),
      stripSemicolons_append (Or.inr (by simp))]
    exact ⟨stripSemicolons front, stripSemicolons back,
      by simp [stripSemicolons]⟩

/- A semicolon and a brace are seen where they stand. -/
theorem infix_filter_iff
    {t : Text}
    (hChain : t.IsChain Beside) :
    [';', '}'] <:+: t.filter isVisible ↔
      [';', '}'] <:+: t := by
  constructor
  · rintro ⟨before, behind, hText⟩
    rw [List.append_assoc] at hText
    rcases List.filter_eq_append_iff.mp hText.symm with
      ⟨front, more, rfl, _, hMore⟩
    rcases List.filter_eq_cons_iff.mp hMore with
      ⟨lead, rest, rfl, _, _, hRest⟩
    rcases List.filter_eq_cons_iff.mp hRest with
      ⟨gap, back, rfl, hGap, _, _⟩
    cases gap with
    | nil => exact ⟨front ++ lead, back, by simp⟩
    | cons e gap =>
        -- no space stands behind a semicolon
        have he : isSpace e = true := by
          simpa [isVisible] using hGap e (by simp)
        have hBeside : Beside ';' e :=
          beside_of_infix hChain
            ⟨front ++ lead, gap ++ '}' :: back, by simp⟩
        exact absurd (hBeside.2 he) (by decide)
  · rintro ⟨front, back, rfl⟩
    refine ⟨front.filter isVisible, back.filter isVisible, ?_⟩
    rw [List.filter_append, List.filter_append]
    rfl

/- A packed text has a semicolon left where two stood. -/
theorem infix_packed_iff
    {t : Text} :
    [';', '}'] <:+: packed none t ↔
      [';', ';', '}'] <:+: t.filter isVisible := by
  rw [← infix_filter_iff (isChain_packed t rfl),
    filter_packed t rfl, essentials_eq,
    infix_stripSemicolons_iff]

end Stylesheet

end WebTidy

------------------------------------------------------------
-- Stable Style Sheets
------------------------------------------------------------

namespace WebTidy

namespace Stylesheet

/-
  A second compact form of a style sheet is the first one
  exactly if three things hold of the style sheet without
  its comments: no comment is closed in it, its double
  slashes follow colons, and no two semicolons end a block,
  where spaces are not seen.
-/
theorem minify_minify_iff
    (sheet : Text) :
    minify (minify sheet) = minify sheet ↔
      (∀ body,
        ¬ "/*".toList ++ body ++ "*/".toList <:+:
          stripComments sheet) ∧
      (∀ front back,
        stripComments sheet = front ++ "//".toList ++ back →
          (front.filter isVisible).getLast? = some ':') ∧
      ¬ [';', ';', '}'] <:+:
        (stripComments sheet).filter isVisible := by
  rw [minify_eq_packed sheet, minify_packed_iff,
    uncommented_packed_iff, infix_packed_iff, and_assoc]

/-
  A comment that another one stands in front of is left, and
  so is one of two semicolons that end a block.  Both are
  dropped when the compact form is written again.
-/
theorem not_stable_minify :
    (minify "a\x7bb:c\x7d/*d*///e".toList =
        "a\x7bb:c\x7d//e".toList ∧
      minify (minify "a\x7bb:c\x7d/*d*///e".toList) ≠
        minify "a\x7bb:c\x7d/*d*///e".toList) ∧
    (minify "a\x7bb:c;;\x7d".toList = "a\x7bb:c;\x7d".toList ∧
      minify (minify "a\x7bb:c;;\x7d".toList) ≠
        minify "a\x7bb:c;;\x7d".toList) := by
  decide +kernel

end Stylesheet

end WebTidy

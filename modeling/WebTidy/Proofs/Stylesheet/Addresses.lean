import WebTidy.Proofs.Stylesheet.CompactForm

/-
  Addresses in compact style sheets.

  The compact form of a style sheet has all its content if
  and only if the style sheet has no comments.  The two
  slashes of an address stand behind a colon, so they open
  no comment.  A third slash does: the one before it is no
  colon, and the rest of the line is lost.

  Key definitions include:
    * `WebTidy.Stylesheet.SlashesBehindColons`

  Key theorems include:
    * `WebTidy.Stylesheet.filter_minify_eq_iff`
    * `WebTidy.Stylesheet.minify_keeps_addresses_iff`
-/

------------------------------------------------------------
-- Kept Content
------------------------------------------------------------

namespace WebTidy

namespace Stylesheet

/- Comments are all the content that is lost. -/
theorem filter_minify_eq_iff
    {sheet : Text} :
    (minify sheet).filter isContent = sheet.filter isContent ↔
      Uncommented true sheet := by
  constructor
  · intro hSame
    have hCount (t : Text) :
        (t.filter isContent).count '/' = t.count '/' :=
      List.count_filter (by decide)
    rw [uncommented_iff, ← hCount, ← hCount sheet, ← hSame,
      filter_minify]
  · intro hFree
    rw [filter_minify, stripComments,
      hFree.stripCommentsFrom_eq]

end Stylesheet

end WebTidy

------------------------------------------------------------
-- Runs Of Slashes
------------------------------------------------------------

namespace WebTidy

namespace Stylesheet

/-
  A style sheet in which every run of two or more slashes
  stands directly behind a colon.
-/
def SlashesBehindColons
    (sheet : Text) :
    Prop :=
  ∀ front n back,
    sheet = front ++ List.replicate n '/' ++ back →
    2 ≤ n →
    front.getLast? ≠ some '/' →
    back.head? ≠ some '/' →
    front.getLast? = some ':'

/- It is enough to look at the places where a run begins. -/
theorem slashesBehindColons_iff
    {sheet : Text} :
    SlashesBehindColons sheet ↔
      ∀ k ≤ sheet.length,
        opensLineComment (sheet.drop k) = true →
        (sheet.take k).getLast? ≠ some '/' →
        (sheet.take k).getLast? = some ':' := by
  constructor
  · intro h k _ hOpens hFront
    have hRun :
        (sheet.drop k).takeWhile (· = '/') =
          List.replicate
            ((sheet.drop k).takeWhile (· = '/')).length '/' := by
      rw [List.eq_replicate_iff]
      refine ⟨rfl, ?_⟩
      intro c hc
      simpa using List.mem_takeWhile_imp hc
    have hTwo :
        2 ≤ ((sheet.drop k).takeWhile (· = '/')).length := by
      rcases opensLineComment_iff.mp hOpens with ⟨back, hBack⟩
      rw [hBack]
      simp
    refine h _ _ ((sheet.drop k).dropWhile (· = '/')) ?_ hTwo
      hFront ?_
    · rw [← hRun, List.append_assoc,
        List.takeWhile_append_dropWhile, List.take_append_drop]
    · intro hSlash
      have hNot := List.head?_dropWhile_not (· = '/') (sheet.drop k)
      rw [hSlash] at hNot
      simp at hNot
  · rintro h front n back rfl hTwo hFront _
    have hStart :
        (front ++ List.replicate n '/' ++ back).take front.length =
          front := by
      rw [List.append_assoc, List.take_left]
    have hOpens :
        opensLineComment
          ((front ++ List.replicate n '/' ++ back).drop
            front.length) = true := by
      rcases Nat.exists_eq_add_of_le hTwo with ⟨m, rfl⟩
      rw [List.append_assoc, List.drop_left,
        opensLineComment_iff, List.replicate_add]
      exact ⟨List.replicate m '/' ++ back, by simp⟩
    have hColon := h front.length (by simp) hOpens
    rw [hStart] at hColon
    exact hColon hFront

instance
    (sheet : Text) :
    Decidable (SlashesBehindColons sheet) :=
  decidable_of_iff' _ slashesBehindColons_iff

/- Two slashes alone are a run. -/
theorem SlashesBehindColons.getLast?_eq
    {front back : Text}
    (h : SlashesBehindColons (front ++ "//".toList ++ back))
    (hNone :
      ¬ "///".toList <:+: front ++ "//".toList ++ back) :
    front.getLast? = some ':' := by
  apply h front 2 back rfl (Nat.le_refl 2)
  · intro hSlash
    rcases List.getLast?_eq_some_iff.mp hSlash with
      ⟨more, rfl⟩
    exact hNone ⟨more, back, by simp⟩
  · intro hSlash
    rcases List.head?_eq_some_iff.mp hSlash with ⟨more, rfl⟩
    exact hNone ⟨front, more, by simp⟩

end Stylesheet

end WebTidy

------------------------------------------------------------
-- Addresses
------------------------------------------------------------

namespace WebTidy

namespace Stylesheet

/-
  Where all runs of slashes stand behind colons, content is
  kept exactly if no run has a third slash.
-/
theorem minify_keeps_addresses_iff
    {sheet : Text}
    (hBlock : ¬ "/*".toList <:+: sheet)
    (hSlashes : SlashesBehindColons sheet) :
    (minify sheet).filter isContent = sheet.filter isContent ↔
      ¬ "///".toList <:+: sheet := by
  rw [filter_minify_eq_iff]
  constructor
  · rintro hFree ⟨front, back, rfl⟩
    have hThird :
        front ++ "///".toList ++ back =
          (front ++ ['/']) ++ "//".toList ++ back := by
      simp
    rcases hFree.line _ _ hThird with hColon | ⟨hNil, _⟩
    · rw [List.getLast?_concat] at hColon
      cases hColon
    · simp at hNil
  · intro hNone
    refine ⟨?_, ?_⟩
    · rintro body ⟨front, back, rfl⟩
      exact hBlock
        ⟨front, body ++ "*/".toList ++ back, by simp⟩
    · rintro front back rfl
      exact Or.inl (hSlashes.getLast?_eq hNone)

/- An address with a host and slashes in its path. -/
def hostedImage :
    Text :=
  "a \x7b b : url(http://c.d/e/f) ; \x7d".toList

/- Its content is kept. -/
theorem minify_keeps_hostedImage :
    (¬ "/*".toList <:+: hostedImage ∧
      SlashesBehindColons hostedImage ∧
      ¬ "///".toList <:+: hostedImage) ∧
    (minify hostedImage).filter isContent =
      hostedImage.filter isContent := by
  have hBlock : ¬ "/*".toList <:+: hostedImage := by
    decide +kernel
  have hSlashes : SlashesBehindColons hostedImage := by
    decide +kernel
  have hNone : ¬ "///".toList <:+: hostedImage := by
    decide +kernel
  exact ⟨⟨hBlock, hSlashes, hNone⟩,
    (minify_keeps_addresses_iff hBlock hSlashes).mpr hNone⟩

/-
  An address without a host has a third slash.  The first
  one is kept as the character in front of a comment, and
  the comment takes the rest of the line.
-/
theorem not_keeps_localImage :
    ¬ "/*".toList <:+: "a\x7bb:url(file:///c)\x7d".toList ∧
    SlashesBehindColons "a\x7bb:url(file:///c)\x7d".toList ∧
    minify "a\x7bb:url(file:///c)\x7d".toList =
      "a\x7bb:url(file:/".toList ∧
    (minify "a\x7bb:url(file:///c)\x7d".toList).filter
        isContent ≠
      "a\x7bb:url(file:///c)\x7d".toList.filter isContent := by
  decide +kernel

end Stylesheet

end WebTidy

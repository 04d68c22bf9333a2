import WebTidy.Proofs.Markup.Octets.Layout
import WebTidy.Proofs.Markup.Rescan
import WebTidy.Proofs.Text.Offset

/-
  Tokens cut from octets.

  All marks of tokens are ASCII characters.  They stand at
  the same places in a document and in its octets, so every
  token is cut off between two characters, and its octets
  are those of the token of the document.

  Key definitions include:
    * `WebTidy.Markup.Token.encoded`

  Key theorems include:
    * `WebTidy.Markup.Tag.closeIndex?_toUtf8`
    * `WebTidy.Markup.verbatimLength?_toUtf8`
    * `WebTidy.Markup.Token.firstLength_toUtf8`
    * `WebTidy.Markup.Octets.scan_toUtf8`
-/

------------------------------------------------------------
-- Ends Of Tags
------------------------------------------------------------

namespace WebTidy

namespace Markup

open Octet

/- Name characters are ASCII characters. -/
theorem treatsWide_isNameChar :
    TreatsWide isNameChar false := by
  intro c hc
  have hHyphen : c ≠ '-' := ne_of_isWide hc (by decide)
  have hLine : c ≠ '_' := ne_of_isWide hc (by decide)
  have hColon : c ≠ ':' := ne_of_isWide hc (by decide)
  simp [isNameChar, hHyphen, hLine, hColon,
    isAlphanum_of_isWide hc]

namespace Tag

/- So are quotes. -/
theorem isWide_of_isQuote
    {c : Char}
    (h : isQuote c = true) :
    isWide c = false := by
  simp only [isQuote, decide_eq_true_eq] at h
  rcases h with rfl | rfl <;> rfl

theorem treatsWide_isQuote :
    TreatsWide isQuote false := by
  exact treatsWide_false fun c => isWide_of_isQuote

/- Characters beyond ASCII end neither a tag nor a value. -/
theorem closeIndex?_wide
    {mark : Option Char}
    (hMark : mark.any isWide = false)
    (c : Char)
    (rest : Text)
    (hc : isWide c = true) :
    closeIndex? mark (c :: rest) =
      (closeIndex? mark rest).map (· + 1) := by
  cases mark with
  | none =>
      rw [closeIndex?, if_neg (ne_of_isWide hc (by decide)),
        treatsWide_isQuote c hc]
      rfl
  | some mark =>
      rw [closeIndex?, if_neg (ne_of_isWide hc hMark)]

/- The end of a tag is at the same place. -/
theorem closeIndex?_toUtf8
    {mark : Option Char}
    (hMark : mark.any isWide = false)
    (s : Text) :
    closeIndex? mark (toUtf8 s) =
      (closeIndex? mark s).map (offset s) := by
  induction s generalizing mark with
  | nil => simp [closeIndex?]
  | cons c rest ih =>
      cases hc : isWide c with
      | true =>
          exact search_toUtf8_cons (closeIndex?_wide hMark) hc
            (ih hMark)
      | false =>
          have hOne : [c].any isWide = false := by
            simpa using hc
          rw [toUtf8_cons_of_ascii rest hc]
          cases mark with
          | none =>
              have hNext :
                  (if isQuote c then some c else none).any
                    isWide = false := by
                split
                · exact hc
                · rfl
              rw [closeIndex?, closeIndex?, ih hNext]
              split
              · rw [Option.map_some, offset_zero]
              · exact map_offset_append hOne rest _
          | some mark =>
              have hNext :
                  (if c = mark then none else some mark).any
                    isWide = false := by
                split
                · rfl
                · exact hMark
              rw [closeIndex?, closeIndex?, ih hNext]
              exact map_offset_append hOne rest _

end Tag

end Markup

end WebTidy

------------------------------------------------------------
-- Ends Of Verbatim Elements And Comments
------------------------------------------------------------

namespace WebTidy

namespace Markup

open Octet

section EndTags

variable
  {name : Text}
  (hName : name.any isWide = false)

include hName

/- The end tag of an ASCII name is ASCII. -/
theorem IsEndTag.any_isWide
    {w : Text}
    (h : IsEndTag name w) :
    w.any isWide = false := by
  rcases h with ⟨letters, blanks, hSame, hBlanks, rfl⟩
  have hLetters : letters.any isWide = false := by
    have hLower : letters.lower = name.lower := by
      simpa [Text.sameLetters] using hSame
    rw [← any_isWide_lower, hLower, any_isWide_lower, hName]
  have hNone : blanks.any isWide = false :=
    treatsWide_isBlank.any_isWide hBlanks
  rw [List.any_append, List.any_append, List.any_append,
    hLetters, hNone]
  rfl

/- It has the same length in octets. -/
theorem endTagLength?_toUtf8
    (s : Text) :
    endTagLength? name (toUtf8 s) =
      (endTagLength? name s).map (offset s) := by
  cases hLength : endTagLength? name s with
  | some n =>
      rcases exists_of_endTagLength? hLength with
        ⟨w, rest, hEnd, rfl, rfl⟩
      have hAscii := hEnd.any_isWide hName
      have hOffset := offset_append hAscii rest 0
      rw [offset_zero] at hOffset
      rw [toUtf8_append, toUtf8_of_ascii hAscii]
      rcases hEnd with ⟨letters, blanks, hSame, hBlanks, rfl⟩
      rw [endTagLength?_append _ hSame hBlanks,
        Option.map_some]
      exact congrArg some hOffset.symm
  | none =>
      cases hOctets : endTagLength? name (toUtf8 s) with
      | none => rfl
      | some n =>
          rcases exists_of_endTagLength? hOctets with
            ⟨w, octets, hEnd, hText, _⟩
          have hAscii := hEnd.any_isWide hName
          have hPrefix : w <+: s :=
            (prefix_toUtf8_iff hAscii s).mp
              ⟨octets, hText.symm⟩
          rcases hPrefix with ⟨rest, rfl⟩
          rcases hEnd with
            ⟨letters, blanks, hSame, hBlanks, rfl⟩
          rw [endTagLength?_append rest hSame hBlanks]
            at hLength
          cases hLength

/- The first end tag is at the same place. -/
theorem throughEndTag?_toUtf8
    (s : Text) :
    throughEndTag? name (toUtf8 s) =
      (throughEndTag? name s).map (offset s) := by
  have hPass (c : Char) (rest : Text) (hc : isWide c = true) :
      throughEndTag? name (c :: rest) =
        (throughEndTag? name rest).map (· + 1) := by
    have hNone : endTagLength? name (c :: rest) = none := by
      cases hLength : endTagLength? name (c :: rest) with
      | none => rfl
      | some n =>
          rcases exists_of_endTagLength? hLength with
            ⟨w, more, ⟨_, _, _, _, rfl⟩, hText, _⟩
          have hOpen : c = '<' := (List.cons_eq_cons.mp hText).1
          exact absurd hOpen (ne_of_isWide hc (by decide))
    rw [throughEndTag?, hNone]
  induction s with
  | nil => simp [throughEndTag?]
  | cons c rest ih =>
      cases hc : isWide c with
      | true => exact search_toUtf8_cons hPass hc ih
      | false =>
          have hOne : [c].any isWide = false := by
            simpa using hc
          have hFirst := endTagLength?_toUtf8 hName (c :: rest)
          rw [toUtf8_cons_of_ascii rest hc] at hFirst ⊢
          rw [throughEndTag?, throughEndTag?, hFirst]
          cases endTagLength? name (c :: rest) with
          | some n => rfl
          | none =>
              rw [ih]
              exact map_offset_append hOne rest _

end EndTags

/- A name ends at the same character. -/
theorem endsName_toUtf8
    (rest : Text) :
    endsName (toUtf8 rest) = endsName rest := by
  have hClass :
      TreatsWide (fun c => isBlank c ∨ c = '>' ∨ c = '/')
        false := by
    intro c hc
    have hClose : c ≠ '>' := ne_of_isWide hc (by decide)
    have hSlash : c ≠ '/' := ne_of_isWide hc (by decide)
    simp [treatsWide_isBlank c hc, hClose, hSlash]
  rw [endsName, endsName, head?_toUtf8, Option.all_map,
    hClass.comp_eq keeps_first]

/- A verbatim element ends at the same place. -/
theorem verbatimLength?_toUtf8
    {s : Text}
    (hHead : s.head? = some '<') :
    verbatimLength? (toUtf8 s) =
      (verbatimLength? s).map (offset s) := by
  rcases List.head?_eq_some_iff.mp hHead with ⟨inner, rfl⟩
  rcases exists_name inner with ⟨name, rest, rfl, hName, hRest⟩
  have hAscii : name.any isWide = false :=
    treatsWide_isNameChar.any_isWide hName
  have hFront : ('<' :: name).any isWide = false := by
    rw [List.any_cons, hAscii]
    rfl
  have hOctets : (toUtf8 rest).head?.any isNameChar = false := by
    rw [head?_toUtf8, Option.any_map,
      treatsWide_isNameChar.comp_eq keeps_first, hRest]
  have hText :
      toUtf8 ('<' :: (name ++ rest)) =
        '<' :: (name ++ toUtf8 rest) := by
    rw [toUtf8_cons_of_ascii _ (by decide), toUtf8_append,
      toUtf8_of_ascii hAscii]
  rw [hText, verbatimLength?_cons _ _ hName hOctets,
    verbatimLength?_cons _ _ hName hRest, endsName_toUtf8]
  split
  · have hShift := map_offset_append hFront rest
      (throughEndTag? name rest)
    rw [throughEndTag?_toUtf8 hAscii]
    rw [List.length_cons, Nat.add_comm] at hShift
    exact hShift
  · rfl

section Marks

variable
  {opening closing : Text}
  (hOpening : opening.any isWide = false)
  (hClosing : closing.any isWide = false)
  (hSome : closing ≠ [])

include hOpening hClosing hSome

/- What stands between two marks ends at the same place. -/
theorem between_toUtf8
    (s : Text) :
    (if opening <+: toUtf8 s then
      (Text.indexOf? closing
        ((toUtf8 s).drop opening.length)).map
          (· + (opening.length + closing.length))
    else none) =
      (if opening <+: s then
        (Text.indexOf? closing (s.drop opening.length)).map
          (· + (opening.length + closing.length))
      else none).map (offset s) := by
  by_cases hPrefix : opening <+: s
  · rw [if_pos hPrefix,
      if_pos ((prefix_toUtf8_iff hOpening s).mpr hPrefix)]
    rcases hPrefix with ⟨rest, rfl⟩
    rw [toUtf8_append, toUtf8_of_ascii hOpening,
      List.drop_left, List.drop_left,
      indexOf?_toUtf8 hSome hClosing]
    cases hFound : Text.indexOf? closing rest with
    | none => rfl
    | some n =>
        have hPlace :
            n + (opening.length + closing.length) =
              opening.length + (n + closing.length) := by
          omega
        have hEnd := offset_add_of_prefix hClosing
          (Text.prefix_of_indexOf? hFound)
        simp only [Option.map_some, Option.some_inj]
        rw [hPlace, offset_append hOpening, hEnd]
        omega
  · rw [if_neg hPrefix,
      if_neg (mt (prefix_toUtf8_iff hOpening s).mp hPrefix)]
    rfl

end Marks

/- A comment ends at the same place, -/
theorem commentLength?_toUtf8
    (s : Text) :
    commentLength? (toUtf8 s) =
      (commentLength? s).map (offset s) := by
  have hOpening : "<!--".toList.any isWide = false := by
    decide
  have hClosing : "-->".toList.any isWide = false := by
    decide
  exact between_toUtf8 hOpening hClosing (by decide) s

/- and so does a bracketed marker. -/
theorem markerLength?_toUtf8
    (s : Text) :
    markerLength? (toUtf8 s) =
      (markerLength? s).map (offset s) := by
  have hOpening : "<![".toList.any isWide = false := by
    decide
  have hClosing : "]>".toList.any isWide = false := by
    decide
  exact between_toUtf8 hOpening hClosing (by decide) s

end Markup

end WebTidy

------------------------------------------------------------
-- First Tokens
------------------------------------------------------------

namespace WebTidy

namespace Markup

open Octet

namespace Tag

/- A tag ends at the same place, with its bracket. -/
theorem endIndex?_toUtf8
    (s : Text) :
    endIndex? (toUtf8 s) 0 =
      (endIndex? s 0).map (offset s) := by
  cases s with
  | nil => rw [toUtf8_nil]; rfl
  | cons c rest =>
      -- Only the first octet of a character is passed over.
      rcases List.exists_cons_of_ne_nil
        (encode_ne_nil c) with ⟨d, more, hEncode⟩
      have hMore (e : Char) (he : e ∈ more) :
          isWide e = true := by
        rcases encode_cases c with
          ⟨_, hOne⟩ | ⟨hc, _⟩
        · rw [hOne] at hEncode
          cases hEncode
          cases he
        · have hMem : e ∈ encode c := by
            rw [hEncode]
            exact List.mem_cons_of_mem d he
          exact (isWide_of_mem_encode hMem).trans hc
      rw [toUtf8_cons, hEncode, List.cons_append, endIndex?,
        endIndex?, List.drop_succ_cons, List.drop_zero,
        List.drop_succ_cons, List.drop_zero,
        search_wide (closeIndex?_wide rfl) hMore,
        closeIndex?_toUtf8 rfl, Option.map_map, Option.map_map,
        Option.map_map]
      congr 1
      funext n
      simp only [Function.comp_apply, offset_cons, hEncode,
        List.length_cons, Nat.zero_add]
      omega

theorem offset_endIndex?
    {s : Text}
    {n : Nat}
    (h : endIndex? s 0 = some n) :
    offset s (n + 1) = offset s n + 1 := by
  rcases Option.map_eq_some_iff.mp h with ⟨m, hm, rfl⟩
  have hClose := getElem?_closeIndex? hm
  rw [List.getElem?_drop, Nat.add_comm] at hClose
  have hPrefix : ['>'] <+: s.drop (m + (0 + 1)) := by
    rw [← List.head?_drop] at hClose
    rcases List.head?_eq_some_iff.mp hClose with
      ⟨rest, hRest⟩
    exact ⟨rest, hRest.symm⟩
  exact offset_add_of_prefix (by decide) hPrefix

end Tag

namespace Token

/- A token given as octets. -/
def encoded :
    Token → Token
| .tag s => .tag (toUtf8 s)
| .text s => .text (toUtf8 s)
| .verbatim s => .verbatim (toUtf8 s)
| .comment s => .comment (toUtf8 s)

/- A text is cut off in front of the next bracket. -/
theorem takeWhile_eq_take
    (p : Char → Bool)
    (s : Text) :
    s.takeWhile p = s.take (s.takeWhile p).length := by
  exact List.prefix_iff_eq_take.mp (List.takeWhile_prefix p)

/- The first token is cut off at its length. -/
theorem source_first
    (s : Text) :
    (first s).source = s.take (firstLength s) := by
  by_cases hHead : s.head? = some '<'
  · simp only [first, firstLength, if_pos hHead]
    cases verbatimLength? s with
    | some n => rfl
    | none =>
        cases (commentLength? s).or (markerLength? s) with
        | some n => rfl
        | none =>
            cases Tag.endIndex? s 0 with
            | some n => rfl
            | none => exact List.take_length.symm
  · simp only [first, firstLength, if_neg hHead]
    exact takeWhile_eq_take _ s

/-
  The first token is cut off at the same place of the
  octets, and it is the same token.
-/
theorem first_toUtf8
    (s : Text) :
    firstLength (toUtf8 s) = offset s (firstLength s) ∧
      first (toUtf8 s) = (first s).encoded := by
  have hOpen :
      (toUtf8 s).head? = some '<' ↔ s.head? = some '<' := by
    rw [head?_toUtf8, map_eq_some_iff keeps_first (by decide)]
  by_cases hHead : s.head? = some '<'
  · have hComment :
        (commentLength? (toUtf8 s)).or
            (markerLength? (toUtf8 s)) =
          ((commentLength? s).or (markerLength? s)).map
            (offset s) := by
      rw [commentLength?_toUtf8, markerLength?_toUtf8,
        Option.map_or]
    simp only [first, firstLength, if_pos hHead,
      if_pos (hOpen.mpr hHead), verbatimLength?_toUtf8 hHead,
      hComment, Tag.endIndex?_toUtf8]
    cases verbatimLength? s with
    | some n =>
        exact ⟨rfl, congrArg Token.verbatim (take_offset s n)⟩
    | none =>
        cases (commentLength? s).or (markerLength? s) with
        | some n =>
            exact ⟨rfl,
              congrArg Token.comment (take_offset s n)⟩
        | none =>
            cases hEnd : Tag.endIndex? s 0 with
            | some n =>
                have hOffset := Tag.offset_endIndex? hEnd
                have hTake := take_offset s (n + 1)
                rw [hOffset] at hTake
                exact ⟨hOffset.symm,
                  congrArg Token.tag hTake⟩
            | none => exact ⟨(offset_length s).symm, rfl⟩
  · have hText :
        (toUtf8 s).takeWhile (· ≠ '<') =
          toUtf8 (s.takeWhile (· ≠ '<')) := by
      have hClass : TreatsWide (· ≠ '<') true := by
        intro c hc
        exact decide_eq_true (ne_of_isWide hc (by decide))
      exact takeWhile_toUtf8 hClass s
    simp only [first, firstLength, if_neg hHead,
      if_neg (mt hOpen.mp hHead), hText]
    refine ⟨?_, rfl⟩
    rw [offset, ← takeWhile_eq_take]

end Token

end Markup

end WebTidy

------------------------------------------------------------
-- Scanning
------------------------------------------------------------

namespace WebTidy

namespace Markup

open Octet

/- Something is cut off. -/
theorem Token.firstLength_pos
    {s : Text}
    (h : s ≠ []) :
    0 < firstLength s := by
  have hPos := length_first_pos h
  rw [source_first, List.length_take] at hPos
  omega

/- The first token, and the tokens behind the cut. -/
theorem Token.scan_eq
    {s : Text}
    (h : s ≠ []) :
    scan s = first s :: scan (s.drop (firstLength s)) := by
  have hDrop :
      s.drop (first s).source.length =
        s.drop (firstLength s) := by
    rw [source_first, List.length_take]
    rcases Nat.le_total (firstLength s) s.length with
      hInside | hOutside
    · rw [Nat.min_eq_left hInside]
    · rw [Nat.min_eq_right hOutside, List.drop_length,
        List.drop_eq_nil_of_le hOutside]
  cases s with
  | nil => exact absurd rfl h
  | cons c rest => rw [scan, hDrop]

theorem Octets.scan_eq
    {s : Text}
    (h : s ≠ []) :
    scan s =
      if isBoundary s (Token.firstLength s) then
        (scan (s.drop (Token.firstLength s))).map
          (Token.first s :: ·)
      else .error .cut := by
  have hPos := Token.firstLength_pos h
  cases s with
  | nil => exact absurd rfl h
  | cons c rest =>
      rcases Nat.exists_eq_add_of_lt hPos with ⟨n, hn⟩
      rw [scan]
      simp only [hn, Nat.zero_add, Nat.add_sub_cancel,
        List.drop_succ_cons]

/-
  No cut goes through a character, and the tokens are those
  of the document.
-/
theorem Octets.scan_toUtf8
    (s : Text) :
    scan (toUtf8 s) =
      .ok ((Token.scan s).map Token.encoded) := by
  induction hLength : s.length using Nat.strong_induction_on
    generalizing s with
  | _ length ih =>
      by_cases hSome : s = []
      · rw [hSome, toUtf8_nil, scan, Token.scan]
        rfl
      have hOctets : toUtf8 s ≠ [] :=
        mt toUtf8_eq_nil_iff.mp hSome
      have hPos := Token.firstLength_pos hSome
      have hLess :
          (s.drop (Token.firstLength s)).length < length := by
        have hAny := List.length_pos_iff.mpr hSome
        rw [List.length_drop]
        omega
      rcases Token.first_toUtf8 s with ⟨hStop, hFirst⟩
      rw [scan_eq hOctets, hStop, isBoundary_offset, if_pos rfl,
        drop_offset, ih _ hLess _ rfl, hFirst,
        Token.scan_eq hSome]
      rfl

end Markup

end WebTidy

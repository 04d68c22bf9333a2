import WebTidy.Text.Blank

/-
  Compact style sheets.

  Four passes run one after the other: comments go, runs of
  spaces become one space, spaces beside punctuation go,
  and so do semicolons directly before a close brace.  The
  passes know nothing of quoted strings.

  Key definitions include:
    * `WebTidy.Stylesheet.stripComments`
    * `WebTidy.Stylesheet.stripBeside`
    * `WebTidy.Stylesheet.stripSemicolons`
    * `WebTidy.Stylesheet.minify`
-/

------------------------------------------------------------
-- Comments
------------------------------------------------------------

namespace WebTidy

namespace Stylesheet

/- The length of the closed comment at the start. -/
def commentLength?
    (s : Text) :
    Option Nat :=
  if "/*".toList <+: s then
    (Text.indexOf? "*/".toList (s.drop 2)).map (· + 4)
  else none

/- A text begins with two slashes. -/
def opensLineComment
    (s : Text) :
    Bool :=
  "//".toList <+: s

/- The text from the end of the current line on. -/
def afterLine
    (s : Text) :
    Text :=
  s.dropWhile (· ≠ '\n')

/- What follows a line is no longer than the text. -/
theorem length_afterLine_le
    (s : Text) :
    (afterLine s).length ≤ s.length := by
  exact (List.dropWhile_suffix _).length_le

/-
  Drop the comments of a text.  Two slashes open a comment
  up to the end of the line, at the start of a line or after
  any character but a colon, so that the slashes of an
  address are kept.  The flag tells that the text starts a
  line.
-/
def stripCommentsFrom
    (lineStart : Bool) :
    Text → Text
| [] => []
| c :: rest =>
    match commentLength? (c :: rest) with
    | some n => stripCommentsFrom false (rest.drop (n - 1))
    | none =>
        if c ≠ ':' ∧ opensLineComment rest then
          c :: stripCommentsFrom false (afterLine rest)
        else if lineStart ∧ opensLineComment (c :: rest) then
          stripCommentsFrom false (afterLine rest)
        else c :: stripCommentsFrom (c = '\n') rest
termination_by s => s.length
decreasing_by
  · simp only [List.length_drop, List.length_cons]
    omega
  · exact Nat.lt_succ_of_le (length_afterLine_le rest)
  · exact Nat.lt_succ_of_le (length_afterLine_le rest)
  · exact Nat.lt_succ_self rest.length

/- Drop the comments of a style sheet. -/
def stripComments
    (s : Text) :
    Text :=
  stripCommentsFrom true s

end Stylesheet

end WebTidy

------------------------------------------------------------
-- Punctuation
------------------------------------------------------------

namespace WebTidy

namespace Stylesheet

/- Punctuation that needs no space beside it. -/
def isPunctuation
    (c : Char) :
    Bool :=
  c = ';' ∨ c = ':' ∨ c = '{' ∨ c = '}' ∨ c = ','

/-
  Drop the spaces beside punctuation.  The flag tells that
  nothing but spaces was read since a punctuation mark.
-/
def stripBesideFrom :
    Bool → Text → Text
| _, [] => []
| after, c :: rest =>
    if isSpace c then
      if after ∨
          (rest.dropWhile isSpace).head?.any
            isPunctuation then
        stripBesideFrom after rest
      else c :: stripBesideFrom after rest
    else c :: stripBesideFrom (isPunctuation c) rest

/- Drop the spaces beside punctuation. -/
def stripBeside
    (s : Text) :
    Text :=
  stripBesideFrom false s

/- Drop the semicolons directly before a close brace. -/
def stripSemicolons :
    Text → Text
| [] => []
| c :: rest =>
    if c = ';' ∧ rest.head? = some '}' then
      stripSemicolons rest
    else c :: stripSemicolons rest

end Stylesheet

end WebTidy

------------------------------------------------------------
-- Style Sheets
------------------------------------------------------------

namespace WebTidy

namespace Stylesheet

/- Write a style sheet in compact form. -/
def minify
    (sheet : Text) :
    Text :=
  (stripSemicolons
    (stripBeside
      ((stripComments sheet).fold isSpace))).trim isSpace

end Stylesheet

end WebTidy

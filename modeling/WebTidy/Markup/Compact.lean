import WebTidy.Markup.Comment
import WebTidy.Text.Blank

/-
  Compact markup: comments go, runs of spaces become one
  space, and no space is left between two tags.  Verbatim
  elements are treated like all others.

  Key definitions include:
    * `WebTidy.Markup.stripComments`
    * `WebTidy.Markup.stripBetween`
    * `WebTidy.Markup.minify`
-/

------------------------------------------------------------
-- Comments
------------------------------------------------------------

namespace WebTidy

namespace Markup

/- Drop the closed comments of a document. -/
def stripComments :
    Text → Text
| [] => []
| c :: rest =>
    match commentLength? (c :: rest) with
    | some n => stripComments (rest.drop (n - 1))
    | none => c :: stripComments rest
termination_by s => s.length
decreasing_by
  all_goals
    simp only [List.length_drop, List.length_cons]
    omega

end Markup

end WebTidy

------------------------------------------------------------
-- Space Between Tags
------------------------------------------------------------

namespace WebTidy

namespace Markup

/-
  Drop the spaces between a closing and an opening bracket.
  The flag tells that nothing but spaces was read since a
  closing bracket.
-/
def stripBetweenFrom :
    Bool → Text → Text
| _, [] => []
| after, c :: rest =>
    if isSpace c then
      if after ∧
          (rest.dropWhile isSpace).head? = some '<' then
        stripBetweenFrom after rest
      else c :: stripBetweenFrom after rest
    else c :: stripBetweenFrom (c = '>') rest

/- Drop the spaces between tags. -/
def stripBetween
    (s : Text) :
    Text :=
  stripBetweenFrom false s

end Markup

end WebTidy

------------------------------------------------------------
-- Documents
------------------------------------------------------------

namespace WebTidy

namespace Markup

/- Write a document in compact form. -/
def minify
    (document : Text) :
    Text :=
  (stripBetween
    ((stripComments document).fold isSpace)).trim isSpace

end Markup

end WebTidy

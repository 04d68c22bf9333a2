import WebTidy.Markup.Comment
import WebTidy.Markup.Tag

/-
  Tokens: a document as a sequence of tags, texts, verbatim
  elements and comments.

  Every token is a contiguous part of the document, and the
  tokens together are the document.  A verbatim element ends
  at its first literal end tag; without one it is read as an
  ordinary tag.  An unterminated tag takes the rest of the
  document.

  Key definitions include:
    * `WebTidy.Markup.Token`
    * `WebTidy.Markup.Token.first`
    * `WebTidy.Markup.Token.scan`
-/

------------------------------------------------------------
-- Tokens
------------------------------------------------------------

namespace WebTidy

namespace Markup

/- One segment of a document. -/
inductive Token
| tag (source : Text)
| text (source : Text)
| verbatim (source : Text)
| comment (source : Text)
deriving DecidableEq, Repr

/- The part of the document that a token stands for. -/
def Token.source :
    Token → Text
| .tag s => s
| .text s => s
| .verbatim s => s
| .comment s => s

end Markup

end WebTidy

------------------------------------------------------------
-- Verbatim Elements
------------------------------------------------------------

namespace WebTidy

namespace Markup

/- The length of the end tag of `name` at the start. -/
def endTagLength?
    (name s : Text) :
    Option Nat :=
  let size := 2 + name.length
  let blanks :=
    ((s.drop size).takeWhile isBlank).length
  if "</".toList <+: s ∧
      Text.sameLetters ((s.drop 2).take name.length) name ∧
      s[size + blanks]? = some '>' then
    some (size + blanks + 1)
  else none

/- The length up to the end of the first such end tag. -/
def throughEndTag?
    (name : Text) :
    Text → Option Nat
| [] => none
| c :: rest =>
    match endTagLength? name (c :: rest) with
    | some n => some n
    | none => (throughEndTag? name rest).map (· + 1)

/- A name ends here, so a longer name is another name. -/
def endsName
    (rest : Text) :
    Bool :=
  rest.head?.all fun c => isBlank c ∨ c = '>' ∨ c = '/'

/- The length of the verbatim element at the start. -/
def verbatimLength?
    (s : Text) :
    Option Nat :=
  let name := (s.drop 1).takeWhile isNameChar
  let rest := s.drop (1 + name.length)
  if isVerbatim name ∧ endsName rest then
    (throughEndTag? name rest).map (· + (1 + name.length))
  else none

end Markup

end WebTidy

------------------------------------------------------------
-- Scanning
------------------------------------------------------------

namespace WebTidy

namespace Markup

namespace Token

/- The first token of a document. -/
def first
    (s : Text) :
    Token :=
  if s.head? = some '<' then
    match verbatimLength? s with
    | some n => .verbatim (s.take n)
    | none =>
        match (commentLength? s).or (markerLength? s) with
        | some n => .comment (s.take n)
        | none =>
            match Tag.endIndex? s 0 with
            | some n => .tag (s.take (n + 1))
            | none => .tag s
  else .text (s.takeWhile (· ≠ '<'))

/- A verbatim element has at least its opening bracket. -/
theorem verbatimLength?_pos
    {s : Text}
    {n : Nat}
    (h : verbatimLength? s = some n) :
    0 < n := by
  unfold verbatimLength? at h
  simp only at h
  split at h
  · rcases Option.map_eq_some_iff.mp h with ⟨m, _, rfl⟩
    omega
  · cases h

/- The first token of a document is not empty. -/
theorem length_first_pos
    {s : Text}
    (h : s ≠ []) :
    0 < (first s).source.length := by
  have hLength : 0 < s.length :=
    List.length_pos_iff.mpr h
  unfold first
  split
  · split
    · rename_i n hn
      have hPos := verbatimLength?_pos hn
      simp only [source, List.length_take]
      omega
    · split
      · rename_i n hn
        have hPos : 0 < n := by
          rcases Option.or_eq_some_iff.mp hn with
            hComment | ⟨_, hMarker⟩
          · exact commentLength?_pos hComment
          · exact markerLength?_pos hMarker
        simp only [source, List.length_take]
        omega
      · split
        · simp only [source, List.length_take]
          omega
        · exact hLength
  · rename_i hHead
    cases s with
    | nil => exact absurd rfl h
    | cons c rest =>
        have hc : c ≠ '<' := by
          simpa using hHead
        simp [source, hc]

/- The tokens of a document. -/
def scan :
    Text → List Token
| [] => []
| c :: rest =>
    let token := first (c :: rest)
    token :: scan ((c :: rest).drop token.source.length)
termination_by s => s.length
decreasing_by
  have hFirst :=
    length_first_pos (List.cons_ne_nil c rest)
  simp only [List.length_drop, List.length_cons]
  omega

end Token

end Markup

end WebTidy

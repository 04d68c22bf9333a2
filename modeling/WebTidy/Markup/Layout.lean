import WebTidy.Markup.Element
import WebTidy.Markup.Span
import WebTidy.Markup.Style

/-
  Layout of documents: one element per line, indented by
  tabs according to the nesting.

  Verbatim elements other than style elements are written
  as they are, and texts are decoded.  A step lays out one
  token, or a whole block if that is set on one line.

  Key definitions include:
    * `WebTidy.Markup.Outcome`
    * `WebTidy.Markup.step`
    * `WebTidy.Markup.layout`
    * `WebTidy.Markup.render`
    * `WebTidy.Markup.prettify`
-/

------------------------------------------------------------
-- Steps
------------------------------------------------------------

namespace WebTidy

namespace Markup

/-
  The outcome of a step: what is written, the open elements
  after it, and how many of the following tokens it took.
-/
structure Outcome where
  items : List Item
  nest : Nest
  taken : Nat := 0
deriving DecidableEq, Repr

/- The span of a block that can be set on one line. -/
def span?
    (nest : Nest)
    (head : Tag.Head)
    (rest : List Token) :
    Except Fault (Option Span) :=
  if !head.isEnd ∧ isCollapsible head.name then
    findSpan head.name nest.opened 0 rest
  else .ok none

/- Lay out a tag. -/
def stepTag
    (nest : Nest)
    (source : Text)
    (rest : List Token) :
    Except Fault Outcome := do
  let tag : Text := source.trim isBlank
  match Tag.head? tag with
  | none => .error .emptyTag
  | some head =>
      match ← span? nest head rest with
      | some span =>
          return {
            items :=
              [.joined head.name span.size,
                nest.line (span.line source head.name)]
            nest := nest
            taken := span.taken }
      | none =>
          let written := element nest tag head
          return { items := written.1, nest := written.2 }

/- Lay out a verbatim element. -/
def stepVerbatim
    (format : StyleFormatter)
    (nest : Nest)
    (source : Text) :
    Except Fault Outcome :=
  match Tag.head? source with
  | none => .error .emptyTag
  | some head =>
      if Text.sameLetters head.name "style".toList then do
        let items ← styleElement format nest source
        return { items := items, nest := nest }
      else
        .ok { items := [nest.line source], nest := nest }

/- Lay out one token, with the tokens that follow it. -/
def step
    (format : StyleFormatter)
    (nest : Nest)
    (rest : List Token) :
    Token → Except Fault Outcome
| .verbatim source => stepVerbatim format nest source
| .comment source =>
    let written := comment nest source
    .ok { items := written.1, nest := written.2 }
| .text source =>
    let text : Text := source.trim isBlank
    .ok
      { items :=
          if text = [] then []
          else [nest.line (CharRef.decode .text text)]
        nest := nest }
| .tag source => stepTag nest source rest

end Markup

end WebTidy

------------------------------------------------------------
-- Documents
------------------------------------------------------------

namespace WebTidy

namespace Markup

/- Everything that the layout of some tokens writes. -/
def layout
    (format : StyleFormatter)
    (nest : Nest) :
    List Token → Except Fault (List Item)
| [] => .ok []
| token :: rest =>
    match step format nest rest token with
    | .error fault => .error fault
    | .ok outcome =>
        match layout format outcome.nest
            (rest.drop outcome.taken) with
        | .error fault => .error fault
        | .ok items => .ok (outcome.items ++ items)
termination_by tokens => tokens.length
decreasing_by
  simp only [List.length_drop, List.length_cons]
  omega

/- The text of some items, without blanks around it. -/
def pageText
    (items : List Item) :
    Text :=
  let page : Text := items.flatMap Item.text
  page.trim isBlank

/- The layout of some tokens. -/
def render
    (format : StyleFormatter)
    (tokens : List Token) :
    Except Fault Text :=
  (layout format {} tokens).map pageText

/- The layout of a document. -/
def prettify
    (format : StyleFormatter)
    (document : Text) :
    Except Fault Text :=
  render format (Token.scan (document.trim isSpace))

end Markup

end WebTidy

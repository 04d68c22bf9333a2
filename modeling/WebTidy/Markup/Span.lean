import WebTidy.Error
import WebTidy.Markup.Nest
import WebTidy.Markup.Token

/-
  Blocks on one line.

  A block that holds nothing but text and inline elements
  is set on one line.  Its end is sought with a count of the
  inline elements that are still open; end tags out of order
  are counted like any others.  An auto-closing block also
  ends before a start tag of its own name and before the
  end tag of an element around it.

  Key definitions include:
    * `WebTidy.Markup.Ending`
    * `WebTidy.Markup.Span`
    * `WebTidy.Markup.findSpan`
    * `WebTidy.Markup.Span.line`
-/

------------------------------------------------------------
-- Spans
------------------------------------------------------------

namespace WebTidy

namespace Markup

/- A block ends at its own end tag or before another. -/
inductive Ending
| written (tag : Text)
| implied
deriving DecidableEq, Repr

/- The content of a block and the way it ends. -/
structure Span where
  between : List Token
  ending : Ending
deriving DecidableEq, Repr

namespace Span

/- A token in front of the content. -/
def cons
    (token : Token)
    (span : Span) :
    Span :=
  { span with between := token :: span.between }

/- The number of tokens of the block after its start tag. -/
def taken
    (span : Span) :
    Nat :=
  match span.ending with
  | .written _ => span.between.length + 1
  | .implied => span.between.length

/-
  The number of tokens from the start tag to the tag that
  ends the block, both counted.
-/
def size
    (span : Span) :
    Nat :=
  span.between.length + 2

end Span

end Markup

end WebTidy

------------------------------------------------------------
-- Finding The End
------------------------------------------------------------

namespace WebTidy

namespace Markup

/- A tag that ends an auto-closing block before it. -/
def impliesEnd
    (name : Text)
    (opened : List Text)
    (head : Tag.Head) :
    Bool :=
  if head.isEnd then isOpen opened head.name.lower
  else Text.sameLetters head.name name

/- The change in the number of open inline elements. -/
def balanceOf
    (head : Tag.Head) :
    Int :=
  if head.isEnd then -1
  else if head.selfClosing then 0
  else 1

/-
  Find the end of a block in the tokens after its start
  tag.  There is none if anything but text and inline
  elements comes first.
-/
def findSpan
    (name : Text)
    (opened : List Text) :
    Int → List Token → Except Fault (Option Span)
| _, [] => .ok none
| balance, .text s :: rest => do
    let span ← findSpan name opened balance rest
    return span.map (.cons (.text s))
| balance, .tag s :: rest =>
    match Tag.head? (s.trim isBlank) with
    | none => .error .emptyTag
    | some head =>
        if balance = 0 ∧ head.isEnd ∧
            Text.sameLetters head.name name then
          .ok (some ⟨[], .written s⟩)
        else if balance = 0 ∧ isAutoClosing name ∧
            impliesEnd name opened head then
          .ok (some ⟨[], .implied⟩)
        else if isInline head.name then do
          let span ←
            findSpan name opened
              (balance + balanceOf head) rest
          return span.map (.cons (.tag s))
        else .ok none
| _, _ :: _ => .ok none

end Markup

end WebTidy

------------------------------------------------------------
-- Lines
------------------------------------------------------------

namespace WebTidy

namespace Markup

/- A tag as it is written in the layout. -/
def tagText
    (source : Text) :
    Text :=
  Tag.normalize (source.trim isBlank)

/- A token inside a line. -/
def inlineText :
    Token → Text
| .text s => (CharRef.decode .text s).fold isBlank
| .tag s => tagText s
| _ => []

/- The end tag of a block on one line. -/
def Ending.text
    (name : Text) :
    Ending → Text
| .written tag => tagText tag
| .implied => endTag name.lower

/- A block on one line. -/
def Span.line
    (start name : Text)
    (span : Span) :
    Text :=
  let inner : Text := span.between.flatMap inlineText
  tagText start ++ inner.trim isBlank ++
    span.ending.text name

end Markup

end WebTidy

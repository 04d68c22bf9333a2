import WebTidy.Markup.Nest
import WebTidy.Markup.Tag

/-
  Comments and tags on lines of their own.

  Conditional markers indent what stands between them.  A
  document type declaration is never indented, and other
  declarations and tags without content leave the nesting
  as it is.

  Key definitions include:
    * `WebTidy.Markup.comment`
    * `WebTidy.Markup.endElement`
    * `WebTidy.Markup.startElement`
    * `WebTidy.Markup.element`
-/

------------------------------------------------------------
-- Comments
------------------------------------------------------------

namespace WebTidy

namespace Markup

/- A comment, or one of the conditional markers. -/
def comment
    (nest : Nest)
    (source : Text) :
    List Item × Nest :=
  let source : Text := source.trim isBlank
  if Text.beginsWith "<![endif".toList source then
    ([nest.dedent.line source], nest.dedent)
  else if Text.beginsWith "<![if".toList source then
    ([nest.line source], nest.enter)
  else ([nest.line source], nest)

end Markup

end WebTidy

------------------------------------------------------------
-- Elements
------------------------------------------------------------

namespace WebTidy

namespace Markup

/-
  An end tag.  If its element is open, the end tags omitted
  above it are supplied first.
-/
def endElement
    (nest : Nest)
    (name content : Text) :
    List Item × Nest :=
  let closed :=
    if isOpen nest.opened name then
      Nest.closeAbove name nest.indent nest.opened
    else ([], nest)
  let outer := closed.2.dedent.pop name
  (closed.1 ++ [outer.line content], outer)

/-
  A start tag.  An open sibling of its name is closed first
  if its end tag may be omitted.
-/
def startElement
    (nest : Nest)
    (name content : Text) :
    List Item × Nest :=
  let closed :=
    if isAutoClosing name ∧
        nest.opened.head? = some name then
      nest.closeTop
    else ([], nest)
  (closed.1 ++ [closed.2.line content],
    closed.2.push name)

/- A tag on a line of its own. -/
def element
    (nest : Nest)
    (tag : Text)
    (head : Tag.Head) :
    List Item × Nest :=
  let content := Tag.normalize tag
  let name := head.name.lower
  if Tag.isDoctype tag then ([.line 0 content], nest)
  else if Tag.isDeclaration tag ∨ name = [] then
    ([nest.line content], nest)
  else if head.isEnd then endElement nest name content
  else if head.selfClosing ∨ isVoid name then
    ([nest.line content], nest)
  else startElement nest name content

end Markup

end WebTidy

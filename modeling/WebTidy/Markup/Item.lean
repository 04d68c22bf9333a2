import WebTidy.Text.Basic

/-
  What the markup layout writes: indented lines, and notes
  on the decisions that are not visible in the document.

  Key definitions include:
    * `WebTidy.Markup.Item`
    * `WebTidy.Markup.Item.text`
    * `WebTidy.Markup.endTag`
-/

------------------------------------------------------------
-- Items
------------------------------------------------------------

namespace WebTidy

namespace Markup

/-
  One piece of output.  `supplied` notes an end tag that the
  document omits, and `joined` notes that an element was
  set on one line, with the number of its tokens.
-/
inductive Item
| line (depth : Nat) (content : Text)
| supplied (name : Text)
| joined (name : Text) (tokens : Nat)
deriving DecidableEq, Repr

/- The text of an item; notes are not part of it. -/
def Item.text :
    Item → Text
| .line depth content =>
    List.replicate depth '\t' ++ content ++ ['\n']
| .supplied _ => []
| .joined _ _ => []

/- The end tag of an element. -/
def endTag
    (name : Text) :
    Text :=
  "</".toList ++ name ++ ['>']

end Markup

end WebTidy

import WebTidy.Markup.Item
import WebTidy.Markup.Name

/-
  The nesting of a document while it is laid out.

  The indentation is a number of its own, because end tags
  without a start tag and conditional markers change it
  without opening or closing an element.

  Key definitions include:
    * `WebTidy.Markup.Nest`
    * `WebTidy.Markup.Nest.closeTop`
    * `WebTidy.Markup.Nest.closeAbove`
-/

------------------------------------------------------------
-- Open Elements
------------------------------------------------------------

namespace WebTidy

namespace Markup

/-
  The indentation of the next line and the lowercase names
  of the open elements, innermost first.
-/
structure Nest where
  indent : Nat := 0
  opened : List Text := []
deriving DecidableEq, Repr

/- A name is among those of the open elements. -/
def isOpen
    (opened : List Text)
    (name : Text) :
    Bool :=
  name ∈ opened

namespace Nest

/- A line at the current indentation. -/
def line
    (nest : Nest)
    (content : Text) :
    Item :=
  .line nest.indent content

/- One level out; the outermost level is zero. -/
def dedent
    (nest : Nest) :
    Nest :=
  { nest with indent := nest.indent - 1 }

/- One level in. -/
def enter
    (nest : Nest) :
    Nest :=
  { nest with indent := nest.indent + 1 }

/- Open an element: one level in, under its name. -/
def push
    (nest : Nest)
    (name : Text) :
    Nest :=
  { indent := nest.indent + 1
    opened := name :: nest.opened }

/- Forget the innermost element if it has this name. -/
def pop
    (nest : Nest)
    (name : Text) :
    Nest :=
  if nest.opened.head? = some name then
    { nest with opened := nest.opened.tail }
  else nest

/- Supply the end tag of the innermost element. -/
def closeTop
    (nest : Nest) :
    List Item × Nest :=
  match nest.opened with
  | [] => ([], nest)
  | name :: rest =>
      let outer :=
        { nest.dedent with opened := rest }
      ([.supplied name, outer.line (endTag name)], outer)

/-
  Supply the omitted end tags of the auto-closing elements
  above the innermost element of a name.
-/
def closeAbove
    (name : Text)
    (indent : Nat) :
    List Text → List Item × Nest
| [] => ([], { indent := indent })
| top :: rest =>
    if top ≠ name ∧ isAutoClosing top then
      let closed :=
        closeTop { indent := indent, opened := top :: rest }
      let above := closeAbove name (indent - 1) rest
      (closed.1 ++ above.1, above.2)
    else ([], { indent := indent, opened := top :: rest })

end Nest

end Markup

end WebTidy

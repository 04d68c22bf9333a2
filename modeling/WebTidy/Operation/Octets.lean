import WebTidy.Markup.Indexed.Layout
import WebTidy.Operation
import WebTidy.Stylesheet.Cursor

/-
  The four operations on the octets of documents.

  Style sheets and documents are laid out with an index into
  their octets, whose every look-up is checked, and what is
  written has to be a text again.  The compact forms are
  made from the characters of a document and never cut one.

  Key definitions include:
    * `WebTidy.Stylesheet.prettifyOctets`
    * `WebTidy.Operation.guardedOctets`
    * `WebTidy.Operation.applyOctets`
-/

------------------------------------------------------------
-- Style Sheets
------------------------------------------------------------

namespace WebTidy

namespace Stylesheet

/- Lay out a style sheet octet by octet. -/
def prettifyOctets
    (sheet : Text) :
    Except Octet.Fault Text := do
  let written ← Cursor.prettify (Octet.toUtf8 sheet)
  match Octet.ofUtf8? written with
  | some out => return out
  | none => .error (.failed .invalidCss)

end Stylesheet

end WebTidy

------------------------------------------------------------
-- Application
------------------------------------------------------------

namespace WebTidy

namespace Operation

/-
  Whatever was reported, the user sees one failure.  A look
  outside the octets and a bad cut are never reported.
-/
def guardedOctets
    (failure : FormatError)
    (outcome : Except Octet.Fault Text) :
    Except Octet.Fault Text :=
  outcome.mapError fun
    | .failed _ => .failed failure
    | fault => fault

/- Apply an operation to a document octet by octet. -/
def applyOctets
    (op : Operation)
    (document : Text) :
    Except Octet.Fault Text :=
  match op with
  | .cssPrettify =>
      guardedOctets .invalidCss
        (Stylesheet.prettifyOctets document)
  | .cssMinify => .ok (Stylesheet.minify document)
  | .htmlPrettify =>
      guardedOctets .invalidHtml
        (Markup.Indexed.prettify Stylesheet.prettifyOctets
          document)
  | .htmlMinify => .ok (Markup.minify document)

end Operation

end WebTidy

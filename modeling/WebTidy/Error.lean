/-
  Why a document could not be formatted.

  Key definitions include:
    * `WebTidy.FormatError`
    * `WebTidy.Fault`
    * `WebTidy.Octet.Fault`
-/

------------------------------------------------------------
-- Errors
------------------------------------------------------------

namespace WebTidy

/- The failures that a user sees. -/
inductive FormatError
| invalidCss
| invalidHtml
deriving DecidableEq, Repr

/- The message shown for a failure. -/
def FormatError.message :
    FormatError → String
| .invalidCss => "Invalid CSS selected."
| .invalidHtml => "Invalid HTML selected."

/-
  The failures of the markup layout.  A style sheet may be
  rejected by its formatter; a tag or a verbatim element
  without any character has no head to read.
-/
inductive Fault
| style (error : FormatError)
| emptyTag
deriving DecidableEq, Repr

end WebTidy

------------------------------------------------------------
-- Errors Below Texts
------------------------------------------------------------

namespace WebTidy

namespace Octet

/-
  The failures of a layout that works on the octets of a
  document.  Besides what is reported, an index or a part
  may lie outside, and a part may begin or end inside a
  character.
-/
inductive Fault
| failed (error : FormatError)
| outside
| cut
deriving DecidableEq, Repr

/-
  A failure of the layout of texts.  The name of a tag
  without any character is sought outside of it.
-/
def Fault.ofFault :
    WebTidy.Fault → Fault
| .style error => .failed error
| .emptyTag => .outside

end Octet

end WebTidy

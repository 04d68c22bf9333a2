import WebTidy.Error
import WebTidy.Markup.Compact
import WebTidy.Markup.Layout
import WebTidy.Stylesheet.Compact
import WebTidy.Stylesheet.Layout

/-
  The four operations, chosen by name.

  A name is read with the case of ASCII letters ignored and
  without the spaces around it.  Whatever goes wrong inside
  an operation, its user sees one error for its language.

  Key definitions include:
    * `WebTidy.Operation`
    * `WebTidy.Operation.ofName`
    * `WebTidy.Operation.guarded`
    * `WebTidy.Operation.apply`
    * `WebTidy.Operation.chain`
-/

------------------------------------------------------------
-- Operations
------------------------------------------------------------

namespace WebTidy

/- What can be done to a document. -/
inductive Operation
| cssPrettify
| cssMinify
| htmlPrettify
| htmlMinify
deriving DecidableEq, Repr

namespace Operation

/- All operations. -/
def all :
    List Operation :=
  [.cssPrettify, .cssMinify, .htmlPrettify, .htmlMinify]

/- The name of an operation on the command line. -/
def name :
    Operation → String
| .cssPrettify => "css-prettify"
| .cssMinify => "css-minify"
| .htmlPrettify => "html-prettify"
| .htmlMinify => "html-minify"

/- The status shown after an operation has succeeded. -/
def successMessage :
    Operation → String
| .cssPrettify => "CSS Prettified."
| .cssMinify => "CSS Minified."
| .htmlPrettify => "HTML Prettified."
| .htmlMinify => "HTML Minified."

end Operation

end WebTidy

------------------------------------------------------------
-- Names
------------------------------------------------------------

namespace WebTidy

/- No operation has the given name. -/
structure UnknownOperation where
  name : String
deriving DecidableEq, Repr

/- The message shown for an unknown name. -/
def UnknownOperation.message
    (unknown : UnknownOperation) :
    String :=
  "unknown operation '" ++ unknown.name ++
    "' (expected css-prettify, css-minify, " ++
    "html-prettify or html-minify)"

namespace Operation

/- The operation of a name. -/
def ofName
    (name : String) :
    Except UnknownOperation Operation :=
  let wanted := Text.trim isSpace name.toList
  match all.find? fun op =>
      Text.sameLetters op.name.toList wanted with
  | some op => .ok op
  | none => .error ⟨name⟩

/- Every operation is found by its own name. -/
theorem ofName_name
    (op : Operation) :
    ofName op.name = .ok op := by
  cases op <;> rfl

end Operation

end WebTidy

------------------------------------------------------------
-- Application
------------------------------------------------------------

namespace WebTidy

namespace Operation

/- The style sheet layout, which never fails. -/
def formatStyle :
    Markup.StyleFormatter :=
  fun sheet => .ok (Stylesheet.prettify sheet)

/- Whatever went wrong, the user sees one failure. -/
def guarded
    (failure : FormatError)
    (outcome : Except Fault Text) :
    Except FormatError Text :=
  outcome.mapError fun _ => failure

/- Apply an operation to a document. -/
def apply
    (op : Operation)
    (document : Text) :
    Except FormatError Text :=
  match op with
  | .cssPrettify => .ok (Stylesheet.prettify document)
  | .cssMinify => .ok (Stylesheet.minify document)
  | .htmlPrettify =>
      guarded .invalidHtml
        (Markup.prettify formatStyle document)
  | .htmlMinify => .ok (Markup.minify document)

end Operation

end WebTidy

------------------------------------------------------------
-- Chains
------------------------------------------------------------

namespace WebTidy

/- Why a chain of operations stopped. -/
inductive ChainError
| unknown (error : UnknownOperation)
| format (error : FormatError)
deriving DecidableEq, Repr

namespace Operation

/- Apply the operation of a name. -/
def applyNamed
    (name : String)
    (document : Text) :
    Except ChainError Text :=
  match ofName name with
  | .error error => .error (.unknown error)
  | .ok op => (op.apply document).mapError .format

/-
  Apply operations one after the other, each to the result
  of the one before it.  All results are kept, and the first
  error is the last of them.
-/
def chain :
    List String → Text → List (Except ChainError Text)
| [], _ => []
| name :: rest, document =>
    match applyNamed name document with
    | .error error => [.error error]
    | .ok result => .ok result :: chain rest result

end Operation

end WebTidy

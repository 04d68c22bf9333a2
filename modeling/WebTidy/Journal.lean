import WebTidy.Operation
import WebTidy.Text.Quoted

/-
  The log of an operation.

  An operation logs the size of its input and of its output
  in octets.  The layout of markup logs all tokens first,
  because a document is split before it is laid out, and
  then the end tags it supplies and the blocks it sets on
  one line.

  Key definitions include:
    * `WebTidy.Journal.Record`
    * `WebTidy.Operation.journal`
-/

------------------------------------------------------------
-- Records
------------------------------------------------------------

namespace WebTidy

namespace Journal

/- How important a record is. -/
inductive Level
| trace
| debug
| warn
deriving DecidableEq, Repr

/- The name of a level. -/
def Level.name :
    Level → String
| .trace => "TRACE"
| .debug => "DEBUG"
| .warn => "WARN"

/- One record of the log. -/
structure Record where
  level : Level
  target : String
  message : Text
deriving DecidableEq, Repr

end Journal

end WebTidy

------------------------------------------------------------
-- Markup Records
------------------------------------------------------------

namespace WebTidy

namespace Journal

/- A record of the markup layout. -/
def markupRecord
    (message : Text) :
    Record :=
  { level := .trace
    target := "prettymin::html"
    message := message }

/- The kind of a token. -/
def kindName :
    Markup.Token → String
| .tag _ => "Tag"
| .text _ => "Text"
| .verbatim _ => "Verbatim"
| .comment _ => "Comment"

/- The record of a token. -/
def tokenRecord
    (token : Markup.Token) :
    Record :=
  markupRecord
    ("token ".toList ++ (kindName token).toList ++
      ['('] ++ token.source.quoted ++ [')'])

/- The record of a note; lines are not logged. -/
def itemRecord? :
    Markup.Item → Option Record
| .line _ _ => none
| .supplied name =>
    some (markupRecord
      ("auto-close ".toList ++ Markup.endTag name))
| .joined name tokens =>
    some (markupRecord
      ("collapsed <".toList ++ name ++ "> over ".toList ++
        Nat.toDigits 10 tokens ++ " tokens".toList))

/- The records of the layout of a document. -/
def markupRecords
    (document : Text) :
    List Record :=
  let tokens :=
    Markup.Token.scan (document.trim isSpace)
  let notes :=
    match Markup.layout Operation.formatStyle {} tokens with
    | .ok items => items.filterMap itemRecord?
    | .error _ => []
  tokens.map tokenRecord ++ notes

end Journal

end WebTidy

------------------------------------------------------------
-- Operation Records
------------------------------------------------------------

namespace WebTidy

namespace Journal

/- A record about an operation as a whole. -/
def operationRecord
    (level : Level)
    (op : Operation)
    (message : Text) :
    Record :=
  { level := level
    target := "prettymin"
    message := op.name.toList ++ message }

/- The record of the size of a document. -/
def sizeRecord
    (op : Operation)
    (document : Text)
    (direction : String) :
    Record :=
  operationRecord .debug op
    (": ".toList ++ Nat.toDigits 10 document.utf8Size ++
      " bytes ".toList ++ direction.toList)

/- The name of an error in the log. -/
def errorName :
    FormatError → String
| .invalidCss => "InvalidCss"
| .invalidHtml => "InvalidHtml"

end Journal

/- The log of the application of an operation. -/
def Operation.journal
    (op : Operation)
    (document : Text) :
    List Journal.Record :=
  let details :=
    if op = .htmlPrettify then
      Journal.markupRecords document
    else []
  let outcome :=
    match op.apply document with
    | .ok result => Journal.sizeRecord op result "out"
    | .error error =>
        Journal.operationRecord .warn op
          (" failed: ".toList ++
            (Journal.errorName error).toList)
  Journal.sizeRecord op document "in" ::
    details ++ [outcome]

end WebTidy

import WebTidy.Stylesheet.Value

/-
  Layout of style sheets: one declaration per line, blocks
  indented by tabs, and a line feed at the end.

  A colon ends the property name of a declaration or stands
  inside a selector.  It belongs to a selector when the next
  of the characters open brace, semicolon and close brace is
  an open brace.

  Key definitions include:
    * `WebTidy.Stylesheet.Scanner.step`
    * `WebTidy.Stylesheet.Scanner.run`
    * `WebTidy.Stylesheet.Scanner.result`
    * `WebTidy.Stylesheet.prettify`
-/

------------------------------------------------------------
-- Blocks And Declarations
------------------------------------------------------------

namespace WebTidy

namespace Stylesheet

/- The next structural character opens a block. -/
def selectorAhead
    (rest : Text) :
    Bool :=
  rest.find? (fun c => c = '{' ∨ c = ';' ∨ c = '}') =
    some '{'

namespace Scanner

/- Write a semicolon unless one was just written. -/
def terminate
    (s : Scanner) :
    Scanner :=
  if s.last? = some ';' then s else s.write [';']

/- Follow the parentheses of at-rules. -/
def trackGroup
    (s : Scanner)
    (c : Char) :
    Scanner :=
  if c = '(' ∧ !s.inBlock ∧ !s.inValue then
    { s with inGroup := true }
  else if c = ')' then { s with inGroup := false }
  else s

/- A comment starts on a line of its own. -/
def openComment
    (s : Scanner) :
    Scanner :=
  let s := s.trimmed
  let s :=
    if s.last? = none then s
    else s.write ('\n' :: s.tabs)
  { s.write ['/'] with context := .opening }

/- A block starts after its selector, on the same line. -/
def openBlock
    (s : Scanner) :
    Scanner :=
  { s.trimmed.write [' ', '{', '\n'] with
    depth := s.depth + 1
    inBlock := true
    inValue := false
    inGroup := false
    parens := none
    skipping := true }

/-
  A block ends on a line of its own, after the semicolon of
  its last declaration.
-/
def closeBlock
    (s : Scanner)
    (rest : Text) :
    Scanner :=
  let s := s.trimmed
  let s :=
    if s.inValue ∧ s.last? ≠ none then s.terminate else s
  let s :=
    { s with
      depth := s.depth - 1
      inBlock := false
      inValue := false
      parens := none
      skipping := true }
  let s := s.write ('\n' :: s.tabs ++ ['}'])
  if rest.all isBlank then s else s.write ['\n']

/- A semicolon ends a declaration and its line. -/
def endDeclaration
    (s : Scanner) :
    Scanner :=
  { s.trimmed.terminate.write ['\n'] with
    inValue := false
    parens := none
    skipping := true }

/- A comma is followed by one space. -/
def readComma
    (s : Scanner) :
    Scanner :=
  { s.trimmed.write [',', ' '] with skipping := true }

/- A colon outside property values. -/
def readColon
    (s : Scanner)
    (rest : Text) :
    Scanner :=
  let s := { s.trimmed with skipping := true }
  if s.inGroup ∨ selectorAhead rest then s.write [':']
  else { s.write [':', ' '] with inValue := true }

end Scanner

end Stylesheet

end WebTidy

------------------------------------------------------------
-- Steps
------------------------------------------------------------

namespace WebTidy

namespace Stylesheet

namespace Scanner

/- Read a character that is no structural character. -/
def readPlain
    (s : Scanner)
    (c : Char)
    (rest : Text) :
    Scanner :=
  if s.inValue then s.readValue c rest
  else if isBlank c ∧ s.atLineStart then s
  else s.put c

/- Read a character of code. -/
def readCode
    (s : Scanner)
    (c : Char)
    (rest : Text) :
    Scanner :=
  let s := { s.trackGroup c with skipping := false }
  if c = '/' ∧ rest.head? = some '*' then s.openComment
  else if c = '"' ∨ c = '\'' then
    { s.put c with context := .quoted c false }
  else if c = '{' then s.openBlock
  else if c = '}' then s.closeBlock rest
  else if c = ';' then s.endDeclaration
  else if c = ',' then s.readComma
  else if c = ':' ∧ !s.inValue then s.readColon rest
  else s.readPlain c rest

/- The context after a character of a quoted string. -/
def afterQuoted
    (mark : Char)
    (escaped : Bool)
    (c : Char) :
    Context :=
  if escaped then .quoted mark false
  else if c = '\\' then .quoted mark true
  else if c = mark then .code
  else .quoted mark false

/- Read a character in the current context. -/
def read
    (s : Scanner)
    (c : Char)
    (rest : Text) :
    Scanner :=
  match s.context with
  | .code =>
      if s.skipping ∧ isBlank c then s
      else s.readCode c rest
  | .opening =>
      { s.write [c] with context := .comment false }
  | .comment star =>
      { s.write [c] with
        context :=
          if star ∧ c = '/' then .code
          else .comment (c = '*') }
  | .quoted mark escaped =>
      { s.write [c] with
        context := afterQuoted mark escaped c }
  | .dash => { s.write [c] with context := .code }

/- Read a character and remember it. -/
def step
    (s : Scanner)
    (c : Char)
    (rest : Text) :
    Scanner :=
  { s.read c rest with before := some c }

/- Read a whole text. -/
def run :
    Scanner → Text → Scanner
| s, [] => s
| s, c :: rest => run (s.step c rest) rest

end Scanner

end Stylesheet

end WebTidy

------------------------------------------------------------
-- Style Sheets
------------------------------------------------------------

namespace WebTidy

namespace Stylesheet

/-
  The text that a scanner has written at the end of its
  input.  A declaration that is still open is terminated.
-/
def Scanner.result
    (s : Scanner) :
    Text :=
  let s := s.trimmed
  let s :=
    if s.context = .code ∧ s.inValue then s.terminate
    else s
  s.written.reverse.dropWhile isBlank ++ ['\n']

/- Lay out a style sheet. -/
def prettify
    (sheet : Text) :
    Text :=
  (Scanner.run {} sheet).result

/- The empty style sheet becomes one empty line. -/
theorem prettify_nil :
    prettify [] = ['\n'] := by
  rfl

end Stylesheet

end WebTidy

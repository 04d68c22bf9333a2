import WebTidy.Text.Blank

/-
  The state of the style sheet scanner.

  The scanner reads a style sheet one character at a time
  and never builds a tree.  Exactly one lexical context
  applies to a character: code, a comment or a quoted
  string.  The structural flags combine freely.  What is
  written so far is kept with the newest character first,
  so the end of the output is at hand for trimming.

  Key definitions include:
    * `WebTidy.Stylesheet.Context`
    * `WebTidy.Stylesheet.Scanner`
    * `WebTidy.Stylesheet.Scanner.write`
    * `WebTidy.Stylesheet.Scanner.trimmed`
    * `WebTidy.Stylesheet.Scanner.put`
-/

------------------------------------------------------------
-- States
------------------------------------------------------------

namespace WebTidy

namespace Stylesheet

/-
  The lexical context of the next character.

  `opening` and `dash` stand between two characters that
  are read as one: the marks that open a comment, and the
  dashes that begin a custom name.  `comment` remembers
  whether an asterisk was just read, and `quoted` whether
  a backslash protects the next character.
-/
inductive Context
| code
| opening
| comment (star : Bool)
| quoted (mark : Char) (escaped : Bool)
| dash
deriving DecidableEq, Repr

/-
  A scanner between two characters.

  `before` is the last character read.  `skipping` holds
  after a structural character, whose following blanks are
  dropped.  `inGroup` holds inside the parentheses of an
  at-rule, and `parens` counts the open parentheses of a
  calc expression.
-/
structure Scanner where
  written : Text := []
  before : Option Char := none
  context : Context := .code
  skipping : Bool := false
  depth : Nat := 0
  inBlock : Bool := false
  inValue : Bool := false
  inGroup : Bool := false
  parens : Option Nat := none
deriving DecidableEq, Repr

end Stylesheet

end WebTidy

------------------------------------------------------------
-- Writing
------------------------------------------------------------

namespace WebTidy

namespace Stylesheet

namespace Scanner

/- The last character written. -/
def last?
    (s : Scanner) :
    Option Char :=
  s.written.head?

/- The next character starts a line. -/
def atLineStart
    (s : Scanner) :
    Bool :=
  s.last? = none ∨ s.last? = some '\n'

/- Write a text as it is. -/
def write
    (s : Scanner)
    (t : Text) :
    Scanner :=
  { s with written := t.reverse ++ s.written }

/- Take back the blanks written last. -/
def trimmed
    (s : Scanner) :
    Scanner :=
  { s with written := s.written.dropWhile isBlank }

/- The indentation of the current depth. -/
def tabs
    (s : Scanner) :
    Text :=
  List.replicate s.depth '\t'

/- Write a character, indented after a line feed. -/
def put
    (s : Scanner)
    (c : Char) :
    Scanner :=
  if s.last? = some '\n' then s.write (s.tabs ++ [c])
  else s.write [c]

/- Writing in two steps is writing both at once. -/
@[simp] theorem write_write
    (s : Scanner)
    (t u : Text) :
    (s.write t).write u = s.write (t ++ u) := by
  simp [write]

/- Trimming leaves no blank at the end. -/
theorem isBlank_last_trimmed
    (s : Scanner)
    (c : Char)
    (h : s.trimmed.last? = some c) :
    isBlank c = false := by
  have hHead := List.head?_dropWhile_not isBlank s.written
  simp only [last?, trimmed] at h
  rw [h] at hHead
  simpa using hHead

end Scanner

end Stylesheet

end WebTidy

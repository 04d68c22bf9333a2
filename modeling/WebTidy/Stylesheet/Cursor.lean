import WebTidy.Stylesheet.Layout
import WebTidy.Text.Slice

/-
  Layout of style sheets by an index into their octets.

  The index moves over the octets of a style sheet, and what
  stands behind it is looked up as it is needed: an octet,
  or the part up to the end of a comment.  Every look-up is
  checked.  What is written is kept in the state of the
  scanner, and the blanks that it would skip one by one are
  passed over at once.

  Key definitions include:
    * `WebTidy.Stylesheet.Cursor.Stop`
    * `WebTidy.Stylesheet.Cursor.readCode`
    * `WebTidy.Stylesheet.Cursor.step`
    * `WebTidy.Stylesheet.Cursor.run`
    * `WebTidy.Stylesheet.Cursor.prettify`
-/

------------------------------------------------------------
-- Stops
------------------------------------------------------------

namespace WebTidy

namespace Stylesheet

namespace Cursor

/- What stands at the index: code, a comment or a string. -/
inductive Lexical
| code
| comment
| quoted (mark : Char)
deriving DecidableEq, Repr

/-
  Where a step from an index has stopped, and what is
  written there.  The index has moved on.
-/
structure Stop (start : Nat) where
  index : Nat
  lexical : Lexical
  page : Scanner
  later : start < index

/- Pass over the blanks from an index on. -/
def passBlanks
    (src : Text)
    {start : Nat}
    (stop : Stop start) :
    Except Octet.Fault (Stop start) := do
  let next ← Octet.skipWhile isBlank src stop.index
  return {
    index := next
    lexical := stop.lexical
    page := stop.page
    later := Nat.lt_of_lt_of_le stop.later next.property }

end Cursor

end Stylesheet

end WebTidy

------------------------------------------------------------
-- Values
------------------------------------------------------------

namespace WebTidy

namespace Stylesheet

namespace Cursor

open Octet (itemAt sliceFrom sliceTo)

/- A calc expression begins, which no other one holds. -/
def beginsCalc
    (src : Text)
    (i : Nat)
    (page : Scanner) :
    Except Octet.Fault Bool :=
  if page.parens = none then do
    Octet.beginsWith "calc(".toList (← sliceFrom src i)
  else return false

/- Follow the parentheses of a calc expression. -/
def trackCalc
    (src : Text)
    (i : Nat)
    (page : Scanner)
    (c : Char) :
    Except Octet.Fault Scanner := do
  let begins ← beginsCalc src i page
  let parens := if begins then some 0 else page.parens
  return { page with
    parens :=
      if c = '(' then parens.map (· + 1)
      else if c = ')' then
        (parens.map (· - 1)).filter (0 < ·)
      else parens }

/- The octet in front of an index, if there is one. -/
def before?
    (src : Text)
    (i : Nat) :
    Except Octet.Fault (Option Char) :=
  match i with
  | 0 => return none
  | k + 1 => do return some (← itemAt src k)

/- A minus between two parts of a name is a hyphen. -/
def isHyphen
    (src : Text)
    (i : Nat)
    (c : Char) :
    Except Octet.Fault Bool :=
  if c = '-' then do
    let before ← before? src i
    return before.any isIdentChar &&
      src[i + 1]?.any isIdentStart
  else return false

/- Read an operator character inside a calc expression. -/
def readOperator
    (src : Text)
    (i : Nat)
    (page : Scanner)
    (c : Char) :
    Except Octet.Fault (Stop i) :=
  if c = '-' ∧ src[i + 1]? = some '-' then
    return {
      index := i + 2
      lexical := .code
      page := page.write ['-', '-']
      later := by omega }
  else do
    let hyphen ← isHyphen src i c
    if page.isSign c ∨ hyphen then
      return {
        index := i + 1
        lexical := .code
        page := page.put c
        later := by omega }
    else
      passBlanks src {
        index := i + 1
        lexical := .code
        page := page.trimmed.write [' ', c, ' ']
        later := by omega }

/- Read a character of a property value. -/
def readValue
    (src : Text)
    (i : Nat)
    (page : Scanner)
    (c : Char) :
    Except Octet.Fault (Stop i) := do
  let page ← trackCalc src i page c
  if page.parens.isSome ∧ isOperator c then
    readOperator src i page c
  else
    return {
      index := i + 1
      lexical := .code
      page :=
        if isBlank c then
          if page.takesSpace then page.write [' '] else page
        else if c = ')' then page.trimmed.put c
        else page.put c
      later := by omega }

end Cursor

end Stylesheet

end WebTidy

------------------------------------------------------------
-- Code
------------------------------------------------------------

namespace WebTidy

namespace Stylesheet

namespace Cursor

open Octet (itemAt sliceFrom sliceTo)

/-
  The next structural character from an index on opens a
  block.  There may be nothing from the index on.
-/
def selectorAhead
    (src : Text)
    (i : Nat) :
    Except Octet.Fault Bool :=
  let rest := src.drop i
  match rest.findIdx? fun c =>
      c = '{' ∨ c = ';' ∨ c = '}' with
  | some p => do return (← itemAt rest p) = '{'
  | none => return false

/- The marks that open a comment. -/
def openComment
    (i : Nat)
    (page : Scanner) :
    Stop i where
  index := i + 2
  lexical := .comment
  page := page.openComment.write ['*']
  later := by omega

/-
  The end of a block, as at the end of the style sheet; a
  line feed follows if there is more.
-/
def closeBlock
    (src : Text)
    (i : Nat)
    (page : Scanner) :
    Except Octet.Fault (Stop i) := do
  let stop ←
    passBlanks src {
      index := i + 1
      lexical := .code
      page := page.closeBlock []
      later := by omega }
  if stop.index < src.length then
    return { stop with page := stop.page.write ['\n'] }
  else return stop

/- A colon at an index ends no property name. -/
def isSelectorColon
    (src : Text)
    (i : Nat)
    (page : Scanner) :
    Except Octet.Fault Bool :=
  if page.inGroup then return true
  else selectorAhead src (i + 1)

/- A colon outside property values. -/
def readColon
    (src : Text)
    (i : Nat)
    (page : Scanner) :
    Except Octet.Fault (Stop i) := do
  let selector ← isSelectorColon src i page
  passBlanks src {
    index := i + 1
    lexical := .code
    page :=
      if selector then page.trimmed.write [':']
      else
        { page.trimmed.write [':', ' '] with inValue := true }
    later := by omega }

/- Read a character that is no structural character. -/
def readPlain
    (src : Text)
    (i : Nat)
    (page : Scanner)
    (c : Char) :
    Except Octet.Fault (Stop i) :=
  if page.inValue then readValue src i page c
  else
    return {
      index := i + 1
      lexical := .code
      page :=
        if isBlank c ∧ page.atLineStart then page
        else page.put c
      later := by omega }

/- Read a character of code. -/
def readCode
    (src : Text)
    (i : Nat)
    (page : Scanner) :
    Except Octet.Fault (Stop i) := do
  let c ← itemAt src i
  let page := page.trackGroup c
  let behind (page : Scanner) : Stop i :=
    { index := i + 1
      lexical := .code
      page := page
      later := by omega }
  if c = '/' ∧ src[i + 1]? = some '*' then
    return openComment i page
  else if c = '"' ∨ c = '\'' then
    return { behind (page.put c) with lexical := .quoted c }
  else if c = '{' then
    passBlanks src (behind page.openBlock)
  else if c = '}' then closeBlock src i page
  else if c = ';' then
    passBlanks src (behind page.endDeclaration)
  else if c = ',' then
    passBlanks src (behind page.readComma)
  else if c = ':' ∧ !page.inValue then readColon src i page
  else readPlain src i page c

end Cursor

end Stylesheet

end WebTidy

------------------------------------------------------------
-- Comments And Strings
------------------------------------------------------------

namespace WebTidy

namespace Stylesheet

namespace Cursor

open Octet (itemAt sliceFrom sliceTo)

/- Copy a comment through its end. -/
def readComment
    (src : Text)
    (i : Nat)
    (hInside : i < src.length)
    (page : Scanner) :
    Except Octet.Fault (Stop i) := do
  let rest ← sliceFrom src i
  match Text.indexOf? "*/".toList rest with
  | some p =>
      return {
        index := i + p + 2
        lexical := .code
        page := page.write (← sliceTo rest (p + 2))
        later := by omega }
  | none =>
      return {
        index := src.length
        lexical := .comment
        page := page.write rest
        later := hInside }

/- Behind one octet of a string its start is passed. -/
theorem start_lt
    {start i size : Nat}
    (hStart : start < i ∨ start = i ∧ i < size)
    (more : Nat) :
    start < i + more + 1 := by
  omega

/-
  Copy a string through its closing mark.  The octet behind
  a backslash is copied with it.
-/
def readQuoted
    (src : Text)
    (mark : Char)
    {start : Nat}
    (i : Nat)
    (hStart : start < i ∨ start = i ∧ i < src.length)
    (page : Scanner) :
    Except Octet.Fault (Stop start) :=
  if hInside : i < src.length then do
    let c ← itemAt src i
    let page := page.write [c]
    if c = '\\' then
      match src[i + 1]? with
      | some escaped =>
          readQuoted src mark (i + 2)
            (.inl (start_lt hStart 1))
            (page.write [escaped])
      | none =>
          readQuoted src mark (i + 1)
            (.inl (start_lt hStart 0)) page
    else if c = mark then
      return {
        index := i + 1
        lexical := .code
        page := page
        later := start_lt hStart 0 }
    else
      readQuoted src mark (i + 1) (.inl (start_lt hStart 0))
        page
  else
    return {
      index := i
      lexical := .quoted mark
      page := page
      later :=
        hStart.resolve_right fun here => hInside here.2 }
termination_by src.length - i

end Cursor

end Stylesheet

end WebTidy

------------------------------------------------------------
-- Style Sheets
------------------------------------------------------------

namespace WebTidy

namespace Stylesheet

namespace Cursor

/- Read on in the current context. -/
def step
    (src : Text)
    (i : Nat)
    (hInside : i < src.length)
    (page : Scanner) :
    Lexical → Except Octet.Fault (Stop i)
| .code => readCode src i page
| .comment => readComment src i hInside page
| .quoted mark =>
    readQuoted src mark i (Or.inr ⟨rfl, hInside⟩) page

/- The text that is written at the end of the octets. -/
def finish
    (lexical : Lexical)
    (page : Scanner) :
    Except Octet.Fault Text := do
  let page := page.trimmed
  let page :=
    if lexical = .code ∧ page.inValue then page.terminate
    else page
  let out := page.written.reverse
  let lead := (out.takeWhile isBlank).length
  return (← Octet.sliceFrom out lead) ++ ['\n']

/- Read from an index to the end and write the text. -/
def run
    (src : Text)
    (i : Nat)
    (lexical : Lexical)
    (page : Scanner) :
    Except Octet.Fault Text :=
  if hInside : i < src.length then do
    let stop ← step src i hInside page lexical
    run src stop.index stop.lexical stop.page
  else finish lexical page
termination_by src.length - i
decreasing_by
  have hLater := stop.later
  omega

/- Lay out the octets of a style sheet. -/
def prettify
    (src : Text) :
    Except Octet.Fault Text :=
  run src 0 .code {}

end Cursor

end Stylesheet

end WebTidy
